import MicroJava.Analysis.Statements

/-!
# Checking declarations

A class starts with the members of the class it extends: lookups in its body see
them, its fields follow theirs, and each inherited method waits to be overridden.
The first word of an object is its dispatch table, so fields count from one.  The
body of a method is checked even if its declaration is rejected.
-/

namespace MicroJava
namespace Check

/-! ## Constants and variables -/

/-- Declare a constant; its address is its value. -/
def checkConst (type : TypeId) (item : ConstItem) : Check Unit := do
  let table ← table
  requireFit (type = .none || item.value.type = type)
    ("constant '" ++ item.name.name ++ "' of type " ++ table.typeText type ++
      " initialized with a " ++ table.typeText item.value.type ++ " literal") item.span
  let name := (← get).qualifiedName item.name.name
  let id ← declare .const name type item.span
  if id.isAbsent then
    return ()
  else
    updateSymbol id fun symbol => { symbol with address := item.value.word.toInt }

/-- Declare constants. -/
def checkConsts (decl : ConstDecl) : Check Unit := do
  let type ← resolveType decl.type false
  decl.items.forM (checkConst type)

/-- The type of a declared variable. -/
def itemType (base : TypeId) (item : VarItem) : Check TypeId :=
  if item.isArray then arrayOf base else return base

/-- Declare variables or fields in the innermost frame. -/
def checkVars (kind : SymbolKind) (decl : VarDecl) : Check Unit := do
  let base ← resolveType decl.type false
  decl.items.forM fun item => do
    let type ← itemType base item
    let name := (← get).qualifiedName item.name.name
    discard (declare kind name type item.span)

/-- Declare static variables of a class. -/
def checkStaticVars (owner : String) (decl : VarDecl) : Check Unit := do
  let base ← resolveType decl.type false
  decl.items.forM fun item => do
    let type ← itemType base item
    discard (declareStatic .var (dotted owner item.name.name) type item.span)

/-! ## Methods -/

/-- Check a body in a frame and a method context of its own.  The result lists the
symbols of the frame. -/
def insideMethod {α : Type} (context : MethodContext) (body : Check α) :
    Check (α × List SymbolId) := do
  let outer := (← get).method
  onScopes Scopes.push
  modify fun checker => { checker with method := some context }
  let result ← body
  let locals ← closeFrame
  modify fun checker => { checker with method := outer }
  return (result, locals)

/-- What is wrong with an overriding method, if anything is: the result has to be the
same, and each parameter has to fit the inherited one. -/
def overrideProblem? (table : Table) (inherited : Symbol) (result : TypeId)
    (params : List TypeId) : Option String :=
  let theirs := (inherited.locals.drop 1).map fun id => (table.symbol id).type
  if inherited.type != result then
    some ("return type " ++ table.typeText result ++ " differs from " ++
      table.typeText inherited.type)
  else if inherited.paramCount != params.length + 1 then
    some ("expected " ++ toString (inherited.paramCount - 1) ++ " parameter(s), found " ++
      toString params.length)
  else
    ((params.zip theirs).zipIdx.find? fun entry =>
        !table.assignable entry.1.1 entry.1.2).map fun entry =>
      "parameter " ++ toString (entry.2 + 1) ++ " of type " ++ table.typeText entry.1.1 ++
        " is not compatible with " ++ table.typeText entry.1.2

/-- The inherited method that an instance method of this name overrides. -/
def pendingOverride? (name : String) : Check (Option (SymbolId × TypeId)) := do
  let checker ← get
  match checker.scopes.findLocal? name, checker.owner with
  | some existing, some owner =>
      if (checker.table.desc owner.type).pending.contains existing then
        return some (existing, owner.type)
      else
        return none
  | _, _ => return none

/-- Declare an instance method, or let it override the inherited one.  The result is the
symbol and, for an override, the inherited method; a rejected override is not bound. -/
def declareInstanceMethod (method : MethodDecl) (result : TypeId)
    (params : List TypeId) : Check (SymbolId × Option SymbolId) := do
  let name := method.name.name
  let span := method.node.span
  match ← pendingOverride? name with
  | none => return (← declare .method name result span, none)
  | some (inherited, owner) =>
      let id ← onTable fun table => table.addSymbol (.declared .method name result 1)
      let table ← table
      match overrideProblem? table (table.symbol inherited) result params with
      | some message =>
          report (.invalidOverride name message) span
          return (id, none)
      | none =>
          onScopes fun scopes => (scopes.replace name id).2
          updateType owner fun desc => { desc with pending := desc.pending.erase inherited }
          inform ("method '" ++ name ++ "' overrides an inherited method") span
          return (id, some inherited)

/-- Declare a method where it stands: in its class, beside its class, or in the program. -/
def declareMethod (method : MethodDecl) (result : TypeId)
    (params : List TypeId) : Check (SymbolId × Option SymbolId) := do
  let checker ← get
  match checker.owner with
  | some owner =>
      if method.isStatic then
        let name := dotted (checker.table.desc owner.type).name method.name.name
        return (← declareStatic .method name result method.node.span, none)
      else
        declareInstanceMethod method result params
  | none =>
      let name := checker.qualifiedName method.name.name
      return (← declare .method name result method.node.span, none)

/-- A declared method, or one that has no name because its declaration was rejected. -/
def orUnbound (declared : SymbolId) (name : String) (result : TypeId) (level : Nat) :
    Check SymbolId :=
  if declared.isAbsent then
    onTable fun table => table.addSymbol (.declared .method name result level)
  else
    return declared

/-- Give the parameters of an overriding method the slots of the inherited ones. -/
def copySlots (id inherited : SymbolId) : Check Unit := do
  let table ← table
  let slots := (table.symbol inherited).locals.map fun param => (table.symbol param).address
  ((table.symbol id).locals.zip slots).forM fun (param, slot) =>
    updateSymbol param fun symbol => { symbol with address := slot }

/-- Declare the receiver and the parameters, and record them in the method. -/
def checkParams (id : SymbolId) (receiver : Option TypeId) (method : MethodDecl)
    (types : List TypeId)
    (overridden : Option SymbolId) : Check Unit := do
  receiver.forM fun type => discard (declare .var "this" type method.node.span)
  (method.params.zip types).forM fun (param, type) =>
    discard (declare .var param.name.name type param.span)
  let params := (← get).scopes.current
  updateSymbol id fun symbol => { symbol with paramCount := params.length, locals := params }
  overridden.forM (copySlots id)

/-- The type of the result of a method; nothing is returned without one. -/
def resolveResult (method : MethodDecl) : Check TypeId :=
  match method.result with
  | some ref => resolveType ref method.returnsArray
  | none => return .none

/-- Check the parameters, the locals and the statements of a method. -/
def checkBody (id : SymbolId) (receiver : Option TypeId) (method : MethodDecl) (result : TypeId)
    (types : List TypeId)
    (overridden : Option SymbolId) : Check Unit := do
  checkParams id receiver method types overridden
  method.locals.forM (checkVars .var)
  checkStmts method.body
  let returns := (← get).method.any MethodContext.returns
  require (result = .none || returns) (.missingReturn method.name.name) method.node.span

/-- Check a method. -/
def checkMethod (method : MethodDecl) : Check Unit := do
  let result ← resolveResult method
  let types ← method.params.mapM fun param => resolveType param.type param.isArray
  let owner := (← get).owner.map ClassContext.type
  let receiver := if method.isStatic then none else owner
  let (declared, overridden) ← declareMethod method result types
  let id ← orUnbound declared method.name.name result (if receiver.isSome then 1 else 0)
  noteSymbol method.node.id id
  let context : MethodContext := { symbol := id, result := result, isStatic := receiver.isNone }
  let (_, locals) ← insideMethod context (checkBody id receiver method result types overridden)
  updateSymbol id fun symbol => { symbol with locals := locals }

/-! ## Classes -/

/-- Check a static initializer, a method without a name that can be written. -/
def checkStaticInit (owner : String) (index : Nat) (init : StaticInit) : Check Unit := do
  let name := dotted owner ("static#" ++ toString index)
  let id ← onTable fun table => table.addSymbol (.declared .method name .none 0)
  noteSymbol init.node.id id
  modify fun checker => { checker with staticInits := checker.staticInits.push id }
  let (_, locals) ← insideMethod { symbol := id, result := .none, isStatic := true }
    (checkStmts init.body)
  updateSymbol id fun symbol => { symbol with locals := locals }

/-- The class that a class extends, if the reference leads to one. -/
def resolveParent (ref : TypeRef) : Check (Option TypeId) := do
  let parent ← resolveType ref false
  let table ← table
  if parent = .none then
    return none
  else if table.isClass parent then
    return some parent
  else
    mismatch ("cannot extend '" ++ table.typeText parent ++ "': not a class") ref.span
    return none

/-- The class that a declared class extends. -/
def parentOf (decl : ClassDecl) : Check (Option TypeId) :=
  match decl.parent with
  | some ref => resolveParent ref
  | none => return none

/-- Bind a member of the parent in the frame of a class. -/
def inherit (type : TypeId) (id : SymbolId) : Check Unit := do
  let member ← symbol id
  onScopes fun scopes => scopes.bind member.name id
  if member.kind = .method then
    updateType type fun desc => { desc with pending := desc.pending.insert id }
  else
    return ()

/-- Start the frame of a class with the members of its parent; own fields follow. -/
def inheritMembers (type : TypeId) (parent : Option TypeId) : Check Unit := do
  match parent with
  | none => onScopes fun scopes => scopes.setNextSlot 1
  | some parent =>
      let desc := (← table).desc parent
      desc.members.forM (inherit type)
      onScopes fun scopes => scopes.setNextSlot (1 + desc.fieldCount)

/-- Check the members of a class in its frame. -/
def checkMembers (name : String) (decl : ClassDecl) : Check Unit := do
  decl.staticVars.forM (checkStaticVars name)
  decl.staticInits.zipIdx.forM fun (init, index) => checkStaticInit name index init
  decl.fields.forM (checkVars .field)
  decl.methods.forM checkMethod

/-- Check a class. -/
def checkClass (decl : ClassDecl) : Check Unit := do
  let name := (← get).qualifiedName decl.name.name
  let parent ← parentOf decl
  let type ← onTable fun table => table.addType { kind := .object, name := name, parent := parent }
  noteType decl.node.id type
  discard (declare .type name type decl.node.span)
  modify fun checker => { checker with classes := checker.classes.push type }
  onScopes Scopes.push
  inheritMembers type parent
  let outer := (← get).owner
  modify fun checker =>
    { checker with owner := some { type := type, frame := checker.scopes.depth - 1 } }
  checkMembers name decl
  let members ← closeFrame
  let table ← table
  let fieldCount := (members.filter fun id => (table.symbol id).kind = .field).length
  updateType type fun desc =>
    { desc with members := members, fieldCount := fieldCount, pending := [] }
  modify fun checker => { checker with owner := outer }
  inform ("class '" ++ name ++ "' has " ++ toString fieldCount ++ " field(s) and " ++
    toString (members.length - fieldCount) ++ " method(s)") decl.node.span

/-- Check a declaration of the program or of a namespace. -/
def checkDecl (decl : Decl) : Check Unit :=
  match decl with
  | .consts decl => checkConsts decl
  | .vars decl => checkVars .var decl
  | .type decl => checkClass decl

end Check
end MicroJava
