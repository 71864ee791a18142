import MicroJava.Analysis.Naming
import MicroJava.Symbol.Assignable

/-!
# Typing designators, expressions and conditions

Every designator gets a symbol and every expression a type, and both are recorded
under their nodes.  An array element is a symbol of its own.  The receiver of an
instance method counts as its first argument.
-/

namespace MicroJava

/-- The type of a literal. -/
def Literal.type : Literal → TypeId
  | int _ => .int
  | char _ => .char
  | bool _ => .bool

namespace Check

/-- Note the use of a designator that leads to a symbol. -/
def informUse (designator : Designator) (found : SymbolId) : Check Unit := do
  if found.isAbsent then
    return ()
  else
    let kind := (← symbol found).kind
    inform ("usage of " ++ kind.text ++ " '" ++ designator.text ++ "'") designator.span

/-- Record the symbol of a designator. -/
def settle (designator : Designator) (found : SymbolId) : Check SymbolId := do
  noteSymbol designator.id found
  informUse designator found
  return found

/-- Record the type of an expression. -/
def record (node : Node) (type : TypeId) : Check TypeId := do
  noteType node.id type
  return type

/-- The symbol of an element of a resolved array. -/
def elementOf (base : Designator) (array : SymbolId) (span : Span) : Check SymbolId := do
  let table ← table
  let type := (table.symbol array).type
  if table.kind type = .array then
    onTable fun table => table.addSymbol (.declared .element "" (table.element type) 0)
  else
    requireFit (type = .none) ("'" ++ base.text ++ "' is not an array") span
    return .absent

/-- The type of a designator that is read: types, methods and programs have no value. -/
def valueType (designator : Designator) (found : SymbolId) : Check TypeId := do
  let symbol ← symbol found
  if symbol.hasValue then
    return symbol.type
  else
    mismatch (symbol.kind.text ++ " '" ++ designator.text ++ "' used as a value") designator.span
    return .none

/-- The type of the object that an instance method is called on: that of the base, or
the current class. -/
def receiverType (callee : Designator) : Check TypeId := do
  let checker ← get
  match callee with
  | .member _ base _ =>
      match checker.notes.symbol? base.id with
      | some found => return (checker.table.symbol found).type
      | none => return .none
  | _ =>
      match checker.owner with
      | some owner => return owner.type
      | none => return .none

/-- Compare the arguments of a call with the parameters, from a position on. -/
def checkArguments (name : String) (span : Span) :
    (position : Nat) → (actuals formals : List TypeId) → Check Unit
  | position, actual :: actuals, formal :: formals => do
      require ((← table).assignable actual formal) (.argumentType name position) span
      checkArguments name span (position + 1) actuals formals
  | _, _, _ => return ()

/-- Compare the number of arguments, and if it is right the arguments themselves. -/
def checkSignature (name : String) (span : Span) (expected : Nat)
    (actuals formals : List TypeId) : Check Unit :=
  if actuals.length = expected then
    checkArguments name span 0 actuals formals
  else
    report (.argumentCount name expected actuals.length) span

/-- Check a call of a resolved designator with arguments of the given types.  The result
is the method and the type of its result. -/
def applyMethod (span : Span) (callee : Designator) (found : SymbolId)
    (arguments : List TypeId) : Check (SymbolId × TypeId) := do
  let table ← table
  let method := table.symbol found
  if found.isAbsent then
    return (.absent, .none)
  else if method.kind != .method then
    report (.notAMethod callee.text) span
    return (.absent, .none)
  else
    let formals := (method.locals.take method.paramCount).map fun id => (table.symbol id).type
    let receiver ← receiverType callee
    let actuals := if method.isVirtual then receiver :: arguments else arguments
    checkSignature callee.text span method.paramCount actuals formals
    return (found, method.type)

mutual

/-- The symbol of a designator. -/
def resolve (designator : Designator) : Check SymbolId := do
  match designator with
  | .name _ ident => settle designator (← resolveName ident)
  | .qualified node space ident =>
      settle designator (← resolveQualified space ident node.span)
  | .element node base index =>
      let array ← resolve base
      let type ← typeOf index
      requireFit (type = .int || type = .none) "array index must be of type int" index.span
      settle designator (← elementOf base array node.span)
  | .member _ base ident =>
      let owner ← resolve base
      settle designator (← resolveMember owner base ident)

/-- The type of an expression. -/
def typeOf (expr : Expr) : Check TypeId := do
  match expr with
  | .literal node value => record node value.type
  | .load node source =>
      let found ← resolve source
      record node (← valueType source found)
  | .call node call =>
      let (method, result) ← checkCall call
      requireFit (method.isAbsent || result != .none)
        ("void method '" ++ call.callee.text ++ "' used in an expression") call.span
      record node result
  | .newArray node element length =>
      let element ← resolveType element false
      let type ← typeOf length
      requireFit (type = .int || type = .none) "array length must be of type int" length.span
      record node (← arrayOf element)
  | .newObject node ref =>
      let type ← resolveType ref false
      let table ← table
      if type = .none || table.isClass type then
        record node type
      else
        mismatch ("cannot instantiate '" ++ table.typeText type ++ "': not a class") ref.span
        record node .none
  | .neg node operand =>
      let type ← typeOf operand
      if type = .int || type = .none then
        record node type
      else
        mismatch "negation requires an int operand" node.span
        record node .none
  | .arith node op left right =>
      let leftType ← typeOf left
      let rightType ← typeOf right
      if leftType = .int && rightType = .int then
        record node .int
      else if leftType = .none || rightType = .none then
        record node .none
      else
        mismatch ("operator '" ++ op.text ++ "' requires int operands") node.span
        record node .none

/-- The types of expressions, from left to right. -/
def typesOf (exprs : List Expr) : Check (List TypeId) := do
  match exprs with
  | [] => return []
  | expr :: rest =>
      let type ← typeOf expr
      return type :: (← typesOf rest)

/-- The method that is called and the type of its result. -/
def checkCall (call : Call) : Check (SymbolId × TypeId) := do
  match call with
  | .mk span callee arguments =>
      let found ← resolve callee
      let types ← typesOf arguments
      applyMethod span callee found types

end

/-- A lone expression has to be a `bool`; a relation needs operands that may be compared,
and references only equality. -/
def checkFact (fact : Fact) : Check Unit := do
  match fact with
  | .truth value =>
      let type ← typeOf value
      require (type = .bool || type = .none) .nonBoolCondition value.span
  | .relation span left op right =>
      let leftType ← typeOf left
      let rightType ← typeOf right
      let table ← table
      if leftType = .none || rightType = .none then
        return ()
      else if table.comparable leftType rightType then
        require (op.isEquality || !(table.isReference leftType || table.isReference rightType))
          .referenceComparison span
      else
        mismatch ("cannot compare " ++ table.typeText leftType ++ " with " ++
          table.typeText rightType ++ " using '" ++ op.text ++ "'") span

/-- Check the facts of a condition in order. -/
def checkCondition (condition : Condition) : Check Unit :=
  condition.forM fun term => term.forM checkFact

end Check
end MicroJava
