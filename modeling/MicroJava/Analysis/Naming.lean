import MicroJava.Analysis.Checker

/-!
# Declaring and finding names

A name may not be declared twice in a frame, nor may it hide a type.  A member of
a namespace is bound under its qualified name, a static member of a class under
the name of the class and its own.  A plain name is searched in the frames first,
then among the static members of the current class and of those it extends, and
last in the current namespace.
-/

namespace MicroJava

/-- What follows the last colon or dot of a name. -/
def bareName (name : String) : String :=
  String.ofList (name.toList.reverse.takeWhile fun c => c != ':' && c != '.').reverse

namespace Checker

/-- Whether a name leads to a type. -/
def isTypeName (checker : Checker) (name : String) : Bool :=
  let found := checker.scopes.find name
  !found.isAbsent && (checker.table.symbol found).kind = .type

/-- Whether a name that is free in its frame, the innermost one or the one around it,
leads to a type, or its last part does. -/
def masksType (checker : Checker) (outer : Bool) (name : String) : Bool :=
  let existing :=
    if outer then checker.scopes.findAt? (checker.scopes.depth - 2) name
    else checker.scopes.findLocal? name
  existing.isNone && (checker.isTypeName (bareName name) || checker.isTypeName name)

/-- The name under which a declaration of the program or of a namespace is bound. -/
def qualifiedName (checker : Checker) (name : String) : String :=
  match checker.space, checker.owner, checker.method with
  | some space, none, none => qualify space name
  | _, _, _ => name

/-- The symbol that a type reference leads to. -/
def findTypeRef (checker : Checker) (ref : TypeRef) : SymbolId :=
  let found := checker.scopes.find ref.text
  match found.isAbsent, ref.space, checker.space with
  | true, none, some space => checker.scopes.find (qualify space ref.text)
  | _, _, _ => found

/-- The static member of a class or of one that it extends. -/
def findStatic? (checker : Checker) (owner : TypeId) (name : String) : Option SymbolId :=
  (checker.table.lineage owner).findSome? fun type =>
    checker.scopes.find? (dotted (checker.table.desc type).name name)

/-- The field or instance method of a class; the members of the class that is still
open are those of its frame. -/
def findMember? (checker : Checker) (owner : TypeId) (name : String) : Option SymbolId :=
  match checker.owner with
  | some context =>
      if context.type = owner then checker.scopes.findAt? context.frame name
      else checker.table.member? owner name
  | none => checker.table.member? owner name

/-- Whether a name leads to a field or an instance method of the current class, and
there is no receiver. -/
def needsReceiver (checker : Checker) (name : String) (found : SymbolId) : Bool :=
  match checker.owner, checker.method with
  | some owner, some method =>
      let symbol := checker.table.symbol found
      method.isStatic && (symbol.kind = .field || symbol.isVirtual) &&
        checker.scopes.frameOf? name = some owner.frame
  | _, _ => false

end Checker

namespace Check

/-- Bind a new symbol in the innermost frame or in the one around it. -/
def bind (outer : Bool) (kind : SymbolKind) (name : String)
    (type : TypeId) : Check Binding :=
  modifyGet fun checker =>
    let (binding, table, scopes) := checker.scopes.insertIn outer checker.table kind name type
    (binding, { checker with table := table, scopes := scopes })

/-- Declare a name in the innermost frame or in the one around it.  The result is
absent if the declaration is rejected. -/
def declareIn (outer : Bool) (kind : SymbolKind) (name : String) (type : TypeId)
    (span : Span) : Check SymbolId := do
  let checker ← get
  if checker.masksType outer name then
    report (.masksType name) span
    return .absent
  else
    match ← bind outer kind name type with
    | .fresh id =>
        inform ("declared " ++ kind.text ++ " '" ++ name ++ "'") span
        return id
    | .taken _ =>
        report (.duplicateName name) span
        return .absent

/-- Declare a name in the innermost frame. -/
def declare (kind : SymbolKind) (name : String) (type : TypeId) (span : Span) : Check SymbolId :=
  declareIn false kind name type span

/-- Declare a static member, in the frame around that of its class. -/
def declareStatic (kind : SymbolKind) (name : String) (type : TypeId)
    (span : Span) : Check SymbolId :=
  declareIn true kind name type span

/-- The type that a reference leads to, or the array type of such elements. -/
def resolveType (ref : TypeRef) (isArray : Bool) : Check TypeId := do
  let checker ← get
  let found := checker.findTypeRef ref
  let symbol := checker.table.symbol found
  if found.isAbsent || symbol.kind != .type then
    report (.unknownType ref.text) ref.span
    return .none
  else if isArray then
    onTable fun table => table.arrayOf symbol.type
  else
    return symbol.type

/-- The array type of given elements; no type has no arrays. -/
def arrayOf (element : TypeId) : Check TypeId :=
  if element = .none then return .none
  else onTable fun table => table.arrayOf element

/-- The symbol of a plain name that no frame binds. -/
def resolveElsewhere (ident : Ident) : Check SymbolId := do
  let checker ← get
  match checker.owner.bind fun owner => checker.findStatic? owner.type ident.name with
  | some found => return found
  | none =>
      let found := match checker.space with
        | some space => checker.scopes.find (qualify space ident.name)
        | none => .absent
      require (!found.isAbsent) (.undeclaredName ident.name) ident.span
      return found

/-- The symbol that a plain name leads to. -/
def resolveName (ident : Ident) : Check SymbolId := do
  let checker ← get
  let found := checker.scopes.find ident.name
  if found.isAbsent then
    resolveElsewhere ident
  else if checker.needsReceiver ident.name found then
    report (.staticContext ident.name) ident.span
    return .absent
  else
    return found

/-- The symbol that a name of a namespace leads to. -/
def resolveQualified (space ident : Ident) (span : Span) : Check SymbolId := do
  let name := qualify space.name ident.name
  let found := (← get).scopes.find name
  require (!found.isAbsent) (.undeclaredName name) span
  return found

/-- The symbol of a member: a static one if the base names a class, and otherwise a
field or an instance method. -/
def resolveMember (owner : SymbolId) (base : Designator) (ident : Ident) : Check SymbolId := do
  let checker ← get
  let symbol := checker.table.symbol owner
  if owner.isAbsent then
    return .absent
  else if !checker.table.isClass symbol.type then
    requireFit (symbol.type = .none) ("'" ++ base.text ++ "' is not an object") base.span
    return .absent
  else
    let found :=
      if symbol.kind = .type then checker.findStatic? symbol.type ident.name
      else checker.findMember? symbol.type ident.name
    match found with
    | some found => return found
    | none =>
        report (.unknownMember (checker.table.typeText symbol.type) ident.name) ident.span
        return .absent

end Check
end MicroJava
