import MicroJava.Symbol.Basic

/-!
# The table of symbols and types

Symbols and types are never removed, so a position keeps its meaning.  A position
that is not in use yet stands for position zero, both when it is read and when
it is written.  Array types are shared: there is one for each element type.
-/

namespace MicroJava

/-- All symbols and types of a program. -/
structure Table where
  /-- The symbols, the absent one first. -/
  symbols : Array Symbol
  /-- The types, the basic ones first. -/
  types : Array TypeDesc
  /-- How many global variables have a slot. -/
  globalCount : Nat
deriving DecidableEq, Repr, Inhabited

namespace Table

/-- The table before anything is declared. -/
def initial : Table where
  symbols := #[.declared .var "" .none 0]
  types := #[
    { kind := .none, name := "void" },
    { kind := .int, name := "int" },
    { kind := .char, name := "char" },
    { kind := .bool, name := "bool" },
    { kind := .object, name := "null" },
    { kind := .array, name := "", element := .none }]
  globalCount := 0

/-! ## Symbols -/

/-- The position in use that a symbol stands for. -/
def symbolRow (table : Table) (id : SymbolId) : Nat :=
  if id.index < table.symbols.size then id.index else 0

/-- The symbol at a position. -/
def symbol (table : Table) (id : SymbolId) : Symbol :=
  table.symbols.getD (table.symbolRow id) default

/-- Change the symbol at a position. -/
def updateSymbol (table : Table) (id : SymbolId) (change : Symbol → Symbol) : Table :=
  let row := table.symbolRow id
  { table with symbols := table.symbols.modify row change }

/-- The position that the next symbol gets. -/
def nextSymbol (table : Table) : SymbolId := ⟨table.symbols.size⟩

/-- Enter a symbol. -/
def addSymbol (table : Table) (symbol : Symbol) : SymbolId × Table :=
  (table.nextSymbol, { table with symbols := table.symbols.push symbol })

/-- Reserve the next global slot. -/
def addGlobal (table : Table) : Nat × Table :=
  (table.globalCount, { table with globalCount := table.globalCount + 1 })

/-! ## Types -/

/-- The position in use that a type stands for. -/
def typeRow (table : Table) (id : TypeId) : Nat :=
  if id.index < table.types.size then id.index else 0

/-- The type at a position. -/
def desc (table : Table) (id : TypeId) : TypeDesc :=
  table.types.getD (table.typeRow id) default

/-- Change the type at a position. -/
def updateType (table : Table) (id : TypeId) (change : TypeDesc → TypeDesc) : Table :=
  let row := table.typeRow id
  { table with types := table.types.modify row change }

/-- The position that the next type gets. -/
def nextType (table : Table) : TypeId := ⟨table.types.size⟩

/-- Enter a type. -/
def addType (table : Table) (desc : TypeDesc) : TypeId × Table :=
  (table.nextType, { table with types := table.types.push desc })

/-- Enter a class without members. -/
def addClass (table : Table) (name : String) : TypeId × Table :=
  table.addType { kind := .object, name := name }

/-- The array type with the given elements, if it is in use. -/
def arrayOf? (table : Table) (element : TypeId) : Option TypeId :=
  (table.types.findIdx? fun desc => desc.kind = .array && desc.element = element).map (⟨·⟩)

/-- The array type with the given elements, entered if it is new. -/
def arrayOf (table : Table) (element : TypeId) : TypeId × Table :=
  match table.arrayOf? element with
  | some id => (id, table)
  | none => table.addType { kind := .array, name := "", element := element }

/-- The shape of a type. -/
def kind (table : Table) (id : TypeId) : TypeKind := (table.desc id).kind

/-- Whether a type is a class that may have objects of its own. -/
def isClass (table : Table) (id : TypeId) : Bool := table.kind id = .object && id != .null

/-- The element type of an array type, and no type for any other. -/
def element (table : Table) (id : TypeId) : TypeId :=
  if table.kind id = .array then (table.desc id).element else .none

/-- Whether values of a type are references. -/
def isReference (table : Table) (id : TypeId) : Bool := (table.desc id).isReference

/-- The name of a type whose elements are nested at most `depth` deep. -/
def typeTextWithin (table : Table) : (depth : Nat) → TypeId → String
  | 0, id => (table.desc id).name
  | depth + 1, id =>
      let desc := table.desc id
      if desc.kind = .array then
        if desc.element = .none then "array"
        else table.typeTextWithin depth desc.element ++ "[]"
      else
        desc.name

/-- The name of a type in messages. -/
def typeText (table : Table) (id : TypeId) : String :=
  table.typeTextWithin (table.types.size + 1) id

/-- The classes from a given one on upwards, at most `depth` of them. -/
def lineageWithin (table : Table) : (depth : Nat) → TypeId → List TypeId
  | 0, _ => []
  | depth + 1, id =>
      id :: (match (table.desc id).parent with
        | none => []
        | some parent => table.lineageWithin depth parent)

/-- A class, its parent, the parent of that and so on. -/
def lineage (table : Table) (id : TypeId) : List TypeId :=
  table.lineageWithin (table.types.size + 1) id

/-! ## Members -/

/-- The member of a class with a name. -/
def member? (table : Table) (owner : TypeId) (name : String) : Option SymbolId :=
  (table.desc owner).members.find? fun id => (table.symbol id).name = name

/-- The methods among the members of a class. -/
def methodsOf (table : Table) (owner : TypeId) : List SymbolId :=
  (table.desc owner).members.filter fun id => (table.symbol id).kind = .method

/-- The number of words of a dispatch table: for each method its name, a mark and an
address, and a mark at the end. -/
def dispatchSize (table : Table) (owner : TypeId) : Nat :=
  (table.methodsOf owner).foldr (fun id size => (table.symbol id).name.length + 2 + size) 0 + 1

end Table
end MicroJava
