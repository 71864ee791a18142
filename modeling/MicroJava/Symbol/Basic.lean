/-!
# Symbols and types

A symbol is a declared name, an array element or a method without a name of its
own; a type is a basic type, an array type or a class.  Both are referred to by
their position in the table.  Position zero is taken in each: the absent symbol
is the answer of a search that finds nothing, and the type `none` stands for
`void` and for whatever failed to have a type.
-/

namespace MicroJava

/-- Position of a symbol in the table. -/
structure SymbolId where
  /-- The position. -/
  index : Nat
deriving DecidableEq, Repr, Inhabited

/-- Position of a type in the table. -/
structure TypeId where
  /-- The position. -/
  index : Nat
deriving DecidableEq, Repr, Inhabited

namespace SymbolId

/-- The answer of a search that finds nothing. -/
def absent : SymbolId := ⟨0⟩

/-- Whether a search found nothing. -/
def isAbsent (id : SymbolId) : Bool := id = absent

end SymbolId

namespace TypeId

/-- No type. -/
def none : TypeId := ⟨0⟩

/-- The type `int`. -/
def int : TypeId := ⟨1⟩

/-- The type `char`. -/
def char : TypeId := ⟨2⟩

/-- The type `bool`. -/
def bool : TypeId := ⟨3⟩

/-- The type of the null reference. -/
def null : TypeId := ⟨4⟩

/-- The array type that accepts every array. -/
def anyArray : TypeId := ⟨5⟩

end TypeId

/-- What a symbol stands for. -/
inductive SymbolKind
  /-- The program itself. -/
  | program
  /-- A type. -/
  | type
  /-- A constant, whose address is its value. -/
  | const
  /-- A global or local variable. -/
  | var
  /-- A field, whose address is its offset in the object. -/
  | field
  /-- A method, whose address is where its code starts. -/
  | method
  /-- An array element. -/
  | element
deriving DecidableEq, Repr, Inhabited

/-- The name of a kind in messages. -/
def SymbolKind.text : SymbolKind → String
  | program => "program"
  | type => "type"
  | const => "constant"
  | var => "variable"
  | field => "field"
  | method => "method"
  | element => "array element"

/-- A symbol. -/
structure Symbol where
  /-- What it stands for. -/
  kind : SymbolKind
  /-- Its name; members of namespaces and static members have qualified names. -/
  name : String
  /-- Its type; for a method, the type of its result. -/
  type : TypeId
  /-- A slot, an offset, a value or a code address, as the kind has it. -/
  address : Int
  /-- The level of the frame it is declared in; zero is global. -/
  level : Nat
  /-- How many parameters a method has, the receiver counted. -/
  paramCount : Nat := 0
  /-- The parameters and locals of a method, or the symbols of the program. -/
  locals : List SymbolId := []
deriving DecidableEq, Repr, Inhabited

namespace Symbol

/-- The address of a method without code. -/
def noAddress : Int := -1

/-- A symbol as it is declared. -/
def declared (kind : SymbolKind) (name : String) (type : TypeId)
    (level : Nat) : Symbol where
  kind := kind
  name := name
  type := type
  address := if kind = .method then noAddress else 0
  level := level

/-- Whether a value may be stored in it. -/
def isAssignable (symbol : Symbol) : Bool :=
  match symbol.kind with
  | .var => true
  | .field => true
  | .element => true
  | _ => false

/-- Whether it may be read as a value. -/
def hasValue (symbol : Symbol) : Bool :=
  match symbol.kind with
  | .program => false
  | .type => false
  | .method => false
  | _ => true

/-- Whether it is a method that is called through a dispatch table. -/
def isVirtual (symbol : Symbol) : Bool := symbol.kind = .method && symbol.level = 1

/-- Whether it is a global variable. -/
def isGlobal (symbol : Symbol) : Bool := symbol.kind = .var && symbol.level = 0

end Symbol

/-- The shape of a type. -/
inductive TypeKind
  | none
  | int
  | char
  | bool
  | array
  | object
deriving DecidableEq, Repr, Inhabited

/-- A type. -/
structure TypeDesc where
  /-- Its shape. -/
  kind : TypeKind
  /-- Its name; array types are named after their elements. -/
  name : String
  /-- The element type of an array. -/
  element : TypeId := .none
  /-- The class that a class extends. -/
  parent : Option TypeId := .none
  /-- Fields and methods, inherited ones first. -/
  members : List SymbolId := []
  /-- Where the dispatch table of a class starts in the global data. -/
  dispatch : Option Int := .none
  /-- Inherited methods that may still be overridden, while the class is open. -/
  pending : List SymbolId := []
  /-- The number of fields, inherited ones counted. -/
  fieldCount : Nat := 0
deriving DecidableEq, Repr, Inhabited

/-- Whether values of the type are references. -/
def TypeDesc.isReference (desc : TypeDesc) : Bool :=
  match desc.kind with
  | .array => true
  | .object => true
  | _ => false

end MicroJava
