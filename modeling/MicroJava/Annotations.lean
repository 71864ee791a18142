import Std.Data.TreeMap
import MicroJava.Fault
import MicroJava.Symbol.Basic

/-!
# Annotations

The analysis records what it finds out about a node: the symbol of a designator,
a method or a static initializer, and the type of an expression or a class.
-/

namespace MicroJava

/-- What is known about the nodes of a tree. -/
structure Annotations where
  /-- The symbol of each node that has one. -/
  symbols : Std.TreeMap Nat SymbolId := ∅
  /-- The type of each node that has one. -/
  types : Std.TreeMap Nat TypeId := ∅
deriving Inhabited

namespace Annotations

/-- Record the symbol of a node. -/
def setSymbol (notes : Annotations) (node : Nat) (id : SymbolId) : Annotations :=
  { notes with symbols := notes.symbols.insert node id }

/-- Record the type of a node. -/
def setType (notes : Annotations) (node : Nat) (id : TypeId) : Annotations :=
  { notes with types := notes.types.insert node id }

/-- The symbol of a node. -/
def symbol? (notes : Annotations) (node : Nat) : Option SymbolId := notes.symbols[node]?

/-- The type of a node. -/
def type? (notes : Annotations) (node : Nat) : Option TypeId := notes.types[node]?

/-- The symbol of a node that has to have one. -/
def symbol (notes : Annotations) (node : Nat) (span : Span) : Except Fault SymbolId :=
  match notes.symbol? node with
  | some id => .ok id
  | none => .error (.unannotated node "symbol" span)

/-- The type of a node that has to have one. -/
def type (notes : Annotations) (node : Nat) (span : Span) : Except Fault TypeId :=
  match notes.type? node with
  | some id => .ok id
  | none => .error (.unannotated node "type" span)

/-- How many symbols and types are recorded. -/
def size (notes : Annotations) : Nat := notes.symbols.size + notes.types.size

/-- Whether nothing is recorded. -/
def isEmpty (notes : Annotations) : Bool := notes.symbols.isEmpty && notes.types.isEmpty

end Annotations
end MicroJava
