import MicroJava.Analysis.Program

/-!
# What an analysis refers to

A table also holds entries that nothing refers to any more, such as a symbol that
lost its name to a later one.  The entries in use are those that are reached from
the results of the analysis and from the nodes.
-/

namespace MicroJava

/-- An entry of a table. -/
inductive Entry where
  /-- A symbol. -/
  | symbol (id : SymbolId)
  /-- A type. -/
  | type (id : TypeId)
deriving DecidableEq, Repr, Inhabited

namespace Table

/-- What an entry refers to: a symbol to its locals and its type, a type to its members, its
element type and its parent. -/
def references (table : Table) : Entry → List Entry
  | .symbol id =>
      let symbol := table.symbol id
      .type symbol.type :: symbol.locals.map .symbol
  | .type id =>
      let desc := table.desc id
      .type desc.element :: (desc.parent.toList.map .type ++ desc.members.map .symbol)

end Table

/-- A choice of entries of a table. -/
structure Marks where
  /-- Whether each symbol is chosen. -/
  symbols : Array Bool
  /-- Whether each type is chosen. -/
  types : Array Bool
deriving Inhabited

namespace Marks

/-- No entry of a table. -/
def none (table : Table) : Marks :=
  { symbols := Array.replicate table.symbols.size false
    types := Array.replicate table.types.size false }

/-- Whether an entry is chosen; an entry that does not exist counts as chosen. -/
def contains (marks : Marks) : Entry → Bool
  | .symbol id => marks.symbols.getD id.index true
  | .type id => marks.types.getD id.index true

/-- Choose an entry. -/
def insert (marks : Marks) : Entry → Marks
  | .symbol id => { marks with symbols := marks.symbols.setIfInBounds id.index true }
  | .type id => { marks with types := marks.types.setIfInBounds id.index true }

/-- The positions of what is chosen. -/
def positions (chosen : Array Bool) : List Nat :=
  (List.range chosen.size).filter fun position => chosen.getD position false

/-- Choose what is reached from a list of entries, which are looked at in turn. -/
def close (table : Table) : (fuel : Nat) → Marks → List Entry → Marks
  | 0, marks, _ => marks
  | _ + 1, marks, [] => marks
  | fuel + 1, marks, entry :: rest =>
      if marks.contains entry then
        close table fuel marks rest
      else
        close table fuel (marks.insert entry) (table.references entry ++ rest)

end Marks

namespace Table

/-- How many references there are in a table. -/
def referenceCount (table : Table) : Nat :=
  let ofSymbols := table.symbols.foldl (fun count symbol => count + 1 + symbol.locals.length) 0
  table.types.foldl (fun count desc => count + 2 + desc.members.length) ofSymbols

/-- The entries that are reached from some entries.  Each entry is opened once, so that no
more are looked at than there are starts and references. -/
def reachable (table : Table) (starts : List Entry) : Marks :=
  Marks.close table (starts.length + table.referenceCount + 1) (Marks.none table) starts

end Table

namespace Analysis

/-- The entries that the results name. -/
def roots (analysis : Analysis) : List Entry :=
  let symbols :=
    .absent :: analysis.program :: (analysis.main.toList ++ analysis.builtins.all ++
      analysis.staticInits ++ analysis.notes.symbols.values)
  let types := (List.range 6).map TypeId.mk ++ analysis.classes ++ analysis.notes.types.values
  symbols.map .symbol ++ types.map .type

/-- The entries in use. -/
def used (analysis : Analysis) : Marks := analysis.table.reachable analysis.roots

/-- The symbols in use, in the order of the table. -/
def usedSymbols (analysis : Analysis) : List SymbolId :=
  (Marks.positions analysis.used.symbols).map SymbolId.mk

/-- The types in use, in the order of the table. -/
def usedTypes (analysis : Analysis) : List TypeId :=
  (Marks.positions analysis.used.types).map TypeId.mk

end Analysis
end MicroJava
