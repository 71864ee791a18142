import MicroJava.Annotations
import MicroJava.Diagnostic
import MicroJava.Options
import MicroJava.Scopes
import MicroJava.Tree.Program

/-!
# The state of the analysis

The analysis walks a program once, in the order of its text.  A rule that is
broken is reported and the walk goes on: the construct then has no type or the
absent symbol, and further rules do not complain about it.
-/

namespace MicroJava

/-- The methods that every program knows. -/
structure Builtins where
  /-- `char chr(int i)` -/
  chr : SymbolId := .absent
  /-- `int ord(char ch)` -/
  ord : SymbolId := .absent
  /-- `int len(arr)`, for every array -/
  len : SymbolId := .absent
deriving DecidableEq, Repr, Inhabited

/-- The predefined methods in the order of their code. -/
def Builtins.all (builtins : Builtins) : List SymbolId :=
  [builtins.chr, builtins.ord, builtins.len]

/-- The class whose body is being analysed. -/
structure ClassContext where
  /-- The class. -/
  type : TypeId
  /-- How many frames stand around the frame of the class. -/
  frame : Nat
deriving DecidableEq, Repr, Inhabited

/-- The method or static initializer whose body is being analysed. -/
structure MethodContext where
  /-- The symbol of the method. -/
  symbol : SymbolId
  /-- The type of its result. -/
  result : TypeId
  /-- Whether it has no receiver. -/
  isStatic : Bool
  /-- Whether a statement returning a value was met. -/
  returns : Bool := false
deriving DecidableEq, Repr, Inhabited

/-- What the analysis knows at a point of its walk. -/
structure Checker where
  /-- The chosen options. -/
  options : Options
  /-- The symbols and types so far. -/
  table : Table := .initial
  /-- The names that are visible. -/
  scopes : Scopes := {}
  /-- What is known about nodes. -/
  notes : Annotations := {}
  /-- What was reported, in order. -/
  diagnostics : Array Diagnostic := #[]
  /-- The predefined methods. -/
  builtins : Builtins := {}
  /-- The namespace whose members are being declared. -/
  space : Option String := none
  /-- The class around the present point. -/
  owner : Option ClassContext := none
  /-- The method around the present point. -/
  method : Option MethodContext := none
  /-- How many loops stand around the present point. -/
  loopDepth : Nat := 0
  /-- The classes, in the order of their declaration. -/
  classes : Array TypeId := #[]
  /-- The static initializers, in the order of their declaration. -/
  staticInits : Array SymbolId := #[]
deriving Inhabited

/-- A step of the analysis. -/
abbrev Check := StateM Checker

namespace Check

/-! ## Reporting -/

/-- Report a violation. -/
def report (cause : Violation) (span : Span) : Check Unit :=
  modify fun checker =>
    { checker with diagnostics := checker.diagnostics.push (.error cause span) }

/-- Report a violation unless a rule is kept. -/
def require (kept : Bool) (cause : Violation) (span : Span) : Check Unit :=
  if kept then return () else report cause span

/-- Report that types do not fit. -/
def mismatch (message : String) (span : Span) : Check Unit :=
  report (.typeMismatch message) span

/-- Report that types do not fit, unless they do. -/
def requireFit (kept : Bool) (message : String) (span : Span) : Check Unit :=
  require kept (.typeMismatch message) span

/-- Report a note, if notes are wanted. -/
def inform (text : String) (span : Span) : Check Unit :=
  modify fun checker =>
    if checker.options.reportInfo then
      { checker with diagnostics := checker.diagnostics.push (.info text span) }
    else
      checker

/-! ## Parts of the state -/

/-- The table as it is now. -/
def table : Check Table := return (← get).table

/-- A symbol as it is now. -/
def symbol (id : SymbolId) : Check Symbol := return (← get).table.symbol id

/-- The name of a type in messages. -/
def typeText (id : TypeId) : Check String := return (← get).table.typeText id

/-- Run an operation on the table. -/
def onTable {α : Type} (act : Table → α × Table) : Check α :=
  modifyGet fun checker =>
    let (result, table) := act checker.table
    (result, { checker with table := table })

/-- Change a symbol. -/
def updateSymbol (id : SymbolId) (change : Symbol → Symbol) : Check Unit :=
  modify fun checker => { checker with table := checker.table.updateSymbol id change }

/-- Change a type. -/
def updateType (id : TypeId) (change : TypeDesc → TypeDesc) : Check Unit :=
  modify fun checker => { checker with table := checker.table.updateType id change }

/-- Run an operation on the scopes. -/
def onScopes (act : Scopes → Scopes) : Check Unit :=
  modify fun checker => { checker with scopes := act checker.scopes }

/-- Drop the innermost frame; the result lists its symbols. -/
def closeFrame : Check (List SymbolId) :=
  modifyGet fun checker =>
    (checker.scopes.current, { checker with scopes := checker.scopes.pop })

/-- Record the symbol of a node. -/
def noteSymbol (node : NodeId) (id : SymbolId) : Check Unit :=
  modify fun checker => { checker with notes := checker.notes.setSymbol node id }

/-- Record the type of a node. -/
def noteType (node : NodeId) (id : TypeId) : Check Unit :=
  modify fun checker => { checker with notes := checker.notes.setType node id }

end Check
end MicroJava
