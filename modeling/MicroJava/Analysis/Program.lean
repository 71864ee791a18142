import MicroJava.Analysis.Declarations

/-!
# Analysing a program

Every program knows the types `int`, `char` and `bool`, the constants `eol` and
`null`, and the methods `chr`, `ord` and `len`.  Namespaces come first, then the
declarations and the methods of the program.  The entry point is a global method
`main` without parameters and without a result.
-/

namespace MicroJava

/-- What is known about a program after its analysis. -/
structure Analysis where
  /-- All symbols and types. -/
  table : Table
  /-- What is known about nodes. -/
  notes : Annotations
  /-- What was reported, in order. -/
  diagnostics : List Diagnostic
  /-- The symbol of the program, whose locals are the global symbols. -/
  program : SymbolId
  /-- The entry point, if there is one. -/
  main : Option SymbolId
  /-- The predefined methods. -/
  builtins : Builtins
  /-- The classes, in the order of their declaration. -/
  classes : List TypeId
  /-- The static initializers, in the order of their declaration. -/
  staticInits : List SymbolId
deriving Inhabited

namespace Analysis

/-- The reported violations, in order. -/
def violations (analysis : Analysis) : List (Violation × Span) :=
  analysis.diagnostics.filterMap Diagnostic.violation?

/-- How many violations were reported. -/
def errorCount (analysis : Analysis) : Nat := analysis.violations.length

end Analysis

namespace Check

/-- Declare a predefined name. -/
def seed (kind : SymbolKind) (name : String) (type : TypeId) : Check SymbolId :=
  return (← bind false kind name type).symbol

/-- Declare a predefined method with one parameter. -/
def seedMethod (name : String) (result : TypeId) (param : String)
    (type : TypeId) : Check SymbolId := do
  let method ← seed .method name result
  let param ← onTable fun table => table.addSymbol (.declared .var param type 1)
  updateSymbol method fun symbol => { symbol with paramCount := 1, locals := [param] }
  return method

/-- Open the outermost frame and declare what every program knows. -/
def seedUniverse : Check Unit := do
  onScopes Scopes.push
  discard (seed .type "int" .int)
  discard (seed .type "char" .char)
  discard (seed .type "bool" .bool)
  let eol ← seed .const "eol" .char
  updateSymbol eol fun symbol => { symbol with address := 10 }
  discard (seed .const "null" .null)
  let chr ← seedMethod "chr" .char "i" .int
  let ord ← seedMethod "ord" .int "ch" .char
  let len ← seedMethod "len" .int "arr" .anyArray
  modify fun checker => { checker with builtins := { chr := chr, ord := ord, len := len } }

/-- Whether a symbol can be the entry point. -/
def isEntry (symbol : Symbol) : Bool :=
  symbol.kind = .method && symbol.type = .none && symbol.paramCount = 0

/-- Find the entry point, which may have to be there. -/
def checkMain (span : Span) : Check (Option SymbolId) := do
  let checker ← get
  let main := (checker.scopes.findLocal? "main").filter fun id => isEntry (checker.table.symbol id)
  require (main.isSome || !checker.options.requireMain) .missingMain span
  return main

/-- Check declarations and methods that stand side by side. -/
def checkUnit (decls : List Decl) (methods : List MethodDecl) : Check Unit := do
  decls.forM checkDecl
  methods.forM checkMethod

/-- Check a namespace. -/
def checkSpace (space : Namespace) : Check Unit := do
  modify fun checker => { checker with space := some space.name.name }
  checkUnit space.decls space.methods
  modify fun checker => { checker with space := none }

/-- Check a program.  The result is its symbol and its entry point. -/
def checkProgram (program : Program) : Check (SymbolId × Option SymbolId) := do
  seedUniverse
  let id ← seed .program program.name.name .none
  onScopes Scopes.push
  program.spaces.forM checkSpace
  checkUnit program.decls program.methods
  let main ← checkMain program.span
  let globals ← closeFrame
  updateSymbol id fun symbol => { symbol with locals := globals }
  onScopes Scopes.pop
  return (id, main)

end Check

/-- Analyse a program. -/
def analyze (options : Options) (program : Program) : Analysis :=
  let ((id, main), checker) := (Check.checkProgram program).run { options := options }
  { table := checker.table
    notes := checker.notes
    diagnostics := checker.diagnostics.toList
    program := id
    main := main
    builtins := checker.builtins
    classes := checker.classes.toList
    staticInits := checker.staticInits.toList }

end MicroJava
