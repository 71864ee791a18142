import MicroJava.Generation.Statements
import MicroJava.Image

/-!
# Code of programs

The code holds the predefined methods, then for each class its static
initializers and methods, then the global methods.  The global data holds the
global variables, then the dispatch table of each class:

```text
for each method: the characters of its name, -1, its address
at the end:      -2
```

The entry point starts by writing all dispatch tables and by calling all static
initializers.
-/

namespace MicroJava
namespace Gen

/-- The words of a dispatch table. -/
def dispatchWords (methods : List SymbolId) : Gen (List Int) := do
  match methods with
  | [] => return [-2]
  | id :: rest =>
      let name := (← symbol id).name
      let address ← codeAddress id
      let words ← dispatchWords rest
      return name.toList.map (fun c => (c.toNat : Int)) ++ (-1 : Int) :: (address : Int) :: words

/-- Write words to the global data from a slot on. -/
def writeWords (slot : Int) (words : List Int) : Gen Unit := do
  match words with
  | [] => return ()
  | word :: rest =>
      const word
      emit (Emit.putStatic slot)
      writeWords (slot + 1) rest

/-- Write the dispatch table of a class, if it has a place. -/
def writeDispatch (type : TypeId) : Gen Unit := do
  let table := (← get).table
  match (table.desc type).dispatch with
  | none => return ()
  | some slot =>
      let words ← dispatchWords (table.methodsOf type)
      writeWords slot words

/-- The start of a method: the entry point has to write the dispatch tables and to call the
static initializers. -/
def prologue (analysis : Analysis) (id : SymbolId) : Gen Unit := do
  if analysis.main = some id then
    analysis.classes.forM writeDispatch
    analysis.staticInits.forM fun init => do
      emit (Emit.call (← codeAddress init))
  else
    return ()

/-- Emit a predefined method, which returns its argument or the length of it. -/
def builtin (builtins : Builtins) (id : SymbolId) : Gen Unit := do
  let start ← offset
  updateSymbol id fun method => { method with address := start }
  discard (emit (Emit.enter 1 1))
  emit (Emit.loadLocal 0)
  if id = builtins.len then
    op .arrayLength
    emit Emit.ret
  else
    emit Emit.ret

/-- Emit a method.  A method with a result that reaches its end stops with error one. -/
def method (analysis : Analysis) (decl : MethodDecl) : Gen Unit := do
  let id ← symbolAt analysis.notes decl.node
  placeMethod id decl.node.span
  let symbol ← symbol id
  let start ← openFrame symbol.paramCount symbol.locals.length
  prologue analysis id
  stmts analysis.notes decl.body
  closeFrame start
  if symbol.type = .none then emit Emit.ret else emit (Emit.trap 1)

/-- Emit a static initializer. -/
def staticInit (analysis : Analysis) (init : StaticInit) : Gen Unit := do
  let id ← symbolAt analysis.notes init.node
  placeMethod id init.node.span
  let start ← openFrame 0 (← symbol id).locals.length
  stmts analysis.notes init.body
  closeFrame start
  emit Emit.ret

/-- Reserve global words for the dispatch table of a class. -/
def reserveDispatch (type : TypeId) : Gen Unit :=
  modify fun generator =>
    let start : Int := generator.dataSize
    { generator with
      dataSize := generator.dataSize + generator.table.dispatchSize type
      table := generator.table.updateType type fun desc => { desc with dispatch := some start } }

/-- Emit a class. -/
def type (analysis : Analysis) (decl : ClassDecl) : Gen Unit := do
  let type ← typeAt analysis.notes decl.node
  reserveDispatch type
  decl.staticInits.forM (staticInit analysis)
  decl.methods.forM (method analysis)

/-- Emit a declaration; only classes have code. -/
def decl (analysis : Analysis) (decl : Decl) : Gen Unit :=
  match decl with
  | .consts _ => return ()
  | .vars _ => return ()
  | .type decl => type analysis decl

/-- Emit declarations and methods that stand side by side. -/
def unit (analysis : Analysis) (decls : List Decl) (methods : List MethodDecl) : Gen Unit := do
  decls.forM (decl analysis)
  methods.forM (method analysis)

/-- The code address of the entry point, zero without one. -/
def entryAddress (analysis : Analysis) : Gen Nat :=
  match analysis.main with
  | some id => codeAddress id
  | none => return 0

/-- The finished code, which has to keep to a limit. -/
def finish (limit : Nat) : Gen Code := do
  match (← get).emitter.finish with
  | .error fault => throw fault
  | .ok code =>
      if limit < code.size then
        throw (.tooLarge code.size limit)
      else
        return code

/-- Emit a program. -/
def program (options : Options) (analysis : Analysis) (program : Program) : Gen Image := do
  analysis.builtins.all.forM (builtin analysis.builtins)
  program.spaces.forM fun space => unit analysis space.decls space.methods
  unit analysis program.decls program.methods
  let entry ← entryAddress analysis
  let code ← finish options.codeLimit
  return { code := code, dataSize := (← get).dataSize, entry := entry }

end Gen

/-- Generate the image of a program from its analysis.  Besides the image or the fault, the
result is the analysis with the addresses that are known by then. -/
def generate (options : Options) (analysis : Analysis)
    (program : Program) : Except Fault Image × Analysis :=
  let start : Generator :=
    { table := analysis.table, dataSize := analysis.table.globalCount }
  match Gen.program options analysis program start with
  | .ok image generator => (.ok image, { analysis with table := generator.table })
  | .error fault generator => (.error fault, { analysis with table := generator.table })

end MicroJava
