import MicroJava.Generation.Expressions

/-!
# Code of statements

The code of a condition leads past each fact that does not hold.  The code of a
loop runs from its condition to its body, from the body to the update and from
there back to the condition:

```text
        init
  cond: condition       if false, to beyond
        to body
  next: update
        to cond
  body: body
        to next
  beyond:
```
-/

namespace MicroJava
namespace Gen

/-! ## Conditions -/

/-- Jump if a fact does not hold. -/
def fact (notes : Annotations) (fact : Fact) : Gen Unit := do
  match fact with
  | .truth value =>
      expr notes value
      const 0
      emit (Emit.falseJump .ne)
  | .relation _ left op right =>
      expr notes left
      expr notes right
      emit (Emit.falseJump op)

/-- Jump if a term does not hold. -/
def term (notes : Annotations) (term : Term) : Gen Unit := term.forM (fact notes)

/-- A further term: the terms before it lead into the body if they hold, and here if they
do not. -/
def furtherTerm (notes : Annotations) (next : Term) : Gen Unit := do
  emit Emit.bodyJump
  discard (emit Emit.patchFalse)
  term notes next

/-- Jump if no term holds. -/
def condition (notes : Annotations) (condition : Condition) : Gen Unit := do
  match condition with
  | [] => return ()
  | first :: rest =>
      term notes first
      rest.forM (furtherTerm notes)

/-! ## Actions -/

/-- Keep what an access needs for a second access. -/
def keepAccess (kind : SymbolKind) : Gen Unit :=
  match kind with
  | .field => op .dup
  | .element => op .dup2
  | _ => return ()

/-- Add or subtract one.  A local slot is changed in place; anything else is read, changed
and written back. -/
def step (notes : Annotations) (target : Designator) (up : Bool) : Gen Unit := do
  let id ← access notes target
  let symbol ← symbol id
  if symbol.kind = .var && !symbol.isGlobal then
    emit (Emit.inc symbol.address (if up then 1 else -1))
  else
    keepAccess symbol.kind
    load id
    const 1
    op (if up then .add else .sub)
    store id

/-- The element type of an array designator. -/
def elementAt (notes : Annotations) (array : Designator) : Gen TypeId := do
  let id ← symbolAt notes array.node
  let table := (← get).table
  return table.element (table.symbol id).type

/-- Fill the target at a position from the source array. -/
def fillTarget (notes : Annotations) (source : Designator) (element : TypeId)
    (target : Option Designator × Nat) : Gen Unit := do
  match target with
  | (none, _) => return ()
  | (some target, position) =>
      let id ← access notes target
      value notes source
      const position
      op (loadElement element)
      store id

/-- Stop with error two unless the source has an element for each position and for each
element of the rest. -/
def unpackGuard (notes : Annotations) (count : Nat) (rest source : Designator) : Gen Unit := do
  value notes rest
  op .arrayLength
  const count
  op .add
  value notes source
  op .arrayLength
  let enough ← emit (Emit.jump .jle)
  emit (Emit.trap 2)
  emit (Emit.patchHere enough)

/-- Copy what follows the positions into the rest.  The index into the rest and the index
into the source are kept on the stack, and above them the index that is tested. -/
def unpackRest (notes : Annotations) (count : Nat) (rest source : Designator)
    (restElement sourceElement : TypeId) : Gen Unit := do
  const 0
  const count
  const 0
  let test ← offset
  value notes rest
  op .arrayLength
  let beyond ← emit (Emit.jump .jge)
  let copy ← emit (Emit.jump .jmp)
  let next ← offset
  const 1
  op .add
  op .dupX1
  op .pop
  const 1
  op .add
  op .dupX1
  emit (Emit.jumpTo .jmp test)
  emit (Emit.patchHere copy)
  op .dup2
  value notes source
  op .dupX1
  op .pop
  op (loadElement sourceElement)
  value notes rest
  op .dupX2
  op .pop
  op (storeElement restElement)
  emit (Emit.jumpTo .jmp next)
  emit (Emit.patchHere beyond)
  op .pop
  op .pop

/-- Unpack an array: check its length, fill the targets from the last to the first, and
copy the rest. -/
def unpack (notes : Annotations) (targets : List (Option Designator))
    (rest source : Designator) : Gen Unit := do
  let sourceElement ← elementAt notes source
  let restElement ← elementAt notes rest
  unpackGuard notes targets.length rest source
  targets.zipIdx.reverse.forM (fillTarget notes source sourceElement)
  unpackRest notes targets.length rest source restElement sourceElement

/-- Emit an action. -/
def action (notes : Annotations) (action : Action) : Gen Unit := do
  match action with
  | .assign _ target value =>
      let id ← access notes target
      expr notes value
      store id
  | .increment _ target => step notes target true
  | .decrement _ target => step notes target false
  | .call _ target =>
      let result ← call notes target
      if result = .none then return () else op .pop
  | .unpack _ targets rest source => unpack notes targets rest source

/-! ## Statements -/

/-- Read a value into a place. -/
def read (notes : Annotations) (target : Designator) : Gen Unit := do
  let id ← access notes target
  op (if (← symbol id).type = .char then .bread else .read)
  store id

/-- Print a value.  Without a width, an `int` takes five columns and anything else one. -/
def print (notes : Annotations) (value : Expr) (width : Option Int32) : Gen Unit := do
  let type ← typeAt notes value.node
  expr notes value
  emit (Emit.const (width.getD (if type = .int then 5 else 1)))
  op (if type = .char then .bprint else .print)

mutual

/-- Emit a statement. -/
def stmt (notes : Annotations) (statement : Stmt) : Gen Unit := do
  emit (Emit.setLine statement.span.line)
  match statement with
  | .action step => action notes step
  | .ifThen _ test body =>
      emit (Emit.openConstruct .branch)
      condition notes test
      discard (emit Emit.patchBody)
      fix Fix.finishConditions
      stmt notes body
      fix Fix.finishBody
      discard (emit Emit.patchFalse)
      fix Fix.finishPatching
      fix Fix.close
  | .ifElse _ test body alternative =>
      emit (Emit.openConstruct .branch)
      condition notes test
      discard (emit Emit.patchBody)
      fix Fix.finishConditions
      stmt notes body
      fix Fix.finishBody
      let beyond ← emit (Emit.jump .jmp)
      discard (emit Emit.patchFalse)
      fix Fix.finishPatching
      stmt notes alternative
      emit (Emit.patchHere beyond)
      fix Fix.close
  | .loop _ init test update body =>
      emit (Emit.openConstruct .loop)
      init.forM (action notes)
      let start ← offset
      test.forM (condition notes)
      emit Emit.bodyJump
      let next ← offset
      update.forM (action notes)
      emit (Emit.jumpTo .jmp start)
      emit (Emit.enterLoop next)
      discard (fix Fix.falseIntoLoop)
      discard (emit Emit.patchBody)
      fix Fix.finishConditions
      stmt notes body
      emit (Emit.jumpTo .jmp next)
      fix Fix.finishBody
      discard (emit Emit.exitLoop)
      fix Fix.finishPatching
      fix Fix.close
  | .breakLoop _ => emit Emit.breakLoop
  | .continueLoop _ => emit Emit.continueLoop
  | .ret _ value =>
      value.forM (expr notes)
      emit Emit.ret
  | .read _ target => read notes target
  | .print _ value width => print notes value width
  | .block _ body => stmts notes body

/-- Emit statements in order. -/
def stmts (notes : Annotations) (statements : List Stmt) : Gen Unit := do
  match statements with
  | [] => return ()
  | first :: rest =>
      stmt notes first
      stmts notes rest

end

end Gen
end MicroJava
