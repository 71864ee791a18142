import MicroJava.Fault

/-!
# Jumps that wait for their targets

Each `if` and each `for` keeps two lists of forward jumps while its code is
emitted: those taken when the current term of its condition is false, and those
that lead into its body.  Each loop keeps the jumps that lead past it.  A
construct passes through its stages in order; every other order is a fault.

An operation that fails still has its effects: its result holds the state in
which it left the lists.
-/

namespace MicroJava

/-- A forward jump, given by the offset of its operand. -/
structure Label where
  /-- The offset of the operand. -/
  offset : Nat
deriving DecidableEq, Repr, Inhabited

/-- The offset of the jump itself, one byte before its operand. -/
def Label.instruction (label : Label) : Nat := label.offset - 1

/-- The constructs that own lists of jumps. -/
inductive ConstructKind
  | branch
  | loop
deriving DecidableEq, Repr, Inhabited

/-- The name of a construct in messages. -/
def ConstructKind.text : ConstructKind → String
  | branch => "If"
  | loop => "For"

/-- A construct whose code is being emitted. -/
structure Construct where
  /-- What it is. -/
  kind : ConstructKind
  /-- How far its code is. -/
  stage : Stage := .header
  /-- Jumps taken when the current term is false. -/
  falseJumps : Array Label := #[]
  /-- Jumps into the body. -/
  bodyJumps : Array Label := #[]
deriving DecidableEq, Repr, Inhabited

/-- A loop whose code is being emitted. -/
structure LoopExits where
  /-- Where a `continue` leads. -/
  continueTarget : Nat
  /-- Jumps past the loop. -/
  jumps : Array Label := #[]
deriving DecidableEq, Repr, Inhabited

/-- The open constructs and loops, innermost first. -/
structure Fixups where
  /-- The open constructs. -/
  constructs : List Construct := []
  /-- The open loops. -/
  loops : List LoopExits := []
deriving DecidableEq, Repr, Inhabited

/-- An operation on the waiting jumps. -/
abbrev Fix := EStateM Fault Fixups

namespace Fix

/-! ## Constructs -/

/-- Open a construct. -/
def openConstruct (kind : ConstructKind) : Fix Unit :=
  modify fun fixups => { fixups with constructs := { kind := kind } :: fixups.constructs }

/-- Act on the innermost construct; nothing changes if the action fails. -/
def onConstruct {α : Type} (action : String)
    (act : Construct → Except Fault (α × Construct)) : Fix α := fun fixups =>
  match fixups.constructs with
  | [] => .error (.imbalance ("cannot " ++ action ++ ": no construct is open")) fixups
  | construct :: outer =>
      match act construct with
      | .ok (result, construct) => .ok result { fixups with constructs := construct :: outer }
      | .error fault => .error fault fixups

/-- Pass from one stage to the next. -/
def advance (source target : Stage) (action : String) : Fix Unit :=
  onConstruct action fun construct =>
    if construct.stage = source then
      .ok ((), { construct with stage := target })
    else
      .error (.wrongStage construct.stage action)

/-- Record a jump taken when a fact is false. -/
def addFalse (label : Label) : Fix Unit :=
  onConstruct "add a false jump" fun construct =>
    if construct.stage = .header then
      .ok ((), { construct with falseJumps := construct.falseJumps.push label })
    else
      .error (.wrongStage construct.stage "add a false jump")

/-- Record a jump into the body. -/
def addBody (label : Label) : Fix Unit :=
  onConstruct "add a body jump" fun construct =>
    if construct.stage = .header then
      .ok ((), { construct with bodyJumps := construct.bodyJumps.push label })
    else
      .error (.wrongStage construct.stage "add a body jump")

/-- Take the jumps of false facts off the innermost construct. -/
def takeFalse : Fix (List Label) :=
  onConstruct "take the false list" fun construct =>
    .ok (construct.falseJumps.toList, { construct with falseJumps := #[] })

/-- Take the jumps into the body off the innermost construct. -/
def takeBody : Fix (List Label) :=
  onConstruct "take the body list" fun construct =>
    .ok (construct.bodyJumps.toList, { construct with bodyJumps := #[] })

/-- The conditions are complete. -/
def finishConditions : Fix Unit := advance .header .conditions "finish its conditions"

/-- The body is complete. -/
def finishBody : Fix Unit := advance .conditions .body "finish its body"

/-- The jumps have their targets; none may be left in the lists. -/
def finishPatching : Fix Unit :=
  onConstruct "finish patching" fun construct =>
    if construct.falseJumps.isEmpty && construct.bodyJumps.isEmpty then
      if construct.stage = .body then
        .ok ((), { construct with stage := .patched })
      else
        .error (.wrongStage construct.stage "finish patching")
    else
      .error (.imbalance (construct.kind.text ++ " closed with " ++
        toString construct.falseJumps.size ++ " false and " ++
        toString construct.bodyJumps.size ++ " body fix-ups pending"))

/-- The construct is finished. -/
def close : Fix Unit := do
  advance .patched .closed "close"
  modify fun fixups => { fixups with constructs := fixups.constructs.tail }

/-! ## Loops -/

/-- Open a loop. -/
def enterLoop (continueTarget : Nat) : Fix Unit :=
  modify fun fixups =>
    { fixups with loops := { continueTarget := continueTarget } :: fixups.loops }

/-- Close the innermost loop and take the jumps past it. -/
def exitLoop : Fix (List Label) := fun fixups =>
  match fixups.loops with
  | [] => .error (.imbalance "loop exited twice") fixups
  | innermost :: outer => .ok innermost.jumps.toList { fixups with loops := outer }

/-- Record jumps past the innermost loop. -/
def addExits (labels : List Label) (complaint : String) : Fix Unit := fun fixups =>
  match fixups with
  | { constructs := constructs, loops := innermost :: outer } =>
      .ok () {
        constructs := constructs
        loops := { innermost with jumps := innermost.jumps ++ labels } :: outer }
  | fixups => .error (.imbalance complaint) fixups

/-- Record a jump that leaves the innermost loop. -/
def addBreak (label : Label) : Fix Unit :=
  addExits [label] "break emitted outside a loop"

/-- Move the jumps of false facts to the exits of the innermost loop, and count them. -/
def falseIntoLoop : Fix Nat := do
  let labels ← takeFalse
  addExits labels "loop condition emitted outside a loop"
  return labels.length

/-- Where a `continue` leads. -/
def continueTarget : Fix Nat := fun fixups =>
  match fixups.loops with
  | [] => .error (.imbalance "continue emitted outside a loop") fixups
  | innermost :: _ => .ok innermost.continueTarget fixups

end Fix

namespace Fixups

/-- Whether a loop is open. -/
def inLoop (fixups : Fixups) : Bool := !fixups.loops.isEmpty

/-- How many loops are open. -/
def loopDepth (fixups : Fixups) : Nat := fixups.loops.length

/-- Whether every construct and every loop has been closed. -/
def isBalanced (fixups : Fixups) : Bool := fixups.constructs.isEmpty && fixups.loops.isEmpty

end Fixups
end MicroJava
