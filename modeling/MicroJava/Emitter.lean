import MicroJava.Code.Basic
import MicroJava.Fixups

/-!
# Emitting instructions

Instructions are appended to one code at the current line.  Frequent constants
and slots have operations of their own; an operand that does not fit is a fault
and leaves the code as it was.  Forward jumps are written with a displacement of
zero and patched when their target is known.
-/

namespace MicroJava

/-- Code that is being emitted. -/
structure Emitter where
  /-- The code so far. -/
  code : Code := .empty
  /-- The jumps that wait for their targets. -/
  fixups : Fixups := {}
  /-- The line of the instructions that follow. -/
  line : Nat := 1
deriving Inhabited

/-- An operation that emits code. -/
abbrev Emit := EStateM Fault Emitter

namespace Emit

/-- Move to another line. -/
def setLine (line : Nat) : Emit Unit :=
  modify fun emitter => { emitter with line := line }

/-- Where the next instruction goes. -/
def offset : Emit Nat := return (← get).code.size

/-- Run an operation on the waiting jumps. -/
def onFixups {α : Type} (act : Fix α) : Emit α := fun ⟨code, fixups, line⟩ =>
  match act fixups with
  | .ok result fixups => .ok result ⟨code, fixups, line⟩
  | .error fault fixups => .error fault ⟨code, fixups, line⟩

/-- Append to the code, at the current line. -/
def grow (append : Code → Nat → Code) : Emit Unit :=
  modify fun emitter => { emitter with code := append emitter.code emitter.line }

/-- Replace bytes that were written before. -/
def patch (replace : Code → Except Fault Code) : Emit Unit := fun emitter =>
  match replace emitter.code with
  | .ok code => .ok () { emitter with code := code }
  | .error fault => .error fault emitter

/-! ## Plain instructions -/

/-- Append bytes. -/
def bytes (values : List UInt8) : Emit Unit := grow (·.push · values)

/-- An operation alone. -/
def op (op : Opcode) : Emit Unit := grow (·.pushOp · op)

/-- An operation with a byte. -/
def opByte (op : Opcode) (operand : UInt8) : Emit Unit :=
  grow fun code line => (code.pushOp line op).pushByte line operand

/-- An operation with two bytes. -/
def opBytes (op : Opcode) (first second : UInt8) : Emit Unit :=
  grow fun code line => ((code.pushOp line op).pushByte line first).pushByte line second

/-- An operation with sixteen bits. -/
def opUInt16 (op : Opcode) (operand : UInt16) : Emit Unit :=
  grow fun code line => (code.pushOp line op).pushUInt16 line operand

/-- An operation with signed sixteen bits. -/
def opInt16 (op : Opcode) (operand : Int16) : Emit Unit :=
  grow fun code line => (code.pushOp line op).pushInt16 line operand

/-- A constant. -/
def const (value : Int32) : Emit Unit :=
  if value = 0 then op .const0
  else if value = 1 then op .const1
  else if value = 2 then op .const2
  else if value = 3 then op .const3
  else if value = 4 then op .const4
  else if value = 5 then op .const5
  else if value = -1 then op .constM1
  else grow fun code line => (code.pushOp line .const).pushWord line value

/-! ## Operands with a range -/

/-- A number that has to fit a byte. -/
def byteOperand (what : String) (value : Int) : Emit UInt8 :=
  if 0 ≤ value ∧ value < 256 then
    return UInt8.ofNat value.toNat
  else
    throw (.outOfRange what value)

/-- A number that has to fit sixteen bits. -/
def uint16Operand (what : String) (value : Int) : Emit UInt16 :=
  if 0 ≤ value ∧ value < 65536 then
    return UInt16.ofNat value.toNat
  else
    throw (.outOfRange what value)

/-- The distance of a jump, which has to fit signed sixteen bits. -/
def displacement (source target : Nat) : Emit Int16 :=
  let value := (target : Int) - source
  if -32768 ≤ value ∧ value < 32768 then
    return Int16.ofInt value
  else
    throw (.outOfRange "jump displacement" value)

/-- Push a local slot. -/
def loadLocal (slot : Int) : Emit Unit :=
  if slot = 0 then op .load0
  else if slot = 1 then op .load1
  else if slot = 2 then op .load2
  else if slot = 3 then op .load3
  else do opByte .load (← byteOperand "local slot" slot)

/-- Pop into a local slot. -/
def storeLocal (slot : Int) : Emit Unit :=
  if slot = 0 then op .store0
  else if slot = 1 then op .store1
  else if slot = 2 then op .store2
  else if slot = 3 then op .store3
  else do opByte .store (← byteOperand "local slot" slot)

/-- Push a global word. -/
def getStatic (slot : Int) : Emit Unit := do
  opUInt16 .getStatic (← uint16Operand "global slot" slot)

/-- Pop into a global word. -/
def putStatic (slot : Int) : Emit Unit := do
  opUInt16 .putStatic (← uint16Operand "global slot" slot)

/-- Push a field. -/
def getField (offset : Int) : Emit Unit := do
  opUInt16 .getField (← uint16Operand "field offset" offset)

/-- Pop into a field. -/
def putField (offset : Int) : Emit Unit := do
  opUInt16 .putField (← uint16Operand "field offset" offset)

/-- Add to a local slot. -/
def inc (slot : Int) (delta : Int8) : Emit Unit := do
  opBytes .inc (← byteOperand "local slot" slot) delta.toUInt8

/-- Push a new object of so many bytes. -/
def newObject (size : Nat) : Emit Unit := do
  opUInt16 .new (← uint16Operand "object size" size)

/-- Push a new array, of words or of bytes. -/
def newArray (ofWords : Bool) : Emit Unit :=
  opByte .newArray (if ofWords then 1 else 0)

/-! ## Methods -/

/-- Open a frame; the result is the offset of the instruction. -/
def enter (params frameSize : Nat) : Emit Nat := do
  let start ← offset
  let params ← byteOperand "parameter count" params
  let frameSize ← byteOperand "frame size" frameSize
  opBytes .enter params frameSize
  return start

/-- Change the size of the frame opened at an offset. -/
def patchFrameSize (start frameSize : Nat) : Emit Unit := do
  let frameSize ← byteOperand "frame size" frameSize
  patch (·.patchByte (start + 2) frameSize)

/-- Close the frame and return. -/
def ret : Emit Unit :=
  grow fun code line => (code.pushOp line .exit).pushOp line .ret

/-- Call a method by its name, through the dispatch table on the stack. -/
def invokeVirtual (name : String) : Emit Unit :=
  bytes (Opcode.invokeVirtual.byte ::
    (name.toList.flatMap (fun c => BigEndian.encode 4 c.toNat) ++
      BigEndian.encode 4 (-1 : Int32).toUInt32.toNat))

/-- Stop with an error number. -/
def trap (number : UInt8) : Emit Unit := opByte .trap number

/-! ## Jumps -/

/-- A jump or call to a known target. -/
def jumpTo (op : Opcode) (target : Nat) : Emit Unit := do
  let start ← offset
  opInt16 op (← displacement start target)

/-- Call the method at a known address. -/
def call (target : Nat) : Emit Unit := jumpTo .call target

/-- A jump whose target is not known yet. -/
def jump (op : Opcode) : Emit Label := do
  let start ← offset
  opInt16 op 0
  return { offset := start + 1 }

/-- Give a jump its target. -/
def patchTo (label : Label) (target : Nat) : Emit Unit := do
  let distance ← displacement label.instruction target
  patch (·.patchInt16 label.offset distance)

/-- Let a jump lead to the next instruction. -/
def patchHere (label : Label) : Emit Unit := do
  patchTo label (← offset)

/-- Let all jumps lead to the next instruction, and count them. -/
def patchAll (labels : List Label) : Emit Nat := do
  labels.forM patchHere
  return labels.length

/-! ## Constructs -/

/-- Open a construct. -/
def openConstruct (kind : ConstructKind) : Emit Unit := onFixups (Fix.openConstruct kind)

/-- The jump taken when a relation does not hold. -/
def falseJump (op : RelOp) : Emit Unit := do
  let label ← jump (Opcode.jumpIf op.inverse)
  onFixups (Fix.addFalse label)

/-- A jump into the body. -/
def bodyJump : Emit Unit := do
  let label ← jump .jmp
  onFixups (Fix.addBody label)

/-- Let the jumps of false facts lead to the next instruction. -/
def patchFalse : Emit Nat := do
  patchAll (← onFixups Fix.takeFalse)

/-- Let the jumps into the body lead to the next instruction. -/
def patchBody : Emit Nat := do
  patchAll (← onFixups Fix.takeBody)

/-- Open a loop. -/
def enterLoop (continueTarget : Nat) : Emit Unit := onFixups (Fix.enterLoop continueTarget)

/-- Close the innermost loop; the jumps past it lead to the next instruction. -/
def exitLoop : Emit Nat := do
  patchAll (← onFixups Fix.exitLoop)

/-- Leave the innermost loop. -/
def breakLoop : Emit Unit := do
  if (← get).fixups.inLoop then
    let label ← jump .jmp
    onFixups (Fix.addBreak label)
  else
    throw (.imbalance "break emitted outside a loop")

/-- Go on with the update of the innermost loop. -/
def continueLoop : Emit Unit := do
  jumpTo .jmp (← onFixups Fix.continueTarget)

end Emit

/-- The code, once no construct and no loop is open. -/
def Emitter.finish (emitter : Emitter) : Except Fault Code :=
  if emitter.fixups.isBalanced then
    .ok emitter.code
  else
    .error (.imbalance "constructs left open at end of program")

end MicroJava
