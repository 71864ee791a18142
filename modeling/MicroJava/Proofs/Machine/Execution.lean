import Mathlib.Algebra.Group.Int.Defs
import Mathlib.Logic.Relation
import MicroJava.Proofs.Machine.Instruction

/-!
# Running code

A machine has a stack of words, global data, a heap of blocks, and one frame of slots for each
method that runs.  `Machine.step` reads the instruction at the program counter and performs
it.
-/

namespace MicroJava

/-- A word that was printed, as a number or as a character. -/
structure Printed where
  value : Int32
  width : Int32
  isChar : Bool
deriving DecidableEq, Repr, Inhabited

/-- A method that runs. -/
structure Activation where
  slots : List Int32
  returnTo : Option Nat
deriving DecidableEq, Repr, Inhabited

/-- The state of a machine. -/
structure Machine where
  pc : Nat
  stack : List Int32 := []
  data : List Int32 := []
  heap : List (List Int32) := []
  frames : List Activation := []
  pending : List Nat := []
  input : List UInt8 := []
  output : List Printed := []
deriving DecidableEq, Repr, Inhabited

/-- Why a machine does not go on. -/
inductive Stop
  | finished (last : Machine)
  | trapped (number : UInt8)
  | nullReference
  | outOfBounds
  | divisionByZero
  | noSuchMethod (name : List Int32)
  | badInstruction
  | underflow
  | badSlot
deriving DecidableEq, Repr, Inhabited

/-! ## Operations on words -/

namespace Opcode

/-- An operation on two words. -/
def apply (op : Opcode) (left right : Int32) : Except Stop Int32 :=
  match op with
  | add => .ok (left + right)
  | sub => .ok (left - right)
  | mul => .ok (left * right)
  | div => if right = 0 then .error .divisionByZero else .ok (left / right)
  | rem => if right = 0 then .error .divisionByZero else .ok (left % right)
  | shl => .ok (left <<< right)
  | shr => .ok (left >>> right)
  | _ => .error .badInstruction

/-- Whether a jump that compares two words is taken. -/
def compares (op : Opcode) (left right : Int32) : Bool :=
  match op with
  | jeq => left = right
  | jne => left ≠ right
  | jlt => left < right
  | jle => left ≤ right
  | jgt => right < left
  | jge => right ≤ left
  | _ => false

end Opcode

/-- Look a name up in a dispatch table: each entry is a name, a mark and an address, and another
mark ends the table.  The words of the present name are those that were read last. -/
def Dispatch.scan (name : List Int32) (read : List Int32) : List Int32 → Option Int32
  | word :: next :: rest =>
      if read = [] ∧ word = -2 then none
      else if word = -1 then
        if read = name then some next else scan name [] rest
      else scan name (read ++ [word]) (next :: rest)
  | _ => none

/-- Look a name up in the dispatch table at a slot of the global data. -/
def Dispatch.find? (data : List Int32) (slot : Nat) (name : List Int32) : Option Int32 :=
  scan name [] (data.drop slot)

namespace Input

def isSpace (byte : UInt8) : Bool := byte = 32 || byte = 9 || byte = 10 || byte = 12 || byte = 13

def isDigit (byte : UInt8) : Bool := 48 ≤ byte && byte ≤ 57

/-- Read a number, behind spaces and a sign; what is none or too large reads as zero. -/
def readInt (input : List UInt8) : Int32 × List UInt8 :=
  let text := input.dropWhile isSpace
  let negative := text.head? = some 45
  let text := if negative then text.tail else text
  let digits := text.takeWhile isDigit
  let size : Nat := digits.foldl (fun number digit => number * 10 + (digit.toNat - 48)) 0
  let value : Int := if negative then -size else size
  (if -(2 ^ 31) ≤ value ∧ value < 2 ^ 31 then Int32.ofInt value else 0, text.dropWhile isDigit)

/-- Read a character; at the end there is none. -/
def readChar : List UInt8 → Int32 × List UInt8
  | [] => (-1, [])
  | byte :: rest => (Int32.ofNat byte.toNat, rest)

end Input

/-! ## Instructions -/

namespace Machine

/-- Go on with other operands. -/
def goOn (machine : Machine) (pc : Nat) (stack : List Int32) : Machine :=
  { machine with pc := pc, stack := stack }

/-- The slots of the method that runs. -/
def slots (machine : Machine) : List Int32 :=
  match machine.frames with
  | [] => []
  | frame :: _ => frame.slots

/-- Change the slots of the method that runs. -/
def setSlots (machine : Machine) (slots : List Int32) : Machine :=
  match machine.frames with
  | [] => machine
  | frame :: rest => { machine with frames := { frame with slots := slots } :: rest }

/-- The words of an object or array. -/
def block (machine : Machine) (reference : Int32) : Except Stop (List Int32) :=
  if reference ≤ 0 then .error .nullReference
  else
    match machine.heap[reference.toInt.toNat - 1]? with
    | none => .error .nullReference
    | some words => .ok words

/-- A word of an object or array. -/
def fetch (machine : Machine) (reference index : Int32) : Except Stop Int32 := do
  let words ← machine.block reference
  if index < 0 then throw .outOfBounds
  match words[index.toInt.toNat]? with
  | none => throw .outOfBounds
  | some word => return word

/-- Change a word of an object or array. -/
def put (machine : Machine) (reference index value : Int32) : Except Stop Machine := do
  let words ← machine.block reference
  if index < 0 ∨ words.length ≤ index.toInt.toNat then throw .outOfBounds
  let words := words.set index.toInt.toNat value
  return { machine with heap := machine.heap.set (reference.toInt.toNat - 1) words }

/-- Push a reference to a new object or array. -/
def create (machine : Machine) (pc size : Nat) (stack : List Int32) : Machine :=
  { machine with
    pc := pc
    heap := machine.heap ++ [List.replicate size 0]
    stack := Int32.ofNat (machine.heap.length + 1) :: stack }

/-- Go to a method. -/
def callTo (machine : Machine) (next target : Nat) : Machine :=
  { machine with pc := target, pending := next :: machine.pending }

/-- Print a word. -/
def display (machine : Machine) (next : Nat) (isChar : Bool) : Except Stop Machine :=
  match machine.stack with
  | width :: value :: rest =>
      let printed := { value := value, width := width, isChar := isChar }
      .ok { machine with pc := next, stack := rest, output := machine.output ++ [printed] }
  | _ => .error .underflow

/-- Return to the caller. -/
def giveBack (machine : Machine) : Except Stop Machine :=
  match machine.frames with
  | [] => .error (.finished machine)
  | frame :: rest =>
      match frame.returnTo with
      | none => .error (.finished { machine with frames := rest })
      | some pc => .ok { machine with pc := pc, frames := rest }

/-- Perform an operation without operands in the code. -/
def performPlain (machine : Machine) (next : Nat) (op : Opcode) : Except Stop Machine :=
  match op, machine.stack with
  | .neg, value :: rest => .ok (machine.goOn next (-value :: rest))
  | .aload, index :: array :: rest => do
      return machine.goOn next ((← machine.fetch array index) :: rest)
  | .baload, index :: array :: rest => do
      return machine.goOn next ((← machine.fetch array index) :: rest)
  | .astore, value :: index :: array :: rest => do
      return (← machine.put array index value).goOn next rest
  | .bastore, value :: index :: array :: rest => do
      return (← machine.put array index (value &&& 255)).goOn next rest
  | .arrayLength, array :: rest => do
      return machine.goOn next (Int32.ofNat (← machine.block array).length :: rest)
  | .pop, _ :: rest => .ok (machine.goOn next rest)
  | .dup, value :: rest => .ok (machine.goOn next (value :: value :: rest))
  | .dup2, right :: left :: rest =>
      .ok (machine.goOn next (right :: left :: right :: left :: rest))
  | .dupX1, right :: left :: rest => .ok (machine.goOn next (right :: left :: right :: rest))
  | .dupX2, top :: right :: left :: rest =>
      .ok (machine.goOn next (top :: right :: left :: top :: rest))
  | .exit, _ => .ok { machine.setSlots [] with pc := next }
  | .ret, _ => machine.giveBack
  | .read, stack =>
      let (value, input) := Input.readInt machine.input
      .ok { machine with pc := next, stack := value :: stack, input := input }
  | .bread, stack =>
      let (value, input) := Input.readChar machine.input
      .ok { machine with pc := next, stack := value :: stack, input := input }
  | .print, _ => machine.display next false
  | .bprint, _ => machine.display next true
  | op, right :: left :: rest => do return machine.goOn next ((← op.apply left right) :: rest)
  | _, _ => .error .underflow

/-- Jump, always or if a comparison holds. -/
def performJump (machine : Machine) (next : Nat) (op : Opcode) (target : Nat) :
    Except Stop Machine :=
  if op = .jmp then .ok { machine with pc := target }
  else
    match machine.stack with
    | right :: left :: rest =>
        .ok (machine.goOn (if op.compares left right then target else next) rest)
    | _ => .error .underflow

/-- Perform an instruction and go on at the next one, if there is no jump. -/
def perform (machine : Machine) (next : Nat) : Instruction → Except Stop Machine
  | .plain op => machine.performPlain next op
  | .load slot =>
      match machine.slots[slot]? with
      | none => .error .badSlot
      | some value => .ok (machine.goOn next (value :: machine.stack))
  | .store slot =>
      match machine.stack with
      | [] => .error .underflow
      | value :: rest =>
          if slot < machine.slots.length then
            .ok ((machine.setSlots (machine.slots.set slot value)).goOn next rest)
          else .error .badSlot
  | .getStatic slot =>
      match machine.data[slot]? with
      | none => .error .badSlot
      | some value => .ok (machine.goOn next (value :: machine.stack))
  | .putStatic slot =>
      match machine.stack with
      | [] => .error .underflow
      | value :: rest =>
          if slot < machine.data.length then
            .ok { machine with pc := next, stack := rest, data := machine.data.set slot value }
          else .error .badSlot
  | .getField offset =>
      match machine.stack with
      | [] => .error .underflow
      | object :: rest => do
          return machine.goOn next ((← machine.fetch object (Int32.ofNat offset)) :: rest)
  | .putField offset =>
      match machine.stack with
      | value :: object :: rest => do
          return (← machine.put object (Int32.ofNat offset) value).goOn next rest
      | _ => .error .underflow
  | .const value => .ok (machine.goOn next (value :: machine.stack))
  | .inc slot delta =>
      match machine.slots[slot]? with
      | none => .error .badSlot
      | some value =>
          .ok { machine.setSlots (machine.slots.set slot (value + delta.toInt32)) with pc := next }
  | .new size => .ok (machine.create next (size / 4) machine.stack)
  | .newArray _ =>
      match machine.stack with
      | [] => .error .underflow
      | length :: rest =>
          if length < 0 then .error .outOfBounds
          else .ok (machine.create next length.toInt.toNat rest)
  | .jump op target => machine.performJump next op target
  | .call target => .ok (machine.callTo next target)
  | .enter params size =>
      if machine.stack.length < params then .error .underflow
      else
        let slots := (machine.stack.take params).reverse ++ List.replicate (size - params) 0
        .ok { machine with
          pc := next
          stack := machine.stack.drop params
          frames := { slots := slots, returnTo := machine.pending.head? } :: machine.frames
          pending := machine.pending.tail }
  | .trap number => .error (.trapped number)
  | .invokeVirtual name =>
      match machine.stack with
      | [] => .error .underflow
      | table :: rest =>
          match Dispatch.find? machine.data table.toUInt32.toNat name with
          | none => .error (.noSuchMethod name)
          | some address =>
              .ok ((machine.goOn machine.pc rest).callTo next address.toUInt32.toNat)

/-- Perform the next instruction. -/
def step (code : Code) (machine : Machine) : Except Stop Machine :=
  match code.instructionAt? machine.pc with
  | none => .error .badInstruction
  | some instr => machine.perform (machine.pc + instr.size) instr

/-- One machine gets to another one in some steps. -/
def Reaches (code : Code) : Machine → Machine → Prop :=
  Relation.ReflTransGen fun before after => before.step code = .ok after

theorem step_of_spells {code : Code} {instr : Instruction} (machine : Machine)
    (spells : code.Spells machine.pc instr) :
    machine.step code = machine.perform (machine.pc + instr.size) instr := by
  rw [step, spells.instructionAt?]

end Machine
end MicroJava
