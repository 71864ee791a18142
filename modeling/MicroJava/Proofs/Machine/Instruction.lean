import Mathlib.Tactic.Common
import MicroJava.Code.Instruction

/-!
# Decoded instructions

An instruction is an operation together with its operands; short and long encodings of one
instruction are the same.  `Code.instructionAt?` reads back what `Instruction.encode` writes
whenever the operands fit.
-/

namespace MicroJava

open List

variable {code : Code} {offset target : Nat} {instr : Instruction} {bytes : List UInt8}
  {rest : List UInt8} {name : List Int32}

/-- Operations without operands that are not a short form of another operation. -/
def Opcode.isPlain : Opcode → Bool
  | add | sub | mul | div | rem | neg | shl | shr | aload | astore | baload | bastore
  | arrayLength | pop | dup | dup2 | ret | exit | read | print | bread | bprint | dupX1
  | dupX2 => true
  | _ => false

/-- An operation with its operands. -/
inductive Instruction
  | plain (op : Opcode)
  | load (slot : Nat)
  | store (slot : Nat)
  | getStatic (slot : Nat)
  | putStatic (slot : Nat)
  | getField (offset : Nat)
  | putField (offset : Nat)
  | const (value : Int32)
  | inc (slot : Nat) (delta : Int8)
  | new (size : Nat)
  | newArray (tag : UInt8)
  | jump (op : Opcode) (target : Nat)
  | call (target : Nat)
  | enter (params frameSize : Nat)
  | trap (number : UInt8)
  | invokeVirtual (name : List Int32)
deriving DecidableEq, Repr, Inhabited

namespace Instruction

/-- The operation of a constant, which has a short form for small values. -/
def constOp (value : Int32) : Opcode :=
  if value = 0 then .const0
  else if value = 1 then .const1
  else if value = 2 then .const2
  else if value = 3 then .const3
  else if value = 4 then .const4
  else if value = 5 then .const5
  else if value = -1 then .constM1
  else .const

/-- The operation by which an instruction is written. -/
def op : Instruction → Opcode
  | plain op => op
  | load 0 => .load0
  | load 1 => .load1
  | load 2 => .load2
  | load 3 => .load3
  | load _ => .load
  | store 0 => .store0
  | store 1 => .store1
  | store 2 => .store2
  | store 3 => .store3
  | store _ => .store
  | getStatic _ => .getStatic
  | putStatic _ => .putStatic
  | getField _ => .getField
  | putField _ => .putField
  | const value => constOp value
  | inc _ _ => .inc
  | new _ => .new
  | newArray _ => .newArray
  | jump op _ => op
  | call _ => .call
  | enter _ _ => .enter
  | trap _ => .trap
  | invokeVirtual _ => .invokeVirtual

/-- The bytes of a slot operand; the first four slots have operations of their own. -/
def slotBytes (slot : Nat) : List UInt8 := if slot < 4 then [] else [UInt8.ofNat slot]

/-- The bytes of a displacement. -/
def reachBytes (start target : Nat) : List UInt8 :=
  BigEndian.encode 2 (Int16.ofInt ((target : Int) - start)).toUInt16.toNat

/-- The bytes of a word. -/
def wordBytes (word : Int32) : List UInt8 := BigEndian.encode 4 word.toUInt32.toNat

/-- The bytes that follow the operation of an instruction at an offset. -/
def operandBytes (start : Nat) : Instruction → List UInt8
  | plain _ => []
  | load slot => slotBytes slot
  | store slot => slotBytes slot
  | getStatic slot => BigEndian.encode 2 slot
  | putStatic slot => BigEndian.encode 2 slot
  | getField offset => BigEndian.encode 2 offset
  | putField offset => BigEndian.encode 2 offset
  | const value => if constOp value = .const then wordBytes value else []
  | inc slot delta => [UInt8.ofNat slot, delta.toUInt8]
  | new size => BigEndian.encode 2 size
  | newArray tag => [tag]
  | jump _ target => reachBytes start target
  | call target => reachBytes start target
  | enter params frameSize => [UInt8.ofNat params, UInt8.ofNat frameSize]
  | trap number => [number]
  | invokeVirtual name => name.flatMap wordBytes ++ wordBytes (-1)

/-- The bytes of an instruction at an offset. -/
def encode (start : Nat) (instr : Instruction) : List UInt8 :=
  instr.op.byte :: instr.operandBytes start

/-- The number of bytes of an instruction. -/
def size : Instruction → Nat
  | plain _ => 1
  | load slot => if slot < 4 then 1 else 2
  | store slot => if slot < 4 then 1 else 2
  | const value => if constOp value = .const then 5 else 1
  | newArray _ => 2
  | trap _ => 2
  | invokeVirtual name => 1 + 4 * (name.length + 1)
  | _ => 3

@[simp] theorem size_plain (op : Opcode) : (plain op).size = 1 := rfl

@[simp] theorem size_jump (op : Opcode) (target : Nat) : (jump op target).size = 3 := rfl

/-- Whether a displacement fits signed sixteen bits. -/
def Reaches (start target : Nat) : Prop :=
  -32768 ≤ (target : Int) - start ∧ (target : Int) - start < 32768

/-- The operands of an instruction at an offset fit their encodings. -/
def Fits (start : Nat) : Instruction → Prop
  | plain op => op.isPlain
  | load slot => slot < 256
  | store slot => slot < 256
  | getStatic slot => slot < 65536
  | putStatic slot => slot < 65536
  | getField offset => offset < 65536
  | putField offset => offset < 65536
  | inc slot _ => slot < 256
  | new size => size < 65536
  | jump op target => op.isJump ∧ Reaches start target
  | call target => Reaches start target
  | enter params frameSize => params < 256 ∧ frameSize < 256
  | invokeVirtual name => ∀ word ∈ name, word ≠ -1
  | const _ => True
  | newArray _ => True
  | trap _ => True

theorem size_pos (instr : Instruction) : 0 < instr.size := by
  cases instr <;> simp only [size] <;> (try split) <;> omega

@[simp] theorem length_encode (start : Nat) (instr : Instruction) :
    (instr.encode start).length = instr.size := by
  have names (name : List Int32) : (name.flatMap wordBytes).length = 4 * name.length := by
    induction name with
    | nil => rfl
    | cons word rest ih => simp [ih, wordBytes]; omega
  cases instr <;>
    simp only [encode, operandBytes, size, slotBytes, reachBytes, wordBytes, length_cons,
      BigEndian.length_encode, length_nil]
  case load => split <;> rfl
  case store => split <;> rfl
  case const => split <;> simp
  case invokeVirtual name =>
    rw [length_append, names name, BigEndian.length_encode]
    omega

end Instruction

namespace Code

/-! ## Bytes at an offset -/

/-- The bytes from an offset on are the given ones. -/
def Shows (code : Code) (offset : Nat) (bytes : List UInt8) : Prop :=
  ∀ index byte, bytes[index]? = some byte → code.bytes[offset + index]? = some byte

theorem Shows.append {first second : List UInt8} (shows : code.Shows offset (first ++ second)) :
    code.Shows offset first ∧ code.Shows (offset + first.length) second := by
  constructor
  · intro index byte here
    apply shows
    rw [getElem?_append_left (List.getElem?_eq_some_iff.mp here).1]
    exact here
  · intro index byte here
    rw [Nat.add_assoc]
    apply shows
    rw [getElem?_append_right (Nat.le_add_right _ _), Nat.add_sub_cancel_left]
    exact here

variable {byte : UInt8} {op : Opcode}

theorem Shows.tail (shows : code.Shows offset (byte :: rest)) :
    code.Shows (offset + 1) rest := by
  have split : code.Shows offset ([byte] ++ rest) := shows
  exact split.append.2

theorem Shows.byteAt? (shows : code.Shows offset (byte :: rest)) :
    code.byteAt? offset = some byte :=
  shows 0 byte rfl

theorem Shows.le_size (shows : code.Shows offset bytes) (nonempty : bytes ≠ []) :
    offset + bytes.length ≤ code.size := by
  have positive : 0 < bytes.length := length_pos_iff.mpr nonempty
  have last := shows (bytes.length - 1) _ (getElem?_eq_getElem (by omega))
  have bound := (Array.getElem?_eq_some_iff.mp last).1
  simp only [Code.size]
  omega

theorem Shows.bytesAt? (shows : code.Shows offset bytes) (nonempty : bytes ≠ []) :
    code.bytesAt? offset bytes.length = some bytes := by
  have bound := shows.le_size nonempty
  simp only [Code.bytesAt?, covers, decide_eq_true_eq, bound, if_true, Option.some.injEq]
  apply ext_getElem?
  intro index
  simp only [Array.getElem?_toList, Array.getElem?_extract]
  by_cases inside : index < bytes.length
  · have here := shows index _ (getElem?_eq_getElem inside)
    have small : index < min (offset + bytes.length) code.bytes.size - offset := by
      simp only [Code.size] at bound
      omega
    rw [if_pos small, here, getElem?_eq_getElem inside]
  · have large : ¬ index < min (offset + bytes.length) code.bytes.size - offset := by omega
    rw [if_neg large, getElem?_eq_none (by omega)]

/-! ## Numbers at an offset -/

theorem Shows.uint16At? {value : Nat} (shows : code.Shows offset (BigEndian.encode 2 value)) :
    code.uint16At? offset = some (UInt16.ofNat value) := by
  have read := shows.bytesAt? (by simp [BigEndian.encode])
  rw [BigEndian.length_encode] at read
  simp only [Code.uint16At?, read, Option.map_some, BigEndian.decode_encode, BigEndian.capacity,
    Option.some.injEq]
  apply UInt16.toNat.inj
  simp

theorem Shows.int16At? {value : Int16}
    (shows : code.Shows offset (BigEndian.encode 2 value.toUInt16.toNat)) :
    code.int16At? offset = some value := by
  simp [Code.int16At?, shows.uint16At?]

theorem Shows.wordAt? {word : Int32} (shows : code.Shows offset (Instruction.wordBytes word)) :
    code.wordAt? offset = some word := by
  have read := shows.bytesAt? (by simp [Instruction.wordBytes, BigEndian.encode])
  have fits : word.toUInt32.toNat < BigEndian.capacity 4 := word.toUInt32.toNat_lt
  simp only [Instruction.wordBytes, BigEndian.length_encode] at read
  simp only [Code.wordAt?, read, Option.map_some, BigEndian.decode_encode_of_lt fits,
    UInt32.ofNat_toNat, Int32.toInt32_toUInt32]

theorem Shows.wordsUntilClose {fuel : Nat}
    (shows : code.Shows offset
      (name.flatMap Instruction.wordBytes ++ Instruction.wordBytes (-1)))
    (open_ : ∀ word ∈ name, word ≠ -1)
    (enough : name.length < fuel) :
    code.wordsUntilClose fuel offset = some name := by
  induction name generalizing offset fuel with
  | nil =>
    obtain ⟨fuel, rfl⟩ : ∃ rest, fuel = rest + 1 := ⟨fuel - 1, by simp at enough; omega⟩
    have word := Shows.wordAt? (by simpa using shows)
    simp [Code.wordsUntilClose, word]
  | cons word rest ih =>
    obtain ⟨fuel, rfl⟩ : ∃ left, fuel = left + 1 := ⟨fuel - 1, by simp at enough; omega⟩
    rw [flatMap_cons, append_assoc] at shows
    obtain ⟨here, later⟩ := shows.append
    have size : (Instruction.wordBytes word).length = 4 := by simp [Instruction.wordBytes]
    rw [size] at later
    have found := ih later (fun other inRest => open_ other (mem_cons_of_mem _ inRest))
      (by simp at enough; omega)
    have differs : word ≠ -1 := open_ word mem_cons_self
    simp [Code.wordsUntilClose, here.wordAt?, differs, found]

/-! ## Reading instructions -/

/-- The instruction at an offset. -/
def instructionAt? (code : Code) (offset : Nat) : Option Instruction :=
  match code.opAt? offset with
  | none => none
  | some .load => (code.byteAt? (offset + 1)).map fun byte => .load byte.toNat
  | some .load0 => some (.load 0)
  | some .load1 => some (.load 1)
  | some .load2 => some (.load 2)
  | some .load3 => some (.load 3)
  | some .store => (code.byteAt? (offset + 1)).map fun byte => .store byte.toNat
  | some .store0 => some (.store 0)
  | some .store1 => some (.store 1)
  | some .store2 => some (.store 2)
  | some .store3 => some (.store 3)
  | some .getStatic => (code.uint16At? (offset + 1)).map fun slot => .getStatic slot.toNat
  | some .putStatic => (code.uint16At? (offset + 1)).map fun slot => .putStatic slot.toNat
  | some .getField => (code.uint16At? (offset + 1)).map fun field => .getField field.toNat
  | some .putField => (code.uint16At? (offset + 1)).map fun field => .putField field.toNat
  | some .const0 => some (.const 0)
  | some .const1 => some (.const 1)
  | some .const2 => some (.const 2)
  | some .const3 => some (.const 3)
  | some .const4 => some (.const 4)
  | some .const5 => some (.const 5)
  | some .constM1 => some (.const (-1))
  | some .const => (code.wordAt? (offset + 1)).map .const
  | some .inc =>
      match code.byteAt? (offset + 1), code.byteAt? (offset + 2) with
      | some slot, some delta => some (.inc slot.toNat delta.toInt8)
      | _, _ => none
  | some .new => (code.uint16At? (offset + 1)).map fun size => .new size.toNat
  | some .newArray => (code.byteAt? (offset + 1)).map .newArray
  | some .call => (code.targetAt? offset).map .call
  | some .enter =>
      match code.byteAt? (offset + 1), code.byteAt? (offset + 2) with
      | some params, some frameSize => some (.enter params.toNat frameSize.toNat)
      | _, _ => none
  | some .trap => (code.byteAt? (offset + 1)).map .trap
  | some .invokeVirtual => (code.nameAt? offset).map .invokeVirtual
  | some op =>
      if op.isJump then (code.targetAt? offset).map (.jump op) else some (.plain op)

/-- An instruction stands at an offset, with operands that fit. -/
structure Spells (code : Code) (offset : Nat) (instr : Instruction) : Prop where
  fits : instr.Fits offset
  bytes : code.Shows offset (instr.encode offset)

theorem Spells.opAt? (spells : code.Spells offset instr) :
    code.opAt? offset = some instr.op := by
  have first := spells.bytes.byteAt?
  simp [Code.opAt?, first]

theorem Spells.operands (spells : code.Spells offset instr) :
    code.Shows (offset + 1) (instr.operandBytes offset) :=
  spells.bytes.tail

theorem Spells.le_size (spells : code.Spells offset instr) :
    offset + instr.size ≤ code.size := by
  have bound := spells.bytes.le_size (by simp [Instruction.encode])
  rwa [Instruction.length_encode] at bound

theorem targetAt?_of_reachBytes (here : code.opAt? offset = some op)
    (leads : (op.isJump || op = .call) = true) (reaches : Instruction.Reaches offset target)
    (shows : code.Shows (offset + 1) (Instruction.reachBytes offset target)) :
    code.targetAt? offset = some target := by
  obtain ⟨low, high⟩ := reaches
  have distance : (Int16.ofInt ((target : Int) - offset)).toInt = (target : Int) - offset :=
    Int16.toInt_ofInt_of_le (by omega) (by omega)
  have sum : (offset : Int) + ((target : Int) - offset) = target := by omega
  simp only [Code.targetAt?, here, leads, if_true, shows.int16At?, distance, sum,
    Int.natCast_nonneg, Int.toNat_natCast]

theorem Spells.targetAt?_jump (spells : code.Spells offset (.jump op target)) :
    code.targetAt? offset = some target :=
  targetAt?_of_reachBytes spells.opAt? (by simp [Instruction.op, spells.fits.1]) spells.fits.2
    spells.operands

theorem Spells.targetAt?_call (spells : code.Spells offset (.call target)) :
    code.targetAt? offset = some target :=
  targetAt?_of_reachBytes spells.opAt? rfl spells.fits spells.operands

theorem Spells.nameAt? (spells : code.Spells offset (.invokeVirtual name)) :
    code.nameAt? offset = some name := by
  have bound := spells.le_size
  simp only [Instruction.size] at bound
  exact spells.operands.wordsUntilClose spells.fits (by omega)

theorem instructionAt?_of_isPlain (here : code.opAt? offset = some op) (isPlain : op.isPlain) :
    code.instructionAt? offset = some (.plain op) := by
  cases op <;>
    first
      | exact absurd isPlain (by decide)
      | simp only [Code.instructionAt?, here, Opcode.isJump, Bool.false_eq_true, if_false]

theorem instructionAt?_of_isJump (here : code.opAt? offset = some op) (isJump : op.isJump) :
    code.instructionAt? offset = (code.targetAt? offset).map (.jump op) := by
  cases op <;>
    first
      | exact absurd isJump (by decide)
      | simp only [Code.instructionAt?, here, Opcode.isJump, if_true]

theorem instructionAt?_constOp {value : Int32}
    (here : code.opAt? offset = some (Instruction.constOp value))
    (word : Instruction.constOp value = .const → code.wordAt? (offset + 1) = some value) :
    code.instructionAt? offset = some (.const value) := by
  unfold Instruction.constOp at here word
  split_ifs at here word <;> simp_all [Code.instructionAt?]

/-- The instruction that was written is read back. -/
theorem Spells.instructionAt? (spells : code.Spells offset instr) :
    code.instructionAt? offset = some instr := by
  have here := spells.opAt?
  have operands := spells.operands
  have fits := spells.fits
  cases instr with
  | plain op => exact instructionAt?_of_isPlain here fits
  | load slot | store slot =>
    match slot with
    | 0 | 1 | 2 | 3 => simp [Code.instructionAt?, here, Instruction.op]
    | slot + 4 =>
      have byte := operands.byteAt?
      simp only [Code.instructionAt?, here, Instruction.op, byte, Option.map_some,
        UInt8.toNat_ofNat_of_lt' fits]
  | getStatic _ | putStatic _ | getField _ | putField _ | new _ =>
    simp only [Code.instructionAt?, here, Instruction.op, Shows.uint16At? operands,
      Option.map_some, UInt16.toNat_ofNat_of_lt' fits]
  | const value =>
    apply instructionAt?_constOp here
    intro long
    rw [Instruction.operandBytes, if_pos long] at operands
    exact operands.wordAt?
  | inc slot delta =>
    simp only [Code.instructionAt?, here, Instruction.op, operands.byteAt?,
      operands.tail.byteAt?, UInt8.toNat_ofNat_of_lt' fits, Int8.toInt8_toUInt8]
  | newArray _ | trap _ =>
    simp only [Code.instructionAt?, here, Instruction.op, operands.byteAt?, Option.map_some]
  | jump op target =>
    rw [instructionAt?_of_isJump here fits.1, spells.targetAt?_jump, Option.map_some]
    rfl
  | call target =>
    simp only [Code.instructionAt?, here, Instruction.op, spells.targetAt?_call,
      Option.map_some]
  | enter params frameSize =>
    simp only [Code.instructionAt?, here, Instruction.op, operands.byteAt?,
      operands.tail.byteAt?, UInt8.toNat_ofNat_of_lt' fits.1, UInt8.toNat_ofNat_of_lt' fits.2]
  | invokeVirtual name =>
    simp only [Code.instructionAt?, here, Instruction.op, spells.nameAt?, Option.map_some]

theorem instructionSize?_of_ne_invokeVirtual (here : code.opAt? offset = some op)
    (other : op ≠ .invokeVirtual) :
    code.instructionSize? offset = some (1 + op.operandSize) := by
  cases op <;>
    first
      | exact absurd rfl other
      | simp only [Code.instructionSize?, here]

theorem operandSize_constOp (value : Int32) :
    1 + (Instruction.constOp value).operandSize = (Instruction.const value).size := by
  simp only [Instruction.size]
  unfold Instruction.constOp
  split_ifs <;> simp_all [Opcode.operandSize]

theorem operandSize_of_isPlain (isPlain : op.isPlain) : op.operandSize = 0 := by
  cases op <;> first | rfl | exact absurd isPlain (by decide)

theorem operandSize_of_isJump (isJump : op.isJump) : op.operandSize = 2 := by
  cases op <;> first | rfl | exact absurd isJump (by decide)

theorem Spells.instructionSize? (spells : code.Spells offset instr) :
    code.instructionSize? offset = some instr.size := by
  have here := spells.opAt?
  have fits := spells.fits
  cases instr with
  | plain op =>
    have size := operandSize_of_isPlain fits
    have other : op ≠ .invokeVirtual := by
      rintro rfl
      exact absurd fits (by simp [Instruction.Fits, Opcode.isPlain])
    rw [instructionSize?_of_ne_invokeVirtual here other]
    simp [Instruction.op, size, Instruction.size]
  | load slot | store slot =>
    match slot with
    | 0 | 1 | 2 | 3 | slot + 4 =>
      rw [instructionSize?_of_ne_invokeVirtual here (by simp [Instruction.op])]
      simp [Instruction.op, Opcode.operandSize, Instruction.size]
  | const value =>
    have other : Instruction.constOp value ≠ .invokeVirtual := by
      unfold Instruction.constOp
      split_ifs <;> simp
    rw [instructionSize?_of_ne_invokeVirtual here other, ← operandSize_constOp value]
    rfl
  | jump op target =>
    have size := operandSize_of_isJump fits.1
    have other : op ≠ .invokeVirtual := by
      rintro rfl
      exact absurd fits.1 (by decide)
    rw [instructionSize?_of_ne_invokeVirtual here other]
    simp [Instruction.op, size, Instruction.size]
  | invokeVirtual name =>
    simp only [Code.instructionSize?, here, Instruction.op, spells.nameAt?, Option.map_some,
      Instruction.size]
  | _ =>
    rw [instructionSize?_of_ne_invokeVirtual here (by simp [Instruction.op])]
    rfl

end Code
end MicroJava
