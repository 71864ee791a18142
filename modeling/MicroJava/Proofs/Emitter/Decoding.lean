import MicroJava.Proofs.Emitter.Operations
import MicroJava.Proofs.Layout.Statements

/-!
# Decoding what was emitted

Whatever whole instructions are emitted, the code splits at the offsets where they were
emitted, and at each of them the instruction is read back.  `Writing.Yields` says which
instructions stand for a writing.
-/

namespace MicroJava

open List

variable {before after : Emitter} {part : List Instruction} {writing : Writing}
  {operation : Operation} {granted : Granted}

/-! ## What stands for a writing -/

/-- The instruction of an operation without operands; a short form stands for its operand. -/
def Opcode.alone : Opcode → Instruction
  | .load0 => .load 0
  | .load1 => .load 1
  | .load2 => .load 2
  | .load3 => .load 3
  | .store0 => .store 0
  | .store1 => .store 1
  | .store2 => .store 2
  | .store3 => .store 3
  | .const0 => .const 0
  | .const1 => .const 1
  | .const2 => .const 2
  | .const3 => .const 3
  | .const4 => .const 4
  | .const5 => .const 5
  | .constM1 => .const (-1)
  | op => .plain op

/-- The characters whose code points are the given words. -/
def Instruction.nameOf (words : List Int32) : String :=
  String.ofList (words.map fun word => Char.ofNat word.toInt.toNat)

namespace Writing

/-- Whether an instruction is written with all of its operands. -/
def isWhole : Writing → Bool
  | op code => code.operandSize = 0
  | opByte code _ => code = .newArray || code = .trap
  | opBytes _ _ _ | opUInt16 _ _ | opInt16 _ _ => false
  | jumpTo code _ => code.isJump
  | _ => true

/-- One instruction with a number as its operand. -/
def YieldsNumber (instr : Nat → Instruction) (value : Int) (part : List Instruction) : Prop :=
  ∃ number : Nat, (number : Int) = value ∧ part = [instr number]

/-- The instructions from which a writing can be told. -/
def Yields : Writing → List Instruction → Prop
  | op code, part => part = [code.alone]
  | opByte code operand, part =>
      code = .newArray ∧ part = [.newArray operand] ∨ code = .trap ∧ part = [.trap operand]
  | opBytes _ _ _, _ | opUInt16 _ _, _ | opInt16 _ _, _ => False
  | const value, part => part = [.const value]
  | loadLocal slot, part => YieldsNumber .load slot part
  | storeLocal slot, part => YieldsNumber .store slot part
  | getStatic slot, part => YieldsNumber .getStatic slot part
  | putStatic slot, part => YieldsNumber .putStatic slot part
  | getField offset, part => YieldsNumber .getField offset part
  | putField offset, part => YieldsNumber .putField offset part
  | inc slot delta, part => YieldsNumber (.inc · delta) slot part
  | newObject size, part => part = [.new size]
  | newArray ofWords, part => part = [.newArray (if ofWords then 1 else 0)]
  | ret, part => part = [.plain .exit, .plain .ret]
  | invokeVirtual name, part =>
      ∃ words, Instruction.nameOf words = name ∧ part = [.invokeVirtual words]
  | trap number, part => part = [.trap number]
  | jumpTo code target, part => part = [.jump code target]
  | call target, part => part = [.call target]

end Writing

namespace Operation

/-- Whether an operation writes whole instructions and nothing else. -/
def isWhole : Operation → Bool
  | write writing => writing.isWhole
  | enter _ _ => true
  | _ => false

/-- The instructions from which an operation can be told. -/
def Yields : Operation → List Instruction → Prop
  | write writing, part => writing.Yields part
  | enter params frameSize, part => part = [.enter params frameSize]
  | _, _ => False

/-- Run operations one after the other, and note the offset of each. -/
def emitAll : List Operation → Emit (List Nat)
  | [] => return []
  | operation :: rest => do
      let start ← Emit.offset
      let _ ← operation.act
      return start :: (← emitAll rest)

end Operation

/-! ## One operation -/

theorem Opcode.alone_writes {op : Opcode} (noOperands : op.operandSize = 0)
    (ran : Emit.op op before = .ok () after) :
    before.Writes after op.alone := by
  have written := Emit.op_ok ran
  cases op <;>
    first
      | exact absurd noOperands (by decide)
      | exact ⟨by simp [alone, Instruction.Fits, isPlain], written⟩

theorem Instruction.nameOf_nameWords (name : String) : nameOf (Site.nameWords name) = name := by
  have each (c : Char) : Char.ofNat (Int32.ofNat c.toNat).toInt.toNat = c := by
    have small := Emit.codePoint_lt c
    rw [Int32.toInt_ofNat_of_lt (by omega), Int.toNat_natCast, Char.ofNat_toNat]
  have all : (Site.nameWords name).map (fun word => Char.ofNat word.toInt.toNat) = name.toList := by
    rw [Site.nameWords, map_map]
    exact (map_congr_left fun c _ => each c).trans (map_id _)
  rw [nameOf, all, String.ofList_toList]

namespace Emitter

/-- Whole instructions are appended. -/
def Appends (before after : Emitter) (part : List Instruction) : Prop :=
  ∀ host : Generator,
    { host with emitter := before }.Emits { host with emitter := after } part 0

namespace Appends

theorem of_writes {instr : Instruction} (writes : before.Writes after instr) :
    before.Appends after [instr] :=
  fun host => .of_writes
    (show { host with emitter := before }.emitter.Writes after instr from writes)

theorem refl (emitter : Emitter) : emitter.Appends emitter [] := fun _ => .refl _

theorem trans {first second third : Emitter} {more : List Instruction}
    (appends : first.Appends second part) (next : second.Appends third more) :
    first.Appends third (part ++ more) :=
  fun host => (appends host).trans (next host)

theorem size (appends : before.Appends after part) :
    after.code.size = before.code.size + Instruction.totalSize part :=
  (appends default).lays.size_eq

theorem holds (appends : before.Appends after part) : after.code.Holds before.code.size part :=
  (appends default).lays.claims _ fun _ _ _ _ => rfl

end Appends
end Emitter

theorem Writing.yieldsNumber_of_writes {instr : Nat → Instruction} {value : Int}
    (ran : 0 ≤ value ∧ before.Writes after (instr value.toNat)) :
    ∃ part, YieldsNumber instr value part ∧ before.Appends after part :=
  ⟨_, ⟨value.toNat, Int.toNat_of_nonneg ran.1, rfl⟩, .of_writes ran.2⟩

theorem Writing.act_yields (whole : writing.isWhole) (ran : writing.act before = .ok () after) :
    ∃ part, writing.Yields part ∧ before.Appends after part := by
  cases writing with
  | op code => exact ⟨_, rfl, .of_writes (Opcode.alone_writes (of_decide_eq_true whole) ran)⟩
  | opByte code operand =>
    rcases (Bool.or_eq_true _ _).mp whole with isArray | isTrap
    · obtain rfl := of_decide_eq_true isArray
      exact ⟨_, .inl ⟨rfl, rfl⟩, .of_writes ⟨trivial, Emit.opByte_ok ran⟩⟩
    · obtain rfl := of_decide_eq_true isTrap
      exact ⟨_, .inr ⟨rfl, rfl⟩, .of_writes ⟨trivial, Emit.opByte_ok ran⟩⟩
  | opBytes _ _ _ => cases whole
  | opUInt16 _ _ => cases whole
  | opInt16 _ _ => cases whole
  | const value => exact ⟨_, rfl, .of_writes (Emit.const_writes ran)⟩
  | loadLocal slot => exact yieldsNumber_of_writes (Emit.loadLocal_writes ran)
  | storeLocal slot => exact yieldsNumber_of_writes (Emit.storeLocal_writes ran)
  | getStatic slot => exact yieldsNumber_of_writes (Emit.getStatic_writes ran)
  | putStatic slot => exact yieldsNumber_of_writes (Emit.putStatic_writes ran)
  | getField offset => exact yieldsNumber_of_writes (Emit.getField_writes ran)
  | putField offset => exact yieldsNumber_of_writes (Emit.putField_writes ran)
  | inc slot delta => exact yieldsNumber_of_writes (Emit.inc_writes ran)
  | newObject size => exact ⟨_, rfl, .of_writes (Emit.newObject_writes ran)⟩
  | newArray ofWords => exact ⟨_, rfl, .of_writes (Emit.newArray_writes ran)⟩
  | ret =>
    refine ⟨_, rfl, fun host => Gen.ret_emits ?_⟩
    simp only [Gen.emit, show Emit.ret before = .ok () after from ran]
  | invokeVirtual name =>
    exact ⟨_, ⟨_, Instruction.nameOf_nameWords name, rfl⟩,
      .of_writes (Emit.invokeVirtual_writes ran)⟩
  | trap number => exact ⟨_, rfl, .of_writes (Emit.trap_writes ran)⟩
  | jumpTo code target => exact ⟨_, rfl, .of_writes (Emit.jumpTo_writes whole ran)⟩
  | call target => exact ⟨_, rfl, .of_writes (Emit.call_writes ran)⟩

namespace Operation

open Run

/-- An operation appends instructions from which it can be told. -/
theorem act_yields (whole : operation.isWhole) (ran : operation.act before = .ok granted after) :
    ∃ part, operation.Yields part ∧ before.Appends after part := by
  cases operation with
  | write writing =>
    obtain ⟨_, _, wrote⟩ := plainly_ok ran
    exact Writing.act_yields whole wrote
  | enter params frameSize =>
    obtain ⟨_, _, entered, ran⟩ := bind_ok ran
    obtain ⟨_, rfl⟩ := pure_ok ran
    exact ⟨_, rfl, .of_writes (Emit.enter_writes entered).2⟩
  | _ => cases whole

/-! ## Sequences of operations -/

variable {operations : List Operation} {starts : List Nat}

theorem emitAll_appends {tells : Operation → List Instruction → Prop}
    (step : ∀ operation ∈ operations, ∀ early granted late, operation.act early = .ok granted late →
      ∃ part, tells operation part ∧ early.Appends late part)
    (ran : emitAll operations before = .ok starts after) :
    ∃ parts, List.Forall₂ tells operations parts ∧ before.Appends after parts.flatten ∧
      (List.zipWith Instruction.located starts parts).flatten =
        Instruction.located before.code.size parts.flatten := by
  induction operations generalizing before starts with
  | nil =>
    obtain ⟨rfl, rfl⟩ := pure_ok ran
    exact ⟨[], .nil, .refl _, rfl⟩
  | cons operation rest ih =>
    obtain ⟨start, _, located, ran⟩ := bind_ok ran
    obtain ⟨rfl, rfl⟩ := Emit.offset_ok located
    obtain ⟨granted, between, acted, ran⟩ := bind_ok ran
    obtain ⟨later, _, restRan, ran⟩ := bind_ok ran
    obtain ⟨rfl, rfl⟩ := pure_ok ran
    obtain ⟨part, isPart, appends⟩ := step operation mem_cons_self _ _ _ acted
    obtain ⟨parts, areParts, appendsRest, places⟩ :=
      ih (fun other member => step other (mem_cons_of_mem _ member)) restRan
    refine ⟨part :: parts, .cons isPart areParts, appends.trans appendsRest, ?_⟩
    rw [zipWith_cons_cons, flatten_cons, flatten_cons, places,
      Instruction.located_append, appends.size]

/-- Whatever whole instructions are emitted one after the other, the code splits into
instructions exactly where they were emitted, and reading each of them there gives back what was
emitted. -/
theorem emitAll_isDecoded {emitter : Emitter}
    (whole : ∀ operation ∈ operations, operation.isWhole)
    (ran : emitAll operations {} = .ok starts emitter) :
    ∃ parts, List.Forall₂ Yields operations parts ∧
      emitter.code.offsets = (List.zipWith Instruction.starts starts parts).flatten ∧
      ∀ entry ∈ (List.zipWith Instruction.located starts parts).flatten,
        emitter.code.instructionAt? entry.1 = some entry.2 := by
  obtain ⟨parts, yields, appends, places⟩ := emitAll_appends
    (fun operation member _ _ _ => act_yields (whole operation member)) ran
  have holds : emitter.code.Holds 0 parts.flatten := appends.holds
  have ends : Instruction.totalSize parts.flatten = emitter.code.size := by
    rw [appends.size]
    exact (Nat.zero_add _).symm
  refine ⟨parts, yields, ?_, fun entry member => ?_⟩
  · rw [holds.offsets_eq ends, Instruction.starts, show 0 = ({} : Emitter).code.size from rfl,
      ← places, map_flatten, map_zipWith]
    rfl
  · rw [places] at member
    exact (holds.spells member).instructionAt?

/-- Short and long forms, signed operands, a name, and jumps in both directions. -/
def mixedExample : List Operation :=
  [.enter 1 3, .write (.op .load2), .write (.const (-1)), .write (.const (-70000)),
    .write (.loadLocal 200), .write (.inc 7 (-1)), .write (.getStatic 65535),
    .write (.invokeVirtual "né"), .write (.jumpTo .jmp 40), .write (.opByte .newArray 9),
    .write .ret, .write (.call 0)]

/-- The instructions of the example. -/
def mixedInstructions : List Instruction :=
  [.enter 1 3, .load 2, .const (-1), .const (-70000), .load 200, .inc 7 (-1), .getStatic 65535,
    .invokeVirtual [110, 233], .jump .jmp 40, .newArray 9, .plain .exit, .plain .ret, .call 0]

theorem emitAll_isDecoded_mixed :
    ∃ starts emitter parts, emitAll mixedExample {} = .ok starts emitter ∧
      List.Forall₂ Yields mixedExample parts ∧
      emitter.code.offsets = (List.zipWith Instruction.starts starts parts).flatten ∧
      (∀ entry ∈ (List.zipWith Instruction.located starts parts).flatten,
        emitter.code.instructionAt? entry.1 = some entry.2) ∧
      emitter.code.offsets = [0, 3, 4, 5, 10, 12, 15, 18, 31, 34, 36, 37, 38] ∧
      emitter.code.offsets.map emitter.code.instructionAt? = mixedInstructions.map some := by
  have summary : (match emitAll mixedExample {} with
      | .ok _ emitter =>
          some (emitter.code.offsets, emitter.code.offsets.map emitter.code.instructionAt?)
      | .error _ _ => none) =
      some ([0, 3, 4, 5, 10, 12, 15, 18, 31, 34, 36, 37, 38], mixedInstructions.map some) := by
    decide +kernel
  cases ran : emitAll mixedExample {} with
  | error fault emitter =>
    rw [ran] at summary
    cases summary
  | ok starts emitter =>
    rw [ran] at summary
    obtain ⟨offsets, instructions⟩ := Prod.mk.inj (Option.some.inj summary)
    obtain ⟨parts, yields, splits, decoded⟩ := emitAll_isDecoded (by decide) ran
    exact ⟨starts, emitter, parts, rfl, yields, splits, decoded, offsets, instructions⟩

end Operation
end MicroJava
