import MicroJava.Proofs.Layout.Direct

/-!
# What straight code emits

Every operation of the emitter that succeeds appends the bytes of one instruction.  `Emits`
says that a run of the generator without jumps appends a sequence of instructions.
-/

namespace MicroJava

open List

variable {values : List UInt8} {higher start peak count target : Nat} {operand : UInt16}
  {before after emitter : Emitter} {slot value : Int} {claim : Code → Prop}
  {code : List Instruction} {op : Opcode} {waiting : List Nat} {what : String}
  {first second third generator : Generator} {instr : Instruction}

/-! ## Inverting runs that may fail -/

namespace Run

variable {ε σ α β : Type} {act : α → EStateM ε σ PUnit} {next : α → EStateM ε σ β}
  {result : PUnit}

theorem bind_ok {first : EStateM ε σ α} {before after : σ} {result : β}
    (ran : (first >>= next) before = .ok result after) :
    ∃ value between, first before = .ok value between ∧
      next value between = .ok result after := by
  cases run : first before with
  | ok value between =>
    refine ⟨value, between, rfl, ?_⟩
    simpa [bind, EStateM.bind, run] using ran
  | error fault between => simp [bind, EStateM.bind, run] at ran

theorem ok_bind {first : EStateM ε σ α} {before between : σ} {value : α}
    (ran : first before = .ok value between) :
    (first >>= next) before = next value between := by
  simp only [bind, EStateM.bind, ran]

theorem pure_ok {value result : α} {before after : σ}
    (ran : (pure value : EStateM ε σ α) before = .ok result after) :
    result = value ∧ before = after := by
  simp only [pure, EStateM.pure, EStateM.Result.ok.injEq] at ran
  exact ⟨ran.1.symm, ran.2⟩

theorem discard_ok {act : EStateM ε σ α} {before after : σ} {result : Unit}
    (ran : (discard act) before = .ok result after) :
    ∃ value, act before = .ok value after := by
  cases run : act before with
  | ok value between =>
    simp only [discard, Functor.discard, Functor.mapConst, EStateM.map, run, Function.comp]
      at ran
    simp_all
  | error fault between =>
    simp [discard, Functor.discard, Functor.mapConst, EStateM.map, run] at ran

theorem forM_nil_ok {before after : σ} (ran : ([] : List α).forM act before = .ok result after) :
    before = after :=
  (pure_ok ran).2

theorem forM_cons_ok {first : α} {rest : List α} {before after : σ}
    (ran : (first :: rest).forM act before = .ok result after) :
    ∃ between, act first before = .ok () between ∧ rest.forM act between = .ok () after := by
  rw [List.forM] at ran
  obtain ⟨_, between, acted, later⟩ := bind_ok ran
  exact ⟨between, acted, later⟩

end Run

/-! ## Operations of the emitter -/

/-- An emitter with further bytes. -/
def Emitter.write (emitter : Emitter) (bytes : List UInt8) : Emitter :=
  { emitter with code := emitter.code.push emitter.line bytes }

/-- One instruction is appended, and its operands fit. -/
structure Emitter.Writes (before after : Emitter) (instr : Instruction) : Prop where
  fits : instr.Fits before.code.size
  eq : after = before.write (instr.encode before.code.size)

namespace Emit

open Run

theorem grow_ok {append : Code → Nat → Code} (ran : grow append before = .ok () after)
    (isAppended : append before.code before.line = before.code.push before.line values) :
    after = before.write values := by
  cases ran
  exact congrArg (fun code => { before with code := code }) isAppended

theorem bytes_ok (ran : bytes values before = .ok () after) : after = before.write values :=
  grow_ok ran rfl

theorem op_ok (ran : Emit.op op before = .ok () after) : after = before.write [op.byte] :=
  grow_ok ran rfl

theorem opByte_ok {operand : UInt8} (ran : opByte op operand before = .ok () after) :
    after = before.write [op.byte, operand] :=
  grow_ok ran rfl

theorem opBytes_ok {first second : UInt8} (ran : opBytes op first second before = .ok () after) :
    after = before.write [op.byte, first, second] :=
  grow_ok ran rfl

theorem opUInt16_ok (ran : opUInt16 op operand before = .ok () after) :
    after = before.write (op.byte :: BigEndian.encode 2 operand.toNat) :=
  grow_ok ran rfl

theorem opInt16_ok {operand : Int16} (ran : opInt16 op operand before = .ok () after) :
    after = before.write (op.byte :: BigEndian.encode 2 operand.toUInt16.toNat) :=
  grow_ok ran rfl

theorem ret_ok (ran : ret before = .ok () after) :
    after = before.write [Opcode.exit.byte, Opcode.ret.byte] :=
  grow_ok ran rfl

theorem offset_ok (ran : offset before = .ok start after) :
    start = before.code.size ∧ before = after := by
  cases ran
  exact ⟨rfl, rfl⟩

theorem op_writes (isPlain : op.isPlain) (ran : Emit.op op before = .ok () after) :
    before.Writes after (.plain op) :=
  ⟨isPlain, op_ok ran⟩

theorem const_writes {value : Int32} (ran : const value before = .ok () after) :
    before.Writes after (.const value) := by
  refine ⟨trivial, ?_⟩
  unfold Emit.const at ran
  split_ifs at ran with zero one two three four five minusOne
  · subst zero; exact op_ok ran
  · subst one; exact op_ok ran
  · subst two; exact op_ok ran
  · subst three; exact op_ok ran
  · subst four; exact op_ok ran
  · subst five; exact op_ok ran
  · subst minusOne; exact op_ok ran
  · have long : Instruction.constOp value = .const := by
      simp only [Instruction.constOp, zero, one, two, three, four, five, minusOne, if_false]
    rw [Instruction.encode, Instruction.op, Instruction.operandBytes, long]
    exact grow_ok ran rfl

theorem byteOperand_ok {operand : UInt8} (ran : byteOperand what value before = .ok operand after) :
    (0 ≤ value ∧ value < 256) ∧ operand = UInt8.ofNat value.toNat ∧ before = after := by
  unfold byteOperand at ran
  split at ran
  next inRange => exact ⟨inRange, pure_ok ran⟩
  next => cases ran

theorem uint16Operand_ok (ran : uint16Operand what value before = .ok operand after) :
    (0 ≤ value ∧ value < 65536) ∧ operand = UInt16.ofNat value.toNat ∧ before = after := by
  unfold uint16Operand at ran
  split at ran
  next inRange => exact ⟨inRange, pure_ok ran⟩
  next => cases ran

theorem displacement_ok {source : Nat} {distance : Int16}
    (ran : displacement source target before = .ok distance after) :
    Instruction.Reaches source target ∧ distance = Int16.ofInt ((target : Int) - source) ∧
      before = after := by
  simp only [displacement] at ran
  split at ran
  next inRange => exact ⟨inRange, pure_ok ran⟩
  next => cases ran

theorem loadLocal_writes (ran : loadLocal slot before = .ok () after) :
    0 ≤ slot ∧ before.Writes after (.load slot.toNat) := by
  unfold loadLocal at ran
  split_ifs at ran with zero one two three
  · subst zero; exact ⟨by decide, by simp [Instruction.Fits], op_ok ran⟩
  · subst one; exact ⟨by decide, by simp [Instruction.Fits], op_ok ran⟩
  · subst two; exact ⟨by decide, by simp [Instruction.Fits], op_ok ran⟩
  · subst three; exact ⟨by decide, by simp [Instruction.Fits], op_ok ran⟩
  · obtain ⟨operand, between, checked, written⟩ := bind_ok ran
    obtain ⟨⟨low, high⟩, rfl, rfl⟩ := byteOperand_ok checked
    obtain ⟨slot, rfl⟩ := Int.eq_ofNat_of_zero_le low
    obtain ⟨rest, rfl⟩ : ∃ rest, slot = rest + 4 := ⟨slot - 4, by omega⟩
    refine ⟨low, ?_, opByte_ok written⟩
    simp only [Instruction.Fits, Int.toNat_natCast]
    omega

theorem storeLocal_writes (ran : storeLocal slot before = .ok () after) :
    0 ≤ slot ∧ before.Writes after (.store slot.toNat) := by
  unfold storeLocal at ran
  split_ifs at ran with zero one two three
  · subst zero; exact ⟨by decide, by simp [Instruction.Fits], op_ok ran⟩
  · subst one; exact ⟨by decide, by simp [Instruction.Fits], op_ok ran⟩
  · subst two; exact ⟨by decide, by simp [Instruction.Fits], op_ok ran⟩
  · subst three; exact ⟨by decide, by simp [Instruction.Fits], op_ok ran⟩
  · obtain ⟨operand, between, checked, written⟩ := bind_ok ran
    obtain ⟨⟨low, high⟩, rfl, rfl⟩ := byteOperand_ok checked
    obtain ⟨slot, rfl⟩ := Int.eq_ofNat_of_zero_le low
    obtain ⟨rest, rfl⟩ : ∃ rest, slot = rest + 4 := ⟨slot - 4, by omega⟩
    refine ⟨low, ?_, opByte_ok written⟩
    simp only [Instruction.Fits, Int.toNat_natCast]
    omega

theorem opNumber_ok (ran : (do opUInt16 op (← uint16Operand what value)) before = .ok () after) :
    (0 ≤ value ∧ value.toNat < 65536) ∧
      after = before.write (op.byte :: BigEndian.encode 2 value.toNat) := by
  obtain ⟨operand, between, checked, written⟩ := bind_ok ran
  obtain ⟨⟨low, high⟩, rfl, rfl⟩ := uint16Operand_ok checked
  have small : value.toNat < 65536 := by omega
  refine ⟨⟨low, small⟩, ?_⟩
  rw [opUInt16_ok written, UInt16.toNat_ofNat_of_lt' small]

theorem getStatic_writes (ran : getStatic slot before = .ok () after) :
    0 ≤ slot ∧ before.Writes after (.getStatic slot.toNat) := by
  obtain ⟨⟨low, small⟩, written⟩ := opNumber_ok ran
  exact ⟨low, small, written⟩

theorem putStatic_writes (ran : putStatic slot before = .ok () after) :
    0 ≤ slot ∧ before.Writes after (.putStatic slot.toNat) := by
  obtain ⟨⟨low, small⟩, written⟩ := opNumber_ok ran
  exact ⟨low, small, written⟩

theorem getField_writes {offset : Int} (ran : getField offset before = .ok () after) :
    0 ≤ offset ∧ before.Writes after (.getField offset.toNat) := by
  obtain ⟨⟨low, small⟩, written⟩ := opNumber_ok ran
  exact ⟨low, small, written⟩

theorem putField_writes {offset : Int} (ran : putField offset before = .ok () after) :
    0 ≤ offset ∧ before.Writes after (.putField offset.toNat) := by
  obtain ⟨⟨low, small⟩, written⟩ := opNumber_ok ran
  exact ⟨low, small, written⟩

theorem newObject_writes {size : Nat} (ran : newObject size before = .ok () after) :
    before.Writes after (.new size) := by
  obtain ⟨⟨_, small⟩, written⟩ := opNumber_ok ran
  exact ⟨small, written⟩

theorem newArray_writes {ofWords : Bool} (ran : newArray ofWords before = .ok () after) :
    before.Writes after (.newArray (if ofWords then 1 else 0)) :=
  ⟨trivial, opByte_ok ran⟩

theorem inc_writes {delta : Int8} (ran : inc slot delta before = .ok () after) :
    0 ≤ slot ∧ before.Writes after (.inc slot.toNat delta) := by
  obtain ⟨operand, between, checked, written⟩ := bind_ok ran
  obtain ⟨⟨low, high⟩, rfl, rfl⟩ := byteOperand_ok checked
  refine ⟨low, ?_, opBytes_ok written⟩
  simp only [Instruction.Fits]
  omega

theorem trap_writes {number : UInt8} (ran : trap number before = .ok () after) :
    before.Writes after (.trap number) :=
  ⟨trivial, opByte_ok ran⟩

theorem enter_writes {params frameSize : Nat}
    (ran : enter params frameSize before = .ok start after) :
    start = before.code.size ∧ before.Writes after (.enter params frameSize) := by
  obtain ⟨_, _, located, ran⟩ := bind_ok ran
  obtain ⟨rfl, rfl⟩ := offset_ok located
  obtain ⟨_, _, checked, ran⟩ := bind_ok ran
  obtain ⟨⟨_, paramsFit⟩, rfl, rfl⟩ := byteOperand_ok checked
  obtain ⟨_, _, checked, ran⟩ := bind_ok ran
  obtain ⟨⟨_, sizeFits⟩, rfl, rfl⟩ := byteOperand_ok checked
  obtain ⟨_, _, written, ran⟩ := bind_ok ran
  obtain ⟨rfl, rfl⟩ := pure_ok ran
  refine ⟨rfl, ⟨by omega, by omega⟩, opBytes_ok written⟩

theorem jumpTo_ok (ran : jumpTo op target before = .ok () after) :
    Instruction.Reaches before.code.size target ∧
      after = before.write (op.byte :: Instruction.reachBytes before.code.size target) := by
  obtain ⟨_, _, located, ran⟩ := bind_ok ran
  obtain ⟨rfl, rfl⟩ := offset_ok located
  obtain ⟨_, _, checked, written⟩ := bind_ok ran
  obtain ⟨reaches, rfl, rfl⟩ := displacement_ok checked
  exact ⟨reaches, opInt16_ok written⟩

theorem jumpTo_writes (isJump : op.isJump) (ran : jumpTo op target before = .ok () after) :
    before.Writes after (.jump op target) :=
  ⟨⟨isJump, (jumpTo_ok ran).1⟩, (jumpTo_ok ran).2⟩

theorem call_writes (ran : call target before = .ok () after) :
    before.Writes after (.call target) :=
  ⟨(jumpTo_ok ran).1, (jumpTo_ok ran).2⟩

theorem codePoint_lt (c : Char) : c.toNat < 1114112 := by
  rcases c.valid with low | ⟨_, high⟩
  · exact Nat.lt_trans low (by decide)
  · exact high

theorem toNat_nameWord (c : Char) : (Int32.ofNat c.toNat).toUInt32.toNat = c.toNat := by
  have small := codePoint_lt c
  rw [Int32.toUInt32_ofNat']
  exact UInt32.toNat_ofNat_of_lt' (by simp only [UInt32.size]; omega)

theorem invokeVirtual_writes {name : String} (ran : invokeVirtual name before = .ok () after) :
    before.Writes after (.invokeVirtual (Site.nameWords name)) := by
  refine ⟨?_, ?_⟩
  · intro word member
    obtain ⟨c, _, rfl⟩ := mem_map.mp member
    intro close
    have large : c.toNat = (-1 : Int32).toUInt32.toNat := by
      rw [← toNat_nameWord c, close]
    have below := codePoint_lt c
    rw [large] at below
    exact absurd below (by decide)
  · rw [bytes_ok ran]
    simp only [Instruction.encode, Instruction.operandBytes, Instruction.op, Site.nameWords,
      Instruction.wordBytes, flatMap_map, toNat_nameWord]

end Emit

/-! ## Laying out code -/

/-- Two codes have the same bytes from an offset on, as far as the second one goes, except at
the waiting offsets. -/
def Code.Agrees (final code : Code) (low : Nat) (waiting : List Nat) : Prop :=
  ∀ offset, low ≤ offset → offset < code.size → offset ∉ waiting →
    final.bytes[offset]? = code.bytes[offset]?

theorem Code.Agrees.shows {final code : Code} {offset low : Nat} {bytes : List UInt8}
    (agrees : final.Agrees code low waiting) (shows : code.Shows offset bytes)
    (above : low ≤ offset) (settled : ∀ w ∈ waiting, w < offset ∨ offset + bytes.length ≤ w) :
    final.Shows offset bytes := by
  intro index byte here
  have inside := (List.getElem?_eq_some_iff.mp here).1
  have present := shows index byte here
  have bound := (Array.getElem?_eq_some_iff.mp present).1
  rw [agrees (offset + index) (by omega) bound, present]
  intro waits
  have := settled _ waits
  omega

namespace Generator

/-- The number of bytes emitted so far. -/
def size (generator : Generator) : Nat := generator.emitter.code.size

/-- What a step of code generation leaves behind: it appends bytes, of which some wait to be
patched.  Any code that agrees with the rest of them satisfies the claim. -/
structure Lays (before after : Generator) (waiting : List Nat) (count peak : Nat)
    (claim : Code → Prop) : Prop where
  size_eq : after.size = before.size + count
  kept : ∀ offset < before.size,
    after.emitter.code.bytes[offset]? = before.emitter.code.bytes[offset]?
  within : ∀ offset ∈ waiting, before.size ≤ offset ∧ offset < after.size
  nodup : waiting.Nodup
  claims : ∀ final : Code, final.Agrees after.emitter.code before.size waiting → claim final
  table : after.table = before.table
  dataSize : after.dataSize = before.dataSize
  frameBase : after.frameBase = before.frameBase
  parked : after.parked = before.parked
  parkedMost : after.parkedMost = max before.parkedMost peak

namespace Lays

theorem refl (generator : Generator) : generator.Lays generator [] 0 0 fun _ => True where
  size_eq := rfl
  kept := fun _ _ => rfl
  within := by simp
  nodup := nodup_nil
  claims := fun _ _ => trivial
  table := rfl
  dataSize := rfl
  frameBase := rfl
  parked := rfl
  parkedMost := by simp

theorem trans {later : List Nat} {more : Nat} {further : Code → Prop}
    (lays : first.Lays second waiting count peak claim)
    (next : second.Lays third later more higher further) :
    first.Lays third (waiting ++ later) (count + more) (max peak higher)
      fun final => claim final ∧ further final where
  size_eq := by rw [next.size_eq, lays.size_eq, Nat.add_assoc]
  kept := by
    intro offset low
    have middle := lays.size_eq
    rw [next.kept offset (by omega), lays.kept offset low]
  within := by
    have first := lays.size_eq
    have second := next.size_eq
    intro offset member
    rcases mem_append.mp member with early | late
    · have := lays.within offset early
      omega
    · have := next.within offset late
      omega
  nodup := by
    refine nodup_append.mpr ⟨lays.nodup, next.nodup, ?_⟩
    intro early member late memberLate
    have := lays.within early member
    have := next.within late memberLate
    omega
  claims := by
    intro final agrees
    have first := lays.size_eq
    have second := next.size_eq
    refine ⟨lays.claims final ?_, next.claims final ?_⟩
    · intro offset low high settled
      simp only [size] at *
      rw [agrees offset low (by omega), next.kept offset (by simp only [size]; omega)]
      intro waits
      rcases mem_append.mp waits with early | late
      · exact settled early
      · have := next.within offset late
        simp only [size] at this
        omega
    · intro offset low high settled
      simp only [size] at *
      refine agrees offset (by omega) high ?_
      intro waits
      rcases mem_append.mp waits with early | late
      · have := lays.within offset early
        simp only [size] at this
        omega
      · exact settled late
  table := next.table.trans lays.table
  dataSize := next.dataSize.trans lays.dataSize
  frameBase := next.frameBase.trans lays.frameBase
  parked := next.parked.trans lays.parked
  parkedMost := by rw [next.parkedMost, lays.parkedMost, Nat.max_assoc]

theorem weaken {before after : Generator} {conclusion : Code → Prop}
    (lays : before.Lays after waiting count peak claim)
    (implies : ∀ final, claim final → conclusion final) :
    before.Lays after waiting count peak conclusion :=
  { lays with claims := fun final agrees => implies final (lays.claims final agrees) }

theorem perm {before after : Generator} {reordered : List Nat}
    (lays : before.Lays after waiting count peak claim) (order : waiting.Perm reordered) :
    before.Lays after reordered count peak claim :=
  { lays with
    within := fun offset member => lays.within offset (order.mem_iff.mpr member)
    nodup := order.nodup_iff.mp lays.nodup
    claims := fun final agrees => lays.claims final fun offset low high settled =>
      agrees offset low high fun member => settled (order.mem_iff.mpr member) }

theorem of_writes (writes : generator.emitter.Writes emitter instr) :
    generator.Lays { generator with emitter := emitter } [] instr.size 0
      fun final => final.Spells generator.size instr where
  size_eq := by simp [size, writes.eq, Emitter.write]
  kept := by
    intro offset low
    simp only [writes.eq, Emitter.write, Code.bytes_push]
    exact Array.getElem?_append_left low
  within := by simp
  nodup := nodup_nil
  claims := by
    intro final agrees
    refine ⟨writes.fits, agrees.shows ?_ (Nat.le_refl _) (by simp)⟩
    intro index byte here
    simp only [size, Code.size] at here
    simp only [writes.eq, Emitter.write, Code.bytes_push, size, Code.size]
    rw [Array.getElem?_append_right (Nat.le_add_right _ _), Nat.add_sub_cancel_left]
    simpa using here
  table := rfl
  dataSize := rfl
  frameBase := rfl
  parked := rfl
  parkedMost := by simp

end Lays

/-! ## Straight code -/

/-- A step appends a sequence of instructions and leaves no jump without a target. -/
structure Emits (before after : Generator) (code : List Instruction)
    (peak : Nat) : Prop where
  lays : before.Lays after [] (Instruction.totalSize code) peak
    fun final => final.Holds before.size code
  fixups : after.emitter.fixups = before.emitter.fixups

/-- What the code of a body depends on, at a point of the walk. -/
def site (generator : Generator) (notes : Annotations) : Site :=
  { notes := notes, table := generator.table, frameBase := generator.frameBase }

theorem Lays.site {before after : Generator} (lays : before.Lays after waiting count peak claim)
    (notes : Annotations) :
    after.site notes = before.site notes := by
  simp only [Generator.site, lays.table, lays.frameBase]

namespace Emits

theorem refl (generator : Generator) : generator.Emits generator [] 0 :=
  ⟨(Lays.refl generator).weaken fun _ _ => trivial, rfl⟩

theorem trans {more : List Instruction} (emits : first.Emits second code peak)
    (next : second.Emits third more higher) :
    first.Emits third (code ++ more) (max peak higher) := by
  refine ⟨?_, next.fixups.trans emits.fixups⟩
  have both := emits.lays.trans next.lays
  rw [← Instruction.totalSize_append] at both
  refine both.weaken fun final holds => ?_
  rw [Code.holds_append, ← emits.lays.size_eq]
  exact holds

theorem of_writes (writes : generator.emitter.Writes emitter instr) :
    generator.Emits { generator with emitter := emitter } [instr] 0 where
  lays := (Lays.of_writes writes).weaken fun final spells => ⟨spells, trivial⟩
  fixups := by rw [writes.eq]; rfl

theorem of_lays {before after : Generator} {most : Nat}
    (lays : before.Lays after [] count peak claim)
    (fixups : after.emitter.fixups = before.emitter.fixups)
    (size_eq : count = Instruction.totalSize code) (peak_eq : peak = most)
    (holds : ∀ final : Code, claim final → final.Holds before.size code) :
    before.Emits after code most := by
  subst size_eq peak_eq
  exact ⟨lays.weaken holds, fixups⟩

theorem site {before after : Generator} (emits : before.Emits after code peak)
    (notes : Annotations) :
    after.site notes = before.site notes := emits.lays.site notes

theorem parked {before after : Generator} (emits : before.Emits after code peak) :
    after.parked = before.parked := emits.lays.parked

end Emits
end Generator
end MicroJava
