import MicroJava.Proofs.Layout.Expressions

/-!
# Jumps that are patched

A forward jump is laid out with an operand that waits.  Patching gives it its target, and the
layout of everything around it stays as it was.
-/

namespace MicroJava

open List

variable {index target count peak offset : Nat} {op : Opcode} {before after middle : Generator}
  {waiting rest : List Nat} {claim : Code → Prop} {values : List UInt8} {label : Label}
  {emitter : Emitter} {bytes : Array UInt8} {labels : List Label}

/-! ## Overwriting bytes -/

namespace Code

theorem getElem?_overwriteBytes_outside
    (outside : index < offset ∨ offset + values.length ≤ index) :
    (overwriteBytes bytes offset values)[index]? = bytes[index]? := by
  induction values generalizing bytes offset with
  | nil => rfl
  | cons value rest ih =>
    simp only [length_cons] at outside
    have apart : offset ≠ index := by omega
    rw [overwriteBytes, ih (by omega), Array.getElem?_setIfInBounds_ne apart]

theorem getElem?_overwriteBytes_inside {byte : UInt8} (here : values[index]? = some byte)
    (fits : offset + values.length ≤ bytes.size) :
    (overwriteBytes bytes offset values)[offset + index]? = some byte := by
  induction values generalizing bytes offset index with
  | nil => simp at here
  | cons value rest ih =>
    simp only [length_cons] at fits
    cases index with
    | zero =>
      rw [overwriteBytes, getElem?_overwriteBytes_outside (by omega)]
      simp only [getElem?_cons_zero, Option.some.injEq] at here
      rw [Nat.add_zero, Array.getElem?_setIfInBounds_self_of_lt (by omega), here]
    | succ index =>
      rw [getElem?_cons_succ] at here
      have shift : offset + (index + 1) = offset + 1 + index := by omega
      rw [overwriteBytes, shift]
      exact ih here (by simp; omega)

theorem shows_overwrite {code : Code} (fits : offset + values.length ≤ code.size) :
    (code.overwrite offset values).Shows offset values :=
  fun _ _ here => getElem?_overwriteBytes_inside here fits

/-- A jump in a code leads to a target. -/
structure Leads (code : Code) (label : Label) (target : Nat) : Prop where
  reaches : Instruction.Reaches label.instruction target
  bytes : code.Shows label.offset (Instruction.reachBytes label.instruction target)

end Code

/-- The offsets of the operand of a jump. -/
def Label.operand (label : Label) : List Nat := [label.offset, label.offset + 1]

theorem Label.operand_eq (label : Label) : label.operand = List.range' label.offset 2 := rfl

/-- The offsets of the operands of jumps. -/
def Label.operands (labels : List Label) : List Nat := labels.flatMap Label.operand

@[simp] theorem Label.operands_nil : Label.operands [] = [] := rfl

@[simp] theorem Label.operands_cons (label : Label) (rest : List Label) :
    Label.operands (label :: rest) = label.operand ++ Label.operands rest := rfl

@[simp] theorem Label.operands_append (first second : List Label) :
    Label.operands (first ++ second) = Label.operands first ++ Label.operands second := by
  simp [Label.operands]

namespace Emit

open Run

theorem patch_ok {before after : Emitter}
    (ran : patch (·.patch offset values) before = .ok () after) :
    offset + values.length ≤ before.code.size ∧
      after = { before with code := before.code.overwrite offset values } := by
  simp only [patch, Code.patch] at ran
  split at ran
  next found =>
    split at found
    next covered =>
      cases found
      cases ran
      exact ⟨of_decide_eq_true covered, rfl⟩
    next => cases found
  next => cases ran

theorem patchTo_ok {before after : Emitter} (ran : patchTo label target before = .ok () after) :
    Instruction.Reaches label.instruction target ∧ label.offset + 2 ≤ before.code.size ∧
      after = { before with
        code := before.code.overwrite label.offset
          (Instruction.reachBytes label.instruction target) } := by
  obtain ⟨_, _, checked, patched⟩ := bind_ok ran
  obtain ⟨reaches, rfl, rfl⟩ := displacement_ok checked
  obtain ⟨fits, rfl⟩ := patch_ok patched
  rw [BigEndian.length_encode] at fits
  exact ⟨reaches, fits, rfl⟩

theorem jump_ok {before after : Emitter} (ran : jump op before = .ok label after) :
    label = ⟨before.code.size + 1⟩ ∧ after = before.write [op.byte, 0, 0] := by
  obtain ⟨_, _, located, ran⟩ := bind_ok ran
  obtain ⟨rfl, rfl⟩ := offset_ok located
  obtain ⟨_, _, written, ran⟩ := bind_ok ran
  obtain ⟨rfl, rfl⟩ := pure_ok ran
  exact ⟨rfl, opInt16_ok written⟩

theorem onFixups_ok {α : Type} {act : Fix α} {result : α} {before after : Emitter}
    (ran : onFixups act before = .ok result after) :
    ∃ fixups, act before.fixups = .ok result fixups ∧
      after = { before with fixups := fixups } := by
  unfold onFixups at ran
  cases run : act before.fixups with
  | ok value fixups =>
    simp only [run, EStateM.Result.ok.injEq] at ran
    obtain ⟨rfl, rfl⟩ := ran
    exact ⟨fixups, rfl, rfl⟩
  | error fault fixups => simp [run] at ran

end Emit

/-! ## Laying out and patching jumps -/

namespace Generator.Lays

theorem idle (code : after.emitter.code = before.emitter.code)
    (frame : after = { before with emitter := after.emitter }) :
    before.Lays after [] 0 0 fun _ => True where
  size_eq := by simp only [size, code, Nat.add_zero]
  kept := fun _ _ => by rw [code]
  within := by simp
  nodup := nodup_nil
  claims := fun _ _ => trivial
  table := by rw [frame]
  dataSize := by rw [frame]
  frameBase := by rw [frame]
  parked := by rw [frame]
  parkedMost := by rw [frame]; simp

theorem then_idle (lays : before.Lays middle waiting count peak claim)
    (rests : middle.Lays after [] 0 0 fun _ => True) :
    before.Lays after waiting count peak claim := by
  have all := lays.trans rests
  simp only [append_nil, Nat.add_zero, Nat.max_zero] at all
  exact all.weaken fun _ holds => holds.1

theorem idle_then (rests : before.Lays middle [] 0 0 fun _ => True)
    (lays : middle.Lays after waiting count peak claim) :
    before.Lays after waiting count peak claim := by
  have all := rests.trans lays
  simp only [nil_append, Nat.zero_add, Nat.zero_max] at all
  exact all.weaken fun _ holds => holds.2

section

variable (lays : before.Lays after waiting count peak claim)
include lays

theorem patch (order : waiting.Perm (List.range' offset values.length ++ rest))
    (fits : offset + values.length ≤ after.size) :
    before.Lays
      { after with
        emitter := { after.emitter with code := after.emitter.code.overwrite offset values } }
      rest count peak fun final => claim final ∧ final.Shows offset values := by
  have nodup := order.nodup_iff.mp lays.nodup
  have inRange (index : Nat) :
      index ∈ List.range' offset values.length ↔ offset ≤ index ∧
        index < offset + values.length := by
    simp [mem_range'_1]
  have sameSize : (after.emitter.code.overwrite offset values).size = after.size := by
    simp [Code.overwrite, Code.size, size]
  exact
    { lays with
      size_eq := by
        rw [← lays.size_eq]
        exact sameSize
      kept := by
        intro index low
        rw [← lays.kept index low]
        apply Code.getElem?_overwriteBytes_outside
        by_contra inside
        have waits : index ∈ waiting :=
          order.mem_iff.mpr (mem_append_left _ ((inRange index).mpr (by omega)))
        have := lays.within index waits
        omega
      within := by
        intro index member
        have := lays.within index (order.mem_iff.mpr (mem_append_right _ member))
        exact ⟨this.1, lt_of_lt_of_eq this.2 sameSize.symm⟩
      nodup := (nodup_append.mp nodup).2.1
      claims := by
        intro final agrees
        have shown : final.Shows offset values := by
          by_cases empty : values = []
          · subst empty
            intro index byte here
            simp at here
          · have waits : offset ∈ waiting := by
              refine order.mem_iff.mpr (mem_append_left _ ((inRange offset).mpr ?_))
              have := length_pos_iff.mpr empty
              omega
            refine agrees.shows (Code.shows_overwrite fits) (lays.within offset waits).1 ?_
            intro index member
            have apart := (nodup_append.mp nodup).2.2
            by_contra inside
            exact apart index ((inRange index).mpr (by omega)) index member rfl
        refine ⟨lays.claims final ?_, shown⟩
        intro index low high settled
        rw [agrees index low (by rw [sameSize]; exact high)
          fun member => settled (order.mem_iff.mpr (mem_append_right _ member))]
        apply Code.getElem?_overwriteBytes_outside
        by_contra inside
        exact settled (order.mem_iff.mpr
          (mem_append_left _ ((inRange index).mpr (by omega)))) }

theorem patchTo (order : waiting.Perm (label.operand ++ rest))
    (ran : Emit.patchTo label target after.emitter = .ok () emitter) :
    emitter.fixups = after.emitter.fixups ∧
      before.Lays { after with emitter := emitter } rest count peak
        fun final => claim final ∧ final.Leads label target := by
  obtain ⟨reaches, fits, rfl⟩ := Emit.patchTo_ok ran
  have length : (Instruction.reachBytes label.instruction target).length = 2 := by
    simp [Instruction.reachBytes]
  refine ⟨rfl, ?_⟩
  rw [Label.operand_eq, ← length] at order
  exact (lays.patch order (by rw [length]; exact fits)).weaken
    fun _ holds => ⟨holds.1, reaches, holds.2⟩

theorem patchEach (order : waiting.Perm (Label.operands labels ++ rest))
    (ran : labels.forM Emit.patchHere after.emitter = .ok () emitter) :
    emitter.fixups = after.emitter.fixups ∧
      before.Lays { after with emitter := emitter } rest count peak
        fun final => claim final ∧ ∀ label ∈ labels, final.Leads label after.size := by
  induction labels generalizing after waiting claim with
  | nil =>
    obtain rfl := Run.forM_nil_ok ran
    exact ⟨rfl, (lays.perm order).weaken fun _ holds => ⟨holds, by simp⟩⟩
  | cons label others ih =>
    obtain ⟨between, first, later⟩ := Run.forM_cons_ok ran
    obtain ⟨_, _, located, first⟩ := Run.bind_ok first
    obtain ⟨rfl, rfl⟩ := Emit.offset_ok located
    rw [Label.operands_cons, append_assoc] at order
    obtain ⟨sameFixups, patched⟩ := lays.patchTo order first
    have sameSize : ({ after with emitter := between } : Generator).size = after.size := by
      rw [patched.size_eq, lays.size_eq]
    obtain ⟨restFixups, settled⟩ := ih patched (List.Perm.refl _) later
    refine ⟨restFixups.trans sameFixups, settled.weaken fun final holds => ⟨holds.1.1, ?_⟩⟩
    rw [sameSize] at holds
    intro other member
    rcases mem_cons.mp member with rfl | isOther
    · exact holds.1.2
    · exact holds.2 other isOther

theorem patchAll {patched : Nat} (order : waiting.Perm (Label.operands labels ++ rest))
    (ran : Emit.patchAll labels after.emitter = .ok patched emitter) :
    emitter.fixups = after.emitter.fixups ∧
      before.Lays { after with emitter := emitter } rest count peak
        fun final => claim final ∧ ∀ label ∈ labels, final.Leads label after.size := by
  obtain ⟨_, _, each, done⟩ := Run.bind_ok ran
  obtain ⟨rfl, rfl⟩ := Run.pure_ok done
  exact lays.patchEach order each

end

theorem jump {generator : Generator} (isJump : op.isJump)
    (ran : Emit.jump op generator.emitter = .ok label emitter) :
    emitter.fixups = generator.emitter.fixups ∧
      generator.Lays { generator with emitter := emitter } label.operand 3 0
        fun final => ∀ target, final.Leads label target →
          final.Holds generator.size [.jump op target] := by
  obtain ⟨rfl, rfl⟩ := Emit.jump_ok ran
  refine ⟨rfl, ?_⟩
  exact
    { size_eq := by simp [size, Emitter.write]
      kept := by
        intro offset low
        simp only [Emitter.write, Code.bytes_push]
        exact Array.getElem?_append_left low
      within := by
        intro offset member
        simp only [Label.operand, mem_cons, not_mem_nil, or_false] at member
        simp only [size, Emitter.write, Code.size_push, length_cons, length_nil]
        omega
      nodup := by simp [Label.operand]
      claims := by
        intro final agrees target leads
        refine ⟨⟨⟨isJump, leads.reaches⟩, ?_⟩, trivial⟩
        intro index byte here
        cases index with
        | zero =>
          rw [Nat.add_zero, agrees generator.size (Nat.le_refl _)]
          · simp only [Emitter.write, Code.bytes_push]
            rw [size, Code.size, Array.getElem?_append_right (Nat.le_refl _), Nat.sub_self]
            simpa [Instruction.encode, Instruction.op] using here
          · simp [size, Emitter.write]
          · simp only [Label.operand, size, mem_cons, not_mem_nil, or_false]
            omega
        | succ index =>
          have shift : generator.size + (index + 1) = generator.emitter.code.size + 1 + index := by
            simp only [size]
            omega
          rw [shift]
          exact leads.bytes index byte here
      table := rfl
      dataSize := rfl
      frameBase := rfl
      parked := rfl
      parkedMost := by simp }

end Generator.Lays
end MicroJava
