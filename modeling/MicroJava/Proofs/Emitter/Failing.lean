import MicroJava.Proofs.Emitter.Operations

/-!
# Operations that fail

Most operations look whether they can succeed before they change anything, and one that fails
leaves the emitter as it was.  The exceptions are jumps that are written before their
construct is looked at, and lists that are drained before their jumps get targets.
-/

namespace MicroJava

variable {take : Fix (List Label)} {add : Label → Fix Unit} {op : Opcode} {α β : Type}
  {before after : Emitter} {fault : Fault} {labels : List Label}

/-! ## Steps that fail without a trace -/

namespace Run

variable {ε σ : Type} {first : EStateM ε σ α} {next : α → EStateM ε σ β}

/-- A step that fails leaves the state as it was. -/
def IsAtomic (act : EStateM ε σ α) : Prop :=
  ∀ before fault after, act before = .error fault after → after = before

/-- A step leaves the state as it was, whether or not it fails. -/
def IsLook (act : EStateM ε σ α) : Prop :=
  IsAtomic act ∧ ∀ before value after, act before = .ok value after → after = before

theorem bind_error {before after : σ} {fault : ε}
    (ran : (first >>= next) before = .error fault after) :
    first before = .error fault after ∨
      ∃ value between, first before = .ok value between ∧
        next value between = .error fault after := by
  simp only [bind, EStateM.bind] at ran
  split at ran
  next value between run => exact .inr ⟨value, between, run, ran⟩
  next fault between run =>
    cases ran
    exact .inl run

theorem IsLook.bind (look : IsLook first) (atomic : ∀ value, IsAtomic (next value)) :
    IsAtomic (first >>= next) := by
  intro before fault after failed
  rcases bind_error failed with failed | ⟨value, between, ran, failed⟩
  · exact look.1 _ _ _ failed
  · rw [atomic value _ _ _ failed, look.2 _ _ _ ran]

theorem IsAtomic.bind (atomic : IsAtomic first)
    (succeeds : ∀ value between fault after, next value between ≠ .error fault after) :
    IsAtomic (first >>= next) := by
  intro before fault after failed
  rcases bind_error failed with failed | ⟨value, between, _, failed⟩
  · exact atomic _ _ _ failed
  · exact absurd failed (succeeds value between fault after)

end Run

open Run

/-! ## Operations on lists -/

namespace Fix

theorem isAtomic_onConstruct (action : String) (act : Construct → Except Fault (α × Construct)) :
    IsAtomic (onConstruct action act) := by
  intro before fault after failed
  unfold onConstruct at failed
  split at failed
  next => cases failed; rfl
  next => split at failed <;> cases failed; rfl

theorem isAtomic_addExits (labels : List Label) (complaint : String) :
    IsAtomic (addExits labels complaint) := by
  intro before fault after failed
  unfold addExits at failed
  split at failed <;> cases failed
  rfl

theorem isAtomic_exitLoop : IsAtomic exitLoop := by
  intro before fault after failed
  unfold exitLoop at failed
  split at failed <;> cases failed
  rfl

theorem isLook_continueTarget : IsLook continueTarget := by
  constructor <;>
  · intro before _ after ran
    unfold continueTarget at ran
    split at ran <;> cases ran
    rfl

theorem isAtomic_close : IsAtomic close := (isAtomic_onConstruct _ _).bind nofun

theorem takeFalse_eq_iff {before after : Fixups} (taken : takeFalse before = .ok labels after) :
    after = before ↔ labels = [] := by
  obtain ⟨construct, changed, outer, isTop, acted, rfl⟩ := onConstruct_ok taken
  cases acted
  constructor
  · intro same
    have isEmpty := (List.cons.inj ((congrArg Fixups.constructs same).trans isTop)).1
    exact (congrArg (·.falseJumps.toList) isEmpty).symm
  · intro empty
    have isEmpty : construct.falseJumps = #[] := Array.toList_eq_nil_iff.mp empty
    rw [← isEmpty, ← isTop]

theorem ne_of_takeBody {before after : Fixups} (taken : takeBody before = .ok labels after)
    (some : labels ≠ []) :
    after ≠ before := by
  obtain ⟨construct, changed, outer, isTop, acted, rfl⟩ := onConstruct_ok taken
  cases acted
  intro same
  have isEmpty := (List.cons.inj ((congrArg Fixups.constructs same).trans isTop)).1
  exact some (congrArg (·.bodyJumps.toList) isEmpty).symm

theorem ne_of_exitLoop {before after : Fixups} (taken : exitLoop before = .ok labels after) :
    after ≠ before := by
  unfold exitLoop at taken
  split at taken <;> cases taken
  next isTop =>
    intro same
    exact List.cons_ne_self _ _ (isTop.symm.trans (congrArg Fixups.loops same.symm))

end Fix

/-! ## Operations that write -/

namespace Emit

theorem isAtomic_grow (append : Code → Nat → Code) : IsAtomic (grow append) := nofun

theorem isLook_offset : IsLook offset := ⟨nofun, by rintro _ _ _ ⟨⟩; rfl⟩

theorem isLook_byteOperand (what : String) (value : Int) : IsLook (byteOperand what value) := by
  unfold byteOperand
  split <;> constructor <;> rintro _ _ _ ⟨⟩ <;> rfl

theorem isLook_uint16Operand (what : String) (value : Int) : IsLook (uint16Operand what value) := by
  unfold uint16Operand
  split <;> constructor <;> rintro _ _ _ ⟨⟩ <;> rfl

theorem isLook_displacement (source target : Nat) : IsLook (displacement source target) := by
  unfold displacement
  dsimp only
  split <;> constructor <;> rintro _ _ _ ⟨⟩ <;> rfl

theorem isAtomic_jumpTo (op : Opcode) (target : Nat) : IsAtomic (jumpTo op target) :=
  isLook_offset.bind fun _ => (isLook_displacement _ _).bind fun _ => isAtomic_grow _

theorem isAtomic_writing (writing : Writing) : IsAtomic writing.act := by
  have byte (what : String) (value : Int) (append : UInt8 → Code → Nat → Code) :
      IsAtomic (byteOperand what value >>= fun operand => grow (append operand)) :=
    (isLook_byteOperand what value).bind fun _ => isAtomic_grow _
  have number (what : String) (value : Int) (append : UInt16 → Code → Nat → Code) :
      IsAtomic (uint16Operand what value >>= fun operand => grow (append operand)) :=
    (isLook_uint16Operand what value).bind fun _ => isAtomic_grow _
  cases writing with
  | const value =>
    change IsAtomic (Emit.const value)
    unfold Emit.const
    split_ifs <;> exact isAtomic_grow _
  | loadLocal slot =>
    change IsAtomic (Emit.loadLocal slot)
    unfold Emit.loadLocal
    split_ifs
    all_goals first | exact isAtomic_grow _ | exact byte _ _ _
  | storeLocal slot =>
    change IsAtomic (Emit.storeLocal slot)
    unfold Emit.storeLocal
    split_ifs
    all_goals first | exact isAtomic_grow _ | exact byte _ _ _
  | getStatic _ | putStatic _ | getField _ | putField _ | newObject _ => exact number _ _ _
  | inc slot delta => exact byte _ _ _
  | jumpTo op target => exact isAtomic_jumpTo op target
  | call target => exact isAtomic_jumpTo .call target
  | _ => exact nofun

theorem isAtomic_enter (params frameSize : Nat) : IsAtomic (enter params frameSize) :=
  isLook_offset.bind fun _ => (isLook_byteOperand _ _).bind fun _ =>
    (isLook_byteOperand _ _).bind fun _ => (isAtomic_grow _).bind nofun

theorem isAtomic_patch (replace : Code → Except Fault Code) : IsAtomic (patch replace) := by
  intro before fault after failed
  unfold patch at failed
  split at failed <;> cases failed
  rfl

theorem isAtomic_patchTo (label : Label) (target : Nat) : IsAtomic (patchTo label target) :=
  (isLook_displacement _ _).bind fun _ => isAtomic_patch _

theorem onFixups_error {act : Fix α} (failed : onFixups act before = .error fault after) :
    ∃ fixups, act before.fixups = .error fault fixups ∧
      after = { before with fixups := fixups } := by
  obtain ⟨code, fixups, line⟩ := before
  unfold onFixups at failed
  dsimp only at failed ⊢
  split at failed <;> cases failed
  exact ⟨_, ‹_›, rfl⟩

theorem isAtomic_onFixups {act : Fix α} (atomic : IsAtomic act) : IsAtomic (onFixups act) := by
  intro before fault after failed
  obtain ⟨fixups, inner, rfl⟩ := onFixups_error failed
  rw [atomic _ _ _ inner]

theorem isLook_continueTarget : IsLook (onFixups Fix.continueTarget) := by
  refine ⟨isAtomic_onFixups Fix.isLook_continueTarget.1, fun before target after ran => ?_⟩
  obtain ⟨fixups, found, rfl⟩ := onFixups_ok ran
  rw [Fix.isLook_continueTarget.2 _ _ _ found]

theorem isAtomic_breakLoop : IsAtomic breakLoop := by
  intro before fault after failed
  rcases bind_error failed with failed | ⟨_, _, got, failed⟩
  · cases failed
  cases got
  split at failed
  next inLoop =>
    -- A jump past the loop has a list to go to.
    obtain ⟨code, ⟨constructs, loops⟩, line⟩ := before
    cases loops with
    | nil => cases inLoop
    | cons innermost outer => cases failed
  next => cases failed; rfl

theorem size_of_jumpInto_error
    (failed : (jump op >>= fun label => onFixups (add label)) before = .error fault after) :
    after.code.size = before.code.size + 3 := by
  rcases bind_error failed with failed | ⟨label, between, jumped, failed⟩
  · cases failed
  · obtain ⟨rfl, rfl⟩ := jump_ok jumped
    obtain ⟨_, _, rfl⟩ := onFixups_error failed
    exact Code.size_push _ _ _

theorem fixups_of_patchEach_error (failed : labels.forM patchHere before = .error fault after) :
    labels ≠ [] ∧ after.fixups = before.fixups := by
  induction labels generalizing before with
  | nil => cases failed
  | cons label rest ih =>
    refine ⟨List.cons_ne_nil _ _, ?_⟩
    rcases bind_error failed with failed | ⟨_, between, patched, failed⟩
    · rw [isLook_offset.bind (fun _ => isAtomic_patchTo _ _) _ _ _ failed]
    · obtain ⟨_, _, rfl⟩ := patchHere_ok patched
      exact (ih failed).2

theorem patchTaken_error (failed : (onFixups take >>= patchAll) before = .error fault after) :
    onFixups take before = .error fault after ∨
      ∃ labels, labels ≠ [] ∧ take before.fixups = .ok labels after.fixups := by
  refine (bind_error failed).imp_right fun ⟨labels, between, taking, failed⟩ => ?_
  obtain ⟨fixups, taken, rfl⟩ := onFixups_ok taking
  rcases bind_error failed with failed | ⟨_, _, _, failed⟩
  · obtain ⟨some, same⟩ := fixups_of_patchEach_error failed
    exact ⟨labels, some, same ▸ taken⟩
  · cases failed

end Emit

namespace Operation

theorem undrained_of_onConstruct {action : String} {act : Construct → Except Fault (α × Construct)}
    {before after : Fixups} (succeeds : ∀ construct, ∃ result, act construct = .ok result)
    (failed : Fix.onConstruct action act before = .error fault after) :
    before.constructs = [] := by
  unfold Fix.onConstruct at failed
  split at failed
  next none => exact none
  next construct _ _ =>
    obtain ⟨result, acted⟩ := succeeds construct
    rw [acted] at failed
    cases failed

theorem undrained_of_takeFalse {before after : Fixups}
    (failed : Fix.takeFalse before = .error fault after) :
    patchFalse.drained before = [] := by
  rw [drained, undrained_of_onConstruct (fun _ => ⟨_, rfl⟩) failed]
  rfl

theorem undrained_of_takeBody {before after : Fixups}
    (failed : Fix.takeBody before = .error fault after) :
    patchBody.drained before = [] := by
  rw [drained, undrained_of_onConstruct (fun _ => ⟨_, rfl⟩) failed]
  rfl

theorem undrained_of_exitLoop {before after : Fixups}
    (failed : Fix.exitLoop before = .error fault after) :
    exitLoop.drained before = [] := by
  unfold Fix.exitLoop at failed
  split at failed <;> cases failed
  next none => rw [drained, none]; rfl

end Operation

/-! ## Attempts -/

/-- What can be asked of an emitter: an operation, or a step on its lists of jumps alone. -/
inductive Attempt
  | emit (operation : Operation)
  | addFalse (label : Label)
  | addBody (label : Label)
  | addBreak (label : Label)
  | takeFalse
  | takeBody
  | takeExits
  | continueTarget

namespace Attempt

/-- Run an attempt. -/
def act : Attempt → Emit Granted
  | emit operation => operation.act
  | addFalse label => Operation.plainly (Emit.onFixups (Fix.addFalse label))
  | addBody label => Operation.plainly (Emit.onFixups (Fix.addBody label))
  | addBreak label => Operation.plainly (Emit.onFixups (Fix.addBreak label))
  | takeFalse => Operation.plainly (Emit.onFixups Fix.takeFalse)
  | takeBody => Operation.plainly (Emit.onFixups Fix.takeBody)
  | takeExits => Operation.plainly (Emit.onFixups Fix.exitLoop)
  | continueTarget => Operation.plainly (Emit.onFixups Fix.continueTarget)

/-- An attempt that leaves a trace if it fails: it writes a jump first, or drains a list. -/
def Spoils (fixups : Fixups) : Attempt → Prop
  | emit (.falseJump _) | emit .bodyJump => True
  | emit .falseIntoLoop => Operation.patchFalse.drained fixups ≠ []
  | emit operation => operation.drained fixups ≠ []
  | _ => False

variable {attempt : Attempt}

theorem unchanged_of_atomic (atomic : IsAtomic attempt.act) (clear : ¬ attempt.Spoils before.fixups)
    (failed : attempt.act before = .error fault after) :
    after = before ↔ ¬ attempt.Spoils before.fixups :=
  iff_of_true (atomic _ _ _ failed) clear

theorem isAtomic_plainly {act : Emit α} (atomic : IsAtomic act) :
    IsAtomic (Operation.plainly act) := atomic.bind nofun

theorem onLists {act : Fix α} (atomic : IsAtomic act) :
    IsAtomic (Operation.plainly (Emit.onFixups act)) :=
  isAtomic_plainly (Emit.isAtomic_onFixups atomic)

theorem unchanged_of_jumpInto (spoils : attempt.Spoils before.fixups)
    (failed : Operation.plainly (Emit.jump op >>= fun label => Emit.onFixups (add label)) before =
      .error fault after) :
    after = before ↔ ¬ attempt.Spoils before.fixups := by
  refine iff_of_false (fun same => ?_) (not_not_intro spoils)
  rcases bind_error failed with failed | ⟨_, _, _, failed⟩
  · have grown := Emit.size_of_jumpInto_error failed
    rw [same] at grown
    omega
  · cases failed

theorem unchanged_of_taken {operation : Operation} (atomic : IsAtomic take)
    (isDraining : (emit operation).Spoils before.fixups = (operation.drained before.fixups ≠ []))
    (drained : ∀ labels fixups, take before.fixups = .ok labels fixups →
      operation.drained before.fixups = labels ∧ (labels ≠ [] → fixups ≠ before.fixups))
    (undrained : ∀ fault fixups, take before.fixups = .error fault fixups →
      operation.drained before.fixups = [])
    (failed : Operation.plainly (Emit.onFixups take >>= Emit.patchAll) before =
      .error fault after) :
    after = before ↔ ¬ (emit operation).Spoils before.fixups := by
  rw [isDraining, not_not]
  rcases bind_error failed with failed | ⟨_, _, _, failed⟩
  · rcases Emit.patchTaken_error failed with failed | ⟨labels, some, taken⟩
    · obtain ⟨_, inner, _⟩ := Emit.onFixups_error failed
      exact iff_of_true (Emit.isAtomic_onFixups atomic _ _ _ failed) (undrained _ _ inner)
    · obtain ⟨rfl, changes⟩ := drained labels _ taken
      exact iff_of_false (fun same => changes some (congrArg Emitter.fixups same)) some
  · cases failed

theorem falseIntoLoop_unchanged (failed : (emit .falseIntoLoop).act before = .error fault after) :
    after = before ↔ ¬ (emit .falseIntoLoop).Spoils before.fixups := by
  rw [Spoils, not_not]
  rcases bind_error failed with failed | ⟨_, _, _, failed⟩
  · obtain ⟨fixups, inner, rfl⟩ := Emit.onFixups_error failed
    rcases bind_error inner with inner | ⟨labels, between, taken, inner⟩
    · rw [Fix.isAtomic_onConstruct _ _ _ _ _ inner]
      exact iff_of_true rfl (Operation.undrained_of_takeFalse inner)
    · rw [Operation.takeFalse_drained taken, ← Fix.takeFalse_eq_iff taken]
      rcases bind_error inner with inner | ⟨_, _, _, inner⟩
      · rw [← Fix.isAtomic_addExits _ _ _ _ _ inner]
        exact ⟨congrArg Emitter.fixups, fun same => by rw [same]⟩
      · cases inner
  · cases failed

/-- An attempt that fails leaves the emitter as it was, unless it writes a jump before it looks
at the construct, or drains a list with jumps in it. -/
theorem unchanged_iff_not_spoils (failed : attempt.act before = .error fault after) :
    after = before ↔ ¬ attempt.Spoils before.fixups := by
  cases attempt with
  | emit operation =>
    cases operation with
    | setLine _ | jump _ | openConstruct _ | enterLoop _ => cases failed
    | write writing =>
      exact unchanged_of_atomic (isAtomic_plainly (Emit.isAtomic_writing writing)) (· rfl) failed
    | enter params frameSize =>
      exact unchanged_of_atomic ((Emit.isAtomic_enter params frameSize).bind nofun) (· rfl) failed
    | patchFrameSize start frameSize =>
      exact unchanged_of_atomic (isAtomic_plainly ((Emit.isLook_byteOperand _ _).bind fun _ =>
        Emit.isAtomic_patch _)) (· rfl) failed
    | patchTo label target =>
      exact unchanged_of_atomic (isAtomic_plainly (Emit.isAtomic_patchTo label target))
        (· rfl) failed
    | patchHere label =>
      exact unchanged_of_atomic (isAtomic_plainly (Emit.isLook_offset.bind fun _ =>
        Emit.isAtomic_patchTo label _)) (· rfl) failed
    | falseJump _ | bodyJump => exact unchanged_of_jumpInto trivial failed
    | patchFalse =>
      refine unchanged_of_taken (Fix.isAtomic_onConstruct _ _) rfl (fun labels fixups taken => ?_)
        (fun _ _ => Operation.undrained_of_takeFalse) failed
      exact ⟨Operation.takeFalse_drained taken, (Fix.takeFalse_eq_iff taken).not.mpr⟩
    | patchBody =>
      exact unchanged_of_taken (Fix.isAtomic_onConstruct _ _) rfl (fun labels fixups taken =>
        ⟨Operation.takeBody_drained taken, Fix.ne_of_takeBody taken⟩)
        (fun _ _ => Operation.undrained_of_takeBody) failed
    | finishConditions | finishBody | finishPatching =>
      exact unchanged_of_atomic (onLists (Fix.isAtomic_onConstruct _ _)) (· rfl) failed
    | close => exact unchanged_of_atomic (onLists Fix.isAtomic_close) (· rfl) failed
    | falseIntoLoop => exact falseIntoLoop_unchanged failed
    | exitLoop =>
      exact unchanged_of_taken Fix.isAtomic_exitLoop rfl (fun labels fixups taken =>
        ⟨Operation.exitLoop_drained taken, fun _ => Fix.ne_of_exitLoop taken⟩)
        (fun _ _ => Operation.undrained_of_exitLoop) failed
    | breakLoop =>
      exact unchanged_of_atomic (isAtomic_plainly Emit.isAtomic_breakLoop) (· rfl) failed
    | continueLoop =>
      exact unchanged_of_atomic (isAtomic_plainly (Emit.isLook_continueTarget.bind fun _ =>
        Emit.isAtomic_jumpTo _ _)) (· rfl) failed
  | addFalse _ | addBody _ | takeFalse | takeBody =>
    exact unchanged_of_atomic (onLists (Fix.isAtomic_onConstruct _ _)) id failed
  | addBreak label =>
    exact unchanged_of_atomic (onLists (Fix.isAtomic_addExits _ _)) id failed
  | takeExits => exact unchanged_of_atomic (onLists Fix.isAtomic_exitLoop) id failed
  | continueTarget =>
    exact unchanged_of_atomic (onLists Fix.isLook_continueTarget.1) id failed

/-- The emitter after attempts, whether or not they fail. -/
def reached (attempts : List Attempt) : Emitter :=
  attempts.foldl (fun emitter attempt =>
    match attempt.act emitter with
    | .ok _ emitter => emitter
    | .error _ emitter => emitter) {}

/-- The condition of a loop that was not opened: its jump is lost. -/
theorem unchanged_iff_not_spoils_unlooped :
    ∃ before fault after,
      before = reached [.emit (.openConstruct .loop), .emit (.falseJump .eq), .addBody ⟨7⟩] ∧
      (emit .falseIntoLoop).act before = .error fault after ∧
      (after = before ↔ ¬ (emit .falseIntoLoop).Spoils before.fixups) ∧
      after.fixups.constructs = [{ kind := .loop, bodyJumps := #[⟨7⟩] }] :=
  ⟨_, _, _, rfl, rfl, unchanged_iff_not_spoils rfl, rfl⟩

/-- A jump without a construct stays in the code. -/
theorem not_unchanged_unconstructed :
    ∃ fault after, (emit (.falseJump .eq)).act (reached []) = .error fault after ∧
      after.code.bytes = #[44, 0, 0] ∧ after ≠ reached [] :=
  ⟨_, _, rfl, rfl, fun same => absurd (congrArg (·.code.size) same) (by decide)⟩

end Attempt
end MicroJava
