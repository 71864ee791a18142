import MicroJava.Proofs.Layout.Jumps

/-!
# The code of actions

All jumps of an action stay inside its code, so an action leaves none without a target.
-/

namespace MicroJava

open List

variable {before after : Generator} {notes : Annotations} {source rest : Designator} {count : Nat}
  {site : Site} {parked : Nat}

namespace Gen

open Run Instruction
open Site (Emits)

theorem jump_lays {op : Opcode} {label : Label} (isJump : op.isJump)
    (ran : emit (Emit.jump op) before = .ok label after) :
    after.emitter.fixups = before.emitter.fixups ∧
      before.Lays after label.operand 3 0 fun final =>
        ∀ target, final.Leads label target → final.Holds before.size [.jump op target] := by
  obtain ⟨emitter, acted, rfl⟩ := emit_ok ran
  exact Generator.Lays.jump isJump acted

theorem patchHere_lays {label : Label} {start : Generator} {waiting rest : List Nat} {peak : Nat}
    {claim : Code → Prop} (lays : start.Lays before waiting count peak claim)
    (order : waiting.Perm (label.operand ++ rest))
    (ran : emit (Emit.patchHere label) before = .ok () after) :
    after.emitter.fixups = before.emitter.fixups ∧
      start.Lays after rest count peak fun final =>
        claim final ∧ final.Leads label before.size := by
  obtain ⟨emitter, acted, rfl⟩ := emit_ok ran
  obtain ⟨_, _, located, acted⟩ := bind_ok acted
  obtain ⟨rfl, rfl⟩ := Emit.offset_ok located
  exact lays.patchTo order acted

theorem emits_jumpTo {op : Opcode} (isJump : op.isJump) (target : Nat) :
    site.Emits parked (emit (Emit.jumpTo op target)) () [.jump op target] 0 :=
  .of_writes (Emit.jumpTo_writes isJump)

/-! ## Steps -/

theorem emits_keepAccess (kind : SymbolKind) :
    site.Emits parked (keepAccess kind) () (Site.keepCode kind) 0 := by
  cases kind
  case field => exact emits_op rfl
  case element => exact emits_op rfl
  all_goals exact .result ()

theorem emits_step (site : Site) (target : Designator) (up : Bool) :
    site.Emits 0 (step site.notes target up) () (site.stepCode target up)
      (site.accessPeak 0 target) := by
  refine (emits_access site 0 target).before ((emits_symbol _).read ?_)
  split
  · exact .of_writes fun ran => (Emit.inc_writes ran).2
  · have isPlain : (if up then Opcode.add else .sub).isPlain := by cases up <;> rfl
    simp only [append_assoc]
    exact (emits_keepAccess _).after ((emits_load _).after ((emits_const 1).after
      ((emits_op isPlain).after (emits_store _))))

/-! ## Unpacking -/

theorem elementAt_ok {array : Designator} {element : TypeId}
    (ran : elementAt notes array before = .ok element after) :
    element = (before.site notes).elementAt array ∧ before = after := by
  obtain ⟨_, _, read, ran⟩ := bind_ok ran
  obtain ⟨rfl, rfl⟩ := symbolAt_ok read
  obtain ⟨_, _, read, ran⟩ := bind_ok ran
  obtain ⟨rfl, rfl⟩ := get_ok read
  exact pure_ok ran

theorem unpackGuard_emits (flat : before.parked = 0)
    (ran : unpackGuard notes count rest source before = .ok () after) :
    before.Emits after ((before.site notes).guardCode before.size count rest source)
      (max ((before.site notes).accessPeak 0 rest) ((before.site notes).accessPeak 0 source)) := by
  unfold unpackGuard at ran
  iterate 5 rw [← bind_assoc] at ran
  obtain ⟨_, g₆, operandsRan, ran⟩ := bind_ok ran
  obtain ⟨enough, g₇, jumpRan, ran⟩ := bind_ok ran
  obtain ⟨_, g₈, trapRan, patchRan⟩ := bind_ok ran
  have pushed := ((((((emits_value (before.site notes) rest).andThen (emits_op rfl)).andThen
    (emits_const count)).andThen (emits_op rfl)).andThen (emits_value _ source)).andThen
    (emits_op rfl)).run rfl flat operandsRan
  have operands : before.Emits g₆ ((before.site notes).guardOperands count rest source)
      (max ((before.site notes).accessPeak 0 rest) ((before.site notes).accessPeak 0 source)) := by
    simpa [Site.guardOperands] using pushed
  obtain ⟨jumpFixups, jumped⟩ := jump_lays rfl jumpRan
  have trapped := emit_emits (fun _ acted => Emit.trap_writes acted) trapRan
  have laid := (operands.lays.trans jumped).trans trapped.lays
  have order : ([] ++ enough.operand ++ []).Perm (enough.operand ++ []) := .refl _
  obtain ⟨patchFixups, settled⟩ := patchHere_lays laid order patchRan
  have fixups : after.emitter.fixups = before.emitter.fixups := by
    rw [patchFixups, trapped.fixups, jumpFixups, operands.fixups]
  have jumpAt := operands.lays.size_eq
  have trapAt := jumped.size_eq
  have endAt := trapped.lays.size_eq
  simp only [totalSize_cons, size, totalSize_nil] at endAt
  refine .of_lays settled fixups ?_ (by omega) fun final holds => ?_
  · simp only [Site.guardCode, totalSize_append, totalSize_cons, size]
    omega
  · obtain ⟨⟨⟨pushed, jumps⟩, traps⟩, leads⟩ := holds
    have target : g₈.size = before.size + totalSize
        ((before.site notes).guardOperands count rest source) + 5 := by omega
    have jumpHolds := jumps _ (target ▸ leads)
    rw [jumpAt] at jumpHolds
    rw [trapAt, jumpAt] at traps
    rw [Site.guardCode, Code.holds_append]
    exact ⟨pushed, jumpHolds.1, traps⟩

theorem unpackRest_emits (flat : before.parked = 0)
    (ran : unpackRest notes count rest source ((before.site notes).elementAt rest)
      ((before.site notes).elementAt source) before = .ok () after) :
    before.Emits after ((before.site notes).restCode before.size count rest source)
      (max ((before.site notes).accessPeak 0 rest) ((before.site notes).accessPeak 0 source)) := by
  unfold unpackRest at ran
  -- The three indices and the test.
  iterate 2 rw [← bind_assoc] at ran
  obtain ⟨_, g₃, indicesRan, ran⟩ := bind_ok ran
  obtain ⟨_, _, testRan, ran⟩ := bind_ok ran
  obtain ⟨rfl, rfl⟩ := offset_ok testRan
  rw [← bind_assoc] at ran
  obtain ⟨_, g₅, lengthRan, ran⟩ := bind_ok ran
  obtain ⟨beyond, g₆, beyondRan, ran⟩ := bind_ok ran
  obtain ⟨copy, g₇, copyRan, ran⟩ := bind_ok ran
  obtain ⟨_, _, nextRan, ran⟩ := bind_ok ran
  obtain ⟨rfl, rfl⟩ := offset_ok nextRan
  -- The steps of the indices, and the copying of an element.
  iterate 7 rw [← bind_assoc] at ran
  obtain ⟨_, s₈, stepsRan, ran⟩ := bind_ok ran
  obtain ⟨_, c₀, copyPatchRan, ran⟩ := bind_ok ran
  iterate 9 rw [← bind_assoc] at ran
  obtain ⟨_, p₀, copiesRan, ran⟩ := bind_ok ran
  obtain ⟨_, p₁, beyondPatchRan, popsRan⟩ := bind_ok ran
  have here : before.site notes = _ := rfl
  have indices : before.Emits g₃ [.const 0, .const (Int32.ofInt count), .const 0] 0 :=
    (((emits_const 0).andThen (emits_const count)).andThen (emits_const 0)).run here flat indicesRan
  have tested := ((emits_value _ rest).andThen (emits_op rfl)).run (indices.site notes)
    (indices.parked.trans flat) lengthRan
  obtain ⟨beyondFixups, beyondLaid⟩ := jump_lays rfl beyondRan
  obtain ⟨copyFixups, copyLaid⟩ := jump_lays rfl copyRan
  have head := ((indices.trans tested).lays.trans beyondLaid).trans copyLaid
  have stepped : g₇.Emits s₈ (Site.stepIndices ++ [.jump .jmp g₃.size]) 0 :=
    ((((((((emits_const 1).andThen (emits_op rfl)).andThen (emits_op rfl)).andThen
      (emits_op rfl)).andThen (emits_const 1)).andThen (emits_op rfl)).andThen
      (emits_op rfl)).andThen (emits_jumpTo rfl g₃.size)).run (head.site notes)
      (head.parked.trans flat) stepsRan
  have laid := head.trans stepped.lays
  have order : ([] ++ beyond.operand ++ copy.operand ++ []).Perm
      (copy.operand ++ beyond.operand) := by
    rw [append_nil, nil_append]
    exact perm_append_comm
  obtain ⟨copyPatchFixups, open_⟩ := patchHere_lays laid order copyPatchRan
  have copied : c₀.Emits p₀
      ((before.site notes).copyElement rest source ++ [.jump .jmp g₇.size])
      (max ((before.site notes).accessPeak 0 source) ((before.site notes).accessPeak 0 rest)) := by
    have all := ((((((((((emits_op rfl).andThen (emits_value _ source)).andThen
      (emits_op rfl)).andThen (emits_op rfl)).andThen (emits_op (isPlain_loadElement _))).andThen
      (emits_value _ rest)).andThen (emits_op rfl)).andThen (emits_op rfl)).andThen
      (emits_op (isPlain_storeElement _))).andThen (emits_jumpTo rfl g₇.size)).run
      (open_.site notes) (open_.parked.trans flat) copiesRan
    simpa [Site.copyElement] using all
  have closing : (beyond.operand ++ []).Perm (beyond.operand ++ []) := .refl _
  obtain ⟨beyondPatchFixups, closed⟩ :=
    patchHere_lays (open_.trans copied.lays) closing beyondPatchRan
  have popped := ((emits_op rfl).andThen (emits_op rfl)).run (closed.site notes)
    (closed.parked.trans flat) popsRan
  have whole := closed.trans popped.lays
  have fixups : after.emitter.fixups = before.emitter.fixups := by
    rw [popped.fixups, beyondPatchFixups, copied.fixups, copyPatchFixups, stepped.fixups,
      copyFixups, beyondFixups, (indices.trans tested).fixups]
  have testAt := indices.lays.size_eq
  have lengthAt := tested.lays.size_eq
  have operandsAt := (indices.trans tested).lays.size_eq
  have nextAt := head.size_eq
  have patchedAt := stepped.lays.size_eq
  have copyAt := open_.size_eq
  have beyondAt := copied.lays.size_eq
  have endAt := closed.size_eq
  have copyJumpAt := beyondLaid.size_eq
  simp only [totalSize_append, totalSize_cons, totalSize_nil, size_jump]
    at testAt lengthAt operandsAt nextAt patchedAt copyAt beyondAt endAt
  have code : (before.site notes).restCode before.size count rest source =
      ([.const 0, .const (Int32.ofInt count), .const 0] ++
        ((before.site notes).valueCode rest ++ [.plain .arrayLength])) ++
        [.jump .jge p₀.size] ++ [.jump .jmp s₈.size] ++
        (Site.stepIndices ++ [.jump .jmp g₃.size]) ++
        ((before.site notes).copyElement rest source ++ [.jump .jmp g₇.size]) ++
        ([.plain .pop] ++ [.plain .pop]) := by
    have next : g₃.size + totalSize
        ((before.site notes).valueCode rest ++ [.plain .arrayLength]) + 6 = g₇.size := by
      simp only [totalSize_append, totalSize_cons, totalSize_nil]
      omega
    have copyStart : g₇.size + totalSize Site.stepIndices + 3 = s₈.size := by omega
    have beyondStart : s₈.size + totalSize ((before.site notes).copyElement rest source) + 3 =
        p₀.size := by omega
    simp only [Site.restCode, ← indices.lays.size_eq, next, copyStart, beyondStart,
      append_assoc, cons_append, nil_append]
  rw [code]
  refine .of_lays whole fixups ?_ (by omega) fun final holds => ?_
  · simp only [totalSize_append, totalSize_cons, totalSize_nil, size_jump, size_plain]
  · obtain ⟨⟨⟨⟨⟨⟨⟨head, jumpsBeyond⟩, jumpsCopy⟩, steps⟩, leadsCopy⟩, copies⟩, leadsBeyond⟩,
      pops⟩ :=
      holds
    refine ((((head.append (jumpsBeyond _ leadsBeyond) ?_).append
      (jumpsCopy _ leadsCopy) ?_).append steps ?_).append copies ?_).append pops ?_
    all_goals
      simp only [totalSize_append, totalSize_cons, totalSize_nil, size_jump]
      omega

theorem emits_fillTarget (site : Site) (source : Designator) (target : Option Designator × Nat) :
    site.Emits 0 (fillTarget site.notes source (site.elementAt source) target) ()
      (site.fillCode source target) (site.fillsPeak source [target]) := by
  obtain ⟨_ | target, position⟩ := target
  · exact .result ()
  · simp only [Site.fillCode, Site.fillsPeak, Nat.max_zero, append_assoc]
    exact (emits_access site 0 target).bind ((emits_value site source).before
      ((emits_const position).after ((emits_op (isPlain_loadElement _)).after (emits_store _))))

theorem emits_fillTargets (site : Site) (source : Designator)
    (targets : List (Option Designator × Nat)) :
    site.Emits 0 (targets.forM (fillTarget site.notes source (site.elementAt source))) ()
      (targets.flatMap (site.fillCode source)) (site.fillsPeak source targets) := by
  induction targets with
  | nil => exact .result ()
  | cons target rest ih =>
    have all := (emits_fillTarget site source target).andThen ih
    obtain ⟨_ | target, position⟩ := target <;> simpa [Site.fillsPeak] using all

theorem unpack_emits {targets : List (Option Designator)} (flat : before.parked = 0)
    (ran : unpack notes targets rest source before = .ok () after) :
    before.Emits after ((before.site notes).unpackCode before.size targets rest source)
      ((before.site notes).unpackPeak targets rest source) := by
  obtain ⟨_, _, read, ran⟩ := bind_ok ran
  obtain ⟨rfl, rfl⟩ := elementAt_ok read
  obtain ⟨_, _, read, ran⟩ := bind_ok ran
  obtain ⟨rfl, rfl⟩ := elementAt_ok read
  obtain ⟨_, g₁, guardRan, ran⟩ := bind_ok ran
  obtain ⟨_, g₂, fillsRan, restRan⟩ := bind_ok ran
  have guarded := unpackGuard_emits flat guardRan
  have filled := (emits_fillTargets _ _ _).run (guarded.site notes) (guarded.parked.trans flat)
    fillsRan
  have head := guarded.trans filled
  rw [← head.site] at restRan
  have copied := unpackRest_emits (head.parked.trans flat) restRan
  rw [head.site, head.lays.size_eq] at copied
  have peak : (before.site notes).unpackPeak targets rest source = max (max (max
      ((before.site notes).accessPeak 0 rest) ((before.site notes).accessPeak 0 source))
      ((before.site notes).fillsPeak source targets.zipIdx.reverse))
      (max ((before.site notes).accessPeak 0 rest) ((before.site notes).accessPeak 0 source)) := by
    simp only [Site.unpackPeak]
    omega
  rw [peak]
  exact head.trans copied

/-! ## Actions -/

theorem action_emits {step : Action} (flat : before.parked = 0)
    (ran : action notes step before = .ok () after) :
    before.Emits after ((before.site notes).actionCode before.size step)
      ((before.site notes).actionPeak step) := by
  have here : before.site notes = _ := rfl
  cases step with
  | assign span target value =>
    refine Emits.run ?_ here flat ran
    simp only [Site.actionCode, append_assoc]
    exact (emits_access _ 0 target).bind ((emits_expr _ 0 value).before (emits_store _))
  | increment span target => exact (emits_step _ target true).run here flat ran
  | decrement span target => exact (emits_step _ target false).run here flat ran
  | call span target =>
    refine Emits.run ((emits_call _ 0 target).before ?_) here flat ran
    split
    · exact .result ()
    · exact emits_op rfl
  | unpack span targets rest source => exact unpack_emits flat ran

theorem actions_emits {steps : List Action} (flat : before.parked = 0)
    (ran : steps.forM (action notes) before = .ok () after) :
    before.Emits after ((before.site notes).actionsCode before.size steps)
      ((before.site notes).actionsPeak steps) := by
  induction steps generalizing before with
  | nil =>
    obtain rfl := forM_nil_ok ran
    exact .refl _
  | cons step rest ih =>
    obtain ⟨between, firstRan, restRan⟩ := forM_cons_ok ran
    have first := action_emits flat firstRan
    have later := ih (by rw [first.parked, flat]) restRan
    rw [first.site, first.lays.size_eq] at later
    exact first.trans later

end Gen
end MicroJava
