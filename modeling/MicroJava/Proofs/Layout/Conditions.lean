import MicroJava.Proofs.Layout.Actions

/-!
# The code of conditions

While the code of a construct is emitted, its jumps wait in the lists of the construct or of
the innermost loop.  A condition leaves two lists of jumps, one for each way it can end.
-/

namespace MicroJava

open List

variable {α : Type} {around before after fixups : Fixups} {bodyJumps falseJumps taken : List Label}
  {notes : Annotations} {label : Label} {peak patched count : Nat} {action : String} {result : α}
  {start : Generator} {waiting rest : List Nat} {claim : Code → Prop}

/-! ## The lists of the innermost construct -/

namespace Fixups

/-- The innermost construct holds two lists of jumps, inside of what is open around it. -/
def Top (fixups : Fixups) (falseJumps bodyJumps : List Label) (around : Fixups) : Prop :=
  ∃ construct : Construct, fixups = { around with constructs := construct :: around.constructs } ∧
    construct.falseJumps.toList = falseJumps ∧ construct.bodyJumps.toList = bodyJumps

/-- The jumps that a statement adds to the innermost loop. -/
def addStops (fixups : Fixups) (stops : List Label) : Fixups :=
  { fixups with
    loops := match fixups.loops with
      | [] => []
      | innermost :: outer => { innermost with jumps := innermost.jumps ++ stops } :: outer }

/-- What is open inside of a loop. -/
def enterLoop (fixups : Fixups) (continueTarget : Nat) : Fixups :=
  { fixups with loops := { continueTarget := continueTarget } :: fixups.loops }

/-- Where a `continue` leads; outside of loops it leads nowhere. -/
def next (fixups : Fixups) : Nat :=
  match fixups.loops with
  | [] => 0
  | innermost :: _ => innermost.continueTarget

@[simp] theorem addStops_nil (fixups : Fixups) : fixups.addStops [] = fixups := by
  obtain ⟨constructs, loops⟩ := fixups
  cases loops <;> simp [addStops]

theorem addStops_addStops (fixups : Fixups) (first second : List Label) :
    (fixups.addStops first).addStops second = fixups.addStops (first ++ second) := by
  obtain ⟨constructs, loops⟩ := fixups
  cases loops with
  | nil => rfl
  | cons innermost outer =>
    have jumps : innermost.jumps ++ first ++ second = innermost.jumps ++ (first ++ second) :=
      Array.toList_inj.mp (by simp)
    simp [addStops, jumps]

@[simp] theorem next_addStops (fixups : Fixups) (stops : List Label) :
    (fixups.addStops stops).next = fixups.next := by
  obtain ⟨constructs, loops⟩ := fixups
  cases loops <;> rfl

section

variable (top : fixups.Top falseJumps bodyJumps around)
include top

theorem Top.addStops (stops : List Label) :
    (fixups.addStops stops).Top falseJumps bodyJumps (around.addStops stops) := by
  obtain ⟨construct, rfl, isFalse, isBody⟩ := top
  exact ⟨construct, rfl, isFalse, isBody⟩

theorem Top.next : fixups.next = around.next := by
  obtain ⟨construct, rfl, _, _⟩ := top
  rfl

theorem Top.loops : fixups.loops = around.loops := by
  obtain ⟨construct, rfl, _, _⟩ := top
  rfl

end

theorem loops_addStops_eq_nil {stops : List Label} :
    (fixups.addStops stops).loops = [] ↔ fixups.loops = [] := by
  obtain ⟨constructs, loops⟩ := fixups
  cases loops <;> simp [addStops]

end Fixups

namespace Fix

open Run

theorem onConstruct_ok {act : Construct → Except Fault (α × Construct)}
    (ran : onConstruct action act before = .ok result after) :
    ∃ construct changed outer, before.constructs = construct :: outer ∧
      act construct = .ok (result, changed) ∧
      after = { before with constructs := changed :: outer } := by
  unfold onConstruct at ran
  split at ran
  next => cases ran
  next construct outer isTop =>
    split at ran
    next value changed acted =>
      cases ran
      exact ⟨construct, changed, outer, isTop, acted, rfl⟩
    next => cases ran

section Top

variable (top : before.Top falseJumps bodyJumps around)
include top

theorem top_of_onConstruct {act : Construct → Except Fault (α × Construct)}
    (ran : onConstruct action act before = .ok result after) :
    ∃ construct changed : Construct, act construct = .ok (result, changed) ∧
      construct.falseJumps.toList = falseJumps ∧ construct.bodyJumps.toList = bodyJumps ∧
      after = { around with constructs := changed :: around.constructs } := by
  obtain ⟨construct, rfl, isFalse, isBody⟩ := top
  obtain ⟨_, changed, _, isTop, acted, rfl⟩ := onConstruct_ok ran
  obtain ⟨rfl, rfl⟩ := List.cons.inj isTop
  exact ⟨construct, changed, acted, isFalse, isBody, rfl⟩

theorem advance_top {source target : Stage}
    (ran : advance source target action before = .ok () after) :
    after.Top falseJumps bodyJumps around := by
  obtain ⟨construct, changed, acted, isFalse, isBody, rfl⟩ := top_of_onConstruct top ran
  split at acted
  next =>
    cases acted
    exact ⟨_, rfl, isFalse, isBody⟩
  next => cases acted

theorem addFalse_top (ran : addFalse label before = .ok () after) :
    after.Top (falseJumps ++ [label]) bodyJumps around := by
  obtain ⟨construct, changed, acted, isFalse, isBody, rfl⟩ := top_of_onConstruct top ran
  split at acted
  next =>
    cases acted
    exact ⟨_, rfl, by simp [isFalse], isBody⟩
  next => cases acted

theorem addBody_top (ran : addBody label before = .ok () after) :
    after.Top falseJumps (bodyJumps ++ [label]) around := by
  obtain ⟨construct, changed, acted, isFalse, isBody, rfl⟩ := top_of_onConstruct top ran
  split at acted
  next =>
    cases acted
    exact ⟨_, rfl, isFalse, by simp [isBody]⟩
  next => cases acted

theorem takeFalse_top (ran : takeFalse before = .ok taken after) :
    taken = falseJumps ∧ after.Top [] bodyJumps around := by
  obtain ⟨construct, changed, acted, isFalse, isBody, rfl⟩ := top_of_onConstruct top ran
  cases acted
  exact ⟨isFalse, _, rfl, rfl, isBody⟩

theorem takeBody_top (ran : takeBody before = .ok taken after) :
    taken = bodyJumps ∧ after.Top falseJumps [] around := by
  obtain ⟨construct, changed, acted, isFalse, isBody, rfl⟩ := top_of_onConstruct top ran
  cases acted
  exact ⟨isBody, _, rfl, isFalse, rfl⟩

theorem finishPatching_top (ran : finishPatching before = .ok () after) :
    after.Top falseJumps bodyJumps around := by
  obtain ⟨construct, changed, acted, isFalse, isBody, rfl⟩ := top_of_onConstruct top ran
  split at acted
  next =>
    split at acted
    next =>
      cases acted
      exact ⟨_, rfl, isFalse, isBody⟩
    next => cases acted
  next => cases acted

theorem close_ok (ran : close before = .ok () after) : after = around := by
  obtain ⟨_, between, advanced, ran⟩ := bind_ok ran
  obtain ⟨construct, rfl, _, _⟩ := advance_top top advanced
  cases ran
  rfl

end Top

theorem falseIntoLoop_top {moved : Nat} {continueTarget : Nat}
    (top : before.Top falseJumps bodyJumps (around.enterLoop continueTarget))
    (ran : falseIntoLoop before = .ok moved after) :
    after.Top [] bodyJumps ((around.enterLoop continueTarget).addStops falseJumps) := by
  obtain ⟨_, between, taken, ran⟩ := bind_ok ran
  obtain ⟨rfl, construct, rfl, isFalse, isBody⟩ := takeFalse_top top taken
  obtain ⟨_, _, added, ran⟩ := bind_ok ran
  obtain ⟨_, rfl⟩ := pure_ok ran
  cases added
  exact ⟨construct, rfl, isFalse, isBody⟩

theorem enterLoop_top {continueTarget : Nat} (top : before.Top falseJumps bodyJumps around)
    (ran : enterLoop continueTarget before = .ok () after) :
    after.Top falseJumps bodyJumps (around.enterLoop continueTarget) := by
  obtain ⟨construct, rfl, isFalse, isBody⟩ := top
  cases ran
  exact ⟨construct, rfl, isFalse, isBody⟩

theorem exitLoop_top {continueTarget : Nat} {stops : List Label}
    (top : before.Top falseJumps bodyJumps ((around.enterLoop continueTarget).addStops stops))
    (ran : exitLoop before = .ok taken after) :
    taken = stops ∧ after.Top falseJumps bodyJumps around := by
  obtain ⟨construct, rfl, isFalse, isBody⟩ := top
  cases ran
  exact ⟨by simp, construct, rfl, isFalse, isBody⟩

theorem continueTarget_ok {target : Nat} (ran : continueTarget before = .ok target after) :
    target = before.next ∧ before = after := by
  obtain ⟨constructs, loops⟩ := before
  cases loops with
  | nil => cases ran
  | cons innermost outer =>
    cases ran
    exact ⟨rfl, rfl⟩

theorem addBreak_ok (ran : addBreak label before = .ok () after) :
    before.loops ≠ [] ∧ after = before.addStops [label] := by
  obtain ⟨constructs, loops⟩ := before
  cases loops with
  | nil => cases ran
  | cons innermost outer =>
    cases ran
    exact ⟨by simp, rfl⟩

end Fix

namespace Gen

open Run Instruction

variable {before after : Generator}

theorem fix_ok {act : Fix α} (ran : fix act before = .ok result after) :
    (∃ fixups, act before.emitter.fixups = .ok result fixups ∧
      after.emitter.fixups = fixups) ∧ before.Lays after [] 0 0 fun _ => True := by
  obtain ⟨emitter, emitted, rfl⟩ := emit_ok ran
  obtain ⟨fixups, acted, rfl⟩ := Emit.onFixups_ok emitted
  exact ⟨⟨fixups, acted, rfl⟩, .idle rfl rfl⟩

theorem setLine_lays {line : Nat} (ran : emit (Emit.setLine line) before = .ok () after) :
    after.emitter.fixups = before.emitter.fixups ∧ before.Lays after [] 0 0 fun _ => True := by
  obtain ⟨emitter, acted, rfl⟩ := emit_ok ran
  cases acted
  exact ⟨rfl, .idle rfl rfl⟩

theorem openConstruct_lays {kind : ConstructKind}
    (ran : emit (Emit.openConstruct kind) before = .ok () after) :
    after.emitter.fixups.Top [] [] before.emitter.fixups ∧ before.Lays after [] 0 0
      fun _ => True := by
  obtain ⟨⟨fixups, acted, same⟩, laid⟩ := fix_ok ran
  cases acted
  exact ⟨⟨_, same, rfl, rfl⟩, laid⟩

/-! ## Conditions -/

theorem recordJump_lays {op : Opcode} {record : Label → Fix Unit} {goal : Label → Fixups → Prop}
    {emitter : Emitter} (isJump : op.isJump) (records : ∀ label fixups,
      record label before.emitter.fixups = .ok () fixups → goal label fixups)
    (ran : (do Emit.onFixups (record (← Emit.jump op))) before.emitter = .ok () emitter) :
    ∃ label, goal label emitter.fixups ∧
      before.Lays { before with emitter := emitter } label.operand 3 0 fun final =>
        ∀ target, final.Leads label target → final.Holds before.size [.jump op target] := by
  obtain ⟨label, between, jumped, recorded⟩ := bind_ok ran
  obtain ⟨jumpFixups, laid⟩ := Generator.Lays.jump isJump jumped
  obtain ⟨fixups, added, rfl⟩ := Emit.onFixups_ok recorded
  rw [jumpFixups] at added
  exact ⟨label, records label fixups added, laid.then_idle (.idle rfl rfl)⟩

theorem falseJump_lays {op : RelOp} (top : before.emitter.fixups.Top falseJumps bodyJumps around)
    (ran : emit (Emit.falseJump op) before = .ok () after) :
    ∃ label, after.emitter.fixups.Top (falseJumps ++ [label]) bodyJumps around ∧
      before.Lays after label.operand 3 0 fun final =>
        ∀ target, final.Leads label target →
          final.Holds before.size [.jump (Opcode.jumpIf op.inverse) target] := by
  obtain ⟨_, emitted, rfl⟩ := emit_ok ran
  exact recordJump_lays (by cases op <;> rfl) (fun _ _ => Fix.addFalse_top top) emitted

theorem bodyJump_lays (top : before.emitter.fixups.Top falseJumps bodyJumps around)
    (ran : emit Emit.bodyJump before = .ok () after) :
    ∃ label, after.emitter.fixups.Top falseJumps (bodyJumps ++ [label]) around ∧
      before.Lays after label.operand 3 0 fun final =>
        ∀ target, final.Leads label target → final.Holds before.size [.jump .jmp target] := by
  obtain ⟨_, emitted, rfl⟩ := emit_ok ran
  exact recordJump_lays rfl (fun _ _ => Fix.addBody_top top) emitted

theorem patchTaken_lays {take : Fix (List Label)} {labels : List Label} {goal : Fixups → Prop}
    (lays : start.Lays before waiting count peak claim)
    (order : waiting.Perm (Label.operands labels ++ rest))
    (takes : ∀ taken fixups, take before.emitter.fixups = .ok taken fixups →
      taken = labels ∧ goal fixups)
    (ran : emit (do Emit.patchAll (← Emit.onFixups take)) before = .ok patched after) :
    goal after.emitter.fixups ∧
      start.Lays after rest count peak fun final =>
        claim final ∧ ∀ label ∈ labels, final.Leads label before.size := by
  obtain ⟨emitter, emitted, rfl⟩ := emit_ok ran
  obtain ⟨taken, between, taking, patching⟩ := bind_ok emitted
  obtain ⟨fixups, took, rfl⟩ := Emit.onFixups_ok taking
  obtain ⟨rfl, reached⟩ := takes taken fixups took
  have idle : before.Lays { before with emitter := { before.emitter with fixups := fixups } } [] 0 0
      fun _ => True := .idle rfl rfl
  obtain ⟨sameFixups, settled⟩ := (lays.then_idle idle).patchAll order patching
  rw [sameFixups]
  exact ⟨reached, settled⟩

theorem patchFalse_lays (top : before.emitter.fixups.Top falseJumps bodyJumps around)
    (lays : start.Lays before waiting count peak claim)
    (order : waiting.Perm (Label.operands falseJumps ++ rest))
    (ran : emit Emit.patchFalse before = .ok patched after) :
    after.emitter.fixups.Top [] bodyJumps around ∧
      start.Lays after rest count peak fun final =>
        claim final ∧ ∀ label ∈ falseJumps, final.Leads label before.size :=
  patchTaken_lays lays order (fun _ _ taken => Fix.takeFalse_top top taken) ran

theorem patchBody_lays (top : before.emitter.fixups.Top falseJumps bodyJumps around)
    (lays : start.Lays before waiting count peak claim)
    (order : waiting.Perm (Label.operands bodyJumps ++ rest))
    (ran : emit Emit.patchBody before = .ok patched after) :
    after.emitter.fixups.Top falseJumps [] around ∧
      start.Lays after rest count peak fun final =>
        claim final ∧ ∀ label ∈ bodyJumps, final.Leads label before.size :=
  patchTaken_lays lays order (fun _ _ taken => Fix.takeBody_top top taken) ran

theorem jump_after {middle : Generator} {operands : List Instruction} {op : Opcode}
    (pushed : before.Emits middle operands peak)
    (laid : middle.Lays after label.operand 3 0 fun final =>
      ∀ target, final.Leads label target → final.Holds middle.size [.jump op target]) :
    before.Lays after label.operand (totalSize (operands ++ [.jump op 0])) peak fun final =>
      ∀ target, final.Leads label target →
        final.Holds before.size (operands ++ [.jump op target]) := by
  have all := pushed.lays.trans laid
  rw [nil_append, Nat.max_zero] at all
  have count : totalSize (operands ++ [.jump op 0]) = totalSize operands + 3 := by simp
  rw [count]
  refine all.weaken fun final holds target leads => ?_
  exact holds.1.append (holds.2 target leads) pushed.lays.size_eq

theorem fact_lays {test : Fact} (flat : before.parked = 0)
    (top : before.emitter.fixups.Top falseJumps bodyJumps around)
    (ran : fact notes test before = .ok () after) :
    ∃ label, after.emitter.fixups.Top (falseJumps ++ [label]) bodyJumps around ∧
      before.Lays after label.operand (totalSize ((before.site notes).factCode 0 test))
        ((before.site notes).factPeak test) fun final =>
        ∀ target, final.Leads label target →
          final.Holds before.size ((before.site notes).factCode target test) := by
  cases test with
  | truth value =>
    rw [fact, ← bind_assoc] at ran
    obtain ⟨_, g₂, operandsRan, jumpRan⟩ := bind_ok ran
    have pushed := ((emits_expr (before.site notes) 0 value).andThen (emits_const 0)).run rfl flat
      operandsRan
    rw [Nat.max_zero] at pushed
    rw [← pushed.fixups] at top
    obtain ⟨label, reached, laid⟩ := falseJump_lays top jumpRan
    have code (target : Nat) : (before.site notes).factCode target (.truth value) =
        ((before.site notes).exprCode 0 value ++ [.const (Int32.ofInt 0)]) ++
          [.jump (Opcode.jumpIf RelOp.ne.inverse) target] := by
      rw [append_assoc]
      rfl
    simp only [code]
    exact ⟨label, reached, jump_after pushed laid⟩
  | relation span left op right =>
    rw [fact, ← bind_assoc] at ran
    obtain ⟨_, g₂, operandsRan, jumpRan⟩ := bind_ok ran
    have pushed := ((emits_expr (before.site notes) 0 left).andThen (emits_expr _ 0 right)).run rfl
      flat operandsRan
    rw [← pushed.fixups] at top
    obtain ⟨label, reached, laid⟩ := falseJump_lays top jumpRan
    exact ⟨label, reached, jump_after pushed laid⟩

theorem term_lays {facts : Term} (flat : before.parked = 0)
    (top : before.emitter.fixups.Top falseJumps bodyJumps around)
    (ran : term notes facts before = .ok () after) :
    ∃ labels, after.emitter.fixups.Top (falseJumps ++ labels) bodyJumps around ∧
      before.Lays after (Label.operands labels) ((before.site notes).termSize facts)
        ((before.site notes).termPeak facts) fun final =>
        ∀ target, (∀ label ∈ labels, final.Leads label target) →
          final.Holds before.size ((before.site notes).termCode target facts) := by
  induction facts generalizing before falseJumps with
  | nil =>
    obtain rfl := forM_nil_ok ran
    refine ⟨[], by rw [append_nil]; exact top, ?_⟩
    exact (Generator.Lays.refl before).weaken fun _ _ _ _ => trivial
  | cons test rest ih =>
    obtain ⟨between, factRan, restRan⟩ := forM_cons_ok ran
    obtain ⟨label, reached, first⟩ := fact_lays flat top factRan
    obtain ⟨labels, top, later⟩ := ih (by rw [first.parked, flat]) reached restRan
    refine ⟨label :: labels, ?_, ?_⟩
    · rw [append_assoc] at top
      exact top
    · rw [first.site] at later
      have all := first.trans later
      have count : (before.site notes).termSize (test :: rest) =
          totalSize ((before.site notes).factCode 0 test) +
            (before.site notes).termSize rest := by
        simp [Site.termSize, Site.termCode]
      rw [count]
      refine all.weaken fun final holds target leads => ?_
      have here := holds.1 target (leads label mem_cons_self)
      have there := holds.2 target fun other member => leads other (mem_cons_of_mem _ member)
      refine here.append there ?_
      rw [first.size_eq, Site.totalSize_factCode _ target]

/-- What a condition leaves behind: its code, and two lists of jumps.  Those of its last term lead
past the body, those of the other terms into it. -/
def Decides (before after : Generator) (around : Fixups) (bodyJumps : List Label)
    (count peak : Nat) (code : Nat → Nat → List Instruction) : Prop :=
  ∃ past into, after.emitter.fixups.Top past (bodyJumps ++ into) around ∧
    before.Lays after (Label.operands (past ++ into)) count peak fun final =>
      ∀ body other, (∀ label ∈ past, final.Leads label other) →
        (∀ label ∈ into, final.Leads label body) → final.Holds before.size (code body other)

theorem terms_lays {first : Term} {further : List Term} (flat : before.parked = 0)
    (top : before.emitter.fixups.Top [] bodyJumps around)
    (ran : condition notes (first :: further) before = .ok () after) :
    Decides before after around bodyJumps ((before.site notes).testSize (some (first :: further)))
      ((before.site notes).conditionPeak (first :: further)) fun body other =>
        (before.site notes).conditionCode before.size body other (first :: further) := by
  induction further generalizing before first bodyJumps with
  | nil =>
    obtain ⟨_, between, termRan, ran⟩ := bind_ok ran
    obtain rfl := forM_nil_ok ran
    obtain ⟨past, reached, laid⟩ := term_lays flat top termRan
    refine ⟨past, [], by rw [append_nil]; exact reached, ?_⟩
    have peak : (before.site notes).conditionPeak [first] = (before.site notes).termPeak first := by
      simp [Site.conditionPeak]
    rw [append_nil, peak]
    exact laid.weaken fun final holds body other leads _ => holds other leads
  | cons next rest ih =>
    obtain ⟨_, g₁, firstRan, ran⟩ := bind_ok ran
    obtain ⟨g₂, furtherRan, restRan⟩ := forM_cons_ok ran
    obtain ⟨_, g₃, bodyRan, furtherRan⟩ := bind_ok furtherRan
    obtain ⟨_, g₄, patchRan, nextRan⟩ := bind_ok furtherRan
    obtain ⟨_, patchRan⟩ := discard_ok patchRan
    have againRan : condition notes (next :: rest) g₄ = .ok () after :=
      (ok_bind nextRan).trans restRan
    -- The jumps of the first term are patched to the second term, before its jumps are added.
    obtain ⟨missed, reached, firstLaid⟩ := term_lays flat top firstRan
    obtain ⟨label, reached, jumpLaid⟩ := bodyJump_lays reached bodyRan
    obtain ⟨reached, settled⟩ := patchFalse_lays reached (firstLaid.trans jumpLaid)
      (List.Perm.refl _) patchRan
    obtain ⟨past, into, reached, later⟩ := ih (settled.parked.trans flat) reached againRan
    refine ⟨past, label :: into, by rw [append_assoc] at reached; exact reached, ?_⟩
    rw [settled.site] at later
    have all := settled.trans later
    have order : (label.operand ++ Label.operands (past ++ into)).Perm
        (Label.operands (past ++ label :: into)) := by
      simp only [Label.operands_append, Label.operands_cons]
      rw [← append_assoc, ← append_assoc]
      exact perm_append_comm.append_right _
    have peak : (before.site notes).conditionPeak (first :: next :: rest) =
        max (max ((before.site notes).termPeak first) 0)
          ((before.site notes).conditionPeak (next :: rest)) := by
      simp [Site.conditionPeak]
    have jumpAt := firstLaid.size_eq
    have furtherAt : g₄.size = before.size + (before.site notes).termSize first + 3 := by
      rw [settled.size_eq, Nat.add_assoc]
    have patchedAt : g₃.size = g₄.size := by rw [jumpLaid.size_eq, jumpAt, furtherAt]
    rw [Site.testSize_cons_cons, peak]
    refine (all.perm order).weaken fun final holds body other leadsPast leadsInto => ?_
    obtain ⟨⟨⟨firstHolds, jumps⟩, leadsMissed⟩, laterHolds⟩ := holds
    have here := firstHolds g₄.size (patchedAt ▸ leadsMissed)
    have jump := jumps body (leadsInto label mem_cons_self)
    have there := laterHolds body other leadsPast
      fun other member => leadsInto other (mem_cons_of_mem _ member)
    simp only [Site.conditionCode, ← furtherAt]
    refine here.append (jump.append there ?_) ?_
    · rw [furtherAt, jumpAt]
      rfl
    · rw [jumpAt, Site.totalSize_termCode]

theorem condition_lays {test : Condition} (flat : before.parked = 0)
    (top : before.emitter.fixups.Top [] [] around)
    (ran : condition notes test before = .ok () after) :
    Decides before after around [] ((before.site notes).testSize (some test))
      ((before.site notes).conditionPeak test) fun body other =>
        (before.site notes).conditionCode before.size body other test := by
  cases test with
  | nil =>
    obtain ⟨_, rfl⟩ := pure_ok ran
    exact ⟨[], [], top, (Generator.Lays.refl before).weaken fun _ _ _ _ _ _ => trivial⟩
  | cons first further => exact terms_lays flat top ran

theorem test_lays {test : Option Condition} (flat : before.parked = 0)
    (top : before.emitter.fixups.Top [] [] around)
    (ran : test.forM (condition notes) before = .ok () after) :
    Decides before after around [] ((before.site notes).testSize test)
      ((before.site notes).testPeak test) fun body other =>
        (before.site notes).testCode before.size body other test := by
  cases test with
  | none =>
    obtain ⟨_, rfl⟩ := pure_ok ran
    exact ⟨[], [], top, (Generator.Lays.refl before).weaken fun _ _ _ _ _ _ => trivial⟩
  | some test => exact condition_lays flat top ran

end Gen
end MicroJava
