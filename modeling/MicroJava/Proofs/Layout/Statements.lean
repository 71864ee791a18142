import MicroJava.Proofs.Layout.Conditions

/-!
# The code of statements

What waits in the lists of a construct is settled when the construct is closed, so a statement
leaves behind only the jumps that stop the loop around it.
-/

namespace MicroJava

open List

variable {act : Gen Unit} {stops : List Label} {count line peak : Nat}
  {before after middle : Generator} {notes : Annotations} {span : Span} {body statement : Stmt}
  {code : List Instruction} {test : Condition}

namespace Generator

open Instruction

/-- What a statement leaves behind: its code, and jumps that stop the loop around it. -/
structure Stops (before after : Generator) (stops : List Label) (count peak : Nat)
    (code : Nat → List Instruction) : Prop where
  fixups : after.emitter.fixups = before.emitter.fixups.addStops stops
  outside : before.emitter.fixups.loops = [] → stops = []
  count_eq : ∀ exit, totalSize (code exit) = count
  lays : before.Lays after (Label.operands stops) count peak fun final =>
    ∀ exit, (∀ label ∈ stops, final.Leads label exit) → final.Holds before.size (code exit)

namespace Stops

theorem of_emits (emits : before.Emits after code peak) :
    before.Stops after [] (totalSize code) peak fun _ => code where
  fixups := by rw [emits.fixups, Fixups.addStops_nil]
  outside := fun _ => rfl
  count_eq := fun _ => rfl
  lays := emits.lays.weaken fun _ holds _ _ => holds

theorem idle_then {code : Nat → List Instruction}
    (idle : middle.emitter.fixups = before.emitter.fixups ∧
      before.Lays middle [] 0 0 fun _ => True) (next : middle.Stops after stops count peak code) :
    before.Stops after stops count peak code where
  fixups := by rw [next.fixups, idle.1]
  outside := fun isNil => next.outside (by rw [idle.1]; exact isNil)
  count_eq := next.count_eq
  lays := by
    have sameSize : middle.size = before.size := idle.2.size_eq
    have laid := idle.2.idle_then next.lays
    rw [sameSize] at laid
    exact laid

theorem trans {first second third : Generator} {more : List Label} {further higher : Nat}
    {code next : Nat → List Instruction} (here : first.Stops second stops count peak code)
    (there : second.Stops third more further higher next) :
    first.Stops third (stops ++ more) (count + further) (max peak higher)
      fun exit => code exit ++ next exit where
  fixups := by rw [there.fixups, here.fixups, Fixups.addStops_addStops]
  outside := by
    intro isNil
    have isNilLater : second.emitter.fixups.loops = [] := by
      rw [here.fixups]
      exact Fixups.loops_addStops_eq_nil.mpr isNil
    rw [here.outside isNil, there.outside isNilLater, append_nil]
  count_eq := fun exit => by rw [totalSize_append, here.count_eq, there.count_eq]
  lays := by
    rw [Label.operands_append]
    refine (here.lays.trans there.lays).weaken fun final holds exit leads => ?_
    refine Code.Holds.append (holds.1 exit ?_) (holds.2 exit ?_) ?_
    · exact fun label member => leads label (mem_append_left _ member)
    · exact fun label member => leads label (mem_append_right _ member)
    · rw [here.lays.size_eq, here.count_eq]

end Stops
end Generator

namespace Gen

open Run Instruction
open Site (Emits)

theorem breakLoop_stops (ran : emit Emit.breakLoop before = .ok () after) :
    ∃ label, before.Stops after [label] 3 0 fun exit => [.jump .jmp exit] := by
  obtain ⟨emitter, emitted, rfl⟩ := emit_ok ran
  obtain ⟨_, _, read, emitted⟩ := bind_ok emitted
  cases read
  split at emitted
  next =>
    obtain ⟨label, ⟨inLoop, stopped⟩, laid⟩ :=
      recordJump_lays rfl (fun _ _ => Fix.addBreak_ok) emitted
    refine ⟨label, stopped, fun isNil => absurd isNil inLoop, fun _ => rfl, ?_⟩
    rw [Label.operands_cons, Label.operands_nil, append_nil]
    exact laid.weaken fun final holds exit leads => holds exit (leads label mem_cons_self)
  next => cases emitted

theorem continueLoop_emits (ran : emit Emit.continueLoop before = .ok () after) :
    before.Emits after [.jump .jmp before.emitter.fixups.next] 0 := by
  obtain ⟨emitter, emitted, rfl⟩ := emit_ok ran
  obtain ⟨target, between, asked, jumped⟩ := bind_ok emitted
  obtain ⟨fixups, found, rfl⟩ := Emit.onFixups_ok asked
  obtain ⟨rfl, rfl⟩ := Fix.continueTarget_ok found
  exact .of_writes (Emit.jumpTo_writes rfl jumped)

theorem emits_read (site : Site) (target : Designator) :
    site.Emits 0 (read site.notes target) ()
      (site.accessCode 0 target ++
        [.plain (if (site.table.symbol (site.symbolAt target.node)).type = .char
          then .bread else .read)] ++
        site.storeCode (site.symbolAt target.node))
      (site.accessPeak 0 target) := by
  have isPlain (type : TypeId) : (if type = .char then Opcode.bread else .read).isPlain := by
    split <;> rfl
  rw [append_assoc]
  exact (emits_access site 0 target).before
    ((emits_symbol _).read ((emits_op (isPlain _)).after (emits_store _)))

theorem emits_print (site : Site) (value : Expr) (width : Option Int32) :
    site.Emits 0 (print site.notes value width) ()
      (site.exprCode 0 value ++ Site.printCode (site.typeAt value.node) width)
      (site.exprPeak 0 value) := by
  have isPlain (type : TypeId) : (if type = .char then Opcode.bprint else .print).isPlain := by
    split <;> rfl
  exact (emits_typeAt _).read ((emits_expr site 0 value).before
    ((Emits.of_writes Emit.const_writes).after (emits_op (isPlain _))))

theorem ret_emits (ran : emit Emit.ret before = .ok () after) :
    before.Emits after [.plain .exit, .plain .ret] 0 := by
  obtain ⟨emitter, emitted, rfl⟩ := emit_ok ran
  obtain rfl := Emit.ret_ok emitted
  have closed : before.emitter.Writes (before.emitter.write [Opcode.exit.byte]) (.plain .exit) :=
    ⟨rfl, rfl⟩
  have returned : (before.emitter.write [Opcode.exit.byte]).Writes
      (before.emitter.write [Opcode.exit.byte, Opcode.ret.byte]) (.plain .ret) := ⟨rfl, rfl⟩
  have first := Generator.Emits.of_writes closed
  have second : ({ before with emitter := before.emitter.write [Opcode.exit.byte] } :
      Generator).Emits _ [.plain .ret] 0 := .of_writes returned
  exact first.trans second

/-- What a statement leaves behind between two states. -/
def StmtStops (notes : Annotations) (statement : Stmt) (before after : Generator) : Prop :=
  ∃ stops, before.Stops after stops ((before.site notes).stmtSize statement)
    ((before.site notes).stmtPeak statement) fun exit =>
      (before.site notes).stmtCode before.size exit before.emitter.fixups.next statement

/-- The code of a statement is laid out by every run that succeeds. -/
def IsLaid (notes : Annotations) (statement : Stmt) : Prop :=
  ∀ before after : Generator, before.parked = 0 → stmt notes statement before = .ok () after →
    StmtStops notes statement before after

theorem isLaid_of_line (same : stmt notes statement = emit (Emit.setLine line) >>= fun _ => act)
    (inner : ∀ before after : Generator, before.parked = 0 → act before = .ok () after →
      StmtStops notes statement before after) :
    IsLaid notes statement := by
  intro before after flat ran
  rw [same] at ran
  obtain ⟨_, middle, lineRan, ran⟩ := bind_ok ran
  have line := setLine_lays lineRan
  obtain ⟨stops, stopped⟩ := inner middle after (line.2.parked.trans flat) ran
  rw [line.2.site, line.2.size_eq, line.1] at stopped
  exact ⟨stops, .idle_then line stopped⟩

theorem isLaid_of_emits (same : stmt notes statement = emit (Emit.setLine line) >>= fun _ => act)
    (emits : ∀ (before after : Generator) (exit : Nat), before.parked = 0 →
      act before = .ok () after → before.Emits after
        ((before.site notes).stmtCode before.size exit before.emitter.fixups.next statement)
        ((before.site notes).stmtPeak statement)) :
    IsLaid notes statement := by
  refine isLaid_of_line same fun before after flat ran => ⟨[], ?_⟩
  have each exit := emits before after exit flat ran
  have laid := (each 0).lays
  rw [Site.totalSize_stmtCode] at laid
  refine ⟨?_, fun _ => rfl, fun exit => Site.totalSize_stmtCode .., ?_⟩
  · rw [(each 0).fixups, Fixups.addStops_nil]
  · exact { laid with claims := fun final agrees exit _ => (each exit).lays.claims final agrees }

theorem guarded_lays (flat : before.parked = 0) (bodyLaid : IsLaid notes body)
    (ran : (do
      emit (Emit.openConstruct .branch)
      condition notes test
      discard (emit Emit.patchBody)
      fix Fix.finishConditions
      stmt notes body
      fix Fix.finishBody) before = .ok () after) :
    ∃ past stops, after.emitter.fixups.Top past [] (before.emitter.fixups.addStops stops) ∧
      (before.emitter.fixups.loops = [] → stops = []) ∧
      before.Lays after (Label.operands past ++ Label.operands stops)
        ((before.site notes).testSize (some test) + (before.site notes).stmtSize body)
        (max ((before.site notes).conditionPeak test) ((before.site notes).stmtPeak body))
        fun final => ∀ exit other, (∀ label ∈ past, final.Leads label other) →
          (∀ label ∈ stops, final.Leads label exit) → final.Holds before.size
            ((before.site notes).conditionCode before.size
              (before.size + (before.site notes).testSize (some test)) other test ++
            (before.site notes).stmtCode (before.size + (before.site notes).testSize (some test))
              exit before.emitter.fixups.next body) := by
  obtain ⟨_, g₂, openRan, ran⟩ := bind_ok ran
  obtain ⟨_, g₃, testRan, ran⟩ := bind_ok ran
  obtain ⟨_, g₄, intoRan, ran⟩ := bind_ok ran
  obtain ⟨_, intoRan⟩ := discard_ok intoRan
  obtain ⟨_, g₅, testedRan, ran⟩ := bind_ok ran
  obtain ⟨_, g₆, bodyRan, doneRan⟩ := bind_ok ran
  obtain ⟨top, opened⟩ := openConstruct_lays openRan
  obtain ⟨past, into, top, tested⟩ := condition_lays (opened.parked.trans flat) top testRan
  rw [opened.site, opened.size_eq, Nat.add_zero] at tested
  replace tested := opened.idle_then tested
  have order : (Label.operands (past ++ into)).Perm
      (Label.operands into ++ Label.operands past) := by
    rw [Label.operands_append]
    exact perm_append_comm
  obtain ⟨top, entered⟩ := patchBody_lays top tested order intoRan
  obtain ⟨⟨_, advanced, rfl⟩, idle⟩ := fix_ok testedRan
  replace top := Fix.advance_top top advanced
  replace entered := entered.then_idle idle
  obtain ⟨stops, stopped⟩ := bodyLaid g₅ g₆ (entered.parked.trans flat) bodyRan
  rw [entered.site, top.next, entered.size_eq] at stopped
  have outside isNil := stopped.outside (top.loops.trans isNil)
  replace top := top.addStops stops
  rw [← stopped.fixups] at top
  obtain ⟨⟨_, advanced, rfl⟩, idle⟩ := fix_ok doneRan
  refine ⟨past, stops, Fix.advance_top top advanced, outside, ?_⟩
  refine ((entered.trans stopped.lays).then_idle idle).weaken fun final holds exit other leadsPast
    leadsStops => ?_
  obtain ⟨⟨testHolds, leadsInto⟩, bodyHolds⟩ := holds
  rw [tested.size_eq] at leadsInto
  refine (testHolds _ _ leadsPast leadsInto).append (bodyHolds exit leadsStops) ?_
  rw [entered.size_eq, Site.totalSize_conditionCode]

theorem isLaid_ifThen (bodyLaid : IsLaid notes body) :
    IsLaid notes (.ifThen span test body) := by
  refine isLaid_of_line (by rw [stmt]) fun before after flat ran => ?_
  iterate 5 rw [← bind_assoc] at ran
  obtain ⟨_, g₇, headRan, ran⟩ := bind_ok ran
  simp only [bind_assoc] at headRan
  obtain ⟨_, g₈, pastRan, ran⟩ := bind_ok ran
  obtain ⟨_, pastRan⟩ := discard_ok pastRan
  obtain ⟨_, g₉, patchedRan, closeRan⟩ := bind_ok ran
  obtain ⟨past, stops, top, outside, laid⟩ := guarded_lays flat bodyLaid headRan
  obtain ⟨top, settled⟩ := patchFalse_lays top laid (List.Perm.refl _) pastRan
  obtain ⟨⟨_, advanced, rfl⟩, rested⟩ := fix_ok patchedRan
  replace top := Fix.finishPatching_top top advanced
  obtain ⟨⟨_, closing, rfl⟩, closed⟩ := fix_ok closeRan
  refine ⟨stops, Fix.close_ok top closing, outside, fun exit => Site.totalSize_stmtCode .., ?_⟩
  rw [Site.stmtSize_ifThen, Site.stmtPeak]
  refine ((settled.then_idle rested).then_idle closed).weaken fun final holds exit leads => ?_
  have guarded := holds.1 exit _ holds.2 leads
  rw [laid.size_eq, ← Nat.add_assoc] at guarded
  rw [Site.stmtCode, Site.totalSize_stmtCode]
  exact guarded

theorem isLaid_ifElse {alternative : Stmt} (bodyLaid : IsLaid notes body)
    (alternativeLaid : IsLaid notes alternative) :
    IsLaid notes (.ifElse span test body alternative) := by
  refine isLaid_of_line (by rw [stmt]) fun before after flat ran => ?_
  iterate 5 rw [← bind_assoc] at ran
  obtain ⟨_, g₇, headRan, ran⟩ := bind_ok ran
  simp only [bind_assoc] at headRan
  obtain ⟨beyond, g₈, beyondRan, ran⟩ := bind_ok ran
  obtain ⟨_, g₉, pastRan, ran⟩ := bind_ok ran
  obtain ⟨_, pastRan⟩ := discard_ok pastRan
  obtain ⟨_, h₁, patchedRan, ran⟩ := bind_ok ran
  obtain ⟨_, h₂, otherRan, ran⟩ := bind_ok ran
  obtain ⟨_, h₃, hereRan, closeRan⟩ := bind_ok ran
  obtain ⟨past, stops, top, outside, guarded⟩ := guarded_lays flat bodyLaid headRan
  -- The jump past the alternative follows the body; the false jumps lead behind it.
  obtain ⟨jumpFixups, jumped⟩ := jump_lays rfl beyondRan
  rw [← jumpFixups] at top
  have order : (Label.operands past ++ Label.operands stops ++ beyond.operand).Perm
      (Label.operands past ++ (Label.operands stops ++ beyond.operand)) := by
    rw [append_assoc]
  have laid := guarded.trans jumped
  obtain ⟨top, settled⟩ := patchFalse_lays top laid order pastRan
  obtain ⟨⟨_, advanced, rfl⟩, rested⟩ := fix_ok patchedRan
  replace top := Fix.finishPatching_top top advanced
  replace settled := settled.then_idle rested
  obtain ⟨more, again⟩ := alternativeLaid h₁ h₂ (settled.parked.trans flat) otherRan
  rw [settled.site, top.next, Fixups.next_addStops] at again
  have sameLoops := top.loops
  replace top := top.addStops more
  rw [← again.fixups, Fixups.addStops_addStops] at top
  have order : (Label.operands stops ++ beyond.operand ++ Label.operands more).Perm
      (beyond.operand ++ Label.operands (stops ++ more)) := by
    rw [Label.operands_append, ← append_assoc]
    exact perm_append_comm.append_right _
  obtain ⟨hereFixups, patched⟩ := patchHere_lays (settled.trans again.lays) order hereRan
  rw [← hereFixups] at top
  obtain ⟨⟨_, closing, rfl⟩, closed⟩ := fix_ok closeRan
  have jumpAt := guarded.size_eq
  have patchedAt : g₈.size = h₁.size := by rw [laid.size_eq, settled.size_eq]
  have otherAt : h₁.size = before.size + (before.site notes).testSize (some test) +
      (before.site notes).stmtSize body + 3 := by
    rw [settled.size_eq]
    omega
  have beyondAt := again.lays.size_eq
  refine ⟨stops ++ more, Fix.close_ok top closing, ?_, fun exit => Site.totalSize_stmtCode .., ?_⟩
  · intro isNil
    rw [outside isNil, again.outside (sameLoops.trans (Fixups.loops_addStops_eq_nil.mpr isNil)),
      append_nil]
  · rw [Site.stmtSize_ifElse, Site.stmtPeak]
    have all := patched.then_idle closed
    rw [Nat.max_zero] at all
    refine all.weaken fun final holds exit leads => ?_
    obtain ⟨⟨⟨⟨guardedHolds, jumps⟩, leadsPast⟩, otherHolds⟩, leadsBeyond⟩ := holds
    rw [patchedAt] at leadsPast
    have head := guardedHolds exit _ leadsPast fun label member =>
      leads label (mem_append_left _ member)
    have other := otherHolds exit fun label member => leads label (mem_append_right _ member)
    rw [Site.stmtCode, Site.totalSize_stmtCode, ← otherAt, Site.totalSize_stmtCode, ← beyondAt]
    refine (head.append (jumps _ leadsBeyond) ?_).append other ?_
    all_goals
      simp only [totalSize_append, Site.totalSize_conditionCode, Site.totalSize_stmtCode,
        totalSize_cons, totalSize_nil, size_jump]
      omega

theorem isLaid_loop {init : List Action} {test : Option Condition} {update : List Action}
    (bodyLaid : IsLaid notes body) :
    IsLaid notes (.loop span init test update body) := by
  refine isLaid_of_line (by rw [stmt]) fun g₁ after flat ran => ?_
  obtain ⟨_, g₂, openRan, ran⟩ := bind_ok ran
  obtain ⟨_, g₃, initRan, ran⟩ := bind_ok ran
  obtain ⟨_, _, startRan, ran⟩ := bind_ok ran
  obtain ⟨rfl, rfl⟩ := offset_ok startRan
  obtain ⟨_, g₄, testRan, ran⟩ := bind_ok ran
  obtain ⟨_, g₅, jumpRan, ran⟩ := bind_ok ran
  obtain ⟨_, _, nextRan, ran⟩ := bind_ok ran
  obtain ⟨rfl, rfl⟩ := offset_ok nextRan
  obtain ⟨_, g₆, updateRan, ran⟩ := bind_ok ran
  obtain ⟨_, g₇, againRan, ran⟩ := bind_ok ran
  obtain ⟨_, g₈, enterRan, ran⟩ := bind_ok ran
  obtain ⟨_, g₉, moveRan, ran⟩ := bind_ok ran
  obtain ⟨_, moveRan⟩ := discard_ok moveRan
  obtain ⟨_, h₁, intoRan, ran⟩ := bind_ok ran
  obtain ⟨_, intoRan⟩ := discard_ok intoRan
  obtain ⟨_, h₂, testedRan, ran⟩ := bind_ok ran
  obtain ⟨_, h₃, bodyRan, ran⟩ := bind_ok ran
  obtain ⟨_, h₄, backRan, ran⟩ := bind_ok ran
  obtain ⟨_, h₅, doneRan, ran⟩ := bind_ok ran
  obtain ⟨_, h₆, exitRan, ran⟩ := bind_ok ran
  obtain ⟨_, exitRan⟩ := discard_ok exitRan
  obtain ⟨_, h₇, patchedRan, closeRan⟩ := bind_ok ran
  obtain ⟨top, opened⟩ := openConstruct_lays openRan
  have started := actions_emits (opened.parked.trans flat) initRan
  rw [← started.fixups] at top
  have openedAt : g₂.size = g₁.size := opened.size_eq
  rw [opened.site] at started
  have first := opened.idle_then started.lays
  rw [openedAt] at first
  -- The condition, the jump into the body, and the update with its jump back.
  obtain ⟨past, into, top, tested⟩ := test_lays (first.parked.trans flat) top testRan
  rw [first.site] at tested
  obtain ⟨label, top, jumped⟩ := bodyJump_lays top jumpRan
  have head := (first.trans tested).trans jumped
  have updated := actions_emits (head.parked.trans flat) updateRan
  rw [head.site] at updated
  have again := emit_emits (fun _ acted => Emit.jumpTo_writes rfl acted) againRan
  have stepped := updated.trans again
  rw [← stepped.fixups] at top
  obtain ⟨⟨_, entering, rfl⟩, idle⟩ := fix_ok enterRan
  replace top := Fix.enterLoop_top top entering
  obtain ⟨⟨_, moving, rfl⟩, idle'⟩ := fix_ok moveRan
  replace top := Fix.falseIntoLoop_top top moving
  have laid := ((head.trans stepped.lays).then_idle idle).then_idle idle'
  have order : ([] ++ Label.operands (past ++ into) ++ label.operand ++ []).Perm
      (Label.operands (into ++ [label]) ++ Label.operands past) := by
    simp only [Label.operands_append, Label.operands_cons, Label.operands_nil, append_nil,
      nil_append]
    rw [append_assoc]
    exact perm_append_comm
  obtain ⟨top, entered⟩ := patchBody_lays top laid order intoRan
  obtain ⟨⟨_, advanced, rfl⟩, idle⟩ := fix_ok testedRan
  replace top := Fix.advance_top top advanced
  replace entered := entered.then_idle idle
  -- The body, inside of the loop.
  obtain ⟨stops, stopped⟩ := bodyLaid h₂ h₃ (entered.parked.trans flat) bodyRan
  have inside : h₂.emitter.fixups.next = g₅.size := by
    rw [top.next, Fixups.next_addStops]
    rfl
  rw [entered.site, inside] at stopped
  replace top := top.addStops stops
  rw [← stopped.fixups, Fixups.addStops_addStops] at top
  have back := emit_emits (fun _ acted => Emit.jumpTo_writes rfl acted) backRan
  rw [← back.fixups] at top
  obtain ⟨⟨_, advanced, rfl⟩, idle⟩ := fix_ok doneRan
  replace top := Fix.advance_top top advanced
  have whole := ((entered.trans stopped.lays).trans back.lays).then_idle idle
  have order : (Label.operands past ++ Label.operands stops ++ []).Perm
      (Label.operands (past ++ stops) ++ []) := by
    rw [Label.operands_append]
  obtain ⟨top, settled⟩ := patchTaken_lays whole order
    (fun _ _ taken => Fix.exitLoop_top top taken) exitRan
  obtain ⟨⟨_, advanced, rfl⟩, rested⟩ := fix_ok patchedRan
  replace top := Fix.finishPatching_top top advanced
  obtain ⟨⟨_, closing, rfl⟩, closed⟩ := fix_ok closeRan
  have testAt := first.size_eq
  have jumpAt := tested.size_eq
  have nextAt := jumped.size_eq
  have againAt := updated.lays.size_eq
  have intoAt := laid.size_eq
  have bodyAt := entered.size_eq
  have backAt := stopped.lays.size_eq
  have beyondAt := whole.size_eq
  simp only [Site.totalSize_actionsCode, totalSize_append, totalSize_cons, totalSize_nil, size_jump]
    at testAt againAt intoAt bodyAt beyondAt
  have offsets : (g₁.site notes).loopOffsets g₁.size init test update
      (totalSize ((g₁.site notes).stmtCode 0 0 0 body)) =
        { test := g₃.size, next := g₅.size, body := h₂.size, beyond := h₅.size } := by
    simp only [Site.loopOffsets, Site.totalSize_actionsCode, Site.totalSize_stmtCode,
      Site.LoopOffsets.mk.injEq]
    omega
  refine ⟨[], ?_, fun _ => rfl, ?_, ?_⟩
  · rw [Fixups.addStops_nil]
    exact Fix.close_ok top closing
  · exact fun exit => Site.totalSize_stmtCode ..
  · have count : (g₁.site notes).stmtSize (.loop span init test update body) = totalSize
        ((g₁.site notes).actionsCode g₁.size init) + (g₁.site notes).testSize test + 3 +
        totalSize ((g₁.site notes).actionsCode g₅.size update ++ [.jump .jmp g₃.size]) +
        (g₁.site notes).stmtSize body + totalSize [Instruction.jump .jmp g₅.size] := by
      rw [Site.stmtSize_loop]
      simp only [Site.totalSize_actionsCode, totalSize_append, totalSize_cons, totalSize_nil,
        size_jump]
      omega
    have peak : (g₁.site notes).stmtPeak (.loop span init test update body) =
        max (max (max (max (max ((g₁.site notes).actionsPeak init) ((g₁.site notes).testPeak test))
          0) (max ((g₁.site notes).actionsPeak update) 0)) ((g₁.site notes).stmtPeak body)) 0 := by
      simp only [Site.stmtPeak, Nat.max_zero]
    rw [count, peak]
    refine ((settled.then_idle rested).then_idle closed).weaken ?_
    intro final holds exit _
    obtain ⟨⟨⟨⟨⟨⟨⟨initHolds, testHolds⟩, jumps⟩, updateHolds⟩, leadsInto⟩, bodyHolds⟩, backHolds⟩,
      leadsPast⟩ := holds
    have intoAt : g₉.size = h₂.size := by omega
    rw [intoAt] at leadsInto
    have body := bodyHolds h₅.size fun label member =>
      leadsPast label (mem_append_right _ member)
    have test := testHolds h₂.size h₅.size
      (fun label member => leadsPast label (mem_append_left _ member))
      (fun label member => leadsInto label (mem_append_left _ member))
    have jump := jumps h₂.size (leadsInto label (by simp))
    obtain ⟨update, again⟩ := (Code.holds_append ..).mp updateHolds
    rw [Site.stmtCode, offsets]
    refine (((((initHolds.append test ?_).append jump ?_).append update ?_).append again ?_).append
      body ?_).append backHolds ?_
    all_goals
      simp only [Site.totalSize_actionsCode, Site.totalSize_testCode, Site.totalSize_stmtCode,
        totalSize_append, totalSize_cons, totalSize_nil, size_jump]
      omega

/-! ## All statements -/

mutual

theorem stmt_stops (notes : Annotations) (statement : Stmt) : IsLaid notes statement := by
  match statement with
  | .action step =>
    refine isLaid_of_emits (by rw [stmt]) fun before after exit flat ran => ?_
    rw [Site.stmtCode, Site.stmtPeak]
    exact action_emits flat ran
  | .ifThen _ test body => exact isLaid_ifThen (stmt_stops notes body)
  | .ifElse _ test body alternative =>
    exact isLaid_ifElse (stmt_stops notes body) (stmt_stops notes alternative)
  | .loop _ init test update body => exact isLaid_loop (stmt_stops notes body)
  | .breakLoop _ =>
    refine isLaid_of_line (by rw [stmt]) fun before after flat ran => ?_
    obtain ⟨label, stopped⟩ := breakLoop_stops ran
    refine ⟨[label], ?_⟩
    simp only [Site.stmtPeak, Site.stmtCode]
    exact stopped
  | .continueLoop _ =>
    refine isLaid_of_emits (by rw [stmt]) fun before after exit flat ran => ?_
    rw [Site.stmtCode, Site.stmtPeak]
    exact continueLoop_emits ran
  | .ret _ none =>
    refine isLaid_of_emits (by rw [stmt]) fun before after exit flat ran => ?_
    obtain ⟨_, _, skipped, ran⟩ := bind_ok ran
    obtain ⟨_, rfl⟩ := pure_ok skipped
    rw [Site.stmtCode, Site.stmtPeak]
    exact ret_emits ran
  | .ret _ (some value) =>
    refine isLaid_of_emits (by rw [stmt]) fun before after exit flat ran => ?_
    obtain ⟨_, g₂, valueRan, ran⟩ := bind_ok ran
    have all := ((emits_expr (before.site notes) 0 value).run rfl flat valueRan).trans
      (ret_emits ran)
    rw [Nat.max_zero] at all
    rw [Site.stmtCode, Site.stmtPeak]
    exact all
  | .read _ target =>
    refine isLaid_of_emits (by rw [stmt]) fun before after exit flat ran => ?_
    rw [Site.stmtCode, Site.stmtPeak]
    exact (emits_read (before.site notes) target).run rfl flat ran
  | .print _ value width =>
    refine isLaid_of_emits (by rw [stmt]) fun before after exit flat ran => ?_
    rw [Site.stmtCode, Site.stmtPeak]
    exact (emits_print (before.site notes) value width).run rfl flat ran
  | .block _ body =>
    refine isLaid_of_line (by rw [stmt]) fun before after flat ran => ?_
    obtain ⟨stops, stopped⟩ := stmts_stops flat ran
    refine ⟨stops, ?_⟩
    simp only [Site.stmtSize, Site.stmtPeak, Site.stmtCode]
    exact stopped

theorem stmts_stops {notes : Annotations} {statements : List Stmt} {before after : Generator}
    (flat : before.parked = 0) (ran : stmts notes statements before = .ok () after) :
    ∃ stops, before.Stops after stops ((before.site notes).stmtsSize statements)
      ((before.site notes).stmtsPeak statements) fun exit =>
        (before.site notes).stmtsCode before.size exit before.emitter.fixups.next statements := by
  match statements with
  | [] =>
    rw [stmts] at ran
    obtain ⟨_, rfl⟩ := pure_ok ran
    refine ⟨[], ?_⟩
    simp only [Site.stmtsSize, Site.stmtsPeak, Site.stmtsCode]
    exact .of_emits (.refl before)
  | first :: rest =>
    rw [stmts] at ran
    obtain ⟨_, g₁, firstRan, restRan⟩ := bind_ok ran
    obtain ⟨stops, here⟩ := stmt_stops notes first before g₁ flat firstRan
    obtain ⟨more, there⟩ := stmts_stops (here.lays.parked.trans flat) restRan
    rw [here.lays.site, here.lays.size_eq, here.fixups, Fixups.next_addStops] at there
    refine ⟨stops ++ more, ?_⟩
    simp only [Site.stmtsSize_cons, Site.stmtsPeak, Site.stmtsCode_cons]
    exact here.trans there

end

end Gen
end MicroJava
