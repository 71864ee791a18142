import MicroJava.Proofs.Analysis.Steps

/-!
# Runs of the analysis and their reports

A run of a step is inverted into runs of the steps it consists of.  Reports are never taken
back: if a run ends without violations, then so do its parts.  Many steps do nothing but
report.
-/

namespace MicroJava

variable {span : Span} {α β : Type} {cause : Violation}
  {before after first second third : Checker} {result : PUnit}

/-! ## Inverting runs -/

namespace Check

/-- A step leads from one state to another, with a result. -/
def Ran (act : Check α) (before : Checker) (result : α) (after : Checker) : Prop :=
  act before = (result, after)

theorem ran_self (act : Check α) (before : Checker) :
    Ran act before (act before).1 (act before).2 := rfl

variable {act : α → Check PUnit} {next : α → Check β} {value : α}

theorem Ran.bind {first : Check α} {result : β} (ran : Ran (first >>= next) before result after) :
    ∃ value between, Ran first before value between ∧ Ran (next value) between result after :=
  ⟨(first before).1, (first before).2, rfl, ran⟩

theorem Ran.andThen {first : Check α} {result : β} {between : Checker}
    (ran : Ran first before value between) (nextRan : Ran (next value) between result after) :
    Ran (first >>= next) before result after := by
  change next (first before).1 (first before).2 = (result, after)
  rwa [show first before = (value, between) from ran]

theorem Ran.pure {result : α} (ran : Ran (Pure.pure value) before result after) :
    result = value ∧ before = after := by
  cases ran
  exact ⟨rfl, rfl⟩

theorem Ran.get_bind {next : Checker → Check β} {result : β}
    (ran : Ran (MonadState.get >>= next) before result after) :
    Ran (next before) before result after := ran

theorem Ran.table_bind {next : Table → Check β} {result : β}
    (ran : Ran (table >>= next) before result after) :
    Ran (next before.table) before result after := ran

theorem Ran.symbol_bind {id : SymbolId} {next : Symbol → Check β} {result : β}
    (ran : Ran (symbol id >>= next) before result after) :
    Ran (next (before.table.symbol id)) before result after := ran

theorem Ran.modify {change : Checker → Checker}
    (ran : Ran (MonadState.modifyGet fun checker => (PUnit.unit, change checker)) before
      result after) :
    after = change before := by
  cases ran
  rfl

theorem Ran.discard {act : Check α} {result : Unit}
    (ran : Ran (Functor.discard act) before result after) :
    ∃ value, Ran act before value after := by
  cases ran
  exact ⟨_, rfl⟩

theorem Ran.forM_nil (ran : Ran (([] : List α).forM act) before result after) :
    before = after :=
  ran.pure.2

theorem Ran.forM_cons {first : α} {rest : List α}
    (ran : Ran ((first :: rest).forM act) before result after) :
    ∃ between, Ran (act first) before () between ∧ Ran (rest.forM act) between () after := by
  obtain ⟨_, between, acted, later⟩ := ran.bind
  exact ⟨between, acted, later⟩

end Check

/-! ## Reports -/

namespace Checker

/-- No violation was reported. -/
def IsClean (checker : Checker) : Prop := ∀ diagnostic ∈ checker.diagnostics, !diagnostic.isError

theorem IsClean.error_notMem {checker : Checker} (clean : checker.IsClean) :
    .error cause span ∉ checker.diagnostics :=
  fun member => Bool.false_ne_true (clean _ member)

/-- What was reported stays, and more may be reported. -/
def Tells (before after : Checker) : Prop :=
  ∃ more, after.diagnostics = before.diagnostics ++ more

theorem Tells.refl (checker : Checker) : checker.Tells checker := ⟨#[], by simp⟩

theorem Tells.of_eq (same : after.diagnostics = before.diagnostics) : before.Tells after :=
  ⟨#[], by simp [same]⟩

theorem Tells.trans (tells : first.Tells second) (next : second.Tells third) :
    first.Tells third := by
  obtain ⟨more, added⟩ := tells
  obtain ⟨further, addedLater⟩ := next
  exact ⟨more ++ further, by rw [addedLater, added, Array.append_assoc]⟩

theorem Tells.mem {diagnostic : Diagnostic} (tells : before.Tells after)
    (member : diagnostic ∈ before.diagnostics) :
    diagnostic ∈ after.diagnostics := by
  obtain ⟨more, added⟩ := tells
  rw [added]
  exact Array.mem_append_left _ member

theorem Tells.isClean (tells : before.Tells after) (clean : after.IsClean) : before.IsClean :=
  fun diagnostic member => clean diagnostic (tells.mem member)

/-- Nothing happens but reports. -/
def Reports (before after : Checker) : Prop :=
  ∃ more, after = { before with diagnostics := before.diagnostics ++ more }

theorem Reports.refl (checker : Checker) : checker.Reports checker := ⟨#[], by simp⟩

theorem Reports.trans (reports : first.Reports second) (next : second.Reports third) :
    first.Reports third := by
  obtain ⟨more, rfl⟩ := reports
  obtain ⟨further, rfl⟩ := next
  exact ⟨more ++ further, by simp only [Array.append_assoc]⟩

end Checker

namespace Check

/-- A step that does nothing but report. -/
structure IsQuiet (act : Check α) : Prop where
  blind : IsBlind act
  told : ∀ checker : Checker, checker.Reports (act checker).2

variable {act : Check α}

theorem IsQuiet.reports {result : α} (quiet : IsQuiet act) (ran : Ran act before result after) :
    before.Reports after := by
  have told := quiet.told before
  rwa [show act before = (result, after) from ran] at told

theorem not_isClean_report (ran : Ran (report cause span) before () after) :
    ¬ after.IsClean := by
  cases ran
  exact fun clean => clean.error_notMem Array.mem_push_self

theorem not_isClean_fail {value result : α}
    (ran : Ran (report cause span >>= fun _ => Pure.pure value) before result after) :
    ¬ after.IsClean := by
  obtain ⟨_, told, reportRan, ran⟩ := ran.bind
  obtain ⟨_, rfl⟩ := ran.pure
  exact not_isClean_report reportRan

theorem quiet : Reporting fun _ => IsQuiet where
  pure := ⟨.pure, .refl⟩
  bind quiet next := ⟨.bind quiet.blind fun value => (next value).blind,
    fun checker => (quiet.told checker).trans ((next _).told _)⟩
  read quiet same := ⟨.read (fun checker => (quiet checker).blind) same,
    fun checker => (quiet checker).told checker⟩
  report := ⟨blind.report, fun _ => ⟨#[.error _ _], rfl⟩⟩
  inform := by
    intro text span
    refine ⟨blind.inform, fun checker => ?_⟩
    change checker.Reports (if checker.options.reportInfo then _ else checker)
    split
    · exact ⟨#[.info text span], rfl⟩
    · exact .refl checker

/-! ## Reports are kept -/

theorem IsBlind.tells (blind : IsBlind act) (checker : Checker) :
    checker.Tells (act checker).2 := by
  let bare : Checker := { checker with diagnostics := #[] }
  let tuning : Tuning := ⟨checker.options.codeLimit, false, checker.diagnostics⟩
  have same : bare.tuned tuning = checker := by
    simp [bare, tuning, Checker.tuned, Options.tuned]
  refine ⟨(act bare).2.diagnostics.filter tuning.keeps, ?_⟩
  rw [← same, blind tuning bare]
  simp only [Checker.tuned, tuning, bare, Array.filter_empty, Array.append_empty]

/-- What is clean after a step was clean before. -/
theorem Ran.isClean {result : α} (ran : Ran act before result after) (blind : IsBlind act)
    (clean : after.IsClean) :
    before.IsClean := by
  have told := blind.tells before
  rw [show act before = (result, after) from ran] at told
  exact told.isClean clean

end Check

end MicroJava
