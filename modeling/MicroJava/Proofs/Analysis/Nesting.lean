import MicroJava.Proofs.Analysis.Soundness

/-!
# Statements within bodies

Each statement of a body is checked, however deep it stands, and the checks count the loops
around it.  So in an accepted program every `break` and every `continue` stands in a loop of
its own method.
-/

namespace MicroJava

namespace Stmt

mutual

/-- In a statement, which stands in a loop or not, loops are left and continued within loops
only. -/
def IsNested (inLoop : Bool) : Stmt → Prop
  | .ifThen _ _ body => IsNested inLoop body
  | .ifElse _ _ body alternative => IsNested inLoop body ∧ IsNested inLoop alternative
  | .loop _ _ _ _ body => IsNested true body
  | .block _ body => AreNested inLoop body
  | .breakLoop _ | .continueLoop _ => inLoop = true
  | _ => True

/-- So they are in the statements of a list. -/
def AreNested (inLoop : Bool) : List Stmt → Prop
  | [] => True
  | first :: rest => IsNested inLoop first ∧ AreNested inLoop rest

end

end Stmt

/-- A statement may be checked in a loop. -/
structure Checker.IsWithin (inLoop : Bool) (checker : Checker) : Prop where
  valid : checker.table.IsValid
  counts : checker.loopDepth ≠ 0 → inLoop = true

variable {before after : Checker} {inLoop : Bool}

theorem Checker.IsWithin.visits {nodes : List NodeId} (within : before.IsWithin inLoop)
    (visits : before.Visits nodes after) :
    after.IsWithin inLoop :=
  ⟨visits.table.valid within.valid, visits.loopDepth ▸ within.counts⟩

namespace Check

theorem insideLoop_ran {body : Check Unit} (ran : Ran (insideLoop body) before () after) :
    ∃ late, Ran body { before with loopDepth := before.loopDepth + 1 } () late ∧
      after = { late with loopDepth := late.loopDepth - 1 } := by
  obtain ⟨_, _, enterRan, ran⟩ := ran.bind
  obtain ⟨_, late, bodyRan, leaveRan⟩ := ran.bind
  cases enterRan
  cases leaveRan
  exact ⟨late, bodyRan, rfl⟩

mutual

theorem checkStmt_isNested {stmt : Stmt} {inLoop : Bool} {before after : Checker}
    (ran : Ran (checkStmt stmt) before () after) (within : before.IsWithin inLoop)
    (clean : after.IsClean) :
    stmt.IsNested inLoop := by
  unfold checkStmt at ran
  unfold Stmt.IsNested
  match stmt with
  | .ifThen _ condition body =>
    obtain ⟨_, _, testRan, bodyRan⟩ := ran.bind
    have visits := (walksOver_checkCondition condition).visits testRan within.valid
    exact checkStmt_isNested bodyRan (within.visits visits) clean
  | .ifElse _ condition body alternative =>
    obtain ⟨_, _, testRan, ran⟩ := ran.bind
    obtain ⟨_, _, bodyRan, otherRan⟩ := ran.bind
    have tested := within.visits
      ((walksOver_checkCondition condition).visits testRan within.valid)
    have later := tested.visits ((walksOver_checkStmt body).visits bodyRan tested.valid)
    have visits := (walksOver_checkStmt alternative).visits otherRan later.valid
    exact ⟨checkStmt_isNested bodyRan tested (visits.tells.isClean clean),
      checkStmt_isNested otherRan later clean⟩
  | .loop _ init condition update body =>
    obtain ⟨_, _, initRan, ran⟩ := ran.bind
    obtain ⟨_, _, testRan, ran⟩ := ran.bind
    obtain ⟨_, _, updateRan, ran⟩ := ran.bind
    have started := within.visits ((walksOver_checkActions init).visits initRan within.valid)
    have tested := started.visits ((walksOver_checkTest condition).visits testRan started.valid)
    have updated := tested.visits ((walksOver_checkActions update).visits updateRan tested.valid)
    obtain ⟨late, bodyRan, rfl⟩ := insideLoop_ran ran
    exact checkStmt_isNested bodyRan ⟨updated.valid, fun _ => rfl⟩ clean
  | .block _ body => exact checkStmts_areNested ran within clean
  | .breakLoop _ | .continueLoop _ =>
    replace ran := ran.get_bind
    exact within.counts (bne_iff_ne.mp (require_isClean ran clean))
  | .action _ | .ret _ _ | .read _ _ | .print _ _ _ => trivial

theorem checkStmts_areNested {stmts : List Stmt} {inLoop : Bool} {before after : Checker}
    (ran : Ran (checkStmts stmts) before () after) (within : before.IsWithin inLoop)
    (clean : after.IsClean) :
    Stmt.AreNested inLoop stmts := by
  unfold Stmt.AreNested
  match stmts with
  | [] => trivial
  | first :: rest =>
    unfold checkStmts at ran
    obtain ⟨_, _, firstRan, restRan⟩ := ran.bind
    have later := within.visits ((walksOver_checkStmt first).visits firstRan within.valid)
    have visits := (walksOver_checkStmts rest).visits restRan later.valid
    exact ⟨checkStmt_isNested firstRan within (visits.tells.isClean clean),
      checkStmts_areNested restRan later clean⟩

end

end Check

namespace Analysis

variable {options : Options} {program : Program}

/-- In an accepted program loops are left and continued within loops only. -/
theorem areNested {unit : DeclUnit} (accepted : (analyze options program).errorCount = 0)
    (member : unit ∈ program.units) :
    Stmt.AreNested false unit.body := by
  obtain ⟨last, final, isLast, isFrom⟩ := exists_isLast options program
  obtain ⟨early, late, ran, valid, depth, tells⟩ := isLast.checks unit member
  exact Check.checkStmts_areNested ran ⟨valid, fun inLoop => absurd depth inLoop⟩
    (tells.isClean (isFrom.clean accepted))

/-- A program with a method whose result has a type that is left open. -/
def returning (type : String) : Program :=
  Supply.plant do
    let ref ← Supply.typeRef none type
    let method ← Supply.method false (some ref) false "f" [] []
      [← Supply.ret (some (← Supply.literal (.int 1)))]
    let main ← Supply.method false none false "main" [] [] []
    Supply.program "P" [] [] [method, main]

/-- The unknown type of a result is reported twice: nothing may be returned either. -/
theorem analyze_returning :
    (analyze {} (returning "int")).errorCount = 0 ∧
      (analyze {} (returning "T")).violations =
        [(.unknownType "T", Span.ofLine 1),
          (.invalidReturn "void method cannot return a value", Span.ofLine 1)] := by
  decide +kernel

end Analysis
end MicroJava
