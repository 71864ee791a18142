import MicroJava.Proofs.Analysis.Marks
import MicroJava.Proofs.Symbol.Orderly

/-!
# Walks over bodies

Whatever is reported about a body, its check walks over all of its parts: `Checker.Walks` says
that every designator is annotated with a symbol and every expression with a type.
-/

namespace MicroJava

open List

variable {before : Checker} {further parts : List Part}

namespace Checker

variable {after : Checker}

/-- What the check of a part of a body does, if it consists of the given parts. -/
structure Walks (parts : List Part) (before after : Checker) : Prop where
  visits : before.Visits (parts.map Part.id) after
  notes : before.method.isSome → before.notes.Gains (parts.map Part.mark) after.notes

namespace Walks

theorem of_visits (visits : before.Visits [] after) : before.Walks [] after where
  visits := visits
  notes _ :=
    { kept := fun mark _ => by
        obtain ⟨symbol, type⟩ := visits.notes mark.node not_mem_nil
        cases mark with
        | symbol _ => exact symbol
        | type _ => exact type
      has := nofun }

theorem method_isSome (walks : before.Walks parts after) (inside : before.method.isSome) :
    after.method.isSome :=
  walks.visits.method_isSome.trans inside

theorem trans {first second third : Checker} (walks : first.Walks parts second)
    (next : second.Walks further third) :
    first.Walks (parts ++ further) third where
  visits := by
    rw [map_append]
    exact walks.visits.trans next.visits
  notes inside := by
    rw [map_append]
    exact (walks.notes inside).trans (next.notes (walks.method_isSome inside))

theorem then_visits {between : Checker} (walks : before.Walks parts between)
    (visits : between.Visits [] after) :
    before.Walks parts after := by
  have both := walks.trans (of_visits visits)
  rwa [append_nil] at both

theorem perm (walks : before.Walks parts after) (perm : parts.Perm further) :
    before.Walks further after where
  visits := walks.visits.mono (perm.map Part.id).subset
  notes inside := (walks.notes inside).congr fun _ => (perm.map Part.mark).symm.mem_iff

end Walks
end Checker

namespace Check

open Checker (Walks)

variable {α β : Type}

/-! ## Steps of the check of a body -/

/-- A step walks over some parts. -/
structure WalksOver (parts : List Part) (act : Check α) : Prop where
  blind : IsBlind act
  walks : ∀ checker : Checker, checker.table.IsValid → checker.Walks parts (act checker).2

namespace WalksOver

variable {act : Check α} {first : Check α} {next : α → Check β}

theorem of_ran (blind : IsBlind act)
    (walks : ∀ before result after, Ran act before result after → before.table.IsValid →
      before.Walks parts after) :
    WalksOver parts act :=
  ⟨blind, fun checker => walks checker _ _ (ran_self act checker)⟩

theorem of_quiet (quiet : IsQuiet act) : WalksOver [] act :=
  ⟨quiet.blind, fun checker _ => .of_visits (quiet.told checker).visits⟩

theorem bind (walks : WalksOver parts first) (walksNext : ∀ value, WalksOver further (next value)) :
    WalksOver (parts ++ further) (first >>= next) := by
  refine ⟨.bind walks.blind fun value => (walksNext value).blind, fun checker valid => ?_⟩
  have before := walks.walks checker valid
  exact before.trans ((walksNext _).walks _ (before.visits.table.valid valid))

theorem quietly (walks : WalksOver parts first) (quiet : ∀ value, IsQuiet (next value)) :
    WalksOver parts (first >>= next) := by
  have both := walks.bind fun value => of_quiet (quiet value)
  rwa [append_nil] at both

theorem after (quiet : IsQuiet first) (walks : ∀ value, WalksOver parts (next value)) :
    WalksOver parts (first >>= next) :=
  (of_quiet quiet).bind walks

theorem perm (walks : WalksOver parts act) (perm : parts.Perm further) :
    WalksOver further act :=
  ⟨walks.blind, fun checker valid => (walks.walks checker valid).perm perm⟩

theorem cons {part : Part} (walks : WalksOver parts first)
    (walksNext : ∀ value, WalksOver [part] (next value)) :
    WalksOver (part :: parts) (first >>= next) :=
  (walks.bind walksNext).perm (perm_append_singleton _ _)

theorem forM {act : α → Check PUnit} {parts : α → List Part}
    (walks : ∀ item, WalksOver (parts item) (act item)) (items : List α) :
    WalksOver (items.flatMap parts) (items.forM act) := by
  induction items with
  | nil => exact .of_quiet quiet.pure
  | cons item rest ih => exact .bind (walks item) fun _ => ih

variable {after : Checker} {result : α}

theorem ran (walks : WalksOver parts act) (ran : Ran act before result after)
    (valid : before.table.IsValid) :
    before.Walks parts after := by
  have walked := walks.walks before valid
  rwa [show act before = (result, after) from ran] at walked

theorem visits (walks : WalksOver parts act) (ran : Ran act before result after)
    (valid : before.table.IsValid) :
    before.Visits (parts.map Part.id) after :=
  (walks.ran ran valid).visits

end WalksOver

/-! ## Designators and expressions -/

theorem walksOver_record (expression : Expr) (type : TypeId) :
    WalksOver [.expression expression] (record expression.node type) := by
  refine ⟨.bind .change fun _ => .pure, fun checker _ => ?_⟩
  obtain ⟨visits, _⟩ := record_visits (ran_self (record expression.node type) checker)
  exact ⟨visits, fun _ => Annotations.gains_setType _ _ _⟩

theorem walksOver_resolveType (ref : TypeRef) (isArray : Bool) :
    WalksOver [] (resolveType ref isArray) :=
  ⟨blind.resolveType, fun checker valid =>
    .of_visits (resolveType_visits (ran_self _ checker) valid).1⟩

theorem walksOver_elementOf (base : Designator) (array : SymbolId) (span : Span) :
    WalksOver [] (elementOf base array span) :=
  ⟨.bind blind.table fun _ => blind.ite blind.onTable (.bind blind.requireFit fun _ => .pure),
    fun checker _ => .of_visits (elementOf_visits (ran_self _ checker))⟩

theorem walksOver_settle (designator : Designator) (found : SymbolId) :
    WalksOver [.designator designator] (settle designator found) := by
  refine .of_ran (.bind .change fun _ => .bind blind.informUse fun _ => .pure)
    fun before result after ran _ => ⟨(settle_visits ran).1, fun _ => ?_⟩
  obtain ⟨_, marked, noteRan, ran⟩ := ran.bind
  obtain ⟨_, told, informRan, ran⟩ := ran.bind
  obtain ⟨rfl, rfl⟩ := ran.pure
  obtain ⟨_, rfl⟩ := Check.quiet.informUse.reports informRan
  cases noteRan
  exact Annotations.gains_setSymbol _ _ _

theorem walksOver_newArray {length : Expr} (node : Node) (element : TypeRef)
    (walks : WalksOver length.parts (typeOf length)) :
    WalksOver (.expression (.newArray node element length) :: length.parts) (do
      let element ← resolveType element false
      let type ← typeOf length
      requireFit (type = .int || type = .none) "array length must be of type int" length.span
      record node (← arrayOf element)) := by
  refine .of_ran (.bind blind.resolveType fun _ => .bind walks.blind fun _ =>
    .bind blind.requireFit fun _ => .bind blind.arrayOf fun _ => .bind .change fun _ => .pure)
    fun before result after ran valid => ?_
  obtain ⟨type, s₁, refRan, ran⟩ := ran.bind
  obtain ⟨lengthType, s₂, lengthRan, ran⟩ := ran.bind
  obtain ⟨_, s₃, fitRan, ran⟩ := ran.bind
  obtain ⟨array, s₄, arrayRan, ran⟩ := ran.bind
  obtain ⟨visits, used, proper⟩ := resolveType_visits refRan valid
  have told := (walks.ran lengthRan (visits.table.valid valid)).then_visits
    (quiet.requireFit.reports fitRan).visits
  have before := (Checker.Walks.of_visits visits).trans told
  have entered := before.then_visits (arrayOf_visits arrayRan (before.visits.table.valid valid)
    (told.visits.table.grows.hasType used) (proper.imp_left And.left)).1
  exact (entered.trans ((walksOver_record (.newArray node element length) array).ran ran
    (entered.visits.table.valid valid))).perm (perm_append_singleton _ _)

mutual

theorem walksOver_resolve (designator : Designator) :
    WalksOver designator.parts (resolve designator) := by
  unfold resolve
  match designator with
  | .name _ ident => exact .after quiet.resolveName fun _ => walksOver_settle _ _
  | .qualified _ _ _ => exact .after quiet.resolveQualified fun _ => walksOver_settle _ _
  | .element node base index =>
    refine .perm (.bind (walksOver_resolve base) fun _ => .bind (walksOver_typeOf index) fun _ =>
      .after quiet.requireFit fun _ => .bind (walksOver_elementOf base _ node.span) fun _ =>
        walksOver_settle (.element node base index) _) ?_
    rw [nil_append, ← append_assoc]
    exact perm_append_singleton _ _
  | .member _ base ident =>
    exact .cons (walksOver_resolve base) fun _ => .after quiet.resolveMember fun _ =>
      walksOver_settle (.member _ base ident) _

theorem walksOver_typeOf (expr : Expr) : WalksOver expr.parts (typeOf expr) := by
  unfold typeOf
  match expr with
  | .literal _ _ => exact walksOver_record (.literal _ _) _
  | .load _ source =>
    exact .cons (walksOver_resolve source) fun _ => .after quiet.valueType fun _ =>
      walksOver_record (.load _ source) _
  | .call _ call =>
    exact .cons (walksOver_checkCall call) fun _ => .after quiet.requireFit fun _ =>
      walksOver_record (.call _ call) _
  | .newArray node element length =>
    exact walksOver_newArray node element (walksOver_typeOf length)
  | .newObject _ ref =>
    refine .cons (walksOver_resolveType _ _) fun _ => .after quiet.table fun _ => ?_
    split
    · exact walksOver_record (.newObject _ ref) _
    · exact .after quiet.mismatch fun _ => walksOver_record (.newObject _ ref) _
  | .neg _ operand =>
    refine .cons (walksOver_typeOf operand) fun _ => ?_
    split
    · exact walksOver_record (.neg _ operand) _
    · exact .after quiet.mismatch fun _ => walksOver_record (.neg _ operand) _
  | .arith node operator left right =>
    refine .perm (.bind (walksOver_typeOf left) fun _ => .bind (walksOver_typeOf right) fun _ =>
      show WalksOver [.expression (.arith node operator left right)] _ from ?_) ?_
    · split_ifs
      · exact walksOver_record (.arith node operator left right) _
      · exact walksOver_record (.arith node operator left right) _
      · exact .after quiet.mismatch fun _ => walksOver_record (.arith node operator left right) _
    · rw [← append_assoc]
      exact perm_append_singleton _ _

theorem walksOver_typesOf (exprs : List Expr) :
    WalksOver (Expr.partsOf exprs) (typesOf exprs) := by
  unfold typesOf
  match exprs with
  | [] => exact .of_quiet quiet.pure
  | first :: rest =>
    exact .bind (walksOver_typeOf first) fun _ => (walksOver_typesOf rest).quietly
      fun _ => quiet.pure

theorem walksOver_checkCall (call : Call) : WalksOver call.parts (checkCall call) := by
  unfold checkCall
  match call with
  | .mk _ callee arguments =>
    exact .bind (walksOver_resolve callee) fun _ =>
      (walksOver_typesOf arguments).quietly fun _ => quiet.applyMethod

end

/-! ## Statements -/

theorem walksOver_checkFact (fact : Fact) : WalksOver fact.parts (checkFact fact) := by
  cases fact with
  | truth value => exact (walksOver_typeOf value).quietly fun _ => quiet.require
  | relation span left op right =>
    refine .bind (walksOver_typeOf left) fun _ => (walksOver_typeOf right).quietly fun _ =>
      quiet.bind quiet.table fun _ => ?_
    split_ifs
    · exact quiet.pure
    · exact quiet.require
    · exact quiet.mismatch

theorem walksOver_checkCondition (condition : Condition) :
    WalksOver (Condition.parts condition) (checkCondition condition) :=
  .forM (fun term => .forM walksOver_checkFact term) condition

theorem walksOver_resolveTarget (target : Designator) :
    WalksOver target.parts (resolveTarget target) := by
  refine (walksOver_resolve target).quietly fun _ => quiet.bind quiet.symbol fun _ => ?_
  split
  · exact quiet.pure
  · exact quiet.bind quiet.report fun _ => quiet.pure

theorem walksOver_targetType (target : Designator) :
    WalksOver target.parts (targetType target) :=
  (walksOver_resolveTarget target).quietly fun _ => quiet.bind quiet.symbol fun _ => quiet.pure

theorem walksOver_checkStep (span : Span) (target : Designator) :
    WalksOver target.parts (checkStep span target) :=
  (walksOver_targetType target).quietly fun _ => quiet.requireFit

theorem walksOver_checkUnpackTarget (element : TypeId) (target : Option Designator) :
    WalksOver (target.elim [] Designator.parts) (checkUnpackTarget element target) := by
  cases target with
  | none => exact .of_quiet quiet.pure
  | some target =>
    refine (walksOver_targetType target).quietly fun _ => ?_
    split
    · exact quiet.pure
    · exact quiet.requireAssignable

theorem walksOver_checkUnpack (span : Span) (targets : List (Option Designator))
    (rest source : Designator) :
    WalksOver (Action.unpack span targets rest source).parts
      (checkUnpack span targets rest source) := by
  rw [Action.parts, append_assoc]
  exact .bind (walksOver_targetType rest) fun _ => .bind (walksOver_resolve source) fun _ =>
    .after quiet.symbol fun _ => .after quiet.requireArray fun _ =>
    .after quiet.requireArray fun _ => .after quiet.table fun _ =>
    .after quiet.requireUnpackable fun _ => .forM (walksOver_checkUnpackTarget _) targets

theorem walksOver_checkAction (action : Action) : WalksOver action.parts (checkAction action) := by
  cases action with
  | assign span target value =>
    exact .bind (walksOver_resolveTarget target) fun _ => (walksOver_typeOf value).quietly fun _ =>
      quiet.bind quiet.symbol fun _ => quiet.requireAssignable
  | increment span target | decrement span target => exact walksOver_checkStep span target
  | call span call => exact (walksOver_checkCall call).quietly fun _ => quiet.pure
  | unpack span targets rest source => exact walksOver_checkUnpack span targets rest source

theorem walksOver_checkActions (actions : List Action) :
    WalksOver (actions.flatMap Action.parts) (actions.forM checkAction) :=
  .forM walksOver_checkAction actions

theorem walksOver_checkTest (test : Option Condition) :
    WalksOver (test.elim [] Condition.parts) (test.forM checkCondition) := by
  cases test with
  | none => exact .of_quiet quiet.pure
  | some condition => exact walksOver_checkCondition condition

theorem walksOver_checkReturn (span : Span) (value : Option Expr) :
    WalksOver (value.elim [] Expr.parts) (checkReturn span value) := by
  cases value with
  | none =>
    refine .of_quiet (quiet.read fun checker => ?_)
    cases checker.method with
    | none => exact quiet.pure
    | some method => exact quiet.bind quiet.typeText fun _ => quiet.require
  | some value =>
    have walks := walksOver_typeOf value
    have isBlind : IsBlind (checkReturn span (some value)) := by
      refine .read fun checker => ?_
      cases checker.method with
      | none => exact .pure
      | some method =>
        exact .bind walks.blind fun _ => .bind .change fun _ => .bind blind.table fun _ =>
          blind.ite blind.report blind.require
    refine .of_ran isBlind fun before result after ran valid => ?_
    replace ran := ran.get_bind
    cases isMethod : before.method with
    | none =>
      simp only [isMethod] at ran
      obtain ⟨_, rfl⟩ := ran.pure
      have outside : ¬ before.method.isSome := by simp [isMethod]
      exact ⟨(Checker.Visits.refl before).mono (nil_subset _),
        fun inside => absurd inside outside⟩
    | some method =>
      simp only [isMethod] at ran
      obtain ⟨type, s₁, valueRan, ran⟩ := ran.bind
      obtain ⟨_, s₂, markRan, ran⟩ := ran.bind
      have marked := (walks.ran valueRan valid).then_visits (markReturn_visits markRan)
      refine marked.then_visits (Checker.Reports.visits ?_)
      refine IsQuiet.reports (quiet.bind quiet.table fun table => ?_) ran
      split
      · exact quiet.report
      · exact quiet.require

theorem walksOver_insideLoop {body : Check Unit} (walks : WalksOver parts body) :
    WalksOver parts (insideLoop body) := by
  refine .of_ran (.bind .change fun _ => .bind walks.blind fun _ => .change)
    fun before result after ran valid => ?_
  obtain ⟨_, s₁, enterRan, ran⟩ := ran.bind
  obtain ⟨_, s₂, bodyRan, leaveRan⟩ := ran.bind
  cases enterRan
  cases leaveRan
  have inner := walks.ran bodyRan valid
  have depth : s₂.loopDepth = before.loopDepth + 1 := inner.visits.loopDepth
  have core : ({ s₂ with loopDepth := s₂.loopDepth - 1 } : Checker).core = before.core := by
    change { s₂.core with loopDepth := s₂.loopDepth - 1 } = before.core
    rw [inner.visits.core, depth]
    rfl
  exact ⟨⟨core, inner.visits.tells, inner.visits.notes, inner.visits.table⟩, inner.notes⟩

mutual

theorem walksOver_checkStmt (stmt : Stmt) : WalksOver stmt.parts (checkStmt stmt) := by
  unfold checkStmt
  match stmt with
  | .action step => exact walksOver_checkAction step
  | .ifThen _ condition body =>
    exact .bind (walksOver_checkCondition condition) fun _ => walksOver_checkStmt body
  | .ifElse _ condition body alternative =>
    rw [Stmt.parts, append_assoc]
    exact .bind (walksOver_checkCondition condition) fun _ =>
      .bind (walksOver_checkStmt body) fun _ => walksOver_checkStmt alternative
  | .loop _ init condition update body =>
    rw [Stmt.parts, append_assoc, append_assoc]
    exact .bind (walksOver_checkActions init) fun _ =>
      .bind (walksOver_checkTest condition) fun _ =>
      .bind (walksOver_checkActions update) fun _ => walksOver_insideLoop (walksOver_checkStmt body)
  | .breakLoop _ | .continueLoop _ => exact .of_quiet (quiet.read fun _ => quiet.require)
  | .ret span value => exact walksOver_checkReturn span value
  | .read _ target =>
    exact (walksOver_targetType target).quietly fun _ =>
      quiet.bind quiet.typeText fun _ => quiet.requireFit
  | .print _ value _ =>
    exact (walksOver_typeOf value).quietly fun _ =>
      quiet.bind quiet.typeText fun _ => quiet.requireFit
  | .block _ body => exact walksOver_checkStmts body

theorem walksOver_checkStmts (stmts : List Stmt) :
    WalksOver (Stmt.partsOf stmts) (checkStmts stmts) := by
  unfold checkStmts
  match stmts with
  | [] => exact .of_quiet quiet.pure
  | first :: rest => exact .bind (walksOver_checkStmt first) fun _ => walksOver_checkStmts rest

end

end Check
end MicroJava
