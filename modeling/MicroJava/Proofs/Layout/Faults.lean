import MicroJava.Proofs.Analysis.Nesting
import MicroJava.Proofs.Layout.Defined

/-!
# What the generator misses

Every step of the generator needs exactly what the predicates of `Defined` say.  Between two
statements the open constructs and loops are those around them, so nothing else is missing.
-/

namespace MicroJava

variable {α : Type} {designator : Designator}

open Emitter (Awaits Inside IsStable)

namespace Gen

open Site (Needs)

variable {site : Site} {kept : Emitter → Prop}

/-! ## Reading the site -/

theorem needs_symbolAt (node : Node) :
    site.Keeps kept (symbolAt site.notes node) (site.IsNamed node) := by
  unfold symbolAt Annotations.symbol Site.IsNamed
  cases site.notes.symbol? node.id with
  | none => exact .fault rfl Bool.false_ne_true
  | some id => exact (Needs.result id).congr (iff_of_true trivial rfl)

theorem needs_typeAt (node : Node) :
    site.Keeps kept (typeAt site.notes node) (site.IsTyped node) := by
  unfold typeAt Annotations.type Site.IsTyped
  cases site.notes.type? node.id with
  | none => exact .fault rfl Bool.false_ne_true
  | some id => exact (Needs.result id).congr (iff_of_true trivial rfl)

theorem needs_symbolAt_bind {node : Node} {next : SymbolId → Gen α} {condition : Prop}
    (further : site.Keeps kept (next (site.symbolAt node)) condition) :
    site.Keeps kept (symbolAt site.notes node >>= next) (site.IsNamed node ∧ condition) := by
  refine (needs_symbolAt node).bind fun id yields => ?_
  obtain ⟨before, after, here, ran⟩ := yields
  obtain ⟨rfl, rfl⟩ := symbolAt_ok ran
  rw [here]
  exact further

theorem needs_typeAt_bind {node : Node} {next : TypeId → Gen α} {condition : Prop}
    (further : site.Keeps kept (next (site.typeAt node)) condition) :
    site.Keeps kept (typeAt site.notes node >>= next) (site.IsTyped node ∧ condition) := by
  refine (needs_typeAt node).bind fun id yields => ?_
  obtain ⟨before, after, here, ran⟩ := yields
  obtain ⟨rfl, rfl⟩ := typeAt_ok ran
  rw [here]
  exact further

theorem needs_get_bind {next : Generator → Gen α} {condition : Prop}
    (further : ∀ generator : Generator, generator.site site.notes = site →
      site.Keeps kept (next generator) condition) :
    site.Keeps kept (get >>= next) condition := by
  intro before here holds
  have meets := further before here before here holds
  exact ⟨meets.ok, meets.error⟩

theorem needs_symbol_bind {id : SymbolId} {next : Symbol → Gen α} {condition : Prop}
    (further : site.Keeps kept (next (site.table.symbol id)) condition) :
    site.Keeps kept (symbol id >>= next) condition := by
  rw [symbol, bind_assoc]
  refine needs_get_bind fun generator here => ?_
  have table : generator.table = site.table := congrArg Site.table here
  rw [pure_bind, table]
  exact further

theorem needs_codeAddress (id : SymbolId) :
    site.Keeps kept (codeAddress id) (0 ≤ (site.table.symbol id).address) := by
  refine needs_symbol_bind ?_
  by_cases placed : (site.table.symbol id).address < 0
  · rw [if_pos placed]
    exact .fault rfl (by omega)
  · rw [if_neg placed]
    exact (Needs.result _).congr (by simp; omega)

theorem needs_access_bind {next : SymbolId → Gen α} {defined condition : Prop}
    (accessed : site.Keeps kept (access site.notes designator) defined)
    (further : site.Keeps kept (next (site.symbolAt designator.node)) condition) :
    site.Keeps kept (access site.notes designator >>= next) (defined ∧ condition) := by
  refine accessed.bind fun id yields => ?_
  obtain ⟨before, after, here, ran⟩ := yields
  rw [(emits_access site before.parked designator before after id here rfl ran).1]
  exact further

theorem needs_namesType_bind {next : Bool → Gen α} {condition : Prop}
    (further : site.Keeps kept
      (next ((site.table.symbol (site.symbolAt designator.node)).kind = .type)) condition) :
    site.Keeps kept (namesType site.notes designator >>= next)
      (site.IsNamed designator.node ∧ condition) := by
  rw [namesType, bind_assoc]
  refine needs_symbolAt_bind ?_
  rw [bind_assoc]
  exact needs_symbol_bind (by rw [pure_bind]; exact further)

theorem needs_elementAt (array : Designator) :
    site.Keeps kept (elementAt site.notes array) (site.IsNamed array.node) :=
  (needs_symbolAt array.node).before fun _ _ => needs_get_bind fun _ _ => .result _

section Plain

variable [IsStable kept]

theorem needs_load (id : SymbolId) :
    site.Keeps kept (load id) (site.table.symbol id).hasValue := by
  refine needs_symbol_bind ?_
  unfold Symbol.hasValue
  cases (site.table.symbol id).kind
  case const | var | field | element => exact .free rfl
  all_goals exact .fault rfl (by decide)

theorem needs_store (id : SymbolId) :
    site.Keeps kept (store id) (site.table.symbol id).isAssignable := by
  refine needs_symbol_bind ?_
  unfold Symbol.isAssignable
  cases (site.table.symbol id).kind
  case var | field | element => exact .free rfl
  all_goals exact .fault rfl (by decide)

theorem needs_newObject (type : TypeId) :
    site.Keeps kept (newObject type) (site.table.desc type).dispatch.isSome := by
  refine needs_get_bind fun generator here => ?_
  have table : generator.table = site.table := congrArg Site.table here
  simp only [table]
  cases (site.table.desc type).dispatch with
  | none => exact .fault rfl Bool.false_ne_true
  | some slot => exact .free rfl

/-! ## Designators and expressions -/

set_option linter.unusedSectionVars false in
mutual

theorem needs_access (designator : Designator) :
    site.Keeps kept (access site.notes designator) (site.AccessDefined designator) := by
  unfold access Site.AccessDefined
  match designator with
  | .name node _ =>
    refine (needs_symbolAt_bind ?_).congr (iff_of_eq (and_true _))
    exact needs_symbol_bind (.free trivial)
  | .qualified node _ _ => exact (needs_symbolAt_bind (.result _)).congr (iff_of_eq (and_true _))
  | .element node base index =>
    refine needs_symbolAt_bind (needs_access_bind (needs_access base) ?_)
    exact (needs_load _).bind fun _ _ => (needs_expr index).ends
  | .member node base _ =>
    refine needs_symbolAt_bind (needs_namesType_bind ?_)
    by_cases isType : (site.table.symbol (site.symbolAt base.node)).kind = .type
    · simp only [isType, decide_true, if_true]
      exact (Needs.result _).congr (by simp)
    · simp only [isType, decide_false, Bool.false_eq_true, if_false]
      refine Needs.congr ?_ (imp_iff_right isType).symm
      exact needs_access_bind (needs_access base) (needs_load _).ends

theorem needs_expr (expression : Expr) :
    site.Keeps kept (expr site.notes expression) (site.ExprDefined expression) := by
  unfold expr Site.ExprDefined
  match expression with
  | .literal _ value => exact .free trivial
  | .load _ source => exact needs_access_bind (needs_access source) (needs_load _)
  | .call _ target => exact (needs_call target).discard
  | .newArray node _ length =>
    refine needs_typeAt_bind ((needs_expr length).before fun _ _ => ?_)
    exact needs_get_bind fun _ _ => .free trivial
  | .newObject node _ => exact needs_typeAt_bind (needs_newObject _)
  | .neg _ operand => exact (needs_expr operand).ends
  | .arith _ operator left right =>
    exact (needs_expr left).bind fun _ _ => (needs_expr right).ends

theorem needs_exprs (expressions : List Expr) :
    site.Keeps kept (exprs site.notes expressions) (site.ExprsDefined expressions) := by
  unfold exprs Site.ExprsDefined
  match expressions with
  | [] => exact .result _
  | first :: rest => exact (needs_expr first).bind fun _ _ => needs_exprs rest

theorem needs_call (target : Call) :
    site.Keeps kept (call site.notes target) (site.CallDefined target) := by
  match target with
  | .mk _ callee arguments =>
    rw [call, Site.CallDefined]
    refine needs_symbolAt_bind (needs_symbol_bind ?_)
    by_cases isVirtual : (site.table.symbol (site.symbolAt callee.node)).isVirtual
    · rw [if_pos isVirtual]
      suffices needs : site.Keeps kept _
        (site.ReceiverDefined callee ∧ site.ExprsDefined arguments) from
        needs.congr ⟨fun ⟨object, rest⟩ => ⟨fun _ => object, rest, (absurd isVirtual ·)⟩,
          fun ⟨object, rest, _⟩ => ⟨object isVirtual, rest⟩⟩
      refine (needs_receiver callee).bind fun _ _ => .skip fun _ => .skip fun _ => .skip fun _ => ?_
      exact (needs_exprs arguments).ends
    · rw [if_neg isVirtual]
      suffices needs : site.Keeps kept _ (site.ExprsDefined arguments ∧
          0 ≤ (site.table.symbol (site.symbolAt callee.node)).address) from
        needs.congr ⟨fun ⟨rest, placed⟩ => ⟨(absurd · isVirtual), rest, fun _ => placed⟩,
          fun ⟨_, rest, placed⟩ => ⟨rest, placed isVirtual⟩⟩
      exact (needs_exprs arguments).bind fun _ _ => (needs_codeAddress _).ends

theorem needs_receiver (callee : Designator) :
    site.Keeps kept (receiver site.notes callee) (site.ReceiverDefined callee) := by
  unfold receiver Site.ReceiverDefined
  match callee with
  | .member _ base _ => exact needs_access_bind (needs_access base) (needs_load _)
  | .name _ _ => exact .free trivial
  | .qualified _ _ _ | .element _ _ _ => exact .fault rfl not_false

end

theorem needs_value (designator : Designator) :
    site.Keeps kept (value site.notes designator) (site.ValueDefined designator) :=
  needs_access_bind (needs_access designator) (needs_load _)

/-! ## Actions -/

instance {kind : SymbolKind} : IsFree (keepAccess kind) := by
  cases kind <;> unfold keepAccess <;> infer_instance

theorem hasValue_of_isAssignable {symbol : Symbol} (assignable : symbol.isAssignable) :
    symbol.hasValue := by
  unfold Symbol.isAssignable at assignable
  unfold Symbol.hasValue
  cases kind : symbol.kind <;> simp only [kind] at assignable ⊢ <;> cases assignable

theorem needs_step (target : Designator) (up : Bool) :
    site.Keeps kept (step site.notes target up) (site.TargetDefined target) := by
  refine needs_access_bind (needs_access target) (needs_symbol_bind ?_)
  split
  next isLocal =>
    refine .free ?_
    simp only [Bool.and_eq_true, decide_eq_true_eq] at isLocal
    simp [Site.CanStore, Symbol.isAssignable, isLocal.1]
  next =>
    refine .skip fun _ => Needs.congr ?_ (and_iff_right_of_imp hasValue_of_isAssignable)
    exact (needs_load _).bind fun _ _ => .skip fun _ => .skip fun _ => needs_store _

theorem isNamed_of_accessDefined (defined : site.AccessDefined designator) :
    site.IsNamed designator.node := by
  cases designator <;> rw [Site.AccessDefined] at defined
  case name => exact defined
  case qualified => exact defined
  case element => exact defined.1
  case member => exact defined.1

theorem needs_fillTarget (source : Designator) (element : TypeId)
    (target : Option Designator × Nat) :
    site.Keeps kept (fillTarget site.notes source element target)
      (∀ place ∈ target.1, site.ValueDefined source ∧ site.TargetDefined place) := by
  obtain ⟨_ | place, position⟩ := target
  · exact (Needs.result ()).congr (by simp)
  · suffices needs : site.Keeps kept _ (site.AccessDefined place ∧ site.ValueDefined source ∧
        site.CanStore place) from
      needs.congr (by simp only [Option.mem_def, Option.some.injEq, forall_eq', Site.TargetDefined]
                      exact and_left_comm)
    refine needs_access_bind (needs_access place) ?_
    exact (needs_value source).bind fun _ _ => .skip fun _ => .skip fun _ => needs_store _

theorem needs_unpackGuard (count : Nat) (rest source : Designator) :
    site.Keeps kept (unpackGuard site.notes count rest source)
      (site.ValueDefined rest ∧ site.ValueDefined source) := by
  refine (needs_value rest).bind fun _ _ => .skip fun _ => .skip fun _ => .skip fun _ => ?_
  refine (needs_value source).before fun _ _ => .skip fun _ => ?_
  refine (Needs.emit (Emit.ensures_jump_kept .jle)).after fun enough _ => ?_
  suffices keeps : site.Keeps (fun emitter => enough.IsWithin emitter.code.size ∧ kept emitter) _
      True from keeps.weaken fun _ _ holds => holds.2
  exact .skip fun _ => .emit (Emit.ensures_patchHere_kept fun _ holds => holds.1)

theorem needs_unpackRest (count : Nat) (rest source : Designator)
    (restElement sourceElement : TypeId) :
    site.Keeps kept (unpackRest site.notes count rest source restElement sourceElement)
      (site.ValueDefined rest ∧ site.ValueDefined source ∧ site.ValueDefined rest) := by
  iterate 4 refine .skip fun _ => ?_
  refine (needs_value rest).bind fun _ _ => .skip fun _ => ?_
  refine (Needs.emit (Emit.ensures_jump_kept .jge)).after fun beyond _ => ?_
  refine (Needs.emit (Emit.ensures_jump_kept .jmp)).after fun copy _ => ?_
  suffices keeps : site.Keeps (fun emitter => copy.IsWithin emitter.code.size ∧
      beyond.IsWithin emitter.code.size ∧ kept emitter) _ _ from
    keeps.weaken fun _ _ holds => holds.2.2
  iterate 9 refine .skip fun _ => ?_
  refine (Needs.emit (Emit.ensures_patchHere_kept fun _ holds => holds.1)).after fun _ _ => ?_
  refine .skip fun _ => (needs_value source).bind fun _ _ => ?_
  iterate 3 refine .skip fun _ => ?_
  refine (needs_value rest).before fun _ _ => ?_
  iterate 4 refine .skip fun _ => ?_
  exact (Needs.emit (Emit.ensures_patchHere_kept fun _ holds => holds.2.1)).ends

theorem needs_unpack (targets : List (Option Designator)) (rest source : Designator) :
    site.Keeps kept (unpack site.notes targets rest source)
      (site.ValueDefined rest ∧ site.ValueDefined source ∧
        ∀ target, some target ∈ targets → site.TargetDefined target) := by
  refine Needs.congr ((needs_elementAt source).bind fun sourceElement _ =>
    (needs_elementAt rest).bind fun restElement _ =>
      (needs_unpackGuard targets.length rest source).bind fun _ _ =>
        (Needs.forM (needs_fillTarget source sourceElement) _).bind fun _ _ =>
          needs_unpackRest targets.length rest source restElement sourceElement) ?_
  have each : (∀ target ∈ targets.zipIdx.reverse, ∀ place ∈ target.1,
      site.ValueDefined source ∧ site.TargetDefined place) ↔
      ∀ place, some place ∈ targets → site.ValueDefined source ∧ site.TargetDefined place := by
    simp only [List.mem_reverse]
    constructor
    · intro holds place member
      obtain ⟨position, found⟩ := List.mem_iff_getElem?.mp member
      exact holds (some place, position) (List.mem_zipIdx_iff_getElem?.mpr found) place rfl
    · intro holds target member place isPlace
      have found := List.mem_zipIdx_iff_getElem?.mp member
      rw [isPlace] at found
      exact holds place (List.mem_of_getElem? found)
  rw [each]
  constructor
  · rintro ⟨_, _, ⟨hasRest, hasSource⟩, fills, _⟩
    exact ⟨hasRest, hasSource, fun place member => (fills place member).2⟩
  · rintro ⟨hasRest, hasSource, fills⟩
    exact ⟨isNamed_of_accessDefined hasSource.1, isNamed_of_accessDefined hasRest.1,
      ⟨hasRest, hasSource⟩, fun place member => ⟨hasSource, fills place member⟩,
      hasRest, hasSource, hasRest⟩

theorem needs_action (step : Action) :
    site.Keeps kept (action site.notes step) (site.ActionDefined step) := by
  cases step with
  | assign _ target value =>
    suffices needs : site.Keeps kept _ (site.AccessDefined target ∧ site.ExprDefined value ∧
        site.CanStore target) from needs.congr (by
          simp only [Site.ActionDefined, Site.TargetDefined, and_assoc, and_comm])
    refine needs_access_bind (needs_access target) ?_
    exact (needs_expr value).bind fun _ _ => needs_store _
  | increment _ target => exact needs_step target true
  | decrement _ target => exact needs_step target false
  | call _ target =>
    exact (needs_call target).ends
  | unpack _ targets rest source => exact needs_unpack targets rest source

theorem needs_read (target : Designator) :
    site.Keeps kept (read site.notes target) (site.TargetDefined target) := by
  exact needs_access_bind (needs_access target) (needs_symbol_bind (.skip fun _ => needs_store _))

theorem needs_print (value : Expr) (width : Option Int32) :
    site.Keeps kept (print site.notes value width)
      (site.IsTyped value.node ∧ site.ExprDefined value) :=
  needs_typeAt_bind (needs_expr value).ends

end Plain

/-! ## Conditions -/

section Statements

variable {constructs : List Construct} {depth size : Nat} {holds : Construct → Prop}

/-- The construct that the jumps of a condition belong to. -/
abbrev AtHeader (constructs : List Construct) (depth size : Nat) : Emitter → Prop :=
  Inside (Construct.IsAt .header false false) constructs depth size

theorem needs_fact (test : Fact) :
    site.Keeps (AtHeader constructs depth size) (fact site.notes test) (site.FactDefined test) := by
  cases test with
  | truth value =>
    exact (needs_expr value).before fun _ _ => .skip fun _ => .emit (Emit.ensures_falseJump .ne)
  | relation _ left op right =>
    refine (needs_expr left).bind fun _ _ => (needs_expr right).before fun _ _ => ?_
    exact .emit (Emit.ensures_falseJump op)

theorem needs_term (facts : Term) :
    site.Keeps (AtHeader constructs depth size) (term site.notes facts)
      (∀ test ∈ facts, site.FactDefined test) :=
  .forM needs_fact facts

theorem needs_furtherTerm (next : Term) :
    site.Keeps (AtHeader constructs depth size) (furtherTerm site.notes next)
      (∀ test ∈ next, site.FactDefined test) :=
  (Needs.emit Emit.ensures_bodyJump).after fun _ _ =>
    ((Needs.emit Emit.ensures_patchFalse).discard.weaken fun _ _ inside =>
      inside.imp fun _ => Construct.IsAt.forget).after fun _ _ => needs_term next

theorem needs_condition (test : Condition) :
    site.Keeps (AtHeader constructs depth size) (condition site.notes test)
      (site.ConditionDefined test) := by
  cases test with
  | nil => exact (Needs.result ()).congr (by simp [Site.ConditionDefined])
  | cons first rest =>
    refine ((needs_term first).bind fun _ _ => .forM needs_furtherTerm rest).congr ?_
    simp only [Site.ConditionDefined, List.forall_mem_cons]

/-! ## Statements -/

theorem needs_openConstruct (kind : ConstructKind) :
    site.Needs (Awaits constructs depth size) (emit (Emit.openConstruct kind)) True
      fun _ => AtHeader constructs depth size :=
  (Needs.emit (Emit.ensures_openConstruct kind)).weaken
    fun _ _ inside => inside.imp fun _ => Construct.IsAt.forget

theorem needs_inside {act : Gen Unit} {condition : Prop}
    (each : ∀ construct, site.Keeps (Awaits (construct :: constructs) depth size) act condition) :
    site.Keeps (Inside holds constructs depth size) act condition :=
  fun before here ⟨construct, property, awaits⟩ => (each construct before here awaits).weaken
    fun _ _ ⟨there, after⟩ => ⟨there, construct, property, after⟩

mutual

theorem needs_stmt (statement : Stmt) {inLoop : Bool} (nested : statement.IsNested inLoop)
    (constructs : List Construct) (depth size : Nat) (looped : inLoop = true → depth ≠ 0) :
    site.Keeps (Awaits constructs depth size) (stmt site.notes statement)
      (site.StmtDefined statement) := by
  unfold stmt Site.StmtDefined
  refine .skip fun _ => ?_
  match statement with
  | .action step => exact needs_action step
  | .ifThen _ test body =>
    refine (needs_openConstruct .branch).after fun _ _ => (needs_condition test).bind fun _ _ => ?_
    refine (Needs.emit Emit.ensures_patchBody).discard.after fun _ _ => ?_
    refine (Needs.emit (Emit.ensures_advance .conditions _)).after fun _ _ => ?_
    refine (needs_inside fun construct =>
      needs_stmt body nested (construct :: constructs) depth size looped).before fun _ _ => ?_
    refine (Needs.emit (Emit.ensures_advance .body _)).after fun _ _ => ?_
    refine (Needs.emit Emit.ensures_patchFalse).discard.after fun _ _ => ?_
    refine (Needs.emit Emit.ensures_finishPatching).after fun _ _ => ?_
    exact .emit Emit.ensures_close
  | .ifElse _ test body alternative =>
    refine (needs_openConstruct .branch).after fun _ _ => (needs_condition test).bind fun _ _ => ?_
    refine (Needs.emit Emit.ensures_patchBody).discard.after fun _ _ => ?_
    refine (Needs.emit (Emit.ensures_advance .conditions _)).after fun _ _ => ?_
    refine (needs_inside fun construct =>
      needs_stmt body nested.1 (construct :: constructs) depth size looped).bind fun _ _ => ?_
    refine (Needs.emit (Emit.ensures_advance .body _)).after fun _ _ => ?_
    refine (Needs.emit (Emit.ensures_jump_inside .jmp)).after fun beyond _ => .assume fun le => ?_
    refine (Needs.emit Emit.ensures_patchFalse).discard.after fun _ _ => ?_
    refine (Needs.emit Emit.ensures_finishPatching).after fun _ _ => ?_
    refine (needs_inside fun construct =>
      needs_stmt alternative nested.2 (construct :: constructs) depth (beyond.offset + 2)
        looped).before fun _ _ => ?_
    refine Needs.after (.emit (Emit.ensures_patchHere_kept fun _ inside => inside.size))
      fun _ _ => ?_
    exact (Needs.emit Emit.ensures_close).weaken fun _ _ awaits => awaits.mono le
  | .loop _ init test update body =>
    refine (needs_openConstruct .loop).after fun _ _ => ?_
    refine (Needs.forM needs_action init).bind fun _ _ => .skip fun start => ?_
    refine (Needs.option_forM needs_condition test).bind fun _ _ => ?_
    refine (Needs.emit Emit.ensures_bodyJump).after fun _ _ => .skip fun next => ?_
    refine (Needs.forM needs_action update).bind fun _ _ => .skip fun _ => ?_
    refine (Needs.emit (.inside fun _ => Emit.ensures_enterLoop next)).after fun _ _ => ?_
    refine (Needs.emit Emit.ensures_falseIntoLoop).discard.after fun _ _ => ?_
    refine (Needs.emit Emit.ensures_patchBody).discard.after fun _ _ => ?_
    refine (Needs.emit (Emit.ensures_advance .conditions _)).after fun _ _ => ?_
    refine (needs_inside fun construct =>
      needs_stmt body nested (construct :: constructs) (depth + 1) size
        fun _ => Nat.succ_ne_zero depth).before fun _ _ => .skip fun _ => ?_
    refine (Needs.emit (Emit.ensures_advance .body _)).after fun _ _ => ?_
    refine (Needs.emit (.inside fun _ => Emit.ensures_exitLoop)).discard.after fun _ _ => ?_
    refine (Needs.emit Emit.ensures_finishPatching).after fun _ _ => ?_
    exact .emit Emit.ensures_close
  | .breakLoop _ =>
    obtain ⟨outer, rfl⟩ := Nat.exists_eq_succ_of_ne_zero (looped nested)
    exact .emit Emit.ensures_breakLoop
  | .continueLoop _ =>
    obtain ⟨outer, rfl⟩ := Nat.exists_eq_succ_of_ne_zero (looped nested)
    exact .emit Emit.ensures_continueLoop
  | .ret _ value =>
    exact (Needs.option_forM needs_expr value).ends
  | .read _ target => exact needs_read target
  | .print _ value width => exact needs_print value width
  | .block _ body => exact needs_stmts body nested constructs depth size looped

theorem needs_stmts (statements : List Stmt) {inLoop : Bool}
    (nested : Stmt.AreNested inLoop statements) (constructs : List Construct) (depth size : Nat)
    (looped : inLoop = true → depth ≠ 0) :
    site.Keeps (Awaits constructs depth size) (stmts site.notes statements)
      (site.StmtsDefined statements) := by
  unfold stmts Site.StmtsDefined
  match statements with
  | [] => exact .result _
  | first :: rest =>
    exact (needs_stmt first nested.1 constructs depth size looped).bind fun _ _ =>
      needs_stmts rest nested.2 constructs depth size looped

end

end Statements

end Gen
end MicroJava
