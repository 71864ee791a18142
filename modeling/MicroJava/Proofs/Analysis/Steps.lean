import Mathlib.Tactic.Common
import MicroJava.Analysis.Program

/-!
# What the steps of the analysis are made of

Many properties of steps hold of everything that is made of steps with the property.  Each
function of the analysis is taken apart once, for every such family.
-/

namespace MicroJava

/-! ## Tuned options -/

/-- What may be changed without changing the walk. -/
structure Tuning where
  limit : Nat
  quiet : Bool
  earlier : Array Diagnostic := #[]

/-- Whether a diagnostic is still reported. -/
def Tuning.keeps (tuning : Tuning) (diagnostic : Diagnostic) : Bool :=
  diagnostic.isError || !tuning.quiet

/-- Options that are tuned. -/
def Options.tuned (options : Options) (tuning : Tuning) : Options :=
  { options with
    codeLimit := tuning.limit
    reportInfo := options.reportInfo && !tuning.quiet }

/-- The state in which a tuned walk would be. -/
def Checker.tuned (checker : Checker) (tuning : Tuning) : Checker :=
  { checker with
    options := checker.options.tuned tuning
    diagnostics := tuning.earlier ++ checker.diagnostics.filter tuning.keeps }

namespace Check

variable
  {family : ∀ α : Type, Check α → Prop}
  {α β : Type}
  {kept outer isArray : Bool}
  {cause : Violation}
  {span : Span}
  {text message name owner : String}
  {id declared found inherited : SymbolId}
  {overridden : Option SymbolId}
  {type base source target result element : TypeId}
  {receiver parent : Option TypeId}
  {types actuals formals params : List TypeId}
  {kind : SymbolKind}
  {designator callee : Designator}
  {ident space : Ident}
  {method : MethodDecl}
  {decl : VarDecl}
  {expected position level : Nat}

/-! ## Looking and reporting -/

/-- A family of steps with all that look at the state and report. -/
structure Reporting (family : ∀ α : Type, Check α → Prop) : Prop where
  pure : ∀ {α : Type} {value : α}, family α (Pure.pure value)
  bind : ∀ {α β : Type} {first : Check α} {next : α → Check β}, family α first →
    (∀ value, family β (next value)) → family β (first >>= next)
  read : ∀ {α : Type} {next : Checker → Check α}, (∀ checker, family α (next checker)) →
    (same : ∀ tuning checker, next (checker.tuned tuning) = next checker := by
      exact fun _ _ => rfl) → family α (MonadState.get >>= next)
  report : ∀ {cause : Violation} {span : Span}, family Unit (report cause span)
  inform : ∀ {text : String} {span : Span}, family Unit (inform text span)

theorem Reporting.ite (_ : Reporting family) {condition : Prop} [Decidable condition]
    {first second : Check α} (chosen : family α first) (otherwise : family α second) :
    family α (if condition then first else second) := by
  split
  · exact chosen
  · exact otherwise

section Reporting

variable (steps : Reporting family)
include steps

theorem Reporting.discard {act : Check α} (step : family α act) :
    family Unit (Functor.discard act) := steps.bind step fun _ => steps.pure

variable {act : α → Check PUnit} {items : List α}

theorem Reporting.forM (step : ∀ item, family _ (act item)) : family _ (items.forM act) := by
  induction items with
  | nil => exact steps.pure
  | cons item rest ih => exact steps.bind (step item) fun _ => ih

theorem Reporting.option_forM {item : Option α} (step : ∀ item, family _ (act item)) :
    family _ (item.forM act) := by
  cases item with
  | none => exact steps.pure
  | some item => exact step item

theorem Reporting.mapM {act : α → Check β} (step : ∀ item, family _ (act item)) :
    family _ (items.mapM act) := by
  induction items with
  | nil => exact steps.pure
  | cons item rest ih =>
    rw [List.mapM_cons]
    exact steps.bind (step item) fun _ => steps.bind ih fun _ => steps.pure

theorem Reporting.require : family _ (require kept cause span) := steps.ite steps.pure steps.report

theorem Reporting.requireFit : family _ (requireFit kept message span) := steps.require

theorem Reporting.mismatch : family _ (mismatch message span) := steps.report

theorem Reporting.table : family _ table := steps.read fun _ => steps.pure

theorem Reporting.symbol : family _ (symbol id) := steps.read fun _ => steps.pure

theorem Reporting.typeText : family _ (typeText type) := steps.read fun _ => steps.pure

theorem Reporting.resolveElsewhere : family _ (resolveElsewhere ident) := by
  refine steps.read fun checker => ?_
  split
  · exact steps.pure
  · exact steps.bind steps.require fun _ => steps.pure

theorem Reporting.resolveName : family _ (resolveName ident) :=
  steps.read fun _ => steps.ite steps.resolveElsewhere
    (steps.ite (steps.bind steps.report fun _ => steps.pure) steps.pure)

theorem Reporting.resolveQualified : family _ (resolveQualified space ident span) :=
  steps.read fun _ => steps.bind steps.require fun _ => steps.pure

theorem Reporting.resolveMember : family _ (resolveMember id designator ident) := by
  refine steps.read fun checker => steps.ite steps.pure
    (steps.ite (steps.bind steps.requireFit fun _ => steps.pure) ?_)
  dsimp only
  split
  · exact steps.pure
  · exact steps.bind steps.report fun _ => steps.pure

theorem Reporting.informUse : family _ (informUse designator found) :=
  steps.ite steps.pure (steps.bind steps.symbol fun _ => steps.inform)

theorem Reporting.valueType : family _ (valueType designator found) :=
  steps.bind steps.symbol fun _ =>
    steps.ite steps.pure (steps.bind steps.mismatch fun _ => steps.pure)

theorem Reporting.receiverType : family _ (receiverType callee) := by
  refine steps.read fun checker => ?_
  cases callee with
  | member _ base _ => dsimp only; split <;> exact steps.pure
  | _ => dsimp only; split <;> exact steps.pure

theorem Reporting.checkArguments :
    family _ (checkArguments name span position actuals formals) := by
  induction actuals generalizing position formals with
  | nil => exact steps.pure
  | cons actual actuals ih =>
    cases formals with
    | nil => exact steps.pure
    | cons formal formals =>
      exact steps.bind steps.table fun _ => steps.bind steps.require fun _ => ih

theorem Reporting.applyMethod : family _ (applyMethod span callee found types) :=
  steps.bind steps.table fun _ => steps.ite steps.pure
    (steps.ite (steps.bind steps.report fun _ => steps.pure)
      (steps.bind steps.receiverType fun _ =>
        steps.bind (steps.ite steps.checkArguments steps.report) fun _ => steps.pure))

theorem Reporting.requireAssignable : family _ (requireAssignable source target span) :=
  steps.bind steps.table fun _ => steps.requireFit

theorem Reporting.requireArray : family _ (requireArray designator type) :=
  steps.bind steps.table fun _ => steps.requireFit

theorem Reporting.requireUnpackable : family _ (requireUnpackable source target span) :=
  steps.bind steps.table fun _ => steps.requireFit

end Reporting

/-! ## Declaring names -/

/-- A family of steps with all that only report and declare. -/
structure Declaring (family : ∀ α : Type, Check α → Prop) : Prop extends Reporting family where
  update : ∀ {α : Type} (act : Table → Scopes → α × Table × Scopes), family α
    (MonadState.modifyGet fun checker =>
      ((act checker.table checker.scopes).1,
        { checker with
          table := (act checker.table checker.scopes).2.1
          scopes := (act checker.table checker.scopes).2.2 }))

section Declaring

variable (steps : Declaring family)
include steps

theorem Declaring.onTable {act : Table → α × Table} : family _ (onTable act) :=
  steps.update fun table scopes => ((act table).1, (act table).2, scopes)

theorem Declaring.updateSymbol {change : Symbol → Symbol} : family _ (updateSymbol id change) :=
  steps.update fun table scopes => ((), table.updateSymbol id change, scopes)

theorem Declaring.updateType {change : TypeDesc → TypeDesc} : family _ (updateType type change) :=
  steps.update fun table scopes => ((), table.updateType type change, scopes)

theorem Declaring.onScopes {act : Scopes → Scopes} : family _ (onScopes act) :=
  steps.update fun table scopes => ((), table, act scopes)

theorem Declaring.bindName : family _ (Check.bind outer kind name type) :=
  steps.update fun table scopes => scopes.insertIn outer table kind name type

theorem Declaring.declareIn : family _ (declareIn outer kind name type span) :=
  steps.read fun _ => steps.ite (steps.bind steps.report fun _ => steps.pure)
    (steps.bind steps.bindName fun
      | .fresh _ => steps.bind steps.inform fun _ => steps.pure
      | .taken _ => steps.bind steps.report fun _ => steps.pure)

theorem Declaring.resolveType {ref : TypeRef} : family _ (resolveType ref isArray) :=
  steps.read fun _ => steps.ite (steps.bind steps.report fun _ => steps.pure)
    (steps.ite steps.onTable steps.pure)

theorem Declaring.arrayOf : family _ (arrayOf element) := steps.ite steps.pure steps.onTable

theorem Declaring.checkConst {item : ConstItem} : family _ (checkConst type item) :=
  steps.bind steps.table fun _ => steps.bind steps.requireFit fun _ => steps.read fun _ =>
    steps.bind steps.declareIn fun _ => steps.ite steps.pure steps.updateSymbol

theorem Declaring.checkConsts {decl : ConstDecl} : family _ (checkConsts decl) :=
  steps.bind steps.resolveType fun _ => steps.forM fun _ => steps.checkConst

theorem Declaring.itemType {item : VarItem} : family _ (itemType base item) :=
  steps.ite steps.arrayOf steps.pure

theorem Declaring.checkVars : family _ (checkVars kind decl) :=
  steps.bind steps.resolveType fun _ => steps.forM fun _ => steps.bind steps.itemType fun _ =>
    steps.read fun _ => steps.discard steps.declareIn

theorem Declaring.checkStaticVars : family _ (checkStaticVars owner decl) :=
  steps.bind steps.resolveType fun _ => steps.forM fun _ => steps.bind steps.itemType fun _ =>
    steps.discard steps.declareIn

theorem Declaring.resolveResult : family _ (resolveResult method) := by
  unfold Check.resolveResult
  split
  · exact steps.resolveType
  · exact steps.pure

theorem Declaring.declareInstanceMethod :
    family _ (declareInstanceMethod method result params) := by
  refine steps.bind (steps.read fun checker => ?_) fun pending => ?_
  · split
    · exact steps.ite steps.pure steps.pure
    · exact steps.pure
  cases pending with
  | none => exact steps.bind steps.declareIn fun _ => steps.pure
  | some found =>
    refine steps.bind steps.onTable fun _ => steps.bind steps.table fun _ => ?_
    split
    · exact steps.bind steps.report fun _ => steps.pure
    · exact steps.bind steps.onScopes fun _ => steps.bind steps.updateType fun _ =>
        steps.bind steps.inform fun _ => steps.pure

theorem Declaring.declareMethod : family _ (declareMethod method result params) := by
  refine steps.read fun checker => ?_
  split
  · exact steps.ite (steps.bind steps.declareIn fun _ => steps.pure) steps.declareInstanceMethod
  · exact steps.bind steps.declareIn fun _ => steps.pure

theorem Declaring.orUnbound : family _ (orUnbound declared name result level) :=
  steps.ite steps.onTable steps.pure

theorem Declaring.copySlots : family _ (copySlots id inherited) :=
  steps.bind steps.table fun _ => steps.forM fun _ => steps.updateSymbol

theorem Declaring.checkParams : family _ (checkParams id receiver method types overridden) :=
  steps.bind (steps.option_forM fun _ => steps.discard steps.declareIn) fun _ =>
    steps.bind (steps.forM fun _ => steps.discard steps.declareIn) fun _ =>
      steps.read fun _ => steps.bind steps.updateSymbol fun _ =>
        steps.option_forM fun _ => steps.copySlots

theorem Declaring.parentOf {decl : ClassDecl} : family _ (parentOf decl) := by
  unfold Check.parentOf
  split
  · exact steps.bind steps.resolveType fun _ => steps.bind steps.table fun _ =>
      steps.ite steps.pure (steps.ite steps.pure (steps.bind steps.mismatch fun _ => steps.pure))
  · exact steps.pure

theorem Declaring.inheritMembers : family _ (inheritMembers type parent) := by
  unfold Check.inheritMembers
  cases parent with
  | none => exact steps.onScopes
  | some parent =>
    exact steps.bind steps.table fun _ => steps.bind (steps.forM fun _ =>
      steps.bind steps.symbol fun _ => steps.bind steps.onScopes fun _ =>
        steps.ite steps.updateType steps.pure) fun _ => steps.onScopes

end Declaring

/-! ## What no step looks at -/

/-- A step that does the same whatever is tuned. -/
def IsBlind (act : Check α) : Prop :=
  ∀ (tuning : Tuning) (checker : Checker),
    act (checker.tuned tuning) = ((act checker).1, (act checker).2.tuned tuning)

namespace IsBlind

theorem pure {value : α} : IsBlind (Pure.pure value) := fun _ _ => rfl

theorem bind {first : Check α} {next : α → Check β} (blind : IsBlind first)
    (blindNext : ∀ value, IsBlind (next value)) :
    IsBlind (first >>= next) := by
  intro tuning checker
  change next (first (checker.tuned tuning)).1 (first (checker.tuned tuning)).2 = _
  rw [blind tuning checker]
  exact blindNext _ tuning _

theorem read {next : Checker → Check α} (blind : ∀ checker, IsBlind (next checker))
    (same : ∀ tuning checker, next (checker.tuned tuning) = next checker := by
      exact fun _ _ => rfl) :
    IsBlind (MonadState.get >>= next) := by
  intro tuning checker
  change next (checker.tuned tuning) (checker.tuned tuning) = _
  rw [same]
  exact blind checker tuning checker

theorem change {act : Checker → α × Checker}
    (same : ∀ tuning checker, act (checker.tuned tuning) =
      ((act checker).1, (act checker).2.tuned tuning) := by exact fun _ _ => rfl) :
    IsBlind (MonadState.modifyGet act) := same

end IsBlind

theorem blind : Declaring fun _ => IsBlind where
  pure := .pure
  bind := .bind
  read blind same := .read blind same
  report := by
    refine .change fun tuning checker => Prod.ext rfl ?_
    simp only [Checker.tuned, Array.filter_push_of_pos, Tuning.keeps, Diagnostic.isError,
      Bool.true_or, Array.size_push, Array.push_append]
  -- A note is dropped, or it is reported by both walks.
  inform := by
    refine .change fun tuning checker => Prod.ext rfl ?_
    cases wanted : checker.options.reportInfo <;> cases isQuiet : tuning.quiet <;>
      simp [Checker.tuned, Options.tuned, wanted, isQuiet, Tuning.keeps, Diagnostic.isError]
  update _ := .change

end Check
end MicroJava
