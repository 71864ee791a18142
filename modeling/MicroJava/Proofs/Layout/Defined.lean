import MicroJava.Proofs.Emitter.Bookkeeping
import MicroJava.Proofs.Layout.Program

/-!
# When code is defined

Direct code exists for every tree, but the generator stops where a node was never annotated or
where a symbol lacks what its code needs.  The predicates of this module say for which trees
it does not.
-/

namespace MicroJava

variable {kept pre : Emitter → Prop} {condition further : Prop} {site : Site} {α β : Type}

open Emitter (IsStable)

/-! ## What the code of a tree needs -/

namespace Site

/-- A symbol was recorded for a node. -/
def IsNamed (site : Site) (node : Node) : Prop := (site.notes.symbol? node.id).isSome

/-- A type was recorded for a node. -/
def IsTyped (site : Site) (node : Node) : Prop := (site.notes.type? node.id).isSome

/-- What a designator stands for can be read. -/
def CanLoad (site : Site) (designator : Designator) : Prop :=
  (site.table.symbol (site.symbolAt designator.node)).hasValue

/-- What a designator stands for can be written. -/
def CanStore (site : Site) (designator : Designator) : Prop :=
  (site.table.symbol (site.symbolAt designator.node)).isAssignable

/-- What a designator stands for is called through a dispatch table. -/
def IsVirtual (site : Site) (callee : Designator) : Prop :=
  (site.table.symbol (site.symbolAt callee.node)).isVirtual

mutual

/-- An access to a designator has code. -/
def AccessDefined (site : Site) (designator : Designator) : Prop :=
  match designator with
  | .name node _ => site.IsNamed node
  | .qualified node _ _ => site.IsNamed node
  | .element node base index =>
      site.IsNamed node ∧ AccessDefined site base ∧ site.CanLoad base ∧ ExprDefined site index
  | .member node base _ =>
      site.IsNamed node ∧ site.IsNamed base.node ∧
        ((site.table.symbol (site.symbolAt base.node)).kind ≠ .type →
          AccessDefined site base ∧ site.CanLoad base)

/-- An expression has code. -/
def ExprDefined (site : Site) (expression : Expr) : Prop :=
  match expression with
  | .literal _ _ => True
  | .load _ source => AccessDefined site source ∧ site.CanLoad source
  | .call _ target => CallDefined site target
  | .newArray node _ length => site.IsTyped node ∧ ExprDefined site length
  | .newObject node _ =>
      site.IsTyped node ∧ (site.table.desc (site.typeAt node)).dispatch.isSome
  | .neg _ operand => ExprDefined site operand
  | .arith _ _ left right => ExprDefined site left ∧ ExprDefined site right

/-- Expressions have code. -/
def ExprsDefined (site : Site) (expressions : List Expr) : Prop :=
  match expressions with
  | [] => True
  | first :: rest => ExprDefined site first ∧ ExprsDefined site rest

/-- A call has code. -/
def CallDefined (site : Site) (target : Call) : Prop :=
  match target with
  | .mk _ callee arguments =>
      site.IsNamed callee.node ∧
        (site.IsVirtual callee → ReceiverDefined site callee) ∧
        ExprsDefined site arguments ∧
        (¬ site.IsVirtual callee → 0 ≤ (site.table.symbol (site.symbolAt callee.node)).address)

/-- The object that an instance method is called on has code. -/
def ReceiverDefined (site : Site) (callee : Designator) : Prop :=
  match callee with
  | .member _ base _ => AccessDefined site base ∧ site.CanLoad base
  | .name _ _ => True
  | .qualified _ _ _ => False
  | .element _ _ _ => False

end

/-- The value of a designator has code. -/
def ValueDefined (site : Site) (designator : Designator) : Prop :=
  site.AccessDefined designator ∧ site.CanLoad designator

/-- Writing to a designator has code. -/
def TargetDefined (site : Site) (designator : Designator) : Prop :=
  site.AccessDefined designator ∧ site.CanStore designator

/-- A fact has code. -/
def FactDefined (site : Site) (fact : Fact) : Prop :=
  match fact with
  | .truth value => site.ExprDefined value
  | .relation _ left _ right => site.ExprDefined left ∧ site.ExprDefined right

/-- A condition has code. -/
def ConditionDefined (site : Site) (condition : Condition) : Prop :=
  ∀ term ∈ condition, ∀ fact ∈ term, site.FactDefined fact

/-- An action has code. -/
def ActionDefined (site : Site) (action : Action) : Prop :=
  match action with
  | .assign _ target value => site.TargetDefined target ∧ site.ExprDefined value
  | .increment _ target => site.TargetDefined target
  | .decrement _ target => site.TargetDefined target
  | .call _ target => site.CallDefined target
  | .unpack _ targets rest source =>
      site.ValueDefined rest ∧ site.ValueDefined source ∧
        ∀ target, some target ∈ targets → site.TargetDefined target

mutual

/-- A statement has code. -/
def StmtDefined (site : Site) (statement : Stmt) : Prop :=
  match statement with
  | .action step => site.ActionDefined step
  | .ifThen _ test body => site.ConditionDefined test ∧ StmtDefined site body
  | .ifElse _ test body alternative =>
      site.ConditionDefined test ∧ StmtDefined site body ∧ StmtDefined site alternative
  | .loop _ init test update body =>
      (∀ step ∈ init, site.ActionDefined step) ∧
        (∀ condition ∈ test, site.ConditionDefined condition) ∧
        (∀ step ∈ update, site.ActionDefined step) ∧ StmtDefined site body
  | .breakLoop _ => True
  | .continueLoop _ => True
  | .ret _ value => ∀ expression ∈ value, site.ExprDefined expression
  | .read _ target => site.TargetDefined target
  | .print _ value _ => site.IsTyped value.node ∧ site.ExprDefined value
  | .block _ body => StmtsDefined site body

/-- Statements have code. -/
def StmtsDefined (site : Site) (statements : List Stmt) : Prop :=
  match statements with
  | [] => True
  | first :: rest => StmtDefined site first ∧ StmtsDefined site rest

end

end Site

/-! ## Steps and their conditions -/

namespace Gen

variable {act : Gen α} {next : α → Gen β} {before : Generator} {post : α → Generator → Prop}
    {last : β → Generator → Prop}

/-- From one state, a step of the generator leads to one in which `post` holds, or it fails.  It
misses something exactly where a condition does not hold, and its jumps are in order. -/
structure Meets (act : Gen α) (before : Generator) (condition : Prop)
    (post : α → Generator → Prop) : Prop where
  ok : ∀ {value after}, act before = .ok value after → condition ∧ post value after
  error : ∀ {fault after}, act before = .error fault after →
    fault.isBookkeeping = false ∧ (condition → fault.isMissing = false)

namespace Meets

theorem bind (first : Meets act before condition post)
    (second : ∀ value between, act before = .ok value between → post value between →
      Meets (next value) between further last) :
    Meets (act >>= next) before (condition ∧ further) last where
  ok := by
    intro result after ran
    obtain ⟨value, between, firstRan, nextRan⟩ := Run.bind_ok ran
    obtain ⟨holds, kept⟩ := first.ok firstRan
    obtain ⟨later, beyond⟩ := (second value between firstRan kept).ok nextRan
    exact ⟨⟨holds, later⟩, beyond⟩
  error := by
    intro fault after failed
    cases run : act before with
    | ok value between =>
      rw [Run.ok_bind run] at failed
      have later := (second value between run (first.ok run).2).error failed
      exact later.imp_right fun missing holds => missing holds.2
    | error found between =>
      simp only [Bind.bind, EStateM.bind, run, EStateM.Result.error.injEq] at failed
      obtain ⟨rfl, rfl⟩ := failed
      exact (first.error run).imp_right fun missing holds => missing holds.1

theorem congr (meets : Meets act before condition post) (same : condition ↔ further) :
    Meets act before further post :=
  propext same ▸ meets

theorem after (first : Meets act before True post)
    (second : ∀ value between, act before = .ok value between → post value between →
      Meets (next value) between condition last) :
    Meets (act >>= next) before condition last :=
  (first.bind second).congr (iff_of_eq (true_and _))

theorem weaken {weaker : α → Generator → Prop} (meets : Meets act before condition post)
    (implies : ∀ value after, post value after → weaker value after) :
    Meets act before condition weaker :=
  ⟨fun ran => (meets.ok ran).imp_right (implies _ _), meets.error⟩

theorem of_ensures {pre : Generator → Prop} (ensures : Ensures pre act post) (holds : pre before) :
    Meets act before True post := by
  have outcome := ensures.outcome before holds
  constructor
  · intro value after ran
    rw [ran] at outcome
    exact ⟨trivial, outcome⟩
  · intro fault after failed
    rw [failed] at outcome
    simp only [Fault.isLimit, Bool.and_eq_true, Bool.not_eq_true'] at outcome
    exact ⟨outcome.1, fun _ => outcome.2⟩

theorem emit {act : Emit α} {post : α → Emitter → Prop} (ensures : Ensures pre act post)
    (holds : pre before.emitter) :
    Meets (emit act) before True fun value after =>
      ∃ emitter, after = { before with emitter } ∧ post value emitter := by
  have outcome := ensures.outcome before.emitter holds
  refine .of_ensures ⟨fun state (isBefore : state = before) => ?_⟩ rfl
  subst isBefore
  unfold Gen.emit
  dsimp only
  generalize act state.emitter = result at outcome ⊢
  cases result with
  | ok value emitter => exact ⟨emitter, rfl, outcome⟩
  | error => exact outcome

end Meets
end Gen

namespace Site

variable {act : Gen α} {next : α → Gen β} {post : α → Emitter → Prop} {last : β → Emitter → Prop}

/-- A step of the generator can have a result. -/
def Yields (site : Site) (act : Gen α) (value : α) : Prop :=
  ∃ before after, before.site site.notes = site ∧ act before = .ok value after

/-- What a step of the generator needs at a site, and what it does to the emitter. -/
def Needs (site : Site) (pre : Emitter → Prop) (act : Gen α) (condition : Prop)
    (post : α → Emitter → Prop) : Prop :=
  ∀ before, before.site site.notes = site → pre before.emitter →
    Gen.Meets act before condition fun value after =>
      after.site site.notes = site ∧ post value after.emitter

/-- What a step needs that keeps what is known about the emitter. -/
abbrev Keeps (site : Site) (kept : Emitter → Prop) (act : Gen α) (condition : Prop) : Prop :=
  site.Needs kept act condition fun _ => kept

namespace Needs

theorem congr (needs : site.Needs pre act condition post) (same : condition ↔ further) :
    site.Needs pre act further post :=
  propext same ▸ needs

theorem bind (first : site.Needs pre act condition post)
    (second : ∀ value, site.Yields act value →
      site.Needs (post value) (next value) further last) :
    site.Needs pre (act >>= next) (condition ∧ further) last :=
  fun before here holds => (first before here holds).bind fun value after ran ⟨there, kept⟩ =>
    second value ⟨before, after, here, ran⟩ after there kept

theorem after (first : site.Needs pre act True post)
    (second : ∀ value, site.Yields act value →
      site.Needs (post value) (next value) condition last) :
    site.Needs pre (act >>= next) condition last :=
  (first.bind second).congr (iff_of_eq (true_and _))

theorem before (first : site.Needs pre act condition post)
    (second : ∀ value, site.Yields act value → site.Needs (post value) (next value) True last) :
    site.Needs pre (act >>= next) condition last :=
  (first.bind second).congr (iff_of_eq (and_true _))

theorem weaken {weaker : α → Emitter → Prop} (needs : site.Needs pre act condition post)
    (implies : ∀ value emitter, post value emitter → weaker value emitter) :
    site.Needs pre act condition weaker :=
  fun before here holds =>
    (needs before here holds).weaken fun _ _ => And.imp_right (implies _ _)

theorem assume {known : Prop} (needs : known → site.Needs pre act condition post) :
    site.Needs (fun emitter => known ∧ pre emitter) act condition post :=
  fun before here holds => needs holds.1 before here holds.2

theorem result (value : α) : site.Keeps kept (pure value) True :=
  fun _ here holds => .of_ensures (.result fun _ state => state) ⟨here, holds⟩

theorem fault {fault : Fault} (other : fault.isBookkeeping = false) (never : ¬ condition) :
    site.Needs pre (throw fault) condition post :=
  fun _ _ _ => ⟨nofun, fun failed => by cases failed; exact ⟨other, (absurd · never)⟩⟩

theorem discard (needs : site.Needs pre act condition fun _ => kept) :
    site.Needs pre (discard act) condition fun _ => kept :=
  needs.before fun _ _ => .result ()

theorem forM {act : α → Gen Unit} {condition : α → Prop}
    (each : ∀ item, site.Keeps kept (act item) (condition item)) (items : List α) :
    site.Keeps kept (items.forM act) (∀ item ∈ items, condition item) := by
  induction items with
  | nil => exact (result ()).congr (by simp)
  | cons item rest ih =>
    refine ((each item).bind fun _ _ => ih).congr ?_
    simp

theorem option_forM {act : α → Gen Unit} {condition : α → Prop}
    (each : ∀ item, site.Keeps kept (act item) (condition item)) (item : Option α) :
    site.Keeps kept (item.forM act) (∀ value ∈ item, condition value) := by
  cases item with
  | none => exact (result ()).congr (by simp)
  | some value => exact (each value).congr (by simp)

theorem emit {act : Emit α} (ensures : Ensures pre act post) :
    site.Needs pre (Gen.emit act) True post :=
  fun _ here holds => (Gen.Meets.emit ensures holds).weaken
    fun _ _ ⟨_, isAfter, known⟩ => isAfter ▸ ⟨here, known⟩

end Needs
end Site

/-! ## Steps that need nothing -/

namespace Gen

variable {act other : Gen α} {next : α → Gen β} {value : α}

/-- A step that needs nothing and only writes code. -/
class IsFree (act : Gen α) : Prop where
  keeps : ∀ (site : Site) (kept : Emitter → Prop) [IsStable kept], site.Keeps kept act True

instance : IsFree (pure value) := ⟨fun _ _ _ => .result value⟩

instance [IsFree act] [∀ value, IsFree (next value)] : IsFree (act >>= next) :=
  ⟨fun site kept _ => (IsFree.keeps site kept).before fun _ _ => IsFree.keeps site kept⟩

instance [IsFree act] : IsFree (discard act) :=
  inferInstanceAs (IsFree (act >>= fun _ => pure ()))

instance {test : Prop} [Decidable test] [IsFree act] [IsFree other] :
    IsFree (if test then act else other) := by
  split <;> assumption

instance {act : Emit α} [act.IsPlain] : IsFree (emit act) :=
  ⟨fun _ _ _ => .emit Emit.IsPlain.keeps⟩

instance {code : Opcode} : IsFree (op code) := inferInstanceAs (IsFree (emit _))
instance {value : Int} : IsFree (const value) := inferInstanceAs (IsFree (emit _))
instance : IsFree offset := inferInstanceAs (IsFree (emit _))

instance : IsFree park :=
  ⟨fun _ _ _ _ here holds => .of_ensures ⟨fun _ state => state⟩ ⟨here, holds⟩⟩
instance : IsFree unpark :=
  ⟨fun _ _ _ _ here holds => .of_ensures ⟨fun _ state => state⟩ ⟨here, holds⟩⟩

end Gen

namespace Site.Needs

open Gen (IsFree)

variable {act : Gen α} {next : α → Gen β} {last : β → Emitter → Prop} [IsStable kept]

theorem free [IsFree act] (holds : condition) : site.Keeps kept act condition :=
  (IsFree.keeps site kept).congr (iff_of_true trivial holds)

theorem skip [IsFree act] (further : ∀ value, site.Needs kept (next value) condition last) :
    site.Needs kept (act >>= next) condition last :=
  (IsFree.keeps site kept).after fun value _ => further value

theorem ends [∀ value, IsFree (next value)] (first : site.Needs pre act condition fun _ => kept) :
    site.Needs pre (act >>= next) condition fun _ => kept :=
  first.before fun _ _ => IsFree.keeps site kept

end Site.Needs
end MicroJava
