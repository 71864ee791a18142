import MicroJava.Proofs.Layout.Stack

/-!
# How often a call is emitted

Every call of the source is emitted once, at any depth.  Unpacking is the exception: it emits
the array that it fills three times, and the array that it reads once for each target and
twice more.
-/

namespace MicroJava

open List Instruction

variable {source : Designator} {region : Region} {setting : Setting} {α : Type}
  {targets : List (Option Designator)} {regions : List Region}

/-! ## Calls in the source -/

/-- A call of a method, by its address or by its name. -/
def Instruction.isCall : Instruction → Bool
  | call _ => true
  | invokeVirtual _ => true
  | _ => false

namespace Part

/-- A call that is an expression. -/
def isCall : Part → Bool
  | expression (.call _ _) => true
  | _ => false

/-- The number of calls among some parts. -/
def calls (parts : List Part) : Nat := parts.countP isCall

@[simp] theorem calls_nil : calls [] = 0 := rfl

@[simp] theorem calls_append (first second : List Part) :
    calls (first ++ second) = calls first + calls second :=
  countP_append

@[simp] theorem calls_cons_designator (place : Designator) (parts : List Part) :
    calls (designator place :: parts) = calls parts :=
  countP_cons_of_neg Bool.false_ne_true

theorem calls_flatMap (items : List α) (parts : α → List Part) :
    calls (items.flatMap parts) = (items.map fun item => calls (parts item)).sum :=
  countP_flatMap

end Part

namespace Action

/-- A call that is a statement. -/
def isCall : Action → Bool
  | call _ _ => true
  | _ => false

/-- The number of calls that are written in an action. -/
def calls (action : Action) : Nat := Part.calls action.parts + action.isCall.toNat

/-- The number of calls that an action has in the code beyond those that are written.  Unpacking
needs the rest in its guard, in the test of its loop and in the copying, and the source in its
guard, in the copying and for each target. -/
def repeats : Action → Nat
  | unpack _ targets rest source =>
      2 * Part.calls rest.parts + (1 + targets.countP Option.isSome) * Part.calls source.parts
  | _ => 0

end Action

mutual

/-- The actions in a statement, at any depth. -/
def Stmt.actions (statement : Stmt) : List Action :=
  match statement with
  | .action step => [step]
  | .ifThen _ _ body => body.actions
  | .ifElse _ _ body alternative => body.actions ++ alternative.actions
  | .loop _ init _ update body => init ++ update ++ body.actions
  | .block _ body => Stmt.actionsOf body
  | _ => []

/-- The actions in statements that follow each other. -/
def Stmt.actionsOf (statements : List Stmt) : List Action :=
  match statements with
  | [] => []
  | first :: rest => first.actions ++ Stmt.actionsOf rest

end

namespace Stmt

/-- The number of calls that are written in some statements, as expressions or as statements. -/
def callsOf (statements : List Stmt) : Nat :=
  Part.calls (partsOf statements) + (actionsOf statements).countP Action.isCall

/-- The number of calls that some statements have in the code beyond those that are written. -/
def repeatsOf (statements : List Stmt) : Nat := ((actionsOf statements).map Action.repeats).sum

end Stmt

/-! ## Calls in direct code -/

namespace Instruction

/-- The number of calls in a sequence. -/
def calls (code : List Instruction) : Nat := code.countP isCall

@[simp] theorem calls_nil : calls [] = 0 := rfl

@[simp] theorem calls_cons (instr : Instruction) (code : List Instruction) :
    calls (instr :: code) = instr.isCall.toNat + calls code := by
  rw [calls, countP_cons, Nat.add_comm, calls]
  cases instr.isCall <;> rfl

@[simp] theorem calls_append (first second : List Instruction) :
    calls (first ++ second) = calls first + calls second :=
  countP_append

theorem calls_flatMap (items : List α) (code : α → List Instruction) :
    calls (items.flatMap code) = (items.map fun item => calls (code item)).sum :=
  countP_flatMap

end Instruction

namespace Setting

variable {id : SymbolId}

theorem IsElement.kind {array : SymbolId} (isElement : setting.IsElement array id)
    (present : id ≠ .absent) :
    (setting.table.symbol id).kind = .element := by
  simp only [IsElement] at isElement
  split at isElement
  next => exact isElement.2.1
  next => exact absurd isElement.1 present

theorem BelongsToObjects.kind_ne_type (belongs : setting.BelongsToObjects id) :
    (setting.table.symbol id).kind ≠ .type := by
  rcases belongs.kind with kind | kind <;> rw [kind] <;> decide

theorem IsMember.belongsToObjects {owner : SymbolId} (isMember : setting.IsMember owner id)
    (present : id ≠ .absent) (isValue : (setting.table.symbol owner).kind ≠ .type) :
    setting.BelongsToObjects id := by
  simp only [IsMember] at isMember
  split at isMember
  next => exact isMember.2.2.1 isValue
  next => exact absurd isMember.1 present

end Setting

namespace Site

/-- A designator stands for something. -/
def Present (site : Site) : Part → Prop
  | .designator place => site.symbolAt place.node ≠ .absent
  | .expression _ => True

variable {site : Site}

theorem present_of_all {designator : Designator} (names : Part.All site.Present designator.parts) :
    site.symbolAt designator.node ≠ .absent :=
  names _ designator.mem_parts

theorem calls_loadCode (id : SymbolId) : calls (site.loadCode id) = 0 := by
  unfold loadCode
  dsimp only
  split <;> first | rfl | split <;> rfl

theorem calls_storeCode (id : SymbolId) : calls (site.storeCode id) = 0 := by
  unfold storeCode
  dsimp only
  split <;> first | rfl | split <;> rfl

theorem calls_newObjectCode (type : TypeId) : calls (site.newObjectCode type) = 0 := by
  unfold newObjectCode
  dsimp only
  split <;> rfl

section Sees

variable (sees : site.Sees setting)
include sees

theorem calls_eq_zero {designator : Designator} (noted : designator.IsNoted setting)
    (names : Part.All site.Present designator.parts)
    (notElement : (setting.table.symbol (site.symbolAt designator.node)).kind ≠ .element)
    (notMember : ¬ setting.BelongsToObjects (site.symbolAt designator.node)) :
    Part.calls designator.parts = 0 := by
  have present := present_of_all names
  match designator with
  | .name _ _ => rfl
  | .qualified _ _ _ => rfl
  | .element node base index =>
    obtain ⟨_, _, array, id, _, isNoted, isElement⟩ := noted
    rw [Designator.node, sees.symbolAt isNoted] at present notElement
    exact absurd (isElement.kind present) notElement
  | .member node base _ =>
    obtain ⟨baseNoted, owner, id, isOwner, isNoted, isMember⟩ := noted
    rw [Designator.node, sees.symbolAt isNoted] at present notMember
    rw [Designator.parts] at names ⊢
    rw [Part.calls_cons_designator]
    -- What the member is looked up in is a class, which is no member of an object itself.
    have isType : (setting.table.symbol owner).kind = .type := by
      by_contra isValue
      exact notMember (isMember.belongsToObjects present isValue)
    rw [← sees.symbolAt isOwner] at isType
    exact calls_eq_zero baseNoted names.tail (by rw [isType]; decide) fun belongs =>
      belongs.kind_ne_type isType

set_option linter.unusedSectionVars false in
mutual

theorem calls_accessCode {designator : Designator} (parked : Nat)
    (noted : designator.IsNoted setting) (names : Part.All site.Present designator.parts) :
    calls (site.accessCode parked designator) = Part.calls designator.parts := by
  match designator with
  | .name _ _ =>
    rw [accessCode]
    split <;> rfl
  | .qualified _ _ _ => rfl
  | .element _ base index =>
    rw [Designator.parts] at names ⊢
    have first := calls_accessCode parked noted.1 names.tail.left
    have second := calls_exprCode parked noted.2.1 names.tail.right
    simp only [accessCode, calls_append, calls_loadCode, first, second, Nat.add_zero,
      Part.calls_cons_designator, Part.calls_append]
  | .member _ base _ =>
    rw [Designator.parts] at names ⊢
    rw [accessCode, Part.calls_cons_designator]
    split
    next isType =>
      rw [sees.places.kind] at isType
      exact (calls_eq_zero sees noted.1 names.tail (by rw [isType]; decide) fun belongs =>
        belongs.kind_ne_type isType).symm
    next =>
      rw [calls_append, calls_loadCode, Nat.add_zero]
      exact calls_accessCode parked noted.1 names.tail

theorem calls_exprCode {expression : Expr} (parked : Nat) (noted : expression.IsNoted setting)
    (names : Part.All site.Present expression.parts) :
    calls (site.exprCode parked expression) = Part.calls expression.parts := by
  match expression with
  | .literal _ _ => rfl
  | .load _ source =>
    rw [Expr.parts] at names
    have inner := calls_accessCode parked noted.1 names.tail
    simp only [exprCode, Expr.parts, calls_append, calls_loadCode, inner]
    rfl
  | .call _ target =>
    rw [Expr.parts] at names
    rw [exprCode, Expr.parts, Part.calls, countP_cons_of_pos rfl]
    exact calls_callCode parked noted.1 names.tail
  | .newArray _ _ _ | .neg _ _ =>
    rw [Expr.parts] at names
    have inner := calls_exprCode parked noted.1 names.tail
    simp only [exprCode, Expr.parts, calls_append, inner]
    rfl
  | .newObject _ _ => exact calls_newObjectCode _
  | .arith _ _ left right =>
    rw [Expr.parts] at names
    have first := calls_exprCode parked noted.1 names.tail.left
    have second := calls_exprCode parked noted.2.1 names.tail.right
    simp only [exprCode, Expr.parts, calls_append, first, second]
    exact (Part.calls_append _ _).symm

theorem calls_exprsCode {expressions : List Expr} (parked : Nat)
    (noted : Expr.AreNoted setting expressions)
    (names : Part.All site.Present (Expr.partsOf expressions)) :
    calls (site.exprsCode parked expressions) = Part.calls (Expr.partsOf expressions) := by
  match expressions with
  | [] => rfl
  | first :: rest =>
    rw [Expr.partsOf] at names ⊢
    rw [exprsCode, calls_append, Part.calls_append, calls_exprCode parked noted.1 names.left,
      calls_exprsCode parked noted.2 names.right]

theorem calls_callCode {target : Call} (parked : Nat) (noted : target.IsNoted setting)
    (names : Part.All site.Present target.parts) :
    calls (site.callCode parked target) = Part.calls target.parts + 1 := by
  match target with
  | .mk _ callee arguments =>
    obtain ⟨calleeNoted, argumentsNoted, id, isNoted, isCallable⟩ := noted
    have isId := sees.symbolAt isNoted
    rw [Call.parts] at names ⊢
    have present := present_of_all names.left
    rw [isId] at present
    have isMethod := (isCallable.resolve_left present).1
    rw [callCode, isId, Part.calls_append]
    split
    next =>
      have receiver := calls_receiverCode parked calleeNoted names.left
        (by rw [isId, isMethod]; decide)
      have inner := calls_exprsCode (parked + 1) argumentsNoted names.right
      simp only [calls_append, calls_cons, receiver, inner]
      rfl
    next isStatic =>
      have receiver : Part.calls callee.parts = 0 := by
        refine calls_eq_zero sees calleeNoted names.left ?_ fun belongs => isStatic ?_
        · rw [isId, isMethod]
          decide
        · rw [isId] at belongs
          rw [sees.places.isVirtual, Symbol.isVirtual, isMethod, belongs.level]
          rfl
      rw [calls_append, receiver, Nat.zero_add, calls_exprsCode parked argumentsNoted names.right]
      rfl

theorem calls_receiverCode {callee : Designator} (parked : Nat) (noted : callee.IsNoted setting)
    (names : Part.All site.Present callee.parts)
    (notElement : (setting.table.symbol (site.symbolAt callee.node)).kind ≠ .element) :
    calls (site.receiverCode parked callee) = Part.calls callee.parts := by
  match callee with
  | .name _ _ => rfl
  | .qualified _ _ _ => rfl
  | .element _ base index =>
    have present := present_of_all names
    obtain ⟨_, _, array, id, _, isNoted, isElement⟩ := noted
    rw [Designator.node, sees.symbolAt isNoted] at present notElement
    exact absurd (isElement.kind present) notElement
  | .member _ base _ =>
    rw [Designator.parts] at names ⊢
    rw [receiverCode, calls_append, calls_loadCode, Nat.add_zero, Part.calls_cons_designator]
    exact calls_accessCode parked noted.1 names.tail

end

theorem calls_valueCode {designator : Designator} (noted : designator.IsNoted setting)
    (names : Part.All site.Present designator.parts) :
    calls (site.valueCode designator) = Part.calls designator.parts := by
  rw [valueCode, calls_append, calls_loadCode, calls_accessCode sees 0 noted names, Nat.add_zero]

theorem calls_factCode {fact : Fact} (target : Nat) (noted : fact.IsNoted setting)
    (names : Part.All site.Present fact.parts) :
    calls (site.factCode target fact) = Part.calls fact.parts := by
  cases fact with
  | truth value =>
    rw [factCode, calls_append, calls_exprCode sees 0 noted names]
    rfl
  | relation _ left op right =>
    rw [factCode, calls_append, calls_append, calls_exprCode sees 0 noted.1 (Part.All.left names),
      calls_exprCode sees 0 noted.2 (Part.All.right names)]
    exact (Part.calls_append _ _).symm

theorem calls_termCode {term : Term} (target : Nat) (noted : ∀ fact ∈ term, fact.IsNoted setting)
    (names : Part.All site.Present (term.flatMap Fact.parts)) :
    calls (site.termCode target term) = Part.calls (term.flatMap Fact.parts) := by
  rw [termCode, calls_flatMap, Part.calls_flatMap]
  congr 1
  exact map_congr_left fun fact member =>
    calls_factCode sees target (noted fact member) (names.each member)

theorem calls_conditionCode {condition : Condition} (start body other : Nat)
    (noted : condition.IsNoted setting) (names : Part.All site.Present condition.parts) :
    calls (site.conditionCode start body other condition) = Part.calls condition.parts := by
  induction condition generalizing start with
  | nil => rfl
  | cons term rest ih =>
    rw [Condition.parts, flatMap_cons] at names ⊢
    rw [Condition.IsNoted, forall_mem_cons] at noted
    have later := fun start => ih start noted.2 names.right
    cases rest with
    | nil =>
      rw [conditionCode, calls_termCode sees other noted.1 names.left, flatMap_nil,
        append_nil]
    | cons next rest =>
      rw [conditionCode, calls_append, calls_cons, later, Part.calls_append,
        calls_termCode sees _ noted.1 names.left]
      exact congrArg _ (Nat.zero_add _)

theorem calls_testCode {test : Option Condition} (start body other : Nat)
    (noted : ∀ condition, test = some condition → condition.IsNoted setting)
    (names : Part.All site.Present (test.elim [] Condition.parts)) :
    calls (site.testCode start body other test) = Part.calls (test.elim [] Condition.parts) := by
  cases test with
  | none => rfl
  | some condition => exact calls_conditionCode sees start body other (noted _ rfl) names

/-! ## Calls in the code of actions and statements -/

theorem calls_stepCode {target : Designator} (up : Bool) (noted : target.IsNoted setting)
    (names : Part.All site.Present target.parts) :
    calls (site.stepCode target up) = Part.calls target.parts := by
  have keeps : ∀ kind, calls (keepCode kind) = 0 := by
    intro kind
    cases kind <;> rfl
  have access := calls_accessCode sees 0 noted names
  simp only [stepCode, calls_append, access]
  split
  · rfl
  · simp only [calls_append, keeps, calls_loadCode, calls_storeCode]
    rfl

theorem calls_fillsCode (noted : ∀ target, some target ∈ targets → target.IsNoted setting)
    (names : Part.All site.Present
      (targets.flatMap fun target => target.elim [] Designator.parts))
    (sourceNoted : source.IsNoted setting) (sourceNames : Part.All site.Present source.parts) :
    calls (site.fillsCode targets source) =
      Part.calls (targets.flatMap fun target => target.elim [] Designator.parts) +
        targets.countP Option.isSome * Part.calls source.parts := by
  rw [fillsCode, calls_flatMap, map_reverse, sum_reverse]
  generalize 0 = first
  induction targets generalizing first with
  | nil => simp
  | cons target rest ih =>
    rw [flatMap_cons] at names
    have later := ih (fun other member => noted other (mem_cons_of_mem _ member))
      names.right (first + 1)
    rw [zipIdx_cons, map_cons, sum_cons, later, flatMap_cons,
      Part.calls_append]
    cases target with
    | none =>
      rw [countP_cons_of_neg Bool.false_ne_true]
      exact (Nat.add_assoc _ _ _).symm
    | some target =>
      have access := calls_accessCode sees 0 (noted target mem_cons_self) names.left
      rw [fillCode, countP_cons_of_pos rfl, Nat.add_mul]
      simp only [calls_append, calls_storeCode, access,
        calls_valueCode sees sourceNoted sourceNames,
        Option.elim_some, calls_cons, calls_nil, isCall, Bool.toNat_false]
      omega

theorem calls_unpackCode {span : Span} {rest : Designator} (start : Nat)
    (noted : (Action.unpack span targets rest source).IsNoted setting)
    (names : Part.All site.Present (Action.unpack span targets rest source).parts) :
    calls (site.unpackCode start targets rest source) =
      Part.calls (Action.unpack span targets rest source).parts +
        (Action.unpack span targets rest source).repeats := by
  obtain ⟨restNoted, _, sourceNoted, targetsNoted, _⟩ := noted
  rw [Action.parts] at names ⊢
  have ofRest := calls_valueCode sees restNoted names.left.left
  have ofSource := calls_valueCode sees sourceNoted names.left.right
  have fills := calls_fillsCode sees (fun target member => (targetsNoted target member).1)
    names.right sourceNoted names.left.right
  simp only [unpackCode, guardCode, guardOperands, restCode, copyElement, stepIndices,
    calls_append, calls_cons, calls_nil, ofRest, ofSource, fills, isCall, Bool.toNat_false,
    Part.calls_append, Action.repeats, Nat.add_mul]
  omega

theorem calls_actionCode {action : Action} (start : Nat) (noted : action.IsNoted setting)
    (names : Part.All site.Present action.parts) :
    calls (site.actionCode start action) = action.calls + action.repeats := by
  cases action with
  | assign _ target value =>
    have access := calls_accessCode sees 0 noted.1 (Part.All.left names)
    have inner := calls_exprCode sees 0 noted.2.2 (Part.All.right names)
    simp only [actionCode, calls_append, access, inner, calls_storeCode]
    exact (Part.calls_append _ _).symm
  | increment _ target => exact calls_stepCode sees true noted.1 names
  | decrement _ target => exact calls_stepCode sees false noted.1 names
  | call _ target =>
    rw [actionCode, calls_append, calls_callCode sees 0 noted names]
    split <;> rfl
  | unpack _ targets rest source => exact calls_unpackCode sees start noted names

theorem calls_actionsCode {actions : List Action} (start : Nat)
    (noted : ∀ action ∈ actions, action.IsNoted setting)
    (names : Part.All site.Present (actions.flatMap Action.parts)) :
    calls (site.actionsCode start actions) =
      Part.calls (actions.flatMap Action.parts) + actions.countP Action.isCall +
        (actions.map Action.repeats).sum := by
  induction actions generalizing start with
  | nil => rfl
  | cons action rest ih =>
    rw [flatMap_cons] at names
    rw [forall_mem_cons] at noted
    have first := calls_actionCode sees start noted.1 names.left
    have later := ih (start + totalSize (site.actionCode start action)) noted.2 names.right
    have counted : (action :: rest).countP Action.isCall =
        action.isCall.toNat + rest.countP Action.isCall := by
      rw [countP_cons, Nat.add_comm]
      cases action.isCall <;> rfl
    rw [actionsCode, calls_append, first, later, Action.calls, flatMap_cons,
      Part.calls_append, counted, map_cons, sum_cons]
    omega

set_option linter.unusedSectionVars false in
mutual

theorem calls_stmtCode {inLoop : Bool} {statement : Stmt} (start exit next : Nat)
    (noted : statement.IsNoted setting inLoop) (names : Part.All site.Present statement.parts) :
    calls (site.stmtCode start exit next statement) =
      Part.calls statement.parts + statement.actions.countP Action.isCall +
        (statement.actions.map Action.repeats).sum := by
  match statement with
  | .action step =>
    rw [stmtCode, calls_actionCode sees start noted names, Action.calls, Stmt.actions,
      countP_singleton, map_singleton, sum_singleton, Stmt.parts]
    cases step.isCall <;> rfl
  | .ifThen _ test body =>
    rw [Stmt.parts] at names ⊢
    have condition := fun start inside other =>
      calls_conditionCode sees start inside other noted.1 names.left
    have inner := fun start => calls_stmtCode start exit next noted.2 names.right
    simp only [stmtCode, Stmt.actions, calls_append, Part.calls_append, condition, inner]
    omega
  | .ifElse _ test body alternative =>
    rw [Stmt.parts] at names ⊢
    have condition := fun start inside other =>
      calls_conditionCode sees start inside other noted.1 names.left.left
    have inner := fun start => calls_stmtCode start exit next noted.2.1 names.left.right
    have later := fun start => calls_stmtCode start exit next noted.2.2 names.right
    simp only [stmtCode, Stmt.actions, calls_append, calls_cons, calls_nil, isCall,
      Bool.toNat_false, Part.calls_append, condition, inner, later, countP_append,
      map_append, sum_append]
    omega
  | .loop _ init test update body =>
    rw [Stmt.parts] at names ⊢
    have before := fun start => calls_actionsCode sees start noted.1 names.left.left.left
    have condition := fun start inside other =>
      calls_testCode sees start inside other noted.2.1 names.left.left.right
    have after := fun start => calls_actionsCode sees start noted.2.2.1 names.left.right
    have inner := fun start exit next =>
      calls_stmtCode start exit next noted.2.2.2 names.right
    simp only [stmtCode, Stmt.actions, calls_append, calls_cons, calls_nil, isCall,
      Bool.toNat_false, Part.calls_append, before, condition, after, inner, countP_append,
      map_append, sum_append]
    omega
  | .breakLoop _ => rfl
  | .continueLoop _ => rfl
  | .ret _ none => rfl
  | .ret _ (some value) =>
    rw [stmtCode, calls_append, calls_exprCode sees 0 (noted.1 value rfl) names]
    rfl
  | .read _ target =>
    have access := calls_accessCode sees 0 noted.1 names
    simp only [stmtCode, calls_append, access, calls_storeCode]
    rfl
  | .print _ value width =>
    rw [stmtCode, calls_append, calls_exprCode sees 0 noted names]
    rfl
  | .block _ body => exact calls_stmtsCode start exit next noted names

theorem calls_stmtsCode {inLoop : Bool} {statements : List Stmt} (start exit next : Nat)
    (noted : Stmt.AreNoted setting inLoop statements)
    (names : Part.All site.Present (Stmt.partsOf statements)) :
    calls (site.stmtsCode start exit next statements) =
      Stmt.callsOf statements + Stmt.repeatsOf statements := by
  match statements with
  | [] => rfl
  | first :: rest =>
    rw [Stmt.partsOf] at names
    have inner := calls_stmtCode start exit next noted.1 names.left
    have later := fun start => calls_stmtsCode start exit next noted.2 names.right
    simp only [stmtsCode, calls_append, inner, later, Stmt.callsOf, Stmt.repeatsOf, Stmt.partsOf,
      Stmt.actionsOf, Part.calls_append, countP_append, map_append, sum_append]
    omega

end

end Sees

end Site

/-! ## Calls in programs -/

/-- The number of calls in the bytes of a method. -/
def Code.callCount (code : Code) (stretch : Stretch) : Nat :=
  code.offsets.countP fun offset =>
    stretch.start ≤ offset && offset < stretch.stop &&
      (code.instructionAt? offset).any Instruction.isCall

/-- The methods follow each other from the first byte to the last.  A predefined method calls
nothing.  A method or a static initializer has as many calls as its statements count for, and the
entry point has one more for each static initializer. -/
def Image.CountsCalls (image : Image) (program : Program) (analysis : Analysis)
    (count : List Stmt → Nat) : Prop :=
  ∃ stretches : List Stretch,
    Stretch.Tile 0 stretches image.code.size ∧
    stretches.map Stretch.owner =
      analysis.builtins.all ++ program.units.filterMap (DeclUnit.owner? analysis.notes) ∧
    ∀ stretch ∈ stretches,
      (analysis.table.symbol stretch.owner).address = (stretch.start : Int) ∧
      (stretch.owner ∈ analysis.builtins.all → image.code.callCount stretch = 0) ∧
      ∀ part ∈ program.units, part.owner? analysis.notes = some stretch.owner →
        image.code.callCount stretch = count part.body +
          if analysis.main = some stretch.owner then analysis.staticInits.length else 0

variable {code : Code} {start : Nat}

theorem Code.Holds.countP_starts {instructions : List Instruction}
    (holds : code.Holds start instructions) :
    (starts start instructions).countP (fun offset =>
      (code.instructionAt? offset).any Instruction.isCall) = calls instructions := by
  induction instructions generalizing start with
  | nil => rfl
  | cons instr rest ih =>
    rw [starts_cons, countP_cons, ih holds.2, holds.1.instructionAt?, calls_cons,
      Nat.add_comm, Option.any_some]
    cases instr.isCall <;> rfl

theorem Region.bounds_of_mem_starts {offset : Nat}
    (member : offset ∈ starts region.start region.code) :
    region.start ≤ offset ∧ offset < region.stop := by
  obtain ⟨instr, inside⟩ := exists_of_mem_starts member
  obtain ⟨low, high⟩ := bounds_of_mem_located inside
  have positive := instr.size_pos
  exact ⟨low, by rw [Region.stop]; omega⟩

theorem Region.countP_of_tile {stop : Nat} (tile : Region.Tile start regions stop)
    (isRegion : region ∈ regions) (test : Nat → Bool) :
    (regions.flatMap fun region => starts region.start region.code).countP (fun offset =>
        region.start ≤ offset && offset < region.stop && test offset) =
      (starts region.start region.code).countP test := by
  induction regions generalizing start with
  | nil => cases isRegion
  | cons first rest ih =>
    obtain ⟨_, later⟩ := tile
    rw [flatMap_cons, countP_append]
    rcases mem_cons.mp isRegion with rfl | behind
    · have others : (rest.flatMap fun region => starts region.start region.code).countP
          (fun offset => region.start ≤ offset && offset < region.stop && test offset) = 0 := by
        refine countP_eq_zero.mpr fun offset member => ?_
        obtain ⟨other, isOther, inside⟩ := mem_flatMap.mp member
        have apart := later.le_start isOther
        have low := (Region.bounds_of_mem_starts inside).1
        have beyond : ¬ offset < region.stop := by omega
        simp [beyond]
      rw [others, Nat.add_zero]
      refine countP_congr fun offset member => ?_
      obtain ⟨low, high⟩ := Region.bounds_of_mem_starts member
      simp [low, high]
    · have before : (starts first.start first.code).countP (fun offset =>
          region.start ≤ offset && offset < region.stop && test offset) = 0 := by
        refine countP_eq_zero.mpr fun offset member => ?_
        have apart := later.le_start behind
        have high := (Region.bounds_of_mem_starts member).2
        have short : ¬ region.start ≤ offset := by omega
        simp [short]
      rw [before, Nat.zero_add, ih later behind]

theorem Code.Consists.callCount_eq (consists : code.Consists regions)
    (isRegion : region ∈ regions) :
    code.callCount region.stretch = calls region.code := by
  rw [Code.callCount, consists.offsets_eq]
  exact (Region.countP_of_tile consists.tile isRegion _).trans
    (consists.holds region isRegion).countP_starts

theorem calls_wordsCode (slot : Int) (words : List Int) : calls (wordsCode slot words) = 0 := by
  induction words generalizing slot with
  | nil => rfl
  | cons word rest ih =>
    rw [wordsCode, calls_cons, calls_cons, ih]
    rfl

theorem Table.calls_dispatchCode (table : Table) (type : TypeId) :
    calls (table.dispatchCode type) = 0 := by
  rw [dispatchCode]
  split
  · rfl
  · exact calls_wordsCode _ _

namespace Analysis

variable {analysis : Analysis} {program : Program}

theorem calls_prologueCode (table : Table) (id : SymbolId) :
    calls (analysis.prologueCode table id) =
      if analysis.main = some id then analysis.staticInits.length else 0 := by
  rw [prologueCode]
  split
  · have dispatch : calls (analysis.classes.flatMap table.dispatchCode) = 0 := by
      simp [calls_flatMap, Table.calls_dispatchCode]
    have inits : calls (analysis.staticInits.map fun init =>
        .call (table.symbol init).address.toNat) = analysis.staticInits.length := by
      rw [calls, countP_map, countP_eq_length]
      exact fun _ _ => rfl
    rw [calls_append, dispatch, inits, Nat.zero_add]
  · rfl

/-- The region of a unit has the calls that are written in its body, and those that are
repeated. -/
theorem Compiles.calls_eq {body : Body} (compiles : analysis.Compiles program region body)
    (resolves : analysis.Resolves program) :
    calls region.code =
      Stmt.callsOf body.statements + Stmt.repeatsOf body.statements +
        if analysis.main = some region.owner then analysis.staticInits.length else 0 := by
  have names : Part.All body.site.Present (Stmt.partsOf body.statements) := by
    intro part inside
    cases part with
    | expression _ => trivial
    | designator place => exact compiles.present resolves place inside
  have statements : calls body.code = _ :=
    Site.calls_stmtsCode compiles.sees body.start 0 0 compiles.noted names
  have ending : calls (endCode (analysis.table.symbol region.owner).type) = 0 := by
    rw [endCode]
    split <;> rfl
  simp only [compiles.code, calls_cons, calls_append, statements, ending, compiles.prologue,
    calls_prologueCode, isCall, Bool.toNat_false]
  omega

end Analysis

/-- In the code of a program without violations in which every designator leads to a symbol, each
region has the calls that are written in its unit and those that its unpackings repeat. -/
theorem generate_countsCalls {options : Options} {program : Program} {image : Image}
    {result : Analysis} (distinct : program.nodes.Nodup)
    (accepted : (analyze options program).errorCount = 0)
    (resolves : (analyze options program).Resolves program)
    (generated : generate options (analyze options program) program = (.ok image, result)) :
    image.CountsCalls program result fun body => Stmt.callsOf body + Stmt.repeatsOf body := by
  have implements := generate_implements distinct accepted generated
  generalize analyze options program = analysis at *
  refine implements.exists_stretches fun region isRegion => ?_
  obtain ⟨realizes, rfl, defined, sound⟩ := implements
  have consists := realizes.consists sound
  rw [consists.callCount_eq isRegion]
  refine ⟨fun isBuiltin => ?_, fun part isPart owner => ?_⟩
  · rcases sound.region_cases defined isRegion with ⟨_, code⟩ | ⟨body, compiles⟩
    · rw [code, Builtins.code]
      split <;> rfl
    · obtain ⟨part, isPart, owner, _⟩ := compiles.unit
      exact absurd isBuiltin (sound.not_builtin_of_owner isPart owner)
  · rcases sound.region_cases defined isRegion with ⟨isBuiltin, _⟩ | ⟨body, compiles⟩
    · exact absurd isBuiltin (sound.not_builtin_of_owner isPart owner)
    · obtain ⟨other, isOther, otherOwner, isBody, _⟩ := compiles.unit
      obtain rfl := sound.eq_of_owner isPart isOther owner otherOwner
      rw [isBody]
      exact compiles.calls_eq resolves

open Supply

/-- A program that unpacks an array into a row, where a call picks the row. -/
def spreading : Program :=
  plant do
    let int ← typeRef none "int"
    let row ← typeRef none "Row"
    let rowType ← type "Row" none [] [] [← vars int [("cells", true)]] []
    let pick ← method false (some int) false "pick" [] []
      [← ret (some (← literal (.int 0)))]
    let index ← callExpr (← name "pick") []
    let rest ← member (← element (← name "rows") index) "cells"
    let spread ← unpack [some (← name "first")] rest (← name "source")
    let main ← method false none false "main" []
      [← vars row [("rows", true)], ← vars int [("source", true), ("first", false)]]
      [.action spread]
    program "Spreading" [] [.type rowType] [pick, main]

theorem spreading_isAccepted :
    spreading.nodes.Nodup ∧ (analyze {} spreading).errorCount = 0 ∧
      (analyze {} spreading).Resolves spreading := by
  decide +kernel

theorem generate_countsCalls_spreading :
    spreading.nodes.Nodup ∧ (analyze {} spreading).errorCount = 0 ∧
      (analyze {} spreading).Resolves spreading ∧
      ∃ image result, generate {} (analyze {} spreading) spreading = (.ok image, result) ∧
        image.CountsCalls spreading result fun body =>
          Stmt.callsOf body + Stmt.repeatsOf body := by
  obtain ⟨distinct, accepted, resolves⟩ := spreading_isAccepted
  have succeeds : (generate {} (analyze {} spreading) spreading).1.isOk := by decide +kernel
  obtain ⟨image, generated⟩ := exists_image succeeds
  exact ⟨distinct, accepted, resolves, image, _, generated,
    generate_countsCalls distinct accepted resolves generated⟩

/-- The call that picks the row is written once, and three times in the code. -/
theorem not_countsCalls_spreading :
    spreading.nodes.Nodup ∧ (analyze {} spreading).errorCount = 0 ∧
      (analyze {} spreading).Resolves spreading ∧
      ∃ image result, generate {} (analyze {} spreading) spreading = (.ok image, result) ∧
        ¬ image.CountsCalls spreading result Stmt.callsOf := by
  obtain ⟨distinct, accepted, resolves⟩ := spreading_isAccepted
  obtain ⟨image, generated, size, found⟩ :=
    exists_image_such (fun image => image.code.size = 111 ∧
      image.code.callCount ⟨.absent, 27, 111⟩ = 3)
      (show (generate {} (analyze {} spreading) spreading).1.toOption.any _ by decide +kernel)
  generalize isResult : (generate {} (analyze {} spreading) spreading).2 = result at generated
  obtain ⟨addresses, last, ⟨part, isPart, owner, once⟩, inits⟩ :
      (result.builtins.all ++ spreading.units.filterMap (DeclUnit.owner? result.notes)).map
        (fun id => (result.table.symbol id).address) = [0, 6, 12, 19, 27] ∧
      (result.builtins.all ++
        spreading.units.filterMap (DeclUnit.owner? result.notes)).getLast? = result.main ∧
      (∃ part ∈ spreading.units,
        part.owner? result.notes = result.main ∧ Stmt.callsOf part.body = 1) ∧
      result.staticInits = [] := by
    subst isResult
    decide +kernel
  refine ⟨distinct, accepted, resolves, image, result, generated, ?_⟩
  rintro ⟨stretches, tile, owners, each⟩
  have starts : stretches.map (fun stretch => (stretch.start : Int)) = [0, 6, 12, 19, 27] := by
    rw [← addresses, ← owners, map_map]
    exact map_congr_left fun stretch member => (each stretch member).1.symm
  simp only [map_eq_cons_iff, map_eq_nil_iff] at starts
  obtain ⟨chr, _, rfl, _, ord, _, rfl, _, len, _, rfl, _, pick, _, rfl, _, main, _, rfl,
    atStart, rfl⟩ := starts
  have isMain : some main.owner = result.main := by rw [← last, ← owners]; rfl
  obtain ⟨_, _, _, _, _, atStop⟩ := tile
  have count := (each main (by simp)).2.2 part isPart (owner.trans isMain.symm)
  rw [once, inits, if_pos isMain.symm, length_nil] at count
  have bytes : image.code.callCount main = image.code.callCount ⟨.absent, 27, 111⟩ := by
    rw [Code.callCount, Int.ofNat_inj.mp atStart, show main.stop = 111 from atStop.trans size]
    rfl
  omega

end MicroJava
