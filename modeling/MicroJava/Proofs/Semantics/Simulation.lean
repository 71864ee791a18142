import MicroJava.Proofs.Layout.Operands
import MicroJava.Proofs.Semantics.Following

/-!
# Code follows runs

The direct code of a scalar expression pushes the value of the expression, the code of a
condition goes to one of two places, and the code of a statement changes the variables and
prints as the statement does.
-/

namespace MicroJava

open List Instruction

variable {machine : Machine} {store : Store} {id : SymbolId} {designator : Designator}
  {start : Nat} {test : Option Condition} {stack : List Int32}

namespace Site

/-- What a body is compiled with agrees with the analysis that gives the body its meaning. -/
structure Agrees (site : Site) (setting : Setting) (analysis : Analysis) : Prop where
  sees : site.Sees setting
  notes : setting.notes = analysis.notes
  table : setting.table = analysis.table
  placed : analysis.table.IsPlaced
  slots : analysis.table.AreSlots setting.locals

/-- What a body is compiled with agrees with what its names mean. -/
structure Means (site : Site) (setting : Setting) (meaning : Meaning) : Prop extends
    site.Agrees setting meaning.toAnalysis where
  constants : ∀ id, (meaning.table.symbol id).kind = .const →
    (meaning.table.symbol id).type.isScalar →
    meaning.constant id = some (Int32.ofInt (meaning.table.symbol id).address)

variable {site : Site} {setting : Setting} {analysis : Analysis} {meaning : Meaning} {code : Code}

/-! ## Variables and constants -/

namespace Agrees

variable (agrees : site.Agrees setting analysis)
include agrees

theorem symbolAt (designator : Designator) :
    site.symbolAt designator.node = analysis.symbolOf designator := by
  rw [Site.symbolAt, agrees.sees.notes, agrees.notes]
  rfl

theorem symbol (other : (analysis.table.symbol id).kind ≠ .method) :
    site.table.symbol id = analysis.table.symbol id := by
  rw [← agrees.table] at other ⊢
  exact agrees.sees.places.other id other

theorem finds (noted : designator.IsNoted setting) (isName : analysis.isName designator)
    (present : analysis.symbolOf designator ≠ .absent) :
    setting.Finds (analysis.symbolOf designator) := by
  rw [← agrees.symbolAt] at present ⊢
  match designator with
  | .name _ _ | .qualified _ _ _ =>
    obtain ⟨id, isNoted, finds, _⟩ := noted
    rwa [Designator.node, agrees.sees.symbolAt isNoted]
  | .member node _ _ =>
    obtain ⟨_, owner, id, _, isNoted, isMember⟩ := noted
    rw [Designator.node, agrees.sees.symbolAt isNoted] at present ⊢
    rw [Setting.IsMember] at isMember
    split at isMember
    · exact isMember.1
    · exact absurd isMember.1 present

theorem isVariable (noted : designator.IsNoted setting) (names : analysis.names .var designator) :
    analysis.symbolOf designator ∈ setting.locals ∨
      analysis.table.IsGlobalVar (analysis.symbolOf designator) := by
  simp only [Analysis.names, Bool.and_eq_true, decide_eq_true_iff] at names
  obtain ⟨⟨isName, isVar⟩, isScalar⟩ := names
  have valid := agrees.sees.valid
  rw [agrees.table] at valid
  have notAbsent : analysis.table.symbol (analysis.symbolOf designator) ≠
      analysis.table.symbol .absent := by
    intro same
    rw [same, valid.type_absent] at isScalar
    exact absurd isScalar (by decide)
  have finds := agrees.finds noted isName fun absent => notAbsent (congrArg _ absent)
  rcases finds.var (by rwa [agrees.table]) with level | isLocal
  · rw [agrees.table] at level
    refine .inr ⟨?_, finds.present, by simp [Symbol.isGlobal, isVar, level]⟩
    by_contra unused
    exact notAbsent (Table.symbol_of_not_hasSymbol unused)
  · exact .inl isLocal

end Agrees

section Agrees

variable (agrees : site.Agrees setting analysis)
include agrees

theorem accessCode_of_isName (parked : Nat) (isName : analysis.isName designator)
    (notField : (analysis.table.symbol (analysis.symbolOf designator)).kind ≠ .field)
    (notMethod : (analysis.table.symbol (analysis.symbolOf designator)).kind ≠ .method) :
    site.accessCode parked designator = [] := by
  match designator with
  | .name node ident =>
    have symbol := agrees.symbol notMethod
    rw [← agrees.symbolAt, Designator.node] at symbol notField
    rw [accessCode, symbol, if_neg notField]
  | .qualified _ _ _ => rfl
  | .member _ base _ =>
    have isType := of_decide_eq_true isName
    have symbol := agrees.symbol (isType.trans_ne (by decide))
    rw [accessCode, agrees.symbolAt, symbol, if_pos isType]

theorem accessCode_of_names {kind : SymbolKind} (parked : Nat)
    (names : analysis.names kind designator) (notField : kind ≠ .field)
    (notMethod : kind ≠ .method) :
    site.accessCode parked designator = [] := by
  simp only [Analysis.names, Bool.and_eq_true, decide_eq_true_iff] at names
  obtain ⟨⟨isName, isKind⟩, _⟩ := names
  exact accessCode_of_isName agrees parked isName (isKind.trans_ne notField)
    (isKind.trans_ne notMethod)

section

variable (isVariable : id ∈ setting.locals ∨ analysis.table.IsGlobalVar id)
include isVariable

theorem kind_of_isVariable : (analysis.table.symbol id).kind = .var := by
  rcases isVariable with isLocal | isGlobal
  · obtain ⟨index, inside, rfl⟩ := getElem_of_mem isLocal
    exact (agrees.slots index _ (getElem?_eq_getElem inside)).2.1
  · have isGlobal := isGlobal.2.2
    rw [Symbol.isGlobal, Bool.and_eq_true, decide_eq_true_iff] at isGlobal
    exact isGlobal.1

theorem loadVariable_reaches (stores : machine.Stores analysis.table setting.locals store)
    (holds : code.Holds start (site.loadCode id)) (stack : List Int32) :
    (machine.goOn start stack).Reaches code
      (machine.goOn (start + totalSize (site.loadCode id)) (store id :: stack)) := by
  have isVar := kind_of_isVariable agrees isVariable
  have symbol := agrees.symbol (isVar.trans_ne (by decide))
  simp only [loadCode, symbol, isVar] at holds ⊢
  rcases isVariable with isLocal | isGlobal
  · rw [(agrees.slots.slot_eq isLocal).2, if_neg Bool.false_ne_true] at holds ⊢
    have found : (machine.goOn start stack).slots[_]? = _ := stores.locals _ isLocal
    refine .perform holds.1 ?_
    simp only [Machine.perform, found]
    rfl
  · rw [if_pos isGlobal.2.2] at holds ⊢
    have found : (machine.goOn start stack).data[_]? = _ := stores.globals _ isGlobal
    refine .perform holds.1 ?_
    simp only [Machine.perform, found]
    rfl

theorem storeVariable_reaches (stores : machine.Stores analysis.table setting.locals store)
    (holds : code.Holds start (site.storeCode id)) (value : Int32) (stack : List Int32) :
    (machine.goOn start (value :: stack)).Reaches code
      ((machine.assign (analysis.table.symbol id) value).goOn
        (start + totalSize (site.storeCode id)) stack) := by
  have isVar := kind_of_isVariable agrees isVariable
  have symbol := agrees.symbol (isVar.trans_ne (by decide))
  simp only [storeCode, symbol, isVar] at holds ⊢
  rcases isVariable with isLocal | isGlobal
  · rw [(agrees.slots.slot_eq isLocal).2, if_neg Bool.false_ne_true] at holds ⊢
    rw [Machine.assign, (agrees.slots.slot_eq isLocal).2, if_neg Bool.false_ne_true]
    have inside := (List.getElem?_eq_some_iff.mp (stores.locals _ isLocal)).1
    refine .perform holds.1 ((if_pos inside).trans ?_)
    rw [Machine.goOn_setSlots]
    rfl
  · rw [if_pos isGlobal.2.2] at holds ⊢
    rw [Machine.assign, if_pos isGlobal.2.2]
    have inside := (List.getElem?_eq_some_iff.mp (stores.globals _ isGlobal)).1
    exact .perform holds.1 (if_pos inside)

end

theorem storeCode_reaches (noted : designator.IsNoted setting)
    (isVar : analysis.names .var designator)
    (stores : machine.Stores analysis.table setting.locals store)
    (holds : code.Holds start (site.storeCode (site.symbolAt designator.node))) (value : Int32)
    (stack : List Int32) :
    (machine.goOn start (value :: stack)).Reaches code
      ((machine.assign (analysis.table.symbol (analysis.symbolOf designator)) value).goOn
        (start + totalSize (site.storeCode (site.symbolAt designator.node))) stack) := by
  rw [agrees.symbolAt] at holds ⊢
  exact storeVariable_reaches agrees (agrees.isVariable noted isVar) stores holds value stack

end Agrees

section Means

variable (means : site.Means setting meaning)
include means

theorem loadCode_follows (noted : designator.IsNoted setting)
    (isScalar : meaning.names .const designator || meaning.names .var designator)
    (stores : machine.Stores meaning.table setting.locals store)
    (holds : code.Holds start (site.loadCode (site.symbolAt designator.node)))
    (stack : List Int32) :
    (machine.goOn start stack).Follows code (meaning.valueOf store designator)
      fun value last => last = machine.goOn
        (start + totalSize (site.loadCode (site.symbolAt designator.node))) (value :: stack) := by
  rw [Meaning.valueOf]
  rw [means.symbolAt] at holds ⊢
  by_cases isConst : meaning.names .const designator
  · rw [if_pos isConst]
    simp only [Analysis.names, Bool.and_eq_true, decide_eq_true_iff] at isConst
    rw [means.constants _ isConst.1.2 isConst.2]
    have symbol := means.symbol (isConst.1.2.trans_ne (by decide))
    simp only [loadCode, symbol, isConst.1.2] at holds ⊢
    exact .of_reaches (.perform holds.1 rfl) (.done rfl)
  · have isVar : meaning.names .var designator := by simpa [isConst] using isScalar
    rw [if_neg isConst, if_pos isVar]
    have isVariable := means.isVariable noted isVar
    exact .of_reaches (loadVariable_reaches means.toAgrees isVariable stores holds stack)
      (.done rfl)

/-! ## Expressions and conditions -/

omit means in
theorem arith_follows (machine : Machine) (op : ArithOp)
    (spells : code.Spells start (.plain (Opcode.ofArith op))) (left right : Int32)
    (stack : List Int32) :
    (machine.goOn start (right :: left :: stack)).Follows code (op.apply left right)
      fun value last => last = machine.goOn (start + 1) (value :: stack) := by
  have performs : (machine.goOn start (right :: left :: stack)).perform (start + 1)
      (.plain (Opcode.ofArith op)) = (do
        return machine.goOn (start + 1) ((← (Opcode.ofArith op).apply left right) :: stack)) := by
    cases op <;> rfl
  have same : (Opcode.ofArith op).apply left right =
      (op.apply left right).mapError fun _ => .divisionByZero := by
    cases op <;> simp only [Opcode.ofArith, Opcode.apply, ArithOp.apply] <;>
      first | rfl | (split <;> rfl)
  have onlyZero : ∀ halt, op.apply left right = .error halt → halt = .divisionByZero := by
    intro halt fails
    cases op <;> simp only [ArithOp.apply, reduceCtorEq] at fails <;> split at fails <;> cases fails
    all_goals rfl
  rw [same] at performs
  cases applied : op.apply left right with
  | error halt =>
    obtain rfl := onlyZero halt applied
    rw [applied] at performs
    exact .stops spells performs
  | ok value =>
    rw [applied] at performs
    exact .of_reaches (.perform spells performs) (.done rfl)

theorem exprCode_follows {start : Nat} {expression : Expr} (parked : Nat)
    (noted : expression.IsNoted setting) (isScalar : expression.isScalar meaning)
    (stores : machine.Stores meaning.table setting.locals store)
    (holds : code.Holds start (site.exprCode parked expression)) (stack : List Int32) :
    (machine.goOn start stack).Follows code (expression.eval meaning store)
      fun value last => last = machine.goOn
        (start + totalSize (site.exprCode parked expression)) (value :: stack) := by
  match expression with
  | .literal _ value =>
    rw [exprCode] at holds ⊢
    exact .of_reaches (.perform holds.1 rfl) (.done rfl)
  | .load _ source =>
    have noAccess : site.accessCode parked source = [] := by
      rcases Bool.or_eq_true_iff.mp isScalar with names | names
      · exact accessCode_of_names means.toAgrees parked names (by decide) (by decide)
      · exact accessCode_of_names means.toAgrees parked names (by decide) (by decide)
    rw [exprCode, noAccess, nil_append] at holds ⊢
    exact loadCode_follows means noted.1 isScalar stores holds stack
  | .neg _ operand =>
    rw [exprCode, Code.holds_append] at holds
    rw [Expr.eval, exprCode]
    refine (exprCode_follows parked noted.1 isScalar stores holds.1 stack).bind ?_
    rintro value _ rfl
    refine .of_reaches (.perform holds.2.1 rfl) (.done ?_)
    rw [totalSize_append]
    rfl
  | .arith _ op left right =>
    rw [Expr.isScalar, Bool.and_eq_true] at isScalar
    rw [exprCode, Code.holds_append, Code.holds_append] at holds
    obtain ⟨⟨holdsLeft, holdsRight⟩, holdsOp⟩ := holds
    rw [Expr.eval, exprCode]
    refine (exprCode_follows parked noted.1 isScalar.1 stores holdsLeft stack).bind ?_
    rintro leftValue _ rfl
    refine (exprCode_follows parked noted.2.1 isScalar.2 stores holdsRight _).bind ?_
    rintro rightValue _ rfl
    rw [totalSize_append] at holdsOp
    rw [Nat.add_assoc]
    refine (arith_follows machine op holdsOp.1 leftValue rightValue stack).weaken ?_
    rintro value _ rfl
    rw [totalSize_append, totalSize_append, Nat.add_assoc, Nat.add_assoc]
    rfl

omit means in
theorem compares_inverse (op : RelOp) (left right : Int32) :
    (Opcode.jumpIf op.inverse).compares left right = !op.holds left right := by
  cases op <;> simp only [RelOp.inverse, Opcode.jumpIf, Opcode.compares, RelOp.holds,
    ← decide_not, Int32.not_lt, Int32.not_le, not_not]

omit means in
theorem compare_step (machine : Machine) (op : RelOp) (target : Nat)
    (spells : code.Spells start (.jump (Opcode.jumpIf op.inverse) target)) (left right : Int32)
    (stack : List Int32) :
    (machine.goOn start (right :: left :: stack)).step code =
      .ok (machine.goOn (if op.holds left right then start + 3 else target) stack) := by
  have compares := compares_inverse op left right
  rw [Machine.step_of_spells _ spells]
  have jumps : Opcode.jumpIf op.inverse ≠ .jmp := by cases op <;> decide
  refine (if_neg jumps).trans ?_
  show Except.ok (machine.goOn (if _ then target else start + 3) stack) = _
  rw [compares]
  cases op.holds left right <;> rfl

omit means in
theorem compare_reaches (machine : Machine) (op : RelOp) (target : Nat)
    (spells : code.Spells start (.jump (Opcode.jumpIf op.inverse) target)) (left right : Int32)
    (stack : List Int32) :
    (machine.goOn start (right :: left :: stack)).Reaches code
      (machine.goOn (if op.holds left right then start + 3 else target) stack) :=
  .single (compare_step machine op target spells left right stack)

theorem factCode_follows {fact : Fact} (target : Nat) (noted : fact.IsNoted setting)
    (isScalar : fact.isScalar meaning)
    (stores : machine.Stores meaning.table setting.locals store)
    (holds : code.Holds start (site.factCode target fact)) (stack : List Int32) :
    (machine.goOn start stack).Follows code (fact.eval meaning store)
      fun truth last => last = machine.goOn
        (if truth then start + totalSize (site.factCode target fact) else target) stack := by
  cases fact with
  | truth value =>
    rw [factCode, Code.holds_append] at holds
    rw [Fact.eval, factCode]
    refine (exprCode_follows means 0 noted isScalar stores holds.1 stack).bind ?_
    rintro value _ rfl
    refine .of_reaches (.perform holds.2.1 rfl) (.of_reaches
      (compare_reaches machine .ne target holds.2.2.1 value 0 stack) (.done ?_))
    rw [totalSize_append]
    rfl
  | relation _ left op right =>
    rw [Fact.isScalar, Bool.and_eq_true] at isScalar
    rw [factCode, Code.holds_append, Code.holds_append] at holds
    obtain ⟨⟨holdsLeft, holdsRight⟩, holdsJump⟩ := holds
    rw [Fact.eval, factCode]
    refine (exprCode_follows means 0 noted.1 isScalar.1 stores holdsLeft stack).bind ?_
    rintro leftValue _ rfl
    refine (exprCode_follows means 0 noted.2 isScalar.2 stores holdsRight _).bind ?_
    rintro rightValue _ rfl
    rw [totalSize_append] at holdsJump
    rw [Nat.add_assoc]
    refine .of_reaches (compare_reaches machine op target holdsJump.1 _ _ stack) (.done ?_)
    rw [totalSize_append, totalSize_append, Nat.add_assoc, Nat.add_assoc]
    rfl

theorem termCode_follows {term : Term} (target : Nat) (noted : ∀ fact ∈ term, fact.IsNoted setting)
    (isScalar : term.all fun fact => fact.isScalar meaning)
    (stores : machine.Stores meaning.table setting.locals store)
    (holds : code.Holds start (site.termCode target term)) (stack : List Int32) :
    (machine.goOn start stack).Follows code (Term.eval meaning store term)
      fun truth last => last = machine.goOn
        (if truth then start + totalSize (site.termCode target term) else target) stack := by
  induction term generalizing start with
  | nil => exact .done rfl
  | cons fact rest ih =>
    rw [forall_mem_cons] at noted
    rw [all_cons, Bool.and_eq_true] at isScalar
    rw [termCode, flatMap_cons, Code.holds_append] at holds
    rw [Term.eval, termCode, flatMap_cons]
    refine (factCode_follows means target noted.1 isScalar.1 stores holds.1 stack).bind ?_
    rintro truth _ rfl
    cases truth with
    | true =>
      refine (ih noted.2 isScalar.2 holds.2).weaken ?_
      rintro truth _ rfl
      rw [totalSize_append, Nat.add_assoc]
      rfl
    | false => exact .done rfl

theorem conditionCode_follows {condition : Condition} (body other : Nat)
    (noted : condition.IsNoted setting) (isScalar : condition.isScalar meaning)
    (stores : machine.Stores meaning.table setting.locals store)
    (holds : code.Holds start (site.conditionCode start body other condition))
    (stack : List Int32) :
    (machine.goOn start stack).Follows code (condition.eval meaning store)
      fun truth last => ∃ pc, last = machine.goOn pc stack ∧
        if truth then pc = body ∨ pc = start + site.testSize (some condition) else pc = other := by
  induction condition generalizing start with
  | nil => cases isScalar
  | cons term rest ih =>
    rw [Condition.IsNoted, forall_mem_cons] at noted
    simp only [Condition.isScalar, isEmpty_cons, Bool.not_false, Bool.true_and, all_cons,
      Bool.and_eq_true] at isScalar
    rw [Condition.eval]
    cases rest with
    | nil =>
      rw [conditionCode] at holds
      refine (termCode_follows means other noted.1 isScalar.1 stores holds stack).bind ?_
      rintro truth _ rfl
      rw [totalSize_termCode]
      cases truth with
      | true => exact .done ⟨_, rfl, .inr rfl⟩
      | false => exact .done ⟨_, rfl, rfl⟩
    | cons next rest =>
      rw [conditionCode, Code.holds_append, totalSize_termCode] at holds
      obtain ⟨holdsTerm, holdsJump, holdsRest⟩ := holds
      refine (termCode_follows means _ noted.1 isScalar.1 stores holdsTerm stack).bind ?_
      rintro truth _ rfl
      cases truth with
      | true =>
        rw [totalSize_termCode]
        exact .of_reaches (.perform holdsJump rfl) (.done ⟨body, rfl, .inl rfl⟩)
      | false =>
        have restScalar : Condition.isScalar meaning (next :: rest) := by
          simpa [Condition.isScalar] using isScalar.2
        refine (ih noted.2 restScalar holdsRest).weaken fun truth last ends => ?_
        rw [testSize_cons_cons, ← Nat.add_assoc, ← Nat.add_assoc]
        exact ends

/-! ## Actions -/

omit means in
theorem valueOf_of_names (isVar : meaning.names .var designator) :
    meaning.valueOf store designator = .ok (store (meaning.symbolOf designator)) := by
  have notConst : ¬ meaning.names .const designator := by
    intro isConst
    simp only [Analysis.names, Bool.and_eq_true, decide_eq_true_iff] at isVar isConst
    cases isVar.1.2.symm.trans isConst.1.2
  rw [Meaning.valueOf, if_neg notConst, if_pos isVar]

theorem stepCode_reaches {target : Designator} (up : Bool) (noted : target.IsNoted setting)
    (isVar : meaning.names .var target)
    (stores : machine.Stores meaning.table setting.locals store)
    (holds : code.Holds start (site.stepCode target up)) (stack : List Int32) :
    (machine.goOn start stack).Reaches code
      ((machine.assign (meaning.table.symbol (meaning.symbolOf target))
          (if up then store (meaning.symbolOf target) + 1
            else store (meaning.symbolOf target) - 1)).goOn
        (start + totalSize (site.stepCode target up)) stack) := by
  have noAccess := accessCode_of_names means.toAgrees 0 isVar (by decide) (by decide)
  have kind : (meaning.table.symbol (meaning.symbolOf target)).kind = .var := by
    simp only [Analysis.names, Bool.and_eq_true, decide_eq_true_iff] at isVar
    exact isVar.1.2
  have symbol := means.symbol (kind.trans_ne (by decide))
  rcases means.isVariable noted isVar with isLocal | isGlobal
  · have notGlobal := (means.slots.slot_eq isLocal).2
    have isInc : site.stepCode target up =
        [.inc (meaning.table.symbol (meaning.symbolOf target)).address.toNat
          (if up then 1 else -1)] := by
      simp [stepCode, noAccess, means.symbolAt, symbol, kind, notGlobal]
    rw [isInc] at holds ⊢
    rw [Machine.assign, notGlobal, if_neg Bool.false_ne_true]
    have found : (machine.goOn start stack).slots[_]? = _ := stores.locals _ isLocal
    refine .perform holds.1 ?_
    simp only [Machine.perform, found, Machine.setSlots_goOn]
    cases up with
    | true => rfl
    | false =>
      rw [if_neg Bool.false_ne_true, if_neg Bool.false_ne_true, Int32.sub_eq_add_neg]
      rfl
  · have isUpdate : site.stepCode target up = site.loadCode (site.symbolAt target.node) ++
        (.const 1 :: .plain (if up then .add else .sub) ::
          site.storeCode (site.symbolAt target.node)) := by
      simp [stepCode, noAccess, means.symbolAt, symbol, kind, isGlobal.2.2, keepCode]
    rw [isUpdate, Code.holds_append] at holds
    obtain ⟨holdsLoad, holdsConst, holdsOp, holdsStore⟩ := holds
    have loads := loadCode_follows means noted (by simp [isVar]) stores holdsLoad stack
    rw [valueOf_of_names isVar] at loads
    obtain ⟨_, loads, rfl⟩ := loads
    have stored := fun value => storeCode_reaches means.toAgrees noted isVar stores
      holdsStore value stack
    have ends : start + totalSize (site.stepCode target up) =
        start + totalSize (site.loadCode (site.symbolAt target.node)) + size (.const 1) + 1 +
          totalSize (site.storeCode (site.symbolAt target.node)) := by
      rw [isUpdate, totalSize_append, totalSize_cons, totalSize_cons, size_plain]
      omega
    rw [ends]
    cases up with
    | true | false => exact loads.trans (.trans (.perform holdsConst rfl)
        (.trans (.perform holdsOp rfl) (stored _)))

theorem actionCode_follows {action : Action} (noted : action.IsNoted setting)
    (isScalar : action.isScalar meaning)
    (stores : machine.Stores meaning.table setting.locals store)
    (holds : code.Holds start (site.actionCode start action)) (stack : List Int32) :
    (machine.goOn start stack).Follows code (action.run meaning store)
      fun result last => ∃ after,
        machine.Becomes after meaning.table setting.locals result [] ∧
          last = after.goOn (start + totalSize (site.actionCode start action)) stack := by
  cases action with
  | assign _ target value =>
    rw [Action.isScalar, Bool.and_eq_true] at isScalar
    obtain ⟨isVar, isScalar⟩ := isScalar
    obtain ⟨targetNoted, _, valueNoted⟩ := noted
    have noAccess := accessCode_of_names means.toAgrees 0 isVar (by decide) (by decide)
    rw [actionCode, noAccess, nil_append, Code.holds_append] at holds
    rw [Action.run, actionCode, noAccess, nil_append]
    refine (exprCode_follows means 0 valueNoted isScalar stores holds.1 stack).bind ?_
    rintro value _ rfl
    rw [Analysis.assign, if_pos isVar, totalSize_append, ← Nat.add_assoc]
    have isVariable := means.isVariable targetNoted isVar
    exact .of_reaches (storeCode_reaches means.toAgrees targetNoted isVar stores holds.2
      value stack)
      (.done ⟨_, stores.becomes_assign means.placed means.slots isVariable value, rfl⟩)
  | increment span target =>
    have ran : Action.run meaning store (.increment span target) =
        .ok (store.set (meaning.symbolOf target) (store (meaning.symbolOf target) + 1)) := by
      rw [Action.run, valueOf_of_names isScalar]
      exact if_pos isScalar
    rw [ran]
    have isVariable := means.isVariable noted.1 isScalar
    exact .of_reaches (stepCode_reaches means true noted.1 isScalar stores holds stack)
      (.done ⟨_, stores.becomes_assign means.placed means.slots isVariable _, rfl⟩)
  | decrement span target =>
    have ran : Action.run meaning store (.decrement span target) =
        .ok (store.set (meaning.symbolOf target) (store (meaning.symbolOf target) - 1)) := by
      rw [Action.run, valueOf_of_names isScalar]
      exact if_pos isScalar
    rw [ran]
    have isVariable := means.isVariable noted.1 isScalar
    exact .of_reaches (stepCode_reaches means false noted.1 isScalar stores holds stack)
      (.done ⟨_, stores.becomes_assign means.placed means.slots isVariable _, rfl⟩)
  | call _ _ => cases isScalar
  | unpack _ _ _ _ => cases isScalar

theorem actionsCode_follows {actions : List Action}
    (noted : ∀ action ∈ actions, action.IsNoted setting)
    (isScalar : actions.all fun action => action.isScalar meaning)
    (stores : machine.Stores meaning.table setting.locals store)
    (holds : code.Holds start (site.actionsCode start actions)) (stack : List Int32) :
    (machine.goOn start stack).Follows code (Action.runAll meaning store actions)
      fun result last => ∃ after,
        machine.Becomes after meaning.table setting.locals result [] ∧
          last = after.goOn (start + site.actionsSize actions) stack := by
  induction actions generalizing start machine store with
  | nil => exact .done ⟨machine, .refl stores, rfl⟩
  | cons action rest ih =>
    rw [forall_mem_cons] at noted
    rw [all_cons, Bool.and_eq_true] at isScalar
    rw [actionsCode, Code.holds_append] at holds
    rw [Action.runAll]
    refine (actionCode_follows means noted.1 isScalar.1 stores holds.1 stack).bind ?_
    rintro middle _ ⟨after, becomes, rfl⟩
    refine (ih noted.2 isScalar.2 becomes.stores holds.2).weaken ?_
    rintro result _ ⟨last, later, rfl⟩
    refine ⟨last, becomes.trans later, ?_⟩
    rw [← totalSize_actionsCode site start (action :: rest), actionsCode, totalSize_append,
      totalSize_actionsCode, Nat.add_assoc]

end Means

/-! ## Statements -/

/-- Where a machine is after a run, and what it has become. -/
def Lands (code : Code) (table : Table) (locals : List SymbolId) (before : Machine)
    (stack : List Int32) (inLoop : Bool) (stop exit next : Nat) (run : Run)
    (last : Machine) : Prop :=
  ∃ after, before.Becomes after table locals run.store run.printed ∧
    match run.outcome with
    | .normal => last = after.goOn stop stack
    | .broken => inLoop ∧ last = after.goOn exit stack
    | .continued => inLoop ∧ last = after.goOn next stack
    | .returned value =>
        ∃ pc, code.Spells pc (.plain .exit) ∧ last = after.goOn pc (value.toList ++ stack)

variable {before last : Machine} {exit next stop : Nat} {inLoop : Bool} {locals : List SymbolId}
    {run : Run} {table : Table}

theorem Lands.after {middle : Machine} {early : Store} {printed : List Printed}
    (lands : Lands code table locals middle stack inLoop stop exit next run last)
    (becomes : before.Becomes middle table locals early printed) :
    Lands code table locals before stack inLoop stop exit next (run.after printed) last := by
  obtain ⟨after, later, ends⟩ := lands
  exact ⟨after, becomes.trans later, ends⟩

theorem testCode_follows (means : site.Means setting meaning) (body other : Nat)
    (noted : ∀ condition, test = some condition → condition.IsNoted setting)
    (isScalar : test.all fun condition => condition.isScalar meaning)
    (stores : machine.Stores meaning.table setting.locals store)
    (holds : code.Holds start (site.testCode start body other test)) (stack : List Int32) :
    (machine.goOn start stack).Follows code (Condition.test meaning store test)
      fun truth last => ∃ pc, last = machine.goOn pc stack ∧
        if truth then pc = body ∨ pc = start + site.testSize test else pc = other := by
  cases test with
  | none => exact .done ⟨start, rfl, .inr rfl⟩
  | some condition =>
    exact conditionCode_follows means body other (noted _ rfl) isScalar stores holds stack

theorem iterate_follows {update : List Action} {body : Store → Except Halt Run}
    {testStart nextStart bodyStart bodyStop beyond : Nat} (means : site.Means setting meaning)
    (testNoted : ∀ condition, test = some condition → condition.IsNoted setting)
    (testScalar : test.all fun condition => condition.isScalar meaning)
    (updateNoted : ∀ action ∈ update, action.IsNoted setting)
    (updateScalar : update.all fun action => action.isScalar meaning)
    (holdsTest : code.Holds testStart (site.testCode testStart bodyStart beyond test))
    (toBody : code.Spells (testStart + site.testSize test) (.jump .jmp bodyStart))
    (holdsUpdate : code.Holds nextStart (site.actionsCode nextStart update))
    (toTest : code.Spells (nextStart + site.actionsSize update) (.jump .jmp testStart))
    (toNext : code.Spells bodyStop (.jump .jmp nextStart))
    (bodyFollows : ∀ (machine : Machine) (store : Store),
      machine.Stores meaning.table setting.locals store →
      (machine.goOn bodyStart stack).Follows code (body store)
        (Lands code meaning.table setting.locals machine stack true bodyStop beyond nextStart))
    (inLoop : Bool)
    (exit next rounds : Nat)
    (stores : machine.Stores meaning.table setting.locals store) :
    (machine.goOn testStart stack).Follows code
      (iterate meaning test update body rounds store)
      (Lands code meaning.table setting.locals machine stack inLoop beyond exit next) := by
  induction rounds generalizing machine store with
  | zero => exact trivial
  | succ rounds ih =>
    rw [iterate]
    refine (testCode_follows means bodyStart beyond testNoted testScalar stores holdsTest
      stack).bind ?_
    rintro truth _ ⟨pc, rfl, isPc⟩
    cases truth with
    | false =>
      obtain rfl : pc = beyond := isPc
      exact .done ⟨machine, .refl stores, rfl⟩
    | true =>
      have enters : (machine.goOn pc stack).Reaches code (machine.goOn bodyStart stack) := by
        rcases isPc with rfl | rfl
        · exact .refl
        · exact .perform toBody rfl
      refine .of_reaches enters ((bodyFollows machine store stores).bind ?_)
      rintro run last ⟨after, becomes, ends⟩
      have repeats : last.Reaches code (after.goOn nextStart stack) →
          last.Follows code
            (do return (← (do
              let store ← Action.runAll meaning run.store update
              iterate meaning test update body rounds store)).after run.printed)
            (Lands code meaning.table setting.locals machine stack inLoop beyond exit next) := by
        intro reaches
        have again : (after.goOn nextStart stack).Follows code
            (do
              let store ← Action.runAll meaning run.store update
              iterate meaning test update body rounds store)
            (Lands code meaning.table setting.locals after stack inLoop beyond exit next) := by
          refine (actionsCode_follows means updateNoted updateScalar becomes.stores holdsUpdate
            stack).bind ?_
          rintro updated _ ⟨ready, steps, rfl⟩
          refine .of_reaches (.perform toTest rfl) ((ih steps.stores).weaken fun _ _ lands => ?_)
          exact lands.after steps
        exact .of_reaches reaches (again.bind fun _ _ lands => .done (lands.after becomes))
      rw [Run.andRepeat]
      cases outcome : run.outcome with
      | normal =>
        rw [outcome] at ends
        obtain rfl := ends
        exact repeats (.perform toNext rfl)
      | broken =>
        rw [outcome] at ends
        exact .done ⟨after, becomes, ends.2⟩
      | continued =>
        rw [outcome] at ends
        obtain ⟨_, rfl⟩ := ends
        exact repeats .refl
      | returned value =>
        refine .done ⟨after, becomes, ?_⟩
        rw [outcome] at ends ⊢
        exact ends

theorem Lands.jump {target : Nat}
    (lands : Lands code table locals before stack inLoop stop exit next run last)
    (spells : code.Spells stop (.jump .jmp target)) :
    ∃ final, last.Reaches code final ∧
      Lands code table locals before stack inLoop target exit next run final := by
  obtain ⟨after, becomes, ends⟩ := lands
  cases outcome : run.outcome with
  | normal =>
    rw [outcome] at ends
    obtain rfl := ends
    refine ⟨after.goOn target stack, .perform spells rfl, after, becomes, ?_⟩
    rw [outcome]
  | broken | continued | returned _ =>
    refine ⟨last, .refl, after, becomes, ?_⟩
    rw [outcome] at ends ⊢
    exact ends

theorem Means.isTyped {expression : Expr} (means : site.Means setting meaning)
    (noted : expression.IsNoted setting) (isScalar : expression.isScalar meaning) :
    setting.notes.type? expression.id = some (expression.scalarType meaning) ∧
      expression.scalarType meaning ≠ .none := by
  match expression with
  | .literal _ value => exact ⟨noted, by cases value <;> nofun⟩
  | .load _ source =>
    obtain ⟨_, id, isSource, _, isTyped⟩ := noted
    have same : meaning.symbolOf source = id := by
      rw [← means.symbolAt, means.sees.symbolAt isSource]
    refine ⟨by rw [means.table] at isTyped; rw [Expr.scalarType, same]; exact isTyped, ?_⟩
    simp only [Expr.isScalar, Analysis.names, Bool.or_eq_true, Bool.and_eq_true] at isScalar
    rw [Expr.scalarType]
    intro none
    rw [none] at isScalar
    rcases isScalar with isScalar | isScalar
    · exact absurd isScalar.2 (by decide)
    · exact absurd isScalar.2 (by decide)
  | .neg _ operand =>
    obtain ⟨inner, type, isOperand, isTyped, cases⟩ := noted
    obtain ⟨same, typed⟩ := means.isTyped inner isScalar
    obtain rfl := Option.some.inj (isOperand.symm.trans same)
    exact ⟨isTyped.trans (congrArg some (cases.resolve_right typed)), nofun⟩
  | .arith _ _ left right =>
    rw [Expr.isScalar, Bool.and_eq_true] at isScalar
    obtain ⟨leftNoted, rightNoted, leftType, rightType, type, isLeft, isRight, isTyped, cases⟩ :=
      noted
    obtain ⟨sameLeft, leftTyped⟩ := means.isTyped leftNoted isScalar.1
    obtain ⟨sameRight, rightTyped⟩ := means.isTyped rightNoted isScalar.2
    obtain rfl := Option.some.inj (isLeft.symm.trans sameLeft)
    obtain rfl := Option.some.inj (isRight.symm.trans sameRight)
    have isInt : type = .int := cases.resolve_right fun ⟨_, missing⟩ =>
      missing.elim leftTyped rightTyped
    exact ⟨isTyped.trans (congrArg some isInt), nofun⟩

theorem printCode_reaches (machine : Machine) (type : TypeId) (width : Option Int32)
    (holds : code.Holds start (printCode type width)) (value : Int32) (stack : List Int32) :
    (machine.goOn start (value :: stack)).Reaches code
      ((machine.print ⟨value, width.getD (if type = .int then 5 else 1), type = .char⟩).goOn
        (start + totalSize (printCode type width)) stack) := by
  obtain ⟨holdsWidth, holdsPrint, _⟩ := holds
  refine .trans (.perform holdsWidth rfl) (.perform holdsPrint ?_)
  rw [printCode]
  by_cases isChar : type = .char
  · simp only [isChar, if_true]
    rfl
  · simp only [isChar, if_false]
    rfl

mutual

theorem stmtCode_follows {start exit next : Nat} {machine : Machine} {store : Store} {inLoop : Bool}
    {statement : Stmt} (means : site.Means setting meaning)
    (noted : statement.IsNoted setting inLoop) (isScalar : statement.isScalar meaning)
    (stores : machine.Stores meaning.table setting.locals store)
    (holds : code.Holds start (site.stmtCode start exit next statement)) (rounds : Nat)
    (stack : List Int32) :
    (machine.goOn start stack).Follows code (statement.run meaning rounds store)
      (Lands code meaning.table setting.locals machine stack inLoop
        (start + site.stmtSize statement) exit next) := by
  match statement with
  | .action step =>
    rw [Stmt.run]
    rw [stmtCode] at holds
    refine (actionCode_follows means noted isScalar stores holds stack).bind ?_
    rintro result _ ⟨after, becomes, rfl⟩
    refine .done ⟨after, becomes, ?_⟩
    rw [← totalSize_stmtCode site start exit next, stmtCode]
  | .ifThen span test body =>
    rw [Stmt.isScalar, Bool.and_eq_true] at isScalar
    rw [stmtCode_ifThen site start exit next span test body rfl rfl, Code.holds_append,
      totalSize_conditionCode] at holds
    rw [Stmt.run, stmtSize_ifThen, ← Nat.add_assoc]
    refine (conditionCode_follows means _ _ noted.1 isScalar.1 stores holds.1 stack).bind ?_
    rintro truth _ ⟨pc, rfl, isPc⟩
    cases truth with
    | false =>
      obtain rfl : pc = _ := isPc
      exact .done ⟨machine, .refl stores, rfl⟩
    | true =>
      obtain rfl : pc = _ := isPc.elim id id
      exact stmtCode_follows means noted.2 isScalar.2 stores holds.2 rounds stack
  | .ifElse span test body alternative =>
    rw [Stmt.isScalar, Bool.and_eq_true, Bool.and_eq_true] at isScalar
    rw [stmtCode_ifElse site start exit next span test body alternative rfl rfl rfl,
      Code.holds_append, Code.holds_append, totalSize_conditionCode, totalSize_stmtCode] at holds
    obtain ⟨holdsTest, holdsBody, toBeyond, holdsOther⟩ := holds
    rw [Stmt.run, stmtSize_ifElse, ← Nat.add_assoc, ← Nat.add_assoc, ← Nat.add_assoc]
    refine (conditionCode_follows means _ _ noted.1 isScalar.1.1 stores holdsTest stack).bind ?_
    rintro truth _ ⟨pc, rfl, isPc⟩
    cases truth with
    | false =>
      obtain rfl : pc = _ := isPc
      exact stmtCode_follows means noted.2.2 isScalar.2 stores holdsOther rounds stack
    | true =>
      obtain rfl : pc = _ := isPc.elim id id
      exact (stmtCode_follows means noted.2.1 isScalar.1.2 stores holdsBody rounds stack).extend
        fun _ _ lands => lands.jump toBeyond
  | .loop span init test update body =>
    simp only [Stmt.isScalar, Bool.and_eq_true] at isScalar
    obtain ⟨⟨⟨initScalar, testScalar⟩, updateScalar⟩, bodyScalar⟩ := isScalar
    obtain ⟨initNoted, testNoted, updateNoted, bodyNoted⟩ := noted
    rw [stmtCode_loop site start exit next span init test update body rfl rfl rfl rfl,
      Code.holds_append, Code.holds_append, totalSize_actionsCode, totalSize_testCode] at holds
    obtain ⟨holdsInit, holdsTest, toBody, holds⟩ := holds
    rw [Code.holds_append, totalSize_actionsCode] at holds
    obtain ⟨holdsUpdate, toTest, holds⟩ := holds
    rw [Code.holds_append, totalSize_stmtCode] at holds
    obtain ⟨holdsBody, toNext, _⟩ := holds
    rw [Stmt.run, stmtSize_loop]
    refine (actionsCode_follows means initNoted initScalar stores holdsInit stack).bind ?_
    rintro middle _ ⟨after, becomes, rfl⟩
    have loops := iterate_follows means testNoted testScalar updateNoted updateScalar holdsTest
      toBody holdsUpdate toTest toNext
      (fun machine store stores =>
        stmtCode_follows means bodyNoted bodyScalar stores holdsBody rounds stack)
      inLoop exit next rounds becomes.stores
    refine loops.weaken fun run last lands => ?_
    simp only [Nat.add_assoc] at lands ⊢
    exact lands.after becomes
  | .breakLoop _ | .continueLoop _ =>
    exact .of_reaches (.perform holds.1 rfl) (.done ⟨machine, .refl stores, noted, rfl⟩)
  | .ret _ none => exact .done ⟨machine, .refl stores, start, holds.1, rfl⟩
  | .ret _ (some value) =>
    rw [stmtCode, Code.holds_append] at holds
    rw [Stmt.run]
    refine (exprCode_follows means 0 (noted.1 value rfl) isScalar stores holds.1 stack).bind ?_
    rintro value _ rfl
    exact .done ⟨machine, .refl stores, _, holds.2.1, rfl⟩
  | .read _ _ => cases isScalar
  | .print _ value width =>
    have isTyped := means.sees.typeAt (means.isTyped noted isScalar).1
    rw [stmtCode, isTyped, Code.holds_append] at holds
    rw [Stmt.run]
    refine (exprCode_follows means 0 noted isScalar stores holds.1 stack).bind ?_
    rintro word _ rfl
    refine .of_reaches (printCode_reaches machine _ width holds.2 word stack)
      (.done ⟨_, stores.becomes_print _, ?_⟩)
    rw [stmtSize, stmtCode, isTyped, totalSize_append, ← Nat.add_assoc]
  | .block _ body => exact stmtsCode_follows means noted isScalar stores holds rounds stack

/-- The code of scalar statements changes the variables, prints and ends as the statements do. -/
theorem stmtsCode_follows {start exit next : Nat} {machine : Machine} {store : Store}
    {inLoop : Bool} {statements : List Stmt} (means : site.Means setting meaning)
    (noted : Stmt.AreNoted setting inLoop statements)
    (areScalar : Stmt.areScalar meaning statements)
    (stores : machine.Stores meaning.table setting.locals store)
    (holds : code.Holds start (site.stmtsCode start exit next statements)) (rounds : Nat)
    (stack : List Int32) :
    (machine.goOn start stack).Follows code (Stmt.runAll meaning rounds statements store)
      (Lands code meaning.table setting.locals machine stack inLoop
        (start + site.stmtsSize statements) exit next) := by
  match statements with
  | [] => exact .done ⟨machine, .refl stores, rfl⟩
  | first :: rest =>
    rw [Stmt.areScalar, Bool.and_eq_true] at areScalar
    rw [stmtsCode_cons, Code.holds_append, totalSize_stmtCode] at holds
    rw [Stmt.runAll, stmtsSize_cons, ← Nat.add_assoc]
    refine (stmtCode_follows means noted.1 areScalar.1 stores holds.1 rounds stack).bind ?_
    rintro run last ⟨after, becomes, ends⟩
    rw [Run.andThen]
    cases outcome : run.outcome with
    | normal =>
      rw [outcome] at ends
      obtain rfl := ends
      refine (stmtsCode_follows means noted.2 areScalar.2 becomes.stores holds.2 rounds
        stack).bind fun later last lands => .done (lands.after becomes)
    | broken | continued | returned _ =>
      refine .done ⟨after, becomes, ?_⟩
      rw [outcome] at ends ⊢
      exact ends

end

end Site
end MicroJava
