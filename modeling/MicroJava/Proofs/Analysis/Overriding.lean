import MicroJava.Proofs.Analysis.Members

/-!
# Methods in the places of inherited ones

A call is checked against the method that its designator names, and it runs the one that the
class of the receiver has.  In an accepted program the two have the same result and as many
parameters, and those of the second one fit those of the first one.
-/

namespace MicroJava

open List

variable {id : SymbolId} {arguments : List TypeId}

/-! ## Lists of types -/

namespace Table

/-- Values of one list of types may be given where those of another one are expected. -/
def Fits (table : Table) (sources targets : List TypeId) : Prop :=
  List.Forall₂ (fun source target => table.assignable source target = true) sources targets

instance (table : Table) (sources targets : List TypeId) : Decidable (table.Fits sources targets) :=
  inferInstanceAs (Decidable (List.Forall₂ _ _ _))

/-- Types that variables may have. -/
def AreProper (types : List TypeId) : Prop := ∀ type ∈ types, type.IsProper ∧ type ≠ .null

variable {table : Table} {sources middles targets : List TypeId}

theorem Fits.refl (table : Table) (types : List TypeId) : table.Fits types types :=
  forall₂_same.mpr fun type _ => assignable_refl type

theorem Fits.trans (fits : table.Fits sources middles) (fitsTargets : table.Fits middles targets)
    (descending : table.IsDescending) (has : ∀ source ∈ sources, table.HasType source)
    (proper : AreProper middles) :
    table.Fits sources targets := by
  induction fits generalizing targets with
  | nil =>
    cases fitsTargets
    exact .nil
  | cons first _ ih =>
    obtain _ | ⟨firstTarget, restTargets⟩ := fitsTargets
    rw [forall_mem_cons] at has
    rw [AreProper, forall_mem_cons] at proper
    exact .cons (assignable_trans descending has.1 proper.1.1.1 first firstTarget)
      (ih restTargets has.2 proper.2)

theorem assignable_symm {source target : TypeId} (valid : table.IsValid)
    (proper : source.IsProper ∧ source ≠ .null) (properTarget : target.IsProper ∧ target ≠ .null)
    (noClass : table.isClass target = false) (fits : table.assignable source target) :
    table.assignable target source := by
  rw [assignable_iff] at fits ⊢
  rcases fits with same | isNone | isNone | ⟨_, isObject, _⟩ | ⟨_, _, isNull⟩ |
    ⟨isArray, targetArray, elements⟩
  · exact .inl same.symm
  · exact absurd isNone proper.1.1
  · exact absurd isNone properTarget.1.1
  · rw [isClass, isObject, decide_eq_true rfl, Bool.true_and, bne_eq_false_iff_eq] at noClass
    exact absurd noClass properTarget.2
  · exact absurd isNull proper.2
  · have same := elements.resolve_left (valid.element_ne_none properTarget.1 targetArray)
    exact .inr (.inr (.inr (.inr (.inr ⟨targetArray, isArray, .inr same.symm⟩))))

theorem Fits.symm (fits : table.Fits sources targets) (valid : table.IsValid)
    (proper : AreProper sources) (properTargets : AreProper targets)
    (noClass : ∀ target ∈ targets, table.isClass target = false) :
    table.Fits targets sources := by
  induction fits with
  | nil => exact .nil
  | cons first _ ih =>
    rw [AreProper, forall_mem_cons] at proper properTargets
    rw [forall_mem_cons] at noClass
    exact .cons (assignable_symm valid proper.1 properTargets.1 noClass.1 first)
      (ih proper.2 properTargets.2 noClass.2)

/-! ## Signatures -/

variable {own between inherited : SymbolId}

theorem mem_methodsOf {owner : TypeId} :
    own ∈ table.methodsOf owner ↔
      own ∈ (table.desc owner).members ∧ (table.symbol own).kind = .method := by
  rw [methodsOf, mem_filter, decide_eq_true_iff]

theorem Conforms.refl (proper : AreProper ((table.formals own).drop 1)) :
    table.Conforms own own :=
  ⟨rfl, rfl, Fits.refl _ _, proper⟩

theorem IsValid.hasType_formals (valid : table.IsValid) (id : SymbolId) :
    ∀ type ∈ table.formals id, table.HasType type := by
  intro type member
  obtain ⟨param, _, rfl⟩ := mem_map.mp member
  exact valid.hasType_symbol param

theorem Conforms.trans (conforms : table.Conforms own between)
    (next : table.Conforms between inherited) (valid : table.IsValid)
    (descending : table.IsDescending) :
    table.Conforms own inherited where
  type := conforms.type.trans next.type
  count := conforms.count.trans next.count
  fits := Fits.trans conforms.fits next.fits descending
    (fun type member => valid.hasType_formals own type (mem_of_mem_drop member)) next.proper
  proper := conforms.proper

end Table

/-! ## Arguments -/

namespace Check

variable {name : String} {span : Span} {before after : Checker}

theorem checkArguments_isClean {position : Nat} {actuals formals : List TypeId}
    (ran : Ran (checkArguments name span position actuals formals) before () after)
    (clean : after.IsClean) (length : actuals.length = formals.length) :
    before.table.Fits actuals formals := by
  induction actuals generalizing position formals before with
  | nil =>
    obtain rfl := length_eq_zero_iff.mp length.symm
    exact .nil
  | cons actual actuals ih =>
    obtain ⟨formal, formals, rfl⟩ := exists_cons_of_length_eq_add_one length.symm
    replace ran := ran.table_bind
    obtain ⟨_, between, requireRan, restRan⟩ := ran.bind
    have cleanBetween := restRan.isClean blind.checkArguments clean
    have table : between.table = before.table := by
      obtain ⟨_, rfl⟩ := quiet.require.reports requireRan
      rfl
    exact .cons (require_isClean requireRan cleanBetween)
      (table ▸ ih restRan (Nat.succ.inj length))

theorem applyMethod_fits {callee : Designator} {result : SymbolId × TypeId}
    (ran : Ran (applyMethod span callee id arguments) before result after) (clean : after.IsClean)
    (present : id.isAbsent = false) (isMethod : (before.table.symbol id).kind = .method)
    (isMember : before.table.IsMember id)
    (length : (before.table.formals id).length = (before.table.symbol id).paramCount) :
    before.table.Fits arguments ((before.table.formals id).drop 1) := by
  have isVirtual : (before.table.symbol id).isVirtual := by
    rw [Symbol.isVirtual, isMethod, isMember.2]
    rfl
  replace ran := ran.table_bind
  dsimp only at ran
  rw [present, if_neg Bool.false_ne_true, isMethod, if_neg (by decide)] at ran
  obtain ⟨receiver, told, receiverRan, ran⟩ := ran.bind
  obtain ⟨_, _, signatureRan, ran⟩ := ran.bind
  obtain ⟨_, rfl⟩ := ran.pure
  obtain ⟨_, rfl⟩ := quiet.receiverType.reports receiverRan
  rw [if_pos isVirtual] at signatureRan
  have arity := checkSignature_isClean signatureRan clean
  rw [checkSignature, if_pos arity] at signatureRan
  have fits := checkArguments_isClean signatureRan clean (arity.trans length.symm)
  change before.table.Fits (receiver :: arguments) (before.table.formals id) at fits
  generalize before.table.formals id = formals at fits
  cases fits with
  | cons _ rest => exact rest

end Check

/-! ## Accepted programs -/

theorem Table.IsClosed.member?_eq {table : Table} {agreed : Prop} {type : TypeId}
    (closed : table.IsClosed agreed type) (member : id ∈ (table.desc type).members) :
    table.member? type (table.symbol id).name = some id := by
  obtain ⟨found, isFound⟩ : ∃ found, table.member? type (table.symbol id).name = some found :=
    Option.isSome_iff_exists.mp (find?_isSome.mpr ⟨id, member, decide_eq_true rfl⟩)
  have named := find?_some isFound
  rw [isFound, inj_on_of_nodup_map closed.names (mem_of_find?_eq_some isFound) member
    (of_decide_eq_true named)]

namespace Analysis

variable {options : Options} {program : Program}

theorem length_formals (isMember : (analyze options program).table.IsMember id)
    (isMethod : ((analyze options program).table.symbol id).kind = .method) :
    ((analyze options program).table.formals id).length =
      ((analyze options program).table.symbol id).paramCount := by
  obtain ⟨last, final, isLast, table, _⟩ := exists_isLast options program
  rw [table] at isMember isMethod ⊢
  have has : last.table.HasSymbol id := by
    have has := isMember.1
    rwa [Table.HasSymbol, isLast.size] at has
  have row := isLast.carries.rows id ⟨has, (isLast.carries.symbol_level has).symm.trans isMember.2,
    isLast.carries.symbol_kind has ▸ isMember.3⟩
  rw [row] at isMethod
  rw [Table.formals, row, length_map, length_take]
  exact Nat.min_eq_left (isLast.settled.filled.params id has isMethod)

instance (checker : Checker) : Decidable checker.IsClean :=
  inferInstanceAs (Decidable (∀ diagnostic ∈ checker.diagnostics, _))

/-- The check of a call accepts arguments of some types for a method. -/
def Accepts (analysis : Analysis) (id : SymbolId) (arguments : List TypeId) : Prop :=
  (∀ argument ∈ arguments, analysis.table.HasType argument) ∧
    ∃ span callee result before after, before.table = analysis.table ∧
      Check.Ran (Check.applyMethod span callee id arguments) before result after ∧ after.IsClean

theorem accepts_of_run {analysis : Analysis} (span : Span) (callee : Designator)
    (has : ∀ argument ∈ arguments, analysis.table.HasType argument) (before : Checker)
    (table : before.table = analysis.table)
    (clean : ((Check.applyMethod span callee id arguments).run before).2.IsClean) :
    analysis.Accepts id arguments :=
  ⟨has, span, callee, _, before, _, table, rfl, clean⟩

/-- One method may run in the place of another one. -/
structure Substitutes (analysis : Analysis) (own inherited : SymbolId) : Prop where
  /-- It is a method. -/
  method : (analysis.table.symbol own).kind = .method
  /-- It has the same result. -/
  type : (analysis.table.symbol own).type = (analysis.table.symbol inherited).type
  /-- It has as many parameters. -/
  count : (analysis.table.symbol own).paramCount = (analysis.table.symbol inherited).paramCount
  /-- Each of its parameters after the receiver fits that of the other method. -/
  params : analysis.table.Fits ((analysis.table.formals own).drop 1)
    ((analysis.table.formals inherited).drop 1)
  /-- What it is called with is right for the other method. -/
  widens : ∀ arguments, analysis.Accepts own arguments →
    analysis.table.Fits arguments ((analysis.table.formals inherited).drop 1)
  /-- What the other method is called with is right for it, if no object is expected. -/
  narrows : (∀ type ∈ (analysis.table.formals inherited).drop 1,
      analysis.table.isClass type = false) →
    ∀ arguments, analysis.Accepts inherited arguments →
      analysis.table.Fits arguments ((analysis.table.formals own).drop 1)

theorem fits_of_accepts (accepts : (analyze options program).Accepts id arguments)
    (isMember : (analyze options program).table.IsMember id)
    (isMethod : ((analyze options program).table.symbol id).kind = .method) :
    (analyze options program).table.Fits arguments
      (((analyze options program).table.formals id).drop 1) := by
  have length := length_formals isMember isMethod
  have present : id.isAbsent = false := by
    rw [Bool.eq_false_iff]
    intro absent
    rw [of_decide_eq_true absent, (analyze_isValid options program).kind_absent] at isMethod
    cases isMethod
  obtain ⟨_, span, callee, result, before, after, table, ran, clean⟩ := accepts
  rw [← table] at isMember isMethod length ⊢
  exact Check.applyMethod_fits ran clean present isMethod isMember length

theorem substitutes_of_conforms {own inherited : SymbolId}
    (conforms : (analyze options program).table.Conforms own inherited)
    (isOwn : (analyze options program).table.IsMember own)
    (ownMethod : ((analyze options program).table.symbol own).kind = .method)
    (isMember : (analyze options program).table.IsMember inherited)
    (isMethod : ((analyze options program).table.symbol inherited).kind = .method)
    (proper : Table.AreProper (((analyze options program).table.formals inherited).drop 1)) :
    (analyze options program).Substitutes own inherited where
  method := ownMethod
  type := conforms.type
  count := conforms.count
  params := conforms.fits
  widens := fun _ accepts =>
    (fits_of_accepts accepts isOwn ownMethod).trans conforms.fits
      (analyze_isDescending options program) accepts.1 conforms.proper
  narrows := fun noClass _ accepts =>
    have valid := analyze_isValid options program
    have reversed := Table.Fits.symm conforms.fits valid conforms.proper proper noClass
    (fits_of_accepts accepts isMember isMethod).trans reversed
      (analyze_isDescending options program) accepts.1 proper

variable {ancestor type : TypeId}

theorem exists_conforms (accepted : (analyze options program).errorCount = 0)
    (has : (analyze options program).table.HasType type)
    (isClass : (analyze options program).table.isClass type)
    (isAncestor : ancestor ∈ (analyze options program).table.lineage type) :
    ∀ id ∈ (analyze options program).table.methodsOf ancestor,
      ∃ own ∈ (analyze options program).table.methodsOf type,
        ((analyze options program).table.symbol own).name =
          ((analyze options program).table.symbol id).name ∧
        (analyze options program).table.Conforms own id := by
  have valid := analyze_isValid options program
  have descending := analyze_isDescending options program
  have isObject := (Table.kind_of_isClass isClass).1
  -- From a class to its parent: what stands for the method of the class stands for that of the
  -- parent, which is the same one or is overridden by it.
  refine (Table.lineage_induct descending
    (motive := fun ancestor => (analyze options program).table.isClass ancestor ∧
      ∀ id ∈ (analyze options program).table.methodsOf ancestor,
        ∃ own ∈ (analyze options program).table.methodsOf type,
          ((analyze options program).table.symbol own).name =
            ((analyze options program).table.symbol id).name ∧
          (analyze options program).table.Conforms own id)
    has isObject isAncestor ⟨isClass, fun id member => ?_⟩ ?_).2
  · obtain ⟨isMember, kind⟩ := Table.mem_methodsOf.mp member
    exact ⟨id, member, rfl, .refl ((analyze_isClosed has isClass).typed id isMember kind accepted)⟩
  · rintro child parent hasChild childObject isParent ⟨childClass, stands⟩
    refine ⟨(descending child hasChild childObject parent isParent).2, fun id member => ?_⟩
    have closed := analyze_isClosed hasChild childClass
    obtain ⟨inherited, kind⟩ := Table.mem_methodsOf.mp member
    obtain ⟨index, found⟩ := mem_iff_getElem?.mp inherited
    obtain ⟨between, isBetween, same | ⟨replaces, conforms⟩⟩ :=
      closed.parent parent isParent index id found
    · subst same
      exact stands between (Table.mem_methodsOf.mpr ⟨mem_of_getElem? isBetween, kind⟩)
    · obtain ⟨own, isOwn, name, ownConforms⟩ := stands between
        (Table.mem_methodsOf.mpr ⟨mem_of_getElem? isBetween, replaces.own.2⟩)
      exact ⟨own, isOwn, name.trans replaces.name,
        ownConforms.trans (conforms accepted) valid descending⟩

/-- In an accepted program the member of a class with the name of a method of an ancestor is a
method that may run in its place. -/
theorem exists_substitutes (accepted : (analyze options program).errorCount = 0)
    (isClass : type ∈ (analyze options program).classes)
    (isAncestor : ancestor ∈ (analyze options program).table.lineage type)
    (isMethod : id ∈ (analyze options program).table.methodsOf ancestor) :
    ∃ own, (analyze options program).table.member? type
        ((analyze options program).table.symbol id).name = some own ∧
      (analyze options program).Substitutes own id := by
  obtain ⟨has, isClass⟩ := isClass_of_mem_classes isClass
  have isObject := (Table.kind_of_isClass isClass).1
  obtain ⟨hasAncestor, which⟩ := Table.isClass_of_mem_lineage
    (analyze_isDescending options program) has isObject isAncestor
  have ancestorClass : (analyze options program).table.isClass ancestor := by
    rcases which with rfl | ancestorClass
    · exact isClass
    · exact ancestorClass
  have closed := analyze_isClosed has isClass
  have ancestorClosed := analyze_isClosed hasAncestor ancestorClass
  obtain ⟨own, isOwn, name, conforms⟩ := exists_conforms accepted has isClass isAncestor id isMethod
  obtain ⟨ownMember, ownKind⟩ := Table.mem_methodsOf.mp isOwn
  obtain ⟨member, kind⟩ := Table.mem_methodsOf.mp isMethod
  refine ⟨own, name ▸ closed.member?_eq ownMember, ?_⟩
  exact substitutes_of_conforms conforms (closed.members own ownMember) ownKind
    (ancestorClosed.members id member) kind (ancestorClosed.typed id member kind accepted)

theorem exists_substitutes_narrowing :
    (analyze {} narrowing).errorCount = 0 ∧
      ∃ type ∈ (analyze {} narrowing).classes,
        ∃ ancestor ∈ (analyze {} narrowing).table.lineage type, ancestor ≠ type ∧
          ∃ id ∈ (analyze {} narrowing).table.methodsOf ancestor,
            ∃ own, (analyze {} narrowing).table.member? type
                ((analyze {} narrowing).table.symbol id).name = some own ∧
              (analyze {} narrowing).Substitutes own id := by
  have accepted : (analyze {} narrowing).errorCount = 0 := by decide +kernel
  obtain ⟨type, isClass, ancestor, isAncestor, different, id, isMethod⟩ :
      ∃ type ∈ (analyze {} narrowing).classes,
        ∃ ancestor ∈ (analyze {} narrowing).table.lineage type, ancestor ≠ type ∧
          ∃ id ∈ (analyze {} narrowing).table.methodsOf ancestor, True := by decide +kernel
  exact ⟨accepted, type, isClass, ancestor, isAncestor, different, id, isMethod.1,
    exists_substitutes accepted isClass isAncestor isMethod.1⟩

/-- An object of the upper class is accepted for its method, and it does not fit the parameter of
the method that runs for an object of the lower class. -/
theorem not_fits_narrowing :
    (analyze {} narrowing).errorCount = 0 ∧
      ∃ type ∈ (analyze {} narrowing).classes,
        ∃ ancestor ∈ (analyze {} narrowing).table.lineage type, ancestor ≠ type ∧
          ∃ id ∈ (analyze {} narrowing).table.methodsOf ancestor, ∃ own,
            (analyze {} narrowing).table.member? type
              ((analyze {} narrowing).table.symbol id).name = some own ∧
            (analyze {} narrowing).Accepts id
              (((analyze {} narrowing).table.formals id).drop 1) ∧
            ¬ (analyze {} narrowing).table.Fits
              (((analyze {} narrowing).table.formals id).drop 1)
              (((analyze {} narrowing).table.formals own).drop 1) := by
  refine ⟨by decide +kernel, ⟨8⟩, by decide +kernel, ⟨6⟩, by decide +kernel, by decide +kernel,
    ⟨14⟩, by decide +kernel, ⟨19⟩, by decide +kernel, ?_, by decide +kernel⟩
  have has : ∀ argument ∈ ((analyze {} narrowing).table.formals ⟨14⟩).drop 1,
      (analyze {} narrowing).table.HasType argument := by
    unfold Table.HasType
    decide +kernel
  have clean : ((Check.applyMethod default (.name ⟨0, default⟩ ⟨"meet", default⟩) ⟨14⟩
      (((analyze {} narrowing).table.formals ⟨14⟩).drop 1)).run
      { options := {}, table := (analyze {} narrowing).table, owner := some ⟨⟨6⟩, 2⟩ }).2.IsClean :=
    by decide +kernel
  generalize analyze {} narrowing = analysis at has clean ⊢
  exact accepts_of_run default _ has _ rfl clean

end Analysis
end MicroJava
