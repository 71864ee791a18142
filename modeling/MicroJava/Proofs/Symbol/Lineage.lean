import MicroJava.Proofs.Symbol.Growth
import MicroJava.Symbol.Assignable

/-!
# Lineages and assignability

A class comes after the class it extends.  So a lineage ends, it is the lineage of the parent
with one more class, and it does not change when more types are entered.
-/

namespace MicroJava

variable {type ancestor source target : TypeId} {table : Table}

namespace Table

/-- Classes come after the classes that they extend. -/
def IsDescending (table : Table) : Prop :=
  ∀ type, table.HasType type → table.kind type = .object → ∀ parent,
    (table.desc type).parent = some parent → parent.index < type.index ∧ table.isClass parent

theorem isDescending_initial : initial.IsDescending := by
  intro type _ _ parent isParent
  have orphans : ∀ desc ∈ initial.types, desc.parent = none := by decide
  rw [orphans _ (isValid_initial.desc_mem type)] at isParent
  cases isParent

theorem desc_of_types {early late : Table} (types : late.types = early.types) (type : TypeId) :
    late.desc type = early.desc type := by
  rw [desc, desc, typeRow, typeRow, types]

theorem IsDescending.of_types {early late : Table} (descending : early.IsDescending)
    (types : late.types = early.types) :
    late.IsDescending := by
  intro type has kind parent isParent
  rw [HasType, types] at has
  rw [Table.kind, desc_of_types types] at kind
  rw [desc_of_types types] at isParent
  rw [isClass, Table.kind, desc_of_types types]
  exact descending type has kind parent isParent

theorem kind_of_isClass (isClass : table.isClass type) :
    table.kind type = .object ∧ type ≠ .null := by
  simpa [Table.isClass] using isClass

theorem mem_lineage_self (table : Table) (type : TypeId) : type ∈ table.lineage type := by
  rw [lineage, lineageWithin]
  exact List.mem_cons_self

/-- From a class, parent by parent, these classes are met, and the last one has no parent. -/
inductive Climbs (table : Table) : TypeId → List TypeId → Prop
  | top
      {type : TypeId}
      (orphan : (table.desc type).parent = none) : Climbs table type [type]
  | step
      {type parent : TypeId}
      {path : List TypeId}
      (isParent : (table.desc type).parent = some parent)
      (climbs : Climbs table parent path) : Climbs table type (type :: path)

section Descending

variable (descending : table.IsDescending)
include descending

variable (has : table.HasType type)
include has

theorem IsDescending.hasType {parent : TypeId} (kind : table.kind type = .object)
    (isParent : (table.desc type).parent = some parent) :
    table.HasType parent :=
  Nat.lt_trans (descending type has kind parent isParent).1 has

theorem lineageWithin_eq {depth more : Nat} (kind : table.kind type = .object)
    (enough : type.index < depth) (enoughMore : type.index < more) :
    table.lineageWithin depth type = table.lineageWithin more type := by
  induction depth generalizing more type with
  | zero => exact absurd enough (Nat.not_lt_zero _)
  | succ depth ih =>
    obtain ⟨more, rfl⟩ := Nat.exists_eq_add_of_lt enoughMore
    rw [lineageWithin, lineageWithin]
    cases isParent : (table.desc type).parent with
    | none => rfl
    | some parent =>
      obtain ⟨before, isClass⟩ := descending type has kind parent isParent
      refine congrArg (type :: ·) (ih (descending.hasType has kind isParent)
        (kind_of_isClass isClass).1 ?_ ?_) <;> omega

theorem lineage_eq (kind : table.kind type = .object) :
    table.lineage type = type :: (match (table.desc type).parent with
      | none => []
      | some parent => table.lineage parent) := by
  rw [lineage, lineageWithin]
  cases isParent : (table.desc type).parent with
  | none => rfl
  | some parent =>
    have hasParent := descending.hasType has kind isParent
    obtain ⟨_, isClass⟩ := descending type has kind parent isParent
    refine congrArg (type :: ·) (lineageWithin_eq descending hasParent
      (kind_of_isClass isClass).1 hasParent ?_)
    exact Nat.lt_succ_of_lt hasParent

theorem lineage_induct {motive : TypeId → Prop} (kind : table.kind type = .object)
    (member : ancestor ∈ table.lineage type) (start : motive type)
    (step : ∀ child parent, table.HasType child → table.kind child = .object →
      (table.desc child).parent = some parent → motive child → motive parent) :
    motive ancestor := by
  -- The induction is on the positions of the classes, which get smaller.
  induction index : type.index using Nat.strongRecOn generalizing type with
  | ind index ih =>
    rw [lineage_eq descending has kind] at member
    rcases List.mem_cons.mp member with rfl | member
    · exact start
    · cases isParent : (table.desc type).parent with
      | none => simp [isParent] at member
      | some parent =>
        simp only [isParent] at member
        obtain ⟨before, isClass⟩ := descending type has kind parent isParent
        exact ih parent.index (by omega) (descending.hasType has kind isParent)
          (kind_of_isClass isClass).1 member (step type parent has kind isParent start) rfl

theorem isClass_of_mem_lineage (kind : table.kind type = .object)
    (member : ancestor ∈ table.lineage type) :
    table.HasType ancestor ∧ (ancestor = type ∨ table.isClass ancestor) :=
  lineage_induct (motive := fun ancestor => table.HasType ancestor ∧
      (ancestor = type ∨ table.isClass ancestor)) descending has kind member ⟨has, .inl rfl⟩
    fun child parent hasChild kindChild isParent _ =>
      ⟨descending.hasType hasChild kindChild isParent,
        .inr (descending child hasChild kindChild parent isParent).2⟩

theorem lineage_subset (kind : table.kind type = .object) (member : ancestor ∈ table.lineage type) :
    table.lineage ancestor ⊆ table.lineage type := by
  refine lineage_induct descending has kind member (motive := fun ancestor =>
    table.lineage ancestor ⊆ table.lineage type) (List.Subset.refl _) ?_
  intro child parent hasChild kindChild isParent subset
  refine List.Subset.trans ?_ subset
  rw [lineage_eq descending hasChild kindChild, isParent]
  exact List.subset_cons_self _ _

theorem index_le_of_mem_lineage (kind : table.kind type = .object)
    (member : ancestor ∈ table.lineage type) :
    ancestor.index ≤ type.index :=
  lineage_induct (motive := fun ancestor => ancestor.index ≤ type.index) descending has kind member
    (Nat.le_refl _) fun child parent hasChild kindChild isParent before =>
      Nat.le_trans (Nat.le_of_lt (descending child hasChild kindChild parent isParent).1) before

theorem lineage_climbs (kind : table.kind type = .object) :
    table.Climbs type (table.lineage type) := by
  induction index : type.index using Nat.strongRecOn generalizing type with
  | ind index ih =>
    rw [lineage_eq descending has kind]
    cases isParent : (table.desc type).parent with
    | none => exact .top isParent
    | some parent =>
      obtain ⟨before, isClass⟩ := descending type has kind parent isParent
      exact .step isParent (ih parent.index (by omega) (descending.hasType has kind isParent)
        (kind_of_isClass isClass).1 rfl)

theorem lineage_nodup (kind : table.kind type = .object) : (table.lineage type).Nodup := by
  induction index : type.index using Nat.strongRecOn generalizing type with
  | ind index ih =>
    rw [lineage_eq descending has kind]
    cases isParent : (table.desc type).parent with
    | none => exact List.pairwise_singleton _ type
    | some parent =>
      obtain ⟨before, isClass⟩ := descending type has kind parent isParent
      have hasParent := descending.hasType has kind isParent
      have parentKind := (kind_of_isClass isClass).1
      refine List.nodup_cons.mpr ⟨fun member => ?_,
        ih parent.index (by omega) hasParent parentKind rfl⟩
      have notAfter := index_le_of_mem_lineage descending hasParent parentKind member
      omega

end Descending

/-! ## Growth -/

section Growth

variable {early late : Table} (grows : early.Grows late) (descending : early.IsDescending)
include grows

theorem Grows.parent (has : early.HasType type) :
    (late.desc type).parent = (early.desc type).parent := by
  change (late.desc type).bare.parent = (early.desc type).bare.parent
  rw [grows.bare_desc type has]

include descending

theorem lineageWithin_grows (depth : Nat) (has : early.HasType type)
    (kind : early.kind type = .object) :
    late.lineageWithin depth type = early.lineageWithin depth type := by
  induction depth generalizing type with
  | zero => rfl
  | succ depth ih =>
    rw [lineageWithin, lineageWithin, grows.parent has]
    cases isParent : (early.desc type).parent with
    | none => rfl
    | some parent =>
      have isClass := (descending type has kind parent isParent).2
      exact congrArg (type :: ·)
        (ih (descending.hasType has kind isParent) (kind_of_isClass isClass).1)

theorem lineage_grows (has : early.HasType type) (kind : early.kind type = .object) :
    late.lineage type = early.lineage type := by
  rw [lineage, lineageWithin_grows grows descending _ has kind, lineage]
  exact lineageWithin_eq descending has kind
    (Nat.lt_succ_of_lt (grows.hasType has)) (Nat.lt_succ_of_lt has)

theorem assignable_grows (has : early.HasType source) (hasTarget : early.HasType target) :
    late.assignable source target = early.assignable source target := by
  have elements : (late.desc source).element = (early.desc source).element :=
    TypeDesc.element_eq_of_bare (grows.bare_desc source has)
  have targetElements : (late.desc target).element = (early.desc target).element :=
    TypeDesc.element_eq_of_bare (grows.bare_desc target hasTarget)
  rw [assignable, assignable, grows.kind has, grows.kind hasTarget, elements, targetElements]
  split_ifs
  · rfl
  · split
    next kind _ => rw [isAncestor, isAncestor, lineage_grows grows descending has kind]
    all_goals rfl

end Growth

/-! ## Chains -/

theorem IsValid.element_ne_none (valid : table.IsValid) (proper : type.IsProper)
    (array : table.kind type = .array) :
    (table.desc type).element ≠ .none := by
  have isProper := (valid.isProper_element proper array).1
  rwa [element, if_pos array] at isProper

theorem IsValid.eq_of_element {first second : TypeId} (valid : table.IsValid)
    (has : table.HasType first) (hasSecond : table.HasType second)
    (array : table.kind first = .array) (secondArray : table.kind second = .array)
    (same : (table.desc first).element = (table.desc second).element) :
    first = second := by
  obtain ⟨index⟩ := first
  obtain ⟨secondIndex⟩ := second
  exact congrArg TypeId.mk (valid.shared index secondIndex _ _ (getElem?_of_hasType has)
    (getElem?_of_hasType hasSecond) array secondArray same)

theorem assignable_iff :
    table.assignable source target ↔ source = target ∨ source = .none ∨ target = .none ∨
      table.kind source = .object ∧ table.kind target = .object ∧
        (source = .null ∨ target ∈ table.lineage source) ∨
      table.kind source = .object ∧ table.kind target = .array ∧ source = .null ∨
      table.kind source = .array ∧ table.kind target = .array ∧
        ((table.desc target).element = .none ∨
          (table.desc source).element = (table.desc target).element) := by
  rw [assignable]
  split_ifs with trivial
  · simp only [Bool.or_eq_true, decide_eq_true_eq] at trivial
    tauto
  · simp only [Bool.or_eq_true, decide_eq_true_eq, not_or] at trivial
    obtain ⟨⟨different, some⟩, someTarget⟩ := trivial
    simp only [different, some, someTarget, false_or]
    split <;> simp_all [isAncestor]

theorem assignable_refl (type : TypeId) : table.assignable type type :=
  assignable_iff.mpr (.inl rfl)

theorem eq_null_of_mem_lineage (descending : table.IsDescending) (has : table.HasType type)
    (kind : table.kind type = .object) (member : .null ∈ table.lineage type) :
    type = .null := by
  rcases (isClass_of_mem_lineage descending has kind member).2 with same | isClass
  · exact same.symm
  · exact absurd rfl (kind_of_isClass isClass).2

/-- What fits a type that fits a third one fits the third one. -/
theorem assignable_trans {middle : TypeId} (descending : table.IsDescending)
    (has : table.HasType source) (present : middle ≠ .none) (fits : table.assignable source middle)
    (fitsTarget : table.assignable middle target) :
    table.assignable source target := by
  rw [assignable_iff] at fits fitsTarget ⊢
  rcases fitsTarget with rfl | none | none | fitsTarget
  · exact fits
  · exact absurd none present
  · exact .inr (.inr (.inl none))
  rcases fits with rfl | none | none | ⟨kind, middleKind, above⟩ | ⟨kind, middleKind, null⟩ |
      ⟨kind, middleKind, elements⟩
  · exact .inr (.inr (.inr fitsTarget))
  · exact .inr (.inl none)
  · exact absurd none present
  · -- An object may be seen as one of an ancestor of an ancestor.
    rcases fitsTarget with ⟨_, targetKind, aboveTarget⟩ | ⟨_, targetKind, null⟩ | ⟨array, _⟩
    · refine .inr (.inr (.inr (.inl ⟨kind, targetKind, ?_⟩)))
      rcases above with null | member
      · exact .inl null
      · rcases aboveTarget with rfl | memberTarget
        · exact .inl (eq_null_of_mem_lineage descending has kind member)
        · exact .inr (lineage_subset descending has kind member memberTarget)
    · refine .inr (.inr (.inr (.inr (.inl ⟨kind, targetKind, ?_⟩))))
      rcases above with null | member
      · exact null
      · exact eq_null_of_mem_lineage descending has kind (null ▸ member)
    · rw [middleKind] at array
      cases array
  · rcases fitsTarget with ⟨object, _⟩ | ⟨object, _⟩ | ⟨_, targetKind, _⟩
    · rw [middleKind] at object
      cases object
    · rw [middleKind] at object
      cases object
    · exact .inr (.inr (.inr (.inr (.inl ⟨kind, targetKind, null⟩))))
  · rcases fitsTarget with ⟨object, _⟩ | ⟨object, _⟩ | ⟨_, targetKind, targetElements⟩
    · rw [middleKind] at object
      cases object
    · rw [middleKind] at object
      cases object
    · refine .inr (.inr (.inr (.inr (.inr ⟨kind, targetKind, ?_⟩))))
      rcases targetElements with none | same
      · exact .inl none
      · exact elements.imp (same.symm.trans ·) (·.trans same)

theorem assignable_antisymm (valid : table.IsValid) (descending : table.IsDescending)
    (has : table.HasType source) (hasTarget : table.HasType target) (present : source ≠ .none)
    (presentTarget : target ≠ .none) (fits : table.assignable source target)
    (fitsBack : table.assignable target source) :
    source = target := by
  rw [assignable_iff] at fits fitsBack
  rcases fits with same | none | none | ⟨kind, targetKind, above⟩ | ⟨kind, targetKind, _⟩ |
      ⟨kind, targetKind, elements⟩
  · exact same
  · exact absurd none present
  · exact absurd none presentTarget
  all_goals simp only [kind, targetKind, present, presentTarget, reduceCtorEq, true_and,
    false_and, false_or, or_false] at fitsBack
  · rcases fitsBack with same | back
    · exact same.symm
    -- A class is not above a class that is above it.
    rcases above with rfl | above <;> rcases back with rfl | back
    · rfl
    · exact (eq_null_of_mem_lineage descending hasTarget targetKind back).symm
    · exact eq_null_of_mem_lineage descending has kind above
    · obtain ⟨index⟩ := source
      obtain ⟨targetIndex⟩ := target
      exact congrArg TypeId.mk (Nat.le_antisymm
        (index_le_of_mem_lineage descending hasTarget targetKind back)
        (index_le_of_mem_lineage descending has kind above))
  · exact fitsBack.symm
  · rcases fitsBack with same | back
    · exact same.symm
    refine valid.eq_of_element has hasTarget kind targetKind ?_
    rcases elements with none | same
    · exact back.elim (·.trans none.symm) Eq.symm
    · exact same

end Table
end MicroJava
