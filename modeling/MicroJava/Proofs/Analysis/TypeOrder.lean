import MicroJava.Proofs.Analysis.Members

/-!
# The order of types

Whatever is reported about a program, the classes above a class are a finite chain of
different classes without the type of the null reference, and there is one array type for each
type of elements.
-/

namespace MicroJava
namespace Table

/-- The type is in use, and it is not that of a mistake. -/
def IsPresent (table : Table) (type : TypeId) : Prop := table.HasType type ∧ type ≠ .none

/-- The types of a table are ordered by what may be assigned. -/
structure OrdersTypes (table : Table) : Prop where
  /-- From a class, parent by parent, the classes of its lineage are met, and then nothing. -/
  climbs : ∀ type, table.isClass type → table.Climbs type (table.lineage type)
  /-- No class is met twice. -/
  nodup : ∀ type, table.isClass type → (table.lineage type).Nodup
  /-- The type of the null reference is not met. -/
  null : ∀ type, table.isClass type → .null ∉ table.lineage type
  /-- There is one array type for each type of elements. -/
  arrays : ∀ first second, table.HasType first → table.HasType second →
    table.kind first = .array → table.kind second = .array →
    (table.desc first).element = (table.desc second).element → first = second
  /-- Every type fits itself. -/
  refl : ∀ type, table.IsPresent type → table.assignable type type
  /-- Types that fit each other are the same. -/
  antisymm : ∀ source target, table.IsPresent source → table.IsPresent target →
    table.assignable source target → table.assignable target source → source = target
  /-- What fits a type that fits a third one fits the third one. -/
  trans : ∀ source middle target, table.IsPresent source → table.IsPresent middle →
    table.IsPresent target → table.assignable source middle → table.assignable middle target →
    table.assignable source target
  /-- Values may be compared if one fits the type of the other. -/
  comparable : ∀ left right,
    table.comparable left right ↔ table.assignable left right ∨ table.assignable right left

theorem IsValid.hasType_of_isClass {table : Table} {type : TypeId} (valid : table.IsValid)
    (isClass : table.isClass type) :
    table.HasType type := by
  by_contra unused
  have kind := (kind_of_isClass isClass).1
  rw [Table.kind, desc_of_not_hasType unused] at kind
  exact absurd (valid.kind_none.symm.trans kind) (by decide)

theorem ordersTypes {table : Table} (valid : table.IsValid) (descending : table.IsDescending) :
    table.OrdersTypes where
  climbs type isClass :=
    lineage_climbs descending (valid.hasType_of_isClass isClass) (kind_of_isClass isClass).1
  nodup type isClass :=
    lineage_nodup descending (valid.hasType_of_isClass isClass) (kind_of_isClass isClass).1
  null type isClass member :=
    (kind_of_isClass isClass).2 (eq_null_of_mem_lineage descending
      (valid.hasType_of_isClass isClass) (kind_of_isClass isClass).1 member)
  arrays _ _ has hasSecond array secondArray same :=
    valid.eq_of_element has hasSecond array secondArray same
  refl type _ := assignable_refl type
  antisymm _ _ present presentTarget fits fitsBack :=
    assignable_antisymm valid descending present.1 presentTarget.1 present.2 presentTarget.2 fits
      fitsBack
  trans _ _ _ present presentMiddle _ fits fitsTarget :=
    assignable_trans descending present.1 presentMiddle.2 fits fitsTarget
  comparable left right := by rw [comparable, Bool.or_eq_true]

end Table

namespace Analysis

/-- Whatever is reported about a program, its types are ordered by what may be assigned. -/
theorem analyze_ordersTypes (options : Options) (program : Program) :
    (analyze options program).table.OrdersTypes :=
  Table.ordersTypes (analyze_isValid options program) (analyze_isDescending options program)

end Analysis
end MicroJava
