import MicroJava.Symbol.Table

/-!
# Assignability

A value fits a place of the same type.  Besides that the null reference fits
every class and array, an object fits a place of an ancestor class, and an array
fits the place that accepts every array.  No type fits and is fitted by
everything, so that one mistake is reported once.
-/

namespace MicroJava
namespace Table

/-- Whether a class is another one or extends it, directly or not. -/
def isAncestor (table : Table) (id ancestor : TypeId) : Bool :=
  (table.lineage id).contains ancestor

/-- Whether a value of type `source` may be stored in a place of type `target`. -/
def assignable (table : Table) (source target : TypeId) : Bool :=
  if source = target || source = .none || target = .none then
    true
  else
    match table.kind source, table.kind target with
    | .object, .object => source = .null || table.isAncestor source target
    | .object, .array => source = .null
    | .array, .array =>
        (table.desc target).element = .none ||
          (table.desc source).element = (table.desc target).element
    | _, _ => false

/-- Whether two values may be compared. -/
def comparable (table : Table) (left right : TypeId) : Bool :=
  table.assignable left right || table.assignable right left

end Table
end MicroJava
