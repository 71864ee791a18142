import Mathlib.Algebra.GroupWithZero.Nat
import MicroJava.Proofs.Layout.Regions

/-!
# Places of dispatch tables

The dispatch tables of the classes follow each other in the global data, behind the global
variables, in the order of the classes.
-/

namespace MicroJava

open List Instruction

variable {analysis : Analysis} {done rest : List CodeUnit} {start : Nat} {program : Program}
  {id : SymbolId} {type : TypeId} {types : List TypeId}

/-- Dispatch tables that follow each other in the global data without gaps. -/
def Table.Reserves (table : Table) : Nat → List TypeId → Nat → Prop
  | start, [], stop => start = stop
  | start, type :: rest, stop =>
      (table.desc type).dispatch = some (start : Int) ∧
        table.Reserves (start + table.dispatchSize type) rest stop

namespace Table.Reserves

variable {table : Table} {stop : Nat} {classes : List TypeId}

variable (reserves : table.Reserves start classes stop)
include reserves

theorem start_le_stop : start ≤ stop := by
  induction classes generalizing start with
  | nil => exact Nat.le_of_eq reserves
  | cons type rest ih => exact Nat.le_trans (Nat.le_add_right _ _) (ih reserves.2)

theorem concat (here : (table.desc type).dispatch = some (stop : Int)) :
    table.Reserves start (classes ++ [type]) (stop + table.dispatchSize type) := by
  induction classes generalizing start with
  | nil =>
    obtain rfl : start = stop := reserves
    exact ⟨here, rfl⟩
  | cons first rest ih => exact ⟨reserves.1, ih reserves.2⟩

theorem congr {other : Table}
    (same : ∀ type ∈ classes, (other.desc type).dispatch = (table.desc type).dispatch ∧
      other.dispatchSize type = table.dispatchSize type) :
    other.Reserves start classes stop := by
  induction classes generalizing start with
  | nil => exact reserves
  | cons type rest ih =>
    obtain ⟨place, size⟩ := same type mem_cons_self
    refine ⟨place.trans reserves.1, ?_⟩
    rw [size]
    exact ih reserves.2 fun other member => same other (mem_cons_of_mem _ member)

theorem exists_of_mem (member : type ∈ classes) :
    ∃ slot : Nat, (table.desc type).dispatch = some (slot : Int) ∧
      slot + table.dispatchSize type ≤ stop := by
  induction classes generalizing start with
  | nil => cases member
  | cons first rest ih =>
    obtain ⟨here, later⟩ := reserves
    rcases mem_cons.mp member with rfl | inRest
    · exact ⟨start, here, later.start_le_stop⟩
    · exact ih later inRest

theorem stop_eq : stop = start + (classes.map table.dispatchSize).sum := by
  induction classes generalizing start with
  | nil => exact Eq.symm reserves
  | cons type rest ih =>
    rw [ih reserves.2, map_cons, sum_cons, Nat.add_assoc]

end Table.Reserves

namespace Table

theorem length_dispatchWords (table : Table) (methods : List SymbolId) :
    (table.dispatchWords methods).length =
      methods.foldr (fun id size => (table.symbol id).name.length + 2 + size) 0 + 1 := by
  induction methods with
  | nil => rfl
  | cons id rest ih =>
    rw [dispatchWords, length_append, length_map, length_cons, length_cons, ih,
      foldr_cons, String.length_toList]
    omega

theorem length_dispatchWords_methodsOf (table : Table) (type : TypeId) :
    (table.dispatchWords (table.methodsOf type)).length = table.dispatchSize type :=
  table.length_dispatchWords (table.methodsOf type)

end Table

namespace Layout

variable {layout : Layout} {part : CodeUnit}

/-- The classes of units. -/
def classes (analysis : Analysis) (units : List CodeUnit) : List TypeId :=
  units.filterMap (CodeUnit.class? analysis.notes)

theorem classes_append (first second : List CodeUnit) :
    classes analysis (first ++ second) = classes analysis first ++ classes analysis second :=
  filterMap_append

theorem globalCount_of (analysis : Analysis) (units : List CodeUnit) :
    (of analysis units).table.globalCount = analysis.table.globalCount := by
  induction units using List.reverseRecOn with
  | nil => rfl
  | append_singleton units part ih =>
    rw [of_concat, ← ih]
    match part with
    | .builtin _ => rfl
    | .declared (.type _) => rfl
    | .declared (.init _) => rfl
    | .declared (.method _) => rfl

theorem reserves_append (follows : layout.Follows analysis done) (valid : analysis.table.IsValid)
    (kind : (analysis.table.symbol id).kind = .method)
    (reserves : layout.table.Reserves start types layout.dataSize) (code : List Instruction) :
    (layout.append id code).table.Reserves start types (layout.append id code).dataSize := by
  have places : analysis.table.Places (layout.placed id) :=
    follows.places.updateSymbol valid kind layout.size
  refine reserves.congr fun type _ => ⟨rfl, ?_⟩
  rw [show (layout.append id code).table = layout.placed id from rfl, places.dispatchSize,
    follows.places.dispatchSize]

theorem reserves_reserve (follows : layout.Follows analysis done) (valid : analysis.table.IsValid)
    (has : analysis.table.HasType type) (others : ∀ other ∈ types, analysis.table.HasType other)
    (fresh : type ∉ types) (reserves : layout.table.Reserves start types layout.dataSize) :
    (layout.reserve type).table.Reserves start (types ++ [type])
      (layout.reserve type).dataSize := by
  have places : analysis.table.Places (layout.reserve type).table :=
    follows.places.updateType valid layout.dataSize
  have sizes : ∀ other, (layout.reserve type).table.dispatchSize other =
      layout.table.dispatchSize other := fun other => by
    rw [places.dispatchSize, follows.places.dispatchSize]
  have hasNow : ∀ other, analysis.table.HasType other → layout.table.HasType other :=
    fun other hasOther => by rw [Table.HasType, follows.places.types]; exact hasOther
  have kept : (layout.reserve type).table.Reserves start types layout.dataSize := by
    refine reserves.congr fun other member => ⟨?_, sizes other⟩
    have different : other ≠ type := fun same => fresh (same ▸ member)
    exact congrArg TypeDesc.dispatch (Table.desc_updateType_of_ne (hasNow type has)
      (hasNow other (others other member)) different _)
  have here : ((layout.reserve type).table.desc type).dispatch = some (layout.dataSize : Int) :=
    congrArg TypeDesc.dispatch (Table.desc_updateType_self (hasNow type has) _)
  have all := kept.concat here
  rwa [sizes] at all

end Layout

namespace Analysis.IsSound

variable (sound : analysis.IsSound program)
include sound

theorem classes_eq : Layout.classes analysis (analysis.units program) = analysis.classes := by
  rw [sound.classes, Layout.classes, Analysis.units, filterMap_append, filterMap_map,
    filterMap_map]
  have none : analysis.builtins.all.filterMap
      (CodeUnit.class? analysis.notes ∘ CodeUnit.builtin) = [] :=
    filterMap_eq_nil_iff.mpr fun _ _ => rfl
  rw [none, nil_append]
  rfl

theorem hasType_of_class (member : type ∈ Layout.classes analysis (analysis.units program)) :
    analysis.table.HasType type := by
  obtain ⟨part, isUnit, isClass⟩ := mem_filterMap.mp member
  cases sound.isKnown isUnit with
  | code id owner =>
    rw [Layout.owner?_of_class isClass] at owner
    cases owner
  | dispatch other isOther has =>
    obtain rfl := Option.some.inj (isOther.symm.trans isClass)
    exact has

theorem reserves (split : analysis.units program = done ++ rest) :
    (Layout.of analysis done).table.Reserves analysis.table.globalCount
      (Layout.classes analysis done) (Layout.of analysis done).dataSize := by
  induction done using List.reverseRecOn generalizing rest with
  | nil => exact rfl
  | append_singleton done part ih =>
    have whole := split
    rw [append_assoc] at split
    have follows := sound.follows split
    have member : part ∈ analysis.units program := by rw [split]; simp
    have before := ih split
    rw [Layout.of_concat]
    cases sound.isKnown member with
    | code id owner kind =>
      have none : part.class? analysis.notes = none := by
        by_contra some
        obtain ⟨type, isClass⟩ := Option.ne_none_iff_exists'.mp some
        rw [Layout.owner?_of_class isClass] at owner
        cases owner
      have same : Layout.classes analysis [part] = [] := filterMap_cons_none none
      rw [Layout.add_of_owner owner, Layout.classes_append, same, append_nil]
      exact Layout.reserves_append follows sound.valid kind before _
    | dispatch type isClass has =>
      have here : Layout.classes analysis [part] = [type] := filterMap_cons_some isClass
      rw [Layout.add_of_class isClass, Layout.classes_append, here]
      refine Layout.reserves_reserve follows sound.valid has (fun other inside => ?_) ?_ before
      · refine sound.hasType_of_class ?_
        rw [split, Layout.classes_append]
        exact mem_append_left _ inside
      · have distinct := sound.classesDistinct
        rw [← sound.classes_eq, whole, Layout.classes_append, Layout.classes_append, here]
          at distinct
        have front := nodup_append.mp (nodup_append.mp distinct).1
        exact fun inside => front.2.2 type inside type mem_cons_self rfl

theorem reserves_all :
    (analysis.layoutOf program).table.Reserves analysis.table.globalCount
      analysis.classes (analysis.layoutOf program).dataSize := by
  have all := sound.reserves (append_nil _).symm
  rwa [sound.classes_eq] at all

theorem classes_of_main {part : DeclUnit}
    (split : analysis.units program = done ++ .declared part :: rest)
    (owner : part.owner? analysis.notes = some id) (isMain : analysis.main = some id) :
    Layout.classes analysis (done ++ [.declared part]) = analysis.classes := by
  obtain ⟨earlier, later, splitUnits, _, rfl⟩ := split_units split
  have late := sound.split_le_of_main splitUnits owner isMain
  have none : Layout.classes analysis (later.map CodeUnit.declared) = [] := by
    refine filterMap_eq_nil_iff.mpr fun unit member => ?_
    obtain ⟨declared, inside, rfl⟩ := mem_map.mp member
    obtain ⟨before, behind, rfl⟩ := append_of_mem inside
    rw [← cons_append, ← append_assoc] at splitUnits
    have isMethod := Program.mem_methods_of_split splitUnits
      (Nat.le_trans late (by rw [length_append]; exact Nat.le_add_right _ _))
    obtain ⟨decl, _, rfl⟩ := mem_map.mp isMethod
    rfl
  rw [← sound.classes_eq, split, append_cons done _ (later.map _),
    Layout.classes_append (done ++ _), none, append_nil]

end Analysis.IsSound

namespace Analysis.Compiles

variable {region : Region} {body : Body}

theorem reserves (compiles : analysis.Compiles program region body)
    (sound : analysis.IsSound program) (isMain : analysis.main = some region.owner) :
    body.site.table.Reserves analysis.table.globalCount analysis.classes
      (analysis.layoutOf program).dataSize := by
  obtain ⟨done, rest, part, split, owner, site, _⟩ := compiles.site
  have table : (Layout.of analysis (done ++ [.declared part])).table = body.site.table := by
    rw [site, Layout.table_concat done (.declared part) owner]
  have reserves := sound.reserves (split.trans (append_cons ..))
  rw [sound.classes_of_main split owner isMain, table] at reserves
  -- Both ends are as far from the start as the tables are long.
  have all := sound.reserves_all
  have size := sound.followsAll.places.dispatchSize
  have places := compiles.sees.places
  rw [compiles.table] at places
  have ends : (Layout.of analysis (done ++ [.declared part])).dataSize =
      (analysis.layoutOf program).dataSize := by
    rw [reserves.stop_eq, all.stop_eq, funext size, funext places.dispatchSize]
  rwa [ends] at reserves

end Analysis.Compiles
end MicroJava
