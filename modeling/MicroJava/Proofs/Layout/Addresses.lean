import Mathlib.Data.List.Induction
import MicroJava.Proofs.Layout.Outcome

/-!
# Addresses

A unit with code changes nothing in the table but the address of its own symbol.  So the
layout of the first units of a program agrees with the layout of all of them on every address
that is known by then.
-/

namespace MicroJava

open List Instruction

variable {analysis : Analysis} {part : CodeUnit} {done rest : List CodeUnit} {early table : Table}
  {id : SymbolId} {start : Nat} {regions : List Region} {region : Region}

/-! ## Tables with addresses -/

namespace Table

theorem symbol_updateSymbol (nonempty : 0 < table.symbols.size) (id other : SymbolId)
    (change : Symbol → Symbol) :
    (table.updateSymbol id change).symbol other =
      if table.symbolRow id = table.symbolRow other then change (table.symbol other)
      else table.symbol other := by
  have row : (table.updateSymbol id change).symbolRow other = table.symbolRow other := by
    simp [symbolRow, updateSymbol]
  have inside : table.symbolRow other < table.symbols.size := by
    rw [symbolRow]
    split
    next has => exact has
    next => exact nonempty
  rw [symbol, symbol, row, Array.getD_eq_getD_getElem?, Array.getD_eq_getD_getElem?, updateSymbol,
    Array.getElem?_modify, Array.getElem?_eq_getElem inside]
  split <;> rfl

theorem desc_updateType (nonempty : 0 < table.types.size) (id other : TypeId)
    (change : TypeDesc → TypeDesc) :
    (table.updateType id change).desc other =
      if table.typeRow id = table.typeRow other then change (table.desc other)
      else table.desc other := by
  have row : (table.updateType id change).typeRow other = table.typeRow other := by
    simp [typeRow, updateType]
  have inside : table.typeRow other < table.types.size := by
    rw [typeRow]
    split
    next has => exact has
    next => exact nonempty
  rw [desc, desc, row, Array.getD_eq_getD_getElem?, Array.getD_eq_getD_getElem?, updateType,
    Array.getElem?_modify, Array.getElem?_eq_getElem inside]
  split <;> rfl

theorem IsValid.hasSymbol_of_method (valid : table.IsValid)
    (kind : (table.symbol id).kind = .method) :
    table.HasSymbol id := by
  by_contra outside
  have var := valid.kind_absent
  rw [symbol_of_not_hasSymbol outside, var] at kind
  cases kind

/-- The same symbols and types, but for the addresses of methods and the places of dispatch
tables. -/
structure Places (early late : Table) : Prop where
  symbols : late.symbols.size = early.symbols.size
  types : late.types.size = early.types.size
  symbol : ∀ id, late.symbol id =
    { early.symbol id with address := (late.symbol id).address }
  other : ∀ id, (early.symbol id).kind ≠ .method → late.symbol id = early.symbol id
  desc : ∀ type, late.desc type =
    { early.desc type with dispatch := (late.desc type).dispatch }

namespace Places

theorem refl (table : Table) : table.Places table :=
  ⟨rfl, rfl, fun _ => rfl, fun _ _ => rfl, fun _ => rfl⟩

variable {late : Table} (places : early.Places late)
include places

theorem kind (id : SymbolId) : (late.symbol id).kind = (early.symbol id).kind := by
  rw [places.symbol id]

theorem name (id : SymbolId) : (late.symbol id).name = (early.symbol id).name := by
  rw [places.symbol id]

theorem type (id : SymbolId) : (late.symbol id).type = (early.symbol id).type := by
  rw [places.symbol id]

theorem level (id : SymbolId) : (late.symbol id).level = (early.symbol id).level := by
  rw [places.symbol id]

theorem paramCount (id : SymbolId) :
    (late.symbol id).paramCount = (early.symbol id).paramCount := by
  rw [places.symbol id]

theorem locals (id : SymbolId) : (late.symbol id).locals = (early.symbol id).locals := by
  rw [places.symbol id]

theorem isVirtual (id : SymbolId) :
    (late.symbol id).isVirtual = (early.symbol id).isVirtual := by
  rw [Symbol.isVirtual, places.kind, places.level, Symbol.isVirtual]

theorem isGlobal (id : SymbolId) : (late.symbol id).isGlobal = (early.symbol id).isGlobal := by
  rw [Symbol.isGlobal, places.kind, places.level, Symbol.isGlobal]

theorem hasValue (id : SymbolId) : (late.symbol id).hasValue = (early.symbol id).hasValue := by
  rw [Symbol.hasValue, places.kind, Symbol.hasValue]

theorem isAssignable (id : SymbolId) :
    (late.symbol id).isAssignable = (early.symbol id).isAssignable := by
  rw [Symbol.isAssignable, places.kind, Symbol.isAssignable]

theorem hasSymbol_iff (id : SymbolId) : late.HasSymbol id ↔ early.HasSymbol id := by
  rw [HasSymbol, places.symbols, HasSymbol]

theorem members (type : TypeId) : (late.desc type).members = (early.desc type).members := by
  rw [places.desc type]

theorem fieldCount (type : TypeId) :
    (late.desc type).fieldCount = (early.desc type).fieldCount := by
  rw [places.desc type]

theorem element (type : TypeId) : late.element type = early.element type := by
  rw [Table.element, Table.kind, places.desc type]
  rfl

theorem methodsOf (type : TypeId) : late.methodsOf type = early.methodsOf type := by
  simp only [Table.methodsOf, places.members, places.kind]

theorem dispatchSize (type : TypeId) : late.dispatchSize type = early.dispatchSize type := by
  simp only [Table.dispatchSize, places.methodsOf, places.name]

theorem updateSymbol (valid : early.IsValid) (kind : (early.symbol id).kind = .method)
    (address : Int) :
    early.Places (late.updateSymbol id fun method => { method with address := address }) := by
  have nonempty : 0 < late.symbols.size := by
    rw [places.symbols]
    exact valid.hasSymbol_absent
  have row := late.symbol_updateSymbol nonempty id
  have has := valid.hasSymbol_of_method kind
  refine ⟨Array.size_modify.trans places.symbols, places.types, fun other => ?_,
    fun other notMethod => ?_, places.desc⟩
  · rw [row]
    split
    · rw [places.symbol other]
    · exact places.symbol other
  · rw [row, if_neg, places.other other notMethod]
    intro same
    have sameSymbol : late.symbol id = late.symbol other := by
      rw [Table.symbol, same, Table.symbol]
    rw [← places.kind, ← sameSymbol, places.kind] at notMethod
    exact notMethod kind

theorem updateType {type : TypeId} (valid : early.IsValid) (start : Int) :
    early.Places (late.updateType type fun desc => { desc with dispatch := some start }) := by
  have nonempty : 0 < late.types.size := by
    rw [places.types]
    exact Nat.lt_of_lt_of_le (by decide) valid.basic
  refine ⟨places.symbols, Array.size_modify.trans places.types, places.symbol, places.other,
    fun other => ?_⟩
  rw [late.desc_updateType nonempty type]
  split
  · rw [places.desc other]
  · exact places.desc other

omit places in
theorem between {first second : Table} (toFirst : early.Places first)
    (toSecond : early.Places second) :
    first.Places second where
  symbols := toSecond.symbols.trans toFirst.symbols.symm
  types := toSecond.types.trans toFirst.types.symm
  symbol id := by rw [toSecond.symbol id, toFirst.symbol id]
  other id kind := by
    rw [toFirst.kind] at kind
    rw [toSecond.other id kind, toFirst.other id kind]
  desc type := by rw [toSecond.desc type, toFirst.desc type]

end Places
end Table

/-! ## Units and their regions -/

namespace CodeUnit

/-- The symbol of a unit with code. -/
def owner? (notes : Annotations) : CodeUnit → Option SymbolId
  | builtin id => some id
  | declared part => part.owner? notes

/-- The type of a class. -/
def class? (notes : Annotations) : CodeUnit → Option TypeId
  | builtin _ => none
  | declared part => part.class? notes

end CodeUnit

namespace Region

/-- The first offset past a region. -/
def stop (region : Region) : Nat := region.start + totalSize region.code

/-- Regions that follow each other without gaps. -/
def Tile : Nat → List Region → Nat → Prop
  | start, [], stop => start = stop
  | start, region :: rest, stop => region.start = start ∧ Tile region.stop rest stop

theorem Tile.concat {stop : Nat} (tile : Tile start regions stop) (next : region.start = stop) :
    Tile start (regions ++ [region]) region.stop := by
  induction regions generalizing start with
  | nil => exact ⟨next.trans tile.symm, rfl⟩
  | cons first rest ih => exact ⟨tile.1, ih tile.2⟩

/-- A code that holds regions without gaps is one sequence of instructions. -/
theorem Tile.holds {stop : Nat} {code : Code} (tile : Tile start regions stop)
    (holds : ∀ region ∈ regions, code.Holds region.start region.code) :
    code.Holds start (regions.flatMap Region.code) ∧
      start + totalSize (regions.flatMap Region.code) = stop := by
  induction regions generalizing start with
  | nil => exact ⟨trivial, tile⟩
  | cons first rest ih =>
    obtain ⟨rfl, later⟩ := tile
    obtain ⟨restHolds, ends⟩ := ih later fun region member =>
      holds region (mem_cons_of_mem _ member)
    rw [flatMap_cons, totalSize_append, Code.holds_append, ← Nat.add_assoc]
    exact ⟨⟨holds first mem_cons_self, restHolds⟩, ends⟩

theorem Tile.starts {stop : Nat} (tile : Tile start regions stop) :
    starts start (regions.flatMap Region.code) =
      regions.flatMap fun region => starts region.start region.code := by
  induction regions generalizing start with
  | nil => rfl
  | cons first rest ih =>
    obtain ⟨rfl, later⟩ := tile
    rw [flatMap_cons, starts_append, flatMap_cons]
    exact congrArg _ (ih later)

end Region

namespace Layout

/-- The code of a unit with the given symbol after the units of a layout. -/
def code (analysis : Analysis) (layout : Layout) (owner : SymbolId) :
    CodeUnit → List Instruction
  | .builtin id => analysis.builtins.code id
  | .declared (.type _) => []
  | .declared (.init block) => (layout.site analysis.notes owner).initCode layout.size block
  | .declared (.method decl) =>
      (layout.site analysis.notes owner).methodCode analysis owner layout.size decl

variable {layout : Layout}

theorem add_of_owner (owner : part.owner? analysis.notes = some id) :
    layout.add analysis part = layout.append id (layout.code analysis id part) := by
  match part with
  | .builtin _ =>
    obtain rfl := Option.some.inj owner
    rfl
  | .declared (.type _) => cases owner
  | .declared (.init block) =>
    have isOwner : analysis.notes.symbol? block.node.id = some id := owner
    simp only [add, isOwner, Option.getD_some, code]
  | .declared (.method decl) =>
    have isOwner : analysis.notes.symbol? decl.node.id = some id := owner
    simp only [add, isOwner, Option.getD_some, code]

theorem add_of_class {type : TypeId} (isClass : part.class? analysis.notes = some type) :
    layout.add analysis part = layout.reserve type := by
  match part with
  | .builtin _ => cases isClass
  | .declared (.type decl) =>
    have isClass : analysis.notes.type? decl.node.id = some type := isClass
    rw [add, isClass, Option.getD_some]
  | .declared (.init _) => cases isClass
  | .declared (.method _) => cases isClass

theorem of_concat (units : List CodeUnit) (part : CodeUnit) :
    of analysis (units ++ [part]) = (of analysis units).add analysis part :=
  foldl_append

theorem table_concat (units : List CodeUnit) (part : CodeUnit)
    (owner : part.owner? analysis.notes = some id) :
    (of analysis (units ++ [part])).table = ((of analysis units).site analysis.notes id).table := by
  rw [of_concat, add_of_owner owner]
  rfl

/-- The layout after some units agrees with the table on everything but addresses, and methods
have the addresses of their regions. -/
structure Follows (analysis : Analysis) (done : List CodeUnit) (layout : Layout) : Prop where
  places : analysis.table.Places layout.table
  owners : layout.regions.map Region.owner = done.filterMap (CodeUnit.owner? analysis.notes)
  starts : ∀ region ∈ layout.regions,
    (layout.table.symbol region.owner).address = (region.start : Int)
  noAddress : ∀ id, (analysis.table.symbol id).kind = .method →
    id ∉ layout.regions.map Region.owner → (layout.table.symbol id).address = Symbol.noAddress
  tile : Region.Tile 0 layout.regions layout.size

/-- What the symbol or type of a unit is like. -/
inductive IsKnown (analysis : Analysis) (part : CodeUnit) : Prop
  | code (id : SymbolId) (owner : part.owner? analysis.notes = some id)
      (kind : (analysis.table.symbol id).kind = .method)
  | dispatch (type : TypeId) (isClass : part.class? analysis.notes = some type)
      (has : analysis.table.HasType type)

theorem owner?_of_class {type : TypeId} (isClass : part.class? analysis.notes = some type) :
    part.owner? analysis.notes = none := by
  match part with
  | .builtin _ => cases isClass
  | .declared (.type _) => rfl
  | .declared (.init _) => cases isClass
  | .declared (.method _) => cases isClass

namespace Follows

theorem initial (placed : analysis.table.IsPlaced) (valid : analysis.table.IsValid) :
    Follows analysis [] (initial analysis) where
  places := .refl _
  owners := rfl
  starts := fun _ member => nomatch member
  noAddress := fun id kind _ => placed.methods id (valid.hasSymbol_of_method kind) kind
  tile := rfl

variable (follows : layout.Follows analysis done)
include follows

theorem append (valid : analysis.table.IsValid) (owner : part.owner? analysis.notes = some id)
    (kind : (analysis.table.symbol id).kind = .method)
    (fresh : id ∉ done.filterMap (CodeUnit.owner? analysis.notes)) (code : List Instruction) :
    (layout.append id code).Follows analysis (done ++ [part]) := by
  have places : analysis.table.Places (layout.placed id) :=
    follows.places.updateSymbol valid kind layout.size
  have has : layout.table.HasSymbol id :=
    (follows.places.hasSymbol_iff id).mpr (valid.hasSymbol_of_method kind)
  have unchanged : ∀ other, (analysis.table.symbol other).kind = .method → other ≠ id →
      (layout.placed id).symbol other = layout.table.symbol other := by
    intro other isMethod different
    exact Table.symbol_updateSymbol_of_ne has
      ((follows.places.hasSymbol_iff other).mpr (valid.hasSymbol_of_method isMethod)) different _
  have here : ((layout.placed id).symbol id).address = (layout.size : Int) := by
    rw [placed, Table.symbol_updateSymbol_self has]
  rw [← follows.owners] at fresh
  refine ⟨places, ?_, fun region member => ?_, fun other isMethod outside => ?_, ?_⟩
  · rw [Layout.append, map_append, follows.owners, filterMap_append,
      filterMap_cons, owner]
    rfl
  · change ((layout.placed id).symbol region.owner).address = _
    rcases mem_append.mp member with old | new
    · have different : region.owner ≠ id := fun same =>
        fresh (same ▸ mem_map_of_mem old)
      by_cases isMethod : (analysis.table.symbol region.owner).kind = .method
      · rw [unchanged _ isMethod different]
        exact follows.starts region old
      · rw [places.other _ isMethod, ← follows.places.other _ isMethod]
        exact follows.starts region old
    · rw [mem_singleton.mp new]
      exact here
  · rw [Layout.append, map_append, mem_append, not_or] at outside
    have different : other ≠ id := fun same => outside.2 (by simp [same])
    change ((layout.placed id).symbol other).address = _
    rw [unchanged other isMethod different]
    exact follows.noAddress other isMethod outside.1
  · exact follows.tile.concat rfl

theorem reserve {type : TypeId} (valid : analysis.table.IsValid)
    (isClass : part.class? analysis.notes = some type) :
    (layout.reserve type).Follows analysis (done ++ [part]) where
  places := follows.places.updateType valid layout.dataSize
  owners := by
    rw [filterMap_append, filterMap_cons, owner?_of_class isClass]
    exact follows.owners.trans (append_nil _).symm
  starts := follows.starts
  noAddress := follows.noAddress
  tile := follows.tile

theorem add (valid : analysis.table.IsValid) (known : IsKnown analysis part)
    (distinct : ((done ++ [part]).filterMap (CodeUnit.owner? analysis.notes)).Nodup) :
    (layout.add analysis part).Follows analysis (done ++ [part]) := by
  cases known with
  | code id owner kind =>
    rw [add_of_owner owner]
    refine follows.append valid owner kind (fun member => ?_) _
    rw [filterMap_append, filterMap_cons, owner] at distinct
    exact (nodup_append.mp distinct).2.2 id member id mem_cons_self rfl
  | dispatch type isClass =>
    rw [add_of_class isClass]
    exact follows.reserve valid isClass

theorem exists_region (kind : (analysis.table.symbol id).kind = .method)
    (placed : 0 ≤ (layout.table.symbol id).address) :
    ∃ region ∈ layout.regions, region.owner = id := by
  by_contra none
  have outside : id ∉ layout.regions.map Region.owner := fun member => by
    obtain ⟨region, inside, same⟩ := mem_map.mp member
    exact none ⟨region, inside, same⟩
  rw [follows.noAddress id kind outside] at placed
  exact absurd placed (by decide)

end Follows

/-! ## The first units and all units -/

theorem of_append (units rest : List CodeUnit) :
    of analysis (units ++ rest) = rest.foldl (add analysis) (of analysis units) :=
  foldl_append

theorem regions_prefix_add (layout : Layout) (part : CodeUnit) :
    layout.regions <+: (layout.add analysis part).regions := by
  match part with
  | .builtin _ => exact prefix_append _ _
  | .declared (.type _) => exact prefix_refl _
  | .declared (.init _) => exact prefix_append _ _
  | .declared (.method _) => exact prefix_append _ _

theorem regions_prefix (units rest : List CodeUnit) :
    (of analysis units).regions <+: (of analysis (units ++ rest)).regions := by
  rw [of_append]
  generalize of analysis units = layout
  induction rest generalizing layout with
  | nil => exact prefix_refl _
  | cons part rest ih => exact (regions_prefix_add layout part).trans (ih _)

/-- A region is the code of a unit, laid out after the units before it. -/
def IsLaid (analysis : Analysis) (units : List CodeUnit) (region : Region) : Prop :=
  ∃ done part rest, units = done ++ part :: rest ∧
    part.owner? analysis.notes = some region.owner ∧
    (analysis.table.symbol region.owner).kind = .method ∧
    region.start = (of analysis done).size ∧
    region.code = (of analysis done).code analysis region.owner part

theorem isLaid_of_mem {units : List CodeUnit} (known : ∀ part ∈ units, IsKnown analysis part)
    (member : region ∈ (of analysis units).regions) :
    IsLaid analysis units region := by
  induction units using List.reverseRecOn with
  | nil => exact absurd member (by simp [of, initial])
  | append_singleton done part ih =>
    have early : region ∈ (of analysis done).regions →
        IsLaid analysis (done ++ [part]) region := fun old => by
      obtain ⟨first, unit, rest, split, found⟩ := ih
        (fun unit inside => known unit (mem_append_left _ inside)) old
      exact ⟨first, unit, rest ++ [part], by rw [split]; simp, found⟩
    rw [of_concat] at member
    cases known part (by simp) with
    | code id owner kind =>
      rw [add_of_owner owner] at member
      rcases mem_append.mp member with old | new
      · exact early old
      · rw [mem_singleton.mp new]
        exact ⟨done, part, [], rfl, owner, kind, rfl, rfl⟩
    | dispatch type isClass =>
      rw [add_of_class isClass] at member
      exact early member

end Layout

/-! ## Sound analyses -/

namespace Analysis.IsSound

variable {program : Program}

theorem isKnown (sound : analysis.IsSound program) (member : part ∈ analysis.units program) :
    Layout.IsKnown analysis part := by
  rcases mem_append.mp member with builtin | declared
  · obtain ⟨id, isBuiltin, rfl⟩ := mem_map.mp builtin
    exact .code id rfl (sound.builtins id isBuiltin).kind
  · obtain ⟨unit, isUnit, rfl⟩ := mem_map.mp declared
    obtain ⟨earlier, later, split⟩ := append_of_mem isUnit
    have code : unit.IsCode → Layout.IsKnown analysis (.declared unit) := fun isCode => by
      obtain ⟨id, fits⟩ := sound.fits earlier unit later split isCode
      exact .code id fits.owner fits.kind
    cases unit with
    | type decl =>
      obtain ⟨type, isClass, has⟩ := sound.types decl isUnit
      exact .dispatch type isClass has
    | init block => exact code trivial
    | method decl => exact code trivial

theorem owners_eq (analysis : Analysis) (program : Program) :
    (analysis.units program).filterMap (CodeUnit.owner? analysis.notes) =
      analysis.builtins.all ++ program.units.filterMap (DeclUnit.owner? analysis.notes) := by
  rw [Analysis.units, filterMap_append, filterMap_map, filterMap_map]
  congr 1

variable (sound : analysis.IsSound program)
include sound

theorem follows (split : analysis.units program = done ++ rest) :
    (Layout.of analysis done).Follows analysis done := by
  induction done using List.reverseRecOn generalizing rest with
  | nil => exact .initial sound.placed sound.valid
  | append_singleton done part ih =>
    rw [append_assoc] at split
    rw [Layout.of_concat]
    refine (ih split).add sound.valid (sound.isKnown (by rw [split]; simp)) ?_
    have distinct := sound.distinct
    rw [← owners_eq, split, ← append_assoc, filterMap_append] at distinct
    exact (nodup_append.mp distinct).1

theorem followsAll : (analysis.layoutOf program).Follows analysis (analysis.units program) :=
  sound.follows (append_nil _).symm

theorem exists_region (split : analysis.units program = done ++ rest)
    (kind : (analysis.table.symbol id).kind = .method)
    (placed : 0 ≤ ((Layout.of analysis done).table.symbol id).address) :
    ∃ region ∈ (analysis.layoutOf program).regions, region.owner = id ∧
      ((Layout.of analysis done).table.symbol id).address = (region.start : Int) := by
  have follows := sound.follows split
  obtain ⟨region, member, rfl⟩ := follows.exists_region kind placed
  refine ⟨region, ?_, rfl, follows.starts region member⟩
  rw [Analysis.layoutOf, split]
  exact (Layout.regions_prefix done rest).subset member

theorem exists_region_of_method (kind : (analysis.table.symbol id).kind = .method) :
    ∃ region ∈ (analysis.layoutOf program).regions, region.owner = id := by
  have follows := sound.followsAll
  have isOwner : id ∈ (analysis.units program).filterMap (CodeUnit.owner? analysis.notes) := by
    rw [owners_eq]
    rcases sound.code id (sound.valid.hasSymbol_of_method kind) kind with
      builtin | ⟨part, member, owner⟩
    · exact mem_append_left _ builtin
    · exact mem_append_right _ (mem_filterMap.mpr ⟨part, member, owner⟩)
  rw [← follows.owners] at isOwner
  exact mem_map.mp isOwner

end Analysis.IsSound
end MicroJava
