import MicroJava.Proofs.Analysis.Resolution

/-!
# Objects of any program

Whatever is reported about a program, the fields of a class have the words of its objects
behind the first one, and the fields of its parent come first.
-/

namespace MicroJava

open List

namespace Table

variable {table : Table} {type : TypeId}

theorem Continues.fieldsOf {agreed : Prop} {theirs ours : List SymbolId}
    (continues : table.Continues agreed theirs ours) :
    table.fieldsOf theirs <+: table.fieldsOf ours := by
  induction theirs generalizing ours with
  | nil => exact nil_prefix
  | cons id rest ih =>
    obtain ⟨own, isOwn, stands⟩ := continues 0 id rfl
    obtain ⟨more, rfl⟩ : ∃ more, ours = own :: more := by
      cases ours with
      | nil => cases isOwn
      | cons other more => exact ⟨more, by rw [Option.some.inj isOwn]⟩
    have later := ih fun index => continues (index + 1)
    rcases stands with rfl | ⟨replaces, _⟩
    · rw [Table.fieldsOf, Table.fieldsOf, filter_cons, filter_cons]
      split
      · exact prefix_cons_inj _ |>.mpr later
      · exact later
    · -- Only methods take the places of others.
      rw [Table.fieldsOf, Table.fieldsOf, filter_cons_of_neg, filter_cons_of_neg]
      · exact later
      · rw [replaces.own.2]
        decide
      · rw [replaces.inherited.2]
        decide

/-- The fields of a class have the words of its objects, and inherited ones come first. -/
structure LaysOut (table : Table) (type : TypeId) : Prop where
  /-- The fields have the words from one on, in the order of the members. -/
  addresses : (table.fieldsOf (table.desc type).members).map
      (fun id => (table.symbol id).address) =
    (List.range (table.desc type).fieldCount).map fun index : Nat => (index : Int) + 1
  /-- The parent is an ancestor. -/
  parent : ∀ parent, (table.desc type).parent = some parent → parent ∈ table.lineage type
  /-- The fields of an ancestor come first. -/
  inherited : ∀ ancestor ∈ table.lineage type,
    table.fieldsOf (table.desc ancestor).members <+: table.fieldsOf (table.desc type).members ∧
      (table.desc ancestor).fieldCount ≤ (table.desc type).fieldCount

theorem IsLaidOut.map_address (layout : table.IsLaidOut type) :
    (table.fieldsOf (table.desc type).members).map (fun id => (table.symbol id).address) =
      (List.range (table.desc type).fieldCount).map fun index : Nat => (index : Int) + 1 := by
  refine ext_getElem
    (by rw [length_map, length_map, length_range, layout.count])
    fun index inside _ => ?_
  rw [length_map] at inside
  rw [getElem_map, getElem_map, getElem_range,
    layout.addresses index _ (getElem?_eq_getElem inside), Int.add_comm]

theorem LaysOut.address_le {id : SymbolId} (laysOut : table.LaysOut type)
    (isField : id ∈ table.fieldsOf (table.desc type).members) :
    1 ≤ (table.symbol id).address ∧
      (table.symbol id).address ≤ (table.desc type).fieldCount := by
  have listed : (table.symbol id).address ∈
      (List.range (table.desc type).fieldCount).map fun index : Nat => (index : Int) + 1 :=
    laysOut.addresses ▸ mem_map_of_mem isField
  obtain ⟨index, inside, same⟩ := mem_map.mp listed
  rw [mem_range] at inside
  omega

end Table

theorem Designator.IsNoted.isLocated {setting : Setting} {designator : Designator} {id : SymbolId}
    (isNoted : designator.IsNoted setting) (valid : setting.table.IsValid)
    (noted : setting.notes.symbol? designator.id = some id) :
    setting.IsLocated (designator.home? setting.notes setting.table setting.around) id := by
  have absent : ∀ home, setting.IsLocated home .absent := fun _ needs =>
    absurd needs valid.not_needsObject_absent
  cases designator with
  | name node name | qualified node space name =>
    unfold Designator.IsNoted at isNoted
    obtain ⟨found, isFound, _, _, located⟩ := isNoted
    obtain rfl := Option.some.inj (isFound.symm.trans noted)
    exact located
  | element node base index =>
    unfold Designator.IsNoted at isNoted
    obtain ⟨_, _, array, found, _, isFound, isElement⟩ := isNoted
    obtain rfl := Option.some.inj (isFound.symm.trans noted)
    rw [Setting.IsElement] at isElement
    split_ifs at isElement
    · intro needs
      rcases Symbol.NeedsObject.kind needs with kind | kind <;>
        cases isElement.2.1.symm.trans kind
    · exact isElement.1 ▸ absent _
  | member node base name =>
    unfold Designator.IsNoted at isNoted
    obtain ⟨_, owner, found, isOwner, isFound, isMember⟩ := isNoted
    obtain rfl := Option.some.inj (isFound.symm.trans noted)
    rw [Setting.IsMember] at isMember
    split at isMember
    · rw [Designator.home?, isOwner, Option.getD_some]
      exact isMember.2.2.2
    · exact isMember.1 ▸ absent _

namespace Analysis

variable {options : Options} {program : Program}

theorem analyze_fieldsOf_prefix {type ancestor : TypeId}
    (has : (analyze options program).table.HasType type)
    (isClass : (analyze options program).table.isClass type)
    (member : ancestor ∈ (analyze options program).table.lineage type) :
    (analyze options program).table.HasType ancestor ∧
      (analyze options program).table.isClass ancestor ∧
      (analyze options program).table.fieldsOf
          ((analyze options program).table.desc ancestor).members <+:
        (analyze options program).table.fieldsOf
          ((analyze options program).table.desc type).members := by
  have descending := analyze_isDescending options program
  refine Table.lineage_induct descending has (Table.kind_of_isClass isClass).1 member
    (motive := fun ancestor => (analyze options program).table.HasType ancestor ∧
      (analyze options program).table.isClass ancestor ∧
      (analyze options program).table.fieldsOf
          ((analyze options program).table.desc ancestor).members <+:
        (analyze options program).table.fieldsOf
          ((analyze options program).table.desc type).members)
    ⟨has, isClass, prefix_rfl⟩ ?_
  intro child parent hasChild kindChild isParent known
  have closed := analyze_isClosed hasChild known.2.1
  exact ⟨descending.hasType hasChild kindChild isParent,
    (descending child hasChild kindChild parent isParent).2,
    (closed.parent parent isParent).fieldsOf.trans known.2.2⟩

theorem analyze_laysOut {type : TypeId} (has : (analyze options program).table.HasType type)
    (isClass : (analyze options program).table.isClass type) :
    (analyze options program).table.LaysOut type := by
  have layout := (analyze_isClosed has isClass).layout
  refine ⟨layout.map_address, fun parent isParent => ?_, fun ancestor member => ?_⟩
  · rw [Table.lineage_eq (analyze_isDescending options program) has
      (Table.kind_of_isClass isClass).1, isParent]
    exact mem_cons_of_mem _ (Table.mem_lineage_self _ parent)
  · obtain ⟨hasAncestor, ancestorClass, comesFirst⟩ := analyze_fieldsOf_prefix has isClass member
    refine ⟨comesFirst, ?_⟩
    rw [layout.count, (analyze_isClosed hasAncestor ancestorClass).layout.count]
    exact comesFirst.length_le

/-! ## Designators -/

/-- The class around a unit. -/
def Surrounds (analysis : Analysis) (program : Program) (part : DeclUnit) :
    Option TypeId → Prop
  | some type => ∃ decl, .type decl ∈ program.units ∧ part ∈ decl.memberUnits ∧
      analysis.notes.type? decl.node.id = some type
  | none => ∀ decl, .type decl ∈ program.units → part ∉ decl.memberUnits

/-- A designator leads to a field of a class, and the objects of all classes below have it. -/
structure Finds (analysis : Analysis) (around : Option TypeId) (designator : Designator)
    (id : SymbolId)
    (type : TypeId) : Prop where
  noted : analysis.notes.symbol? designator.id = some id
  kind : (analysis.table.symbol id).kind = .field
  home : designator.home? analysis.notes analysis.table around = some type
  isClass : analysis.table.HasType type ∧ analysis.table.isClass type
  member : id ∈ (analysis.table.desc type).members
  below : ∀ lower, analysis.table.HasType lower → analysis.table.isClass lower →
    type ∈ analysis.table.lineage lower → 1 ≤ (analysis.table.symbol id).address ∧
      (analysis.table.symbol id).address ≤ (analysis.table.desc lower).fieldCount

/-- All designators of a program that lead to fields find them in their classes. -/
def FindsFields (analysis : Analysis) (program : Program) : Prop :=
  ∀ part ∈ program.units, part.IsCode → ∃ around, analysis.Surrounds program part around ∧
    ∀ designator, .designator designator ∈ part.parts →
      ∃ id, analysis.notes.symbol? designator.id = some id ∧
        ((analysis.table.symbol id).kind = .field →
          ∃ type, analysis.Finds around designator id type)

theorem IsSound.exists_surrounds {analysis : Analysis} {part : DeclUnit}
    (sound : analysis.IsSound program) (isUnit : part ∈ program.units) (isCode : part.IsCode) :
    ∃ around, analysis.Surrounds program part around ∧
      ∀ designator, .designator designator ∈ part.parts →
        ∃ id, analysis.notes.symbol? designator.id = some id ∧
          ((analysis.table.symbol id).NeedsObject →
            ∃ type, designator.home? analysis.notes analysis.table around = some type ∧
              analysis.table.Lists type id) := by
  obtain ⟨earlier, later, split⟩ := append_of_mem isUnit
  obtain ⟨_, fits⟩ := sound.fits earlier part later split isCode
  obtain ⟨around, surrounds, areNoted⟩ := fits.noted
  refine ⟨around, surrounds, fun designator isPart => ?_⟩
  obtain ⟨isNoted, _⟩ := areNoted.areNoted _ isPart
  obtain ⟨id, noted⟩ := isNoted.exists_symbol
  exact ⟨id, noted, isNoted.isLocated sound.valid noted⟩

theorem analyze_findsFields (distinct : program.nodes.Nodup)
    (accepted : (analyze options program).errorCount = 0) :
    (analyze options program).FindsFields program := by
  intro part isUnit isCode
  obtain ⟨around, surrounds, located⟩ :=
    (analyze_isSound accepted distinct).exists_surrounds isUnit isCode
  refine ⟨around, surrounds, fun designator isPart => ?_⟩
  obtain ⟨id, noted, located⟩ := located designator isPart
  refine ⟨id, noted, fun kind => ?_⟩
  obtain ⟨type, home, lists⟩ := located (.inl kind)
  have member := lists.member.resolve_right fun inherited => by
    cases kind.symm.trans inherited.1
  refine ⟨type, noted, kind, home, ⟨lists.hasType, lists.isClass⟩, member,
    fun lower has lowerClass above => ?_⟩
  obtain ⟨_, _, comesFirst⟩ := analyze_fieldsOf_prefix has lowerClass above
  exact (analyze_laysOut has lowerClass).address_le
    (comesFirst.subset (Table.mem_fieldsOf.mpr ⟨member, kind⟩))

end Analysis
end MicroJava
