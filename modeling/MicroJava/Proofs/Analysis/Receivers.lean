import MicroJava.Proofs.Analysis.Allocation
import MicroJava.Proofs.Analysis.Objects

/-!
# Receivers that are not written

A field or a method of an object can be named without the object.  In a program without
violations such a name stands in an instance method of a class that has the member, and the
object is the receiver of that method.
-/

namespace MicroJava

namespace Analysis

variable {options : Options} {program : Program} {part : DeclUnit}

/-- A class has a member, or one of its ancestors has it. -/
def HasMember (analysis : Analysis) (type : TypeId) (id : SymbolId) : Prop :=
  ∃ upper ∈ analysis.table.lineage type, id ∈ (analysis.table.desc upper).members

/-- The first slot of the frame of a method is for its receiver, an object of a class. -/
structure Receives (analysis : Analysis) (method : MethodDecl) (type : TypeId) : Prop where
  notStatic : method.isStatic = false
  receiver : ∃ id this, analysis.notes.symbol? method.node.id = some id ∧
    (analysis.table.symbol id).isVirtual ∧ 0 < (analysis.table.symbol id).paramCount ∧
    (analysis.table.symbol id).locals[0]? = some this ∧
    (analysis.table.symbol this).kind = .var ∧ (analysis.table.symbol this).name = "this" ∧
    (analysis.table.symbol this).type = type ∧ (analysis.table.symbol this).address = 0

/-- A unit is an instance method of a class that has a member, and so the receiver of the method
can be used together with the member. -/
structure Supplies (analysis : Analysis) (program : Program) (part : DeclUnit) (id : SymbolId)
    (type : TypeId) : Prop where
  /-- The class is around the unit. -/
  surrounds : analysis.Surrounds program part (some type)
  /-- No unit of the program itself is meant. -/
  notGlobal : ¬ analysis.Surrounds program part none
  /-- It is a class. -/
  isClass : analysis.table.HasType type ∧ analysis.table.isClass type
  /-- It has the member. -/
  member : analysis.HasMember type id
  /-- The unit is a method with a receiver. -/
  receives : ∃ method, part = .method method ∧ analysis.Receives method type

variable {analysis : Analysis} {id : SymbolId} {name : Ident} {node : Node}

theorem IsSound.exists_method (sound : analysis.IsSound program) (plain : program.IsPlain)
    (isUnit : part ∈ program.units) (isPart : .designator (.name node name) ∈ part.parts)
    (noted : analysis.notes.symbol? node.id = some id)
    (needs : (analysis.table.symbol id).NeedsObject) :
    ∃ method owner type, part = .method method ∧ method.isStatic = false ∧
      analysis.notes.symbol? method.node.id = some owner ∧
      (analysis.table.symbol owner).isVirtual ∧ 0 < (analysis.table.symbol owner).paramCount ∧
      analysis.Surrounds program part (some type) ∧ analysis.table.Lists type id := by
  have isCode : part.IsCode := by
    cases part with
    | type decl => cases isPart
    | init => trivial
    | method => trivial
  obtain ⟨earlier, later, split⟩ := List.append_of_mem isUnit
  obtain ⟨owner, fits⟩ := sound.fits earlier part later split isCode
  obtain ⟨around, surrounds, areNoted⟩ := fits.noted
  obtain ⟨isNoted, _⟩ := areNoted.areNoted _ isPart
  unfold Part.IsNoted Designator.IsNoted at isNoted
  obtain ⟨found, isFound, _, isReceiver, located⟩ := isNoted
  obtain rfl : id = found := Option.some.inj (noted.symm.trans isFound)
  have isVirtual : (analysis.table.symbol owner).isVirtual := isReceiver plain needs
  obtain ⟨type, rfl, lists⟩ := located needs
  cases part with
  | type decl => exact isCode.elim
  | init block => cases isVirtual.symm.trans fits.suits.2.2
  | method method =>
    obtain ⟨hasParam, notStatic⟩ := fits.suits isVirtual
    exact ⟨method, owner, type, rfl, notStatic, fits.owner, isVirtual, hasParam, surrounds, lists⟩

/-- In a program without violations, a field or a virtual method is named without an object only
in the instance methods of a class that has the member or inherits it. -/
theorem analyze_supplies (distinct : program.nodes.Nodup) (plain : program.IsPlain)
    (accepted : (analyze options program).errorCount = 0) (isUnit : part ∈ program.units)
    (isPart : .designator (.name node name) ∈ part.parts)
    (noted : (analyze options program).notes.symbol? node.id = some id)
    (needs : ((analyze options program).table.symbol id).NeedsObject) :
    ∃ type, (analyze options program).Supplies program part id type := by
  obtain ⟨method, owner, type, rfl, notStatic, isOwner, isVirtual, hasParam, surrounds, lists⟩ :=
    (analyze_isSound accepted distinct).exists_method plain isUnit isPart noted needs
  have hasType := lists.hasType
  have isClass := lists.isClass
  obtain ⟨decl, isDecl, isMember, isType⟩ := surrounds
  refine ⟨type, ⟨decl, isDecl, isMember, isType⟩, fun outside => outside decl isDecl isMember,
    ⟨hasType, isClass⟩, ?_, method, rfl, notStatic, ?_⟩
  · rcases lists.member with member | ⟨_, parent, isParent, member⟩
    · exact ⟨type, Table.mem_lineage_self _ _, member⟩
    · exact ⟨parent, (analyze_laysOut hasType isClass).parent parent isParent, member⟩
  · obtain ⟨_, other, seats, inside, _⟩ := exists_seats options distinct isUnit trivial
    rw [← inside decl isDecl isMember, isType] at seats
    obtain rfl : owner = other := Option.some.inj (isOwner.symm.trans seats.owner)
    obtain ⟨this, isThis, _, named, typed⟩ :=
      seats.exists_receiver (not_rejects accepted) notStatic
    rw [List.head?_eq_getElem?] at isThis
    obtain ⟨_, kind, _, address⟩ := seats.slots 0 this isThis
    exact ⟨owner, this, isOwner, isVirtual, hasParam, isThis, kind, named, typed, address⟩

/-- A part is a name that leads to a field. -/
def namesField (analysis : Analysis) : Part → Bool
  | .designator (.name node _) =>
      (analysis.notes.symbol? node.id).any fun id => (analysis.table.symbol id).kind = .field
  | _ => false

theorem exists_of_namesField {place : Part} (names : analysis.namesField place) :
    ∃ node name id, place = .designator (.name node name) ∧
      analysis.notes.symbol? node.id = some id ∧ (analysis.table.symbol id).NeedsObject := by
  unfold namesField at names
  split at names
  next node name =>
    obtain ⟨id, noted, isField⟩ := (Option.any_eq_true _ _).mp names
    exact ⟨node, name, id, rfl, noted, .inl (of_decide_eq_true isField)⟩
  · cases names

theorem analyze_supplies_stepping :
    stepping.nodes.Nodup ∧ stepping.IsPlain ∧ (analyze {} stepping).errorCount = 0 ∧
      ∃ part ∈ stepping.units, ∃ node name id, .designator (.name node name) ∈ part.parts ∧
        (analyze {} stepping).notes.symbol? node.id = some id ∧
        ((analyze {} stepping).table.symbol id).NeedsObject ∧
        ∃ type, (analyze {} stepping).Supplies stepping part id type := by
  obtain ⟨distinct, accepted⟩ := stepping_isAccepted
  obtain ⟨part, isUnit, place, isPart, names⟩ : ∃ part ∈ stepping.units,
      ∃ place ∈ part.parts, (analyze {} stepping).namesField place := by decide +kernel
  obtain ⟨node, name, id, rfl, noted, needs⟩ := exists_of_namesField names
  exact ⟨distinct, stepping_isPlain, accepted, part, isUnit, node, name, id, isPart, noted, needs,
    analyze_supplies distinct stepping_isPlain accepted isUnit isPart noted needs⟩

end Analysis
end MicroJava
