import MicroJava.Proofs.Analysis.Enrolment

/-!
# Inherited members

The frame of a class starts with the members of the class it extends.
-/

namespace MicroJava

open List

variable {between : Checker} {context : ClassContext} {frame : Frame}
  {ids ours theirs : List SymbolId} {types : List TypeId} {name : String}
  {id inherited : SymbolId} {early late table : Table} {receiver result type : TypeId}
  {agreed stillAgreed : Prop}

/-! ## Fields -/

namespace Table

/-- The fields among symbols. -/
def fieldsOf (table : Table) (ids : List SymbolId) : List SymbolId :=
  ids.filter fun id => (table.symbol id).kind = .field

/-- Symbols have the addresses from a first one on. -/
def AreAddressed (table : Table) (first : Int) (ids : List SymbolId) : Prop :=
  ∀ (index : Nat) id, ids[index]? = some id → (table.symbol id).address = first + index

variable {first : Int}

theorem fieldsOf_append (table : Table) (ids more : List SymbolId) :
    table.fieldsOf (ids ++ more) = table.fieldsOf ids ++ table.fieldsOf more :=
  filter_append ..

theorem mem_fieldsOf :
    id ∈ table.fieldsOf ids ↔ id ∈ ids ∧ (table.symbol id).kind = .field := by
  rw [fieldsOf, mem_filter, decide_eq_true_iff]

theorem Grows.fieldsOf (grows : early.Grows late) (has : ∀ id ∈ ids, early.HasSymbol id) :
    late.fieldsOf ids = early.fieldsOf ids :=
  filter_congr fun id member => by rw [grows.symbol_kind (has id member)]

theorem AreAddressed.congr (addressed : early.AreAddressed first ids)
    (rows : ∀ id ∈ ids, late.symbol id = early.symbol id) :
    late.AreAddressed first ids := fun index id found => by
  rw [rows id (mem_of_getElem? found)]
  exact addressed index id found

theorem AreAddressed.append {more : List SymbolId} (addressed : table.AreAddressed first ids)
    (next : table.AreAddressed (first + ids.length) more) :
    table.AreAddressed first (ids ++ more) := by
  intro index id found
  rw [getElem?_append] at found
  split at found
  · exact addressed index id found
  · rw [next _ id found]
    omega

/-- The fields of a class follow the word for its dispatch table. -/
structure IsLaidOut (table : Table) (type : TypeId) : Prop where
  count : (table.desc type).fieldCount = (table.fieldsOf (table.desc type).members).length
  addresses : table.AreAddressed 1 (table.fieldsOf (table.desc type).members)

end Table

/-! ## Signatures -/

namespace Table

/-- A symbol that is found through objects of a class. -/
structure IsMember (table : Table) (id : SymbolId) : Prop where
  has : table.HasSymbol id
  level : (table.symbol id).level = 1
  kind : (table.symbol id).kind = .field ∨ (table.symbol id).kind = .method

/-- A method has the signature of an inherited one, or parameters that are more special. -/
structure Conforms (table : Table) (own inherited : SymbolId) : Prop where
  type : (table.symbol own).type = (table.symbol inherited).type
  count : (table.symbol own).paramCount = (table.symbol inherited).paramCount
  fits : List.Forall₂ (fun mine theirs => table.assignable mine theirs = true)
    ((table.formals own).drop 1) ((table.formals inherited).drop 1)
  proper : ∀ type ∈ (table.formals own).drop 1, type.IsProper ∧ type ≠ .null

/-- The parameters of a method have types, if all is agreed. -/
def IsTyped (table : Table) (agreed : Prop) (id : SymbolId) : Prop :=
  (table.symbol id).kind = .method → agreed →
    ∀ type ∈ (table.formals id).drop 1, type.IsProper ∧ type ≠ .null

/-- A method stands in the place of an inherited one. -/
structure Replaces (table : Table) (own inherited : SymbolId) : Prop where
  name : (table.symbol own).name = (table.symbol inherited).name
  own : table.IsMember own ∧ (table.symbol own).kind = .method
  inherited : table.IsMember inherited ∧ (table.symbol inherited).kind = .method

/-- The members of a class start with those of its parent or with methods in their places, which
have the same signatures if all is agreed. -/
def Continues (table : Table) (agreed : Prop) (theirs ours : List SymbolId) : Prop :=
  ∀ (index : Nat) id, theirs[index]? = some id → ∃ own, ours[index]? = some own ∧
    (own = id ∨ table.Replaces own id ∧ (agreed → table.Conforms own id))

/-- The class that a class extends has a member. -/
def Inherits (table : Table) (type : TypeId) (id : SymbolId) : Prop :=
  ∃ parent, (table.desc type).parent = some parent ∧ table.HasType parent ∧ parent ≠ type ∧
    id ∈ (table.desc parent).members

/-- A class whose members are known. -/
structure IsClosed (table : Table) (agreed : Prop) (type : TypeId) : Prop where
  pending : (table.desc type).pending = []
  members : ∀ id ∈ (table.desc type).members, table.IsMember id
  names : ((table.desc type).members.map fun id => (table.symbol id).name).Nodup
  typed : ∀ id ∈ (table.desc type).members, table.IsTyped agreed id
  parent : ∀ parent, (table.desc type).parent = some parent →
    table.Continues agreed (table.desc parent).members (table.desc type).members
  layout : table.IsLaidOut type

/-- Members of classes are kept as they are. -/
structure Carries (early late : Table) : Prop extends Grows early late where
  rows : ∀ id, early.IsMember id → late.symbol id = early.symbol id

variable {own : SymbolId}

theorem Grows.isMember (grows : early.Grows late) (isMember : early.IsMember own) :
    late.IsMember own :=
  ⟨grows.hasSymbol isMember.1, (grows.symbol_level isMember.1).trans isMember.2,
    (grows.symbol_kind isMember.1).symm ▸ isMember.3⟩

theorem Grows.replaces (grows : early.Grows late) (replaces : early.Replaces own inherited) :
    late.Replaces own inherited where
  name := by
    rw [grows.symbol_name replaces.own.1.1, grows.symbol_name replaces.inherited.1.1]
    exact replaces.name
  own := ⟨grows.isMember replaces.own.1,
    (grows.symbol_kind replaces.own.1.1).trans replaces.own.2⟩
  inherited := ⟨grows.isMember replaces.inherited.1,
    (grows.symbol_kind replaces.inherited.1.1).trans replaces.inherited.2⟩

theorem Grows.map_name (grows : early.Grows late) (has : ∀ id ∈ ids, early.HasSymbol id) :
    ids.map (fun id => (late.symbol id).name) = ids.map fun id => (early.symbol id).name :=
  map_congr_left fun id member => grows.symbol_name (has id member)

theorem Continues.refl (table : Table) (agreed : Prop) (ids : List SymbolId) :
    table.Continues agreed ids ids :=
  fun _ id found => ⟨id, found, .inl rfl⟩

theorem Continues.length_le (continues : table.Continues agreed theirs ours) :
    theirs.length ≤ ours.length := by
  by_contra longer
  obtain ⟨own, isOwn, _⟩ := continues ours.length _
    (getElem?_eq_getElem (Nat.lt_of_not_le longer))
  rw [getElem?_eq_none (Nat.le_refl _)] at isOwn
  cases isOwn

theorem Carries.isLaidOut (carries : early.Carries late) (layout : early.IsLaidOut type)
    (members : ∀ id ∈ (early.desc type).members, early.IsMember id)
    (desc : late.desc type = early.desc type) :
    late.IsLaidOut type := by
  have fields : late.fieldsOf (late.desc type).members =
      early.fieldsOf (early.desc type).members := by
    rw [desc, carries.fieldsOf fun id member => (members id member).1]
  refine ⟨by rw [fields, desc, layout.count], ?_⟩
  rw [fields]
  exact layout.addresses.congr fun id member =>
    carries.rows id (members id (mem_fieldsOf.mp member).1)

section Carrying

variable (carries : early.Carries late) (orderly : early.IsOrderly)
include carries orderly

theorem Carries.formals (isMember : early.IsMember own) :
    late.formals own = early.formals own := by
  rw [Table.formals, Table.formals, carries.rows own isMember]
  refine map_congr_left fun param member => carries.symbol_type ?_
  obtain ⟨index, found⟩ := mem_iff_getElem?.mp (mem_of_mem_take member)
  exact (orderly.locals own isMember.1 index param found).1

theorem Carries.isTyped (typed : early.IsTyped agreed own) (isMember : early.IsMember own)
    (agrees : stillAgreed → agreed) :
    late.IsTyped stillAgreed own := by
  intro isMethod agreed
  rw [carries.symbol_kind isMember.1] at isMethod
  rw [carries.formals orderly isMember]
  exact typed isMethod (agrees agreed)

variable (valid : early.IsValid) (descending : early.IsDescending)
include valid descending

theorem Carries.conforms (conforms : early.Conforms own inherited) (isMember : early.IsMember own)
    (isInherited : early.IsMember inherited) :
    late.Conforms own inherited where
  type := by
    rw [carries.rows own isMember, carries.rows inherited isInherited]
    exact conforms.type
  count := by
    rw [carries.rows own isMember, carries.rows inherited isInherited]
    exact conforms.count
  fits := by
    rw [carries.formals orderly isMember, carries.formals orderly isInherited]
    have used : ∀ id, ∀ type ∈ (early.formals id).drop 1, early.HasType type := by
      intro id type member
      obtain ⟨param, _, rfl⟩ := mem_map.mp (mem_of_mem_drop member)
      exact valid.hasType_symbol param
    rw [forall₂_iff_zip]
    refine ⟨conforms.fits.length_eq, fun {mine theirs} member => ?_⟩
    rw [assignable_grows carries.toGrows descending (used own mine (of_mem_zip member).1)
      (used inherited theirs (of_mem_zip member).2)]
    exact (forall₂_iff_zip.mp conforms.fits).2 member
  proper := by
    rw [carries.formals orderly isMember]
    exact conforms.proper

theorem Carries.continues (continues : early.Continues agreed theirs ours)
    (agrees : stillAgreed → agreed) :
    late.Continues stillAgreed theirs ours := by
  intro index id found
  obtain ⟨own, isOwn, same | ⟨replaces, conforms⟩⟩ := continues index id found
  · exact ⟨own, isOwn, .inl same⟩
  · exact ⟨own, isOwn, .inr ⟨carries.replaces replaces, fun agreed =>
      carries.conforms orderly valid descending (conforms (agrees agreed)) replaces.own.1
        replaces.inherited.1⟩⟩

theorem Carries.isClosed (closed : early.IsClosed agreed type)
    (desc : late.desc type = early.desc type)
    (parents : ∀ parent, (early.desc type).parent = some parent →
      (late.desc parent).members = (early.desc parent).members) (agrees : stillAgreed → agreed) :
    late.IsClosed stillAgreed type where
  pending := by rw [desc, closed.pending]
  members id member := by
    rw [desc] at member
    exact carries.isMember (closed.members id member)
  names := by
    rw [desc, carries.map_name fun id member => (closed.members id member).1]
    exact closed.names
  typed id member := by
    rw [desc] at member
    exact carries.isTyped orderly (closed.typed id member) (closed.members id member) agrees
  parent parent isParent := by
    rw [desc] at isParent
    rw [desc, parents parent isParent]
    exact carries.continues orderly valid descending (closed.parent parent isParent) agrees
  layout := carries.isLaidOut closed.layout closed.members desc

end Carrying
end Table

/-! ## Frames of classes -/

/-- The names of a frame lead to the members of a class. -/
structure Frame.IsListed (table : Table) (frame : Frame) : Prop where
  names : ∀ name id, frame.find? name = some id ↔
    id ∈ frame.order.toList ∧ (table.symbol id).name = name
  nodup : frame.order.toList.Nodup
  members : ∀ id ∈ frame.order.toList, table.IsMember id

namespace Frame.IsListed

variable {after : Frame}

theorem grows (listed : frame.IsListed early) (grows : early.Grows late) :
    frame.IsListed late where
  names name id := by
    rw [listed.names]
    refine and_congr_right fun member => ?_
    rw [grows.symbol_name (listed.members id member).1]
  nodup := listed.nodup
  members id member := grows.isMember (listed.members id member)

variable {old other : SymbolId}

theorem eq_of_name (listed : frame.IsListed table) (member : id ∈ frame.order.toList)
    (otherMember : other ∈ frame.order.toList)
    (same : (table.symbol id).name = (table.symbol other).name) :
    id = other :=
  Option.some.inj (((listed.names _ id).mpr ⟨member, same⟩).symm.trans
    ((listed.names _ other).mpr ⟨otherMember, rfl⟩))

theorem names_nodup (listed : frame.IsListed table) :
    (frame.order.toList.map fun id => (table.symbol id).name).Nodup :=
  List.Nodup.map_on (fun _ member _ otherMember same =>
    listed.eq_of_name member otherMember same) listed.nodup

theorem takes (listed : frame.IsListed table) (takes : frame.Takes name id after)
    (isMember : table.IsMember id) (named : (table.symbol id).name = name) :
    after.IsListed table := by
  have unnamed : ∀ other ∈ frame.order.toList, (table.symbol other).name ≠ name :=
    fun other member isName =>
      nomatch takes.free.symm.trans ((listed.names name other).mpr ⟨member, isName⟩)
  have fresh : id ∉ frame.order.toList := fun member => unnamed id member named
  have order : after.order.toList = frame.order.toList ++ [id] := by
    rw [takes.order, Array.toList_push]
  refine ⟨fun other otherId => ?_, ?_, ?_⟩
  · rw [takes.find, order, mem_append, mem_singleton]
    split_ifs with same
    · subst same
      constructor
      · rintro ⟨⟩
        exact ⟨.inr rfl, named⟩
      · rintro ⟨member | rfl, otherNamed⟩
        · exact absurd otherNamed (unnamed otherId member)
        · rfl
    · rw [listed.names]
      refine ⟨fun ⟨member, otherNamed⟩ => ⟨.inl member, otherNamed⟩, ?_⟩
      rintro ⟨member | rfl, otherNamed⟩
      · exact ⟨member, otherNamed⟩
      · exact absurd (named.symm.trans otherNamed) same
  · rw [order]
    exact nodup_append.mpr ⟨listed.nodup, nodup_singleton id, by
      rintro other member _ last rfl
      exact fresh (mem_singleton.mp last ▸ member)⟩
  · rw [order]
    intro other member
    rcases mem_append.mp member with member | member
    · exact listed.members other member
    · rw [mem_singleton.mp member]
      exact isMember

theorem mem_set_iff {order : List SymbolId} {index : Nat} (nodup : order.Nodup)
    (found : order[index]? = some old) :
    other ∈ order.set index id ↔ other = id ∨ other ∈ order ∧ other ≠ old := by
  obtain ⟨bound, rfl⟩ := List.getElem?_eq_some_iff.mp found
  constructor
  · intro member
    obtain ⟨position, isOther⟩ := mem_iff_getElem?.mp member
    rw [getElem?_set] at isOther
    split_ifs at isOther with same
    · exact .inl (Option.some.inj isOther).symm
    · refine .inr ⟨mem_of_getElem? isOther, ?_⟩
      rintro rfl
      exact same (nodup.getElem_inj_iff.mp (List.getElem?_eq_some_iff.mp isOther).2).symm
  · rintro (rfl | ⟨member, different⟩)
    · exact mem_set bound _
    · obtain ⟨position, isOther⟩ := mem_iff_getElem?.mp member
      refine mem_iff_getElem?.mpr ⟨position, ?_⟩
      rw [getElem?_set_ne, isOther]
      rintro rfl
      exact different (List.getElem?_eq_some_iff.mp isOther).2.symm

theorem rebind (listed : frame.IsListed table) (bound : frame.find? name = some old)
    (fresh : id ∉ frame.order.toList) (isMember : table.IsMember id)
    (named : (table.symbol id).name = name) :
    (frame.rebind name id).2.IsListed table ∧
      ∃ index, frame.order.toList[index]? = some old ∧
        (frame.rebind name id).2.order.toList = frame.order.toList.set index id := by
  obtain ⟨isOld, _⟩ := (listed.names name old).mp bound
  have order : (frame.rebind name id).2.order = replaceFirst frame.order old id :=
    order_rebind bound
  obtain ⟨index, found, changed⟩ :=
    (replaceFirst_cases frame.order old id).resolve_left fun missing =>
      missing.1 (Array.mem_toList_iff.mp isOld)
  rw [← order] at changed
  refine ⟨⟨fun other otherId => ?_, ?_, ?_⟩, index, found, changed⟩
  · rw [find?_rebind, changed, mem_set_iff listed.nodup found]
    split_ifs with same
    · subst same
      constructor
      · rintro ⟨⟩
        exact ⟨.inl rfl, named⟩
      · rintro ⟨rfl | ⟨member, different⟩, otherNamed⟩
        · rfl
        · have leads := (listed.names name otherId).mpr ⟨member, otherNamed⟩
          exact absurd (Option.some.inj (leads.symm.trans bound)) different
    · rw [listed.names]
      constructor
      · rintro ⟨member, otherNamed⟩
        refine ⟨.inr ⟨member, ?_⟩, otherNamed⟩
        rintro rfl
        exact same (((listed.names name otherId).mp bound).2.symm.trans otherNamed)
      · rintro ⟨rfl | ⟨member, _⟩, otherNamed⟩
        · exact absurd (named.symm.trans otherNamed) same
        · exact ⟨member, otherNamed⟩
  · exact nodup_order_rebind bound listed.nodup fun member =>
      fresh (Array.mem_toList_iff.mpr member)
  · intro other member
    rw [changed, mem_set_iff listed.nodup found] at member
    rcases member with rfl | ⟨member, _⟩
    · exact isMember
    · exact listed.members other member

theorem isListed_empty (table : Table) : ({} : Frame).IsListed table where
  names name id := by simp [find?]
  nodup := nodup_nil
  members := nofun

end Frame.IsListed

/-! ## Open classes -/

namespace Checker

/-- Steps in which at most one class, which is open, is changed. -/
structure Leaves (opened : Option TypeId) (before after : Checker) : Prop extends
    Retains before after where
  rows : ∀ id, before.table.HasSymbol id → after.table.symbol id = before.table.symbol id
  descs : ∀ type, before.table.HasType type → some type ≠ opened →
    after.table.desc type = before.table.desc type

/-- The classes of a state are closed, but perhaps for the last one. -/
structure IsSettled (opened : Option TypeId) (checker : Checker) : Prop where
  valid : checker.table.IsValid
  orderly : checker.table.IsOrderly
  filled : checker.table.IsFilled
  descending : checker.table.IsDescending
  last : ∀ type, opened = some type → ∀ other, checker.table.HasType other →
    checker.table.isClass other → other.index ≤ type.index
  closed : ∀ type, checker.table.HasType type → checker.table.isClass type →
    some type ≠ opened → checker.table.IsClosed checker.IsClean type
  classes : ∀ type ∈ checker.classes.toList, checker.table.HasType type ∧
    checker.table.isClass type

variable {opened : Option TypeId} {before after : Checker}

theorem Proceeds.leaves (proceeds : before.Proceeds none after) : before.Leaves opened after where
  toRetains := proceeds.toRetains
  rows id has := proceeds.rows id has nofun
  descs type has _ := proceeds.descs type has

namespace Leaves

theorem refl (checker : Checker) : checker.Leaves opened checker :=
  (Proceeds.refl checker).leaves

theorem trans {first second third : Checker} (leaves : first.Leaves opened second)
    (next : second.Leaves opened third) :
    first.Leaves opened third where
  toRetains := leaves.toRetains.trans next.toRetains
  rows id has := (next.rows id (leaves.grows.hasSymbol has)).trans (leaves.rows id has)
  descs type has other :=
    (next.descs type (leaves.grows.hasType has) other).trans (leaves.descs type has other)

theorem carries (leaves : before.Leaves opened after) : before.table.Carries after.table where
  toGrows := leaves.grows
  rows id isMember := leaves.rows id isMember.1

theorem isSettled (leaves : before.Leaves opened after) (settled : before.IsSettled opened) :
    after.IsSettled opened where
  valid := leaves.valid settled.valid
  orderly := leaves.orderly settled.orderly
  filled := leaves.filled settled.filled
  descending := leaves.isDescending settled.descending
  last type isOpen other has isClass := by
    obtain ⟨early, earlyClass⟩ := leaves.hasType_of_isClass has isClass
    exact settled.last type isOpen other early earlyClass
  closed type has isClass other := by
    obtain ⟨early, earlyClass⟩ := leaves.hasType_of_isClass has isClass
    refine leaves.carries.isClosed settled.orderly settled.valid settled.descending
      (settled.closed type early earlyClass other) (leaves.descs type early other) ?_
      leaves.tells.isClean
    intro parent isParent
    have kind := (Table.kind_of_isClass earlyClass).1
    obtain ⟨index, _⟩ := settled.descending type early kind parent isParent
    -- The class that is open comes after the parents of all others.
    refine congrArg TypeDesc.members (leaves.descs parent
      (settled.descending.hasType early kind isParent) fun isOpen => ?_)
    have late := settled.last parent isOpen.symm type early earlyClass
    omega
  classes type member := by
    rw [leaves.classes] at member
    obtain ⟨has, isClass⟩ := settled.classes type member
    exact ⟨leaves.grows.hasType has, (leaves.grows.isClass has).trans isClass⟩

theorem inherits (leaves : before.Leaves (some type) after) (has : before.table.HasType type)
    (inherits : before.table.Inherits type id) :
    after.table.Inherits type id := by
  obtain ⟨parent, isParent, hasParent, different, member⟩ := inherits
  refine ⟨parent, (leaves.grows.parent has).trans isParent, leaves.grows.hasType hasParent,
    different, ?_⟩
  rwa [leaves.descs parent hasParent fun same => different (Option.some.inj same)]

end Leaves

/-- The frame of a class is open, and its members continue those that are inherited. -/
structure IsOpen (type : TypeId) (theirs : List SymbolId) (checker : Checker) : Prop where
  settled : checker.IsSettled (some type)
  has : checker.table.HasType type
  isClass : checker.table.isClass type
  proper : type.IsProper
  frames : ∃ frame rest, checker.scopes.frames = frame :: rest ∧ rest.length = 2 ∧
    frame.IsListed checker.table ∧
    (∀ id ∈ frame.order.toList, checker.table.IsTyped checker.IsClean id) ∧
    checker.table.Continues checker.IsClean theirs frame.order.toList
  pending : ∀ id ∈ (checker.table.desc type).pending, id ∈ theirs ∧
    (checker.table.symbol id).kind = .method ∧ checker.table.Inherits type id
  members : ∀ id ∈ theirs, checker.table.IsMember id
  names : (theirs.map fun id => (checker.table.symbol id).name).Nodup
  guarded : checker.IsGuarded

namespace IsOpen

variable (isOpen : before.IsOpen type theirs)
include isOpen

theorem depth : before.scopes.depth = 3 := by
  obtain ⟨frame, rest, frames, length, _⟩ := isOpen.frames
  rw [Scopes.depth, frames, length_cons, length]

theorem isRegular (owner : before.owner = some context) (isType : context.type = type) :
    before.IsRegular where
  valid := isOpen.settled.valid
  orderly := isOpen.settled.orderly
  filled := isOpen.settled.filled
  depth := by rw [isOpen.depth, owner]; rfl
  owner other isOwner := by
    obtain rfl : context = other := Option.some.inj (owner.symm.trans isOwner)
    rw [isType]
    exact ⟨isOpen.has, fun id member => (isOpen.members id (isOpen.pending id member).1).1,
      isOpen.proper⟩

theorem advance (leaves : before.Leaves (some type) after)
    (frames : ∃ frame rest, after.scopes.frames = frame :: rest ∧ rest.length = 2 ∧
      frame.IsListed after.table ∧
      (∀ id ∈ frame.order.toList, after.table.IsTyped after.IsClean id) ∧
      after.table.Continues after.IsClean theirs frame.order.toList)
    (pending : (after.table.desc type).pending ⊆ (before.table.desc type).pending) :
    after.IsOpen type theirs where
  settled := leaves.isSettled isOpen.settled
  has := leaves.grows.hasType isOpen.has
  isClass := (leaves.grows.isClass isOpen.has).trans isOpen.isClass
  proper := isOpen.proper
  frames := frames
  pending id member := by
    obtain ⟨inherited, kind, inherits⟩ := isOpen.pending id (pending member)
    exact ⟨inherited, (leaves.grows.symbol_kind (isOpen.members id inherited).1).trans kind,
      leaves.inherits isOpen.has inherits⟩
  members id member := leaves.grows.isMember (isOpen.members id member)
  names := by
    rw [leaves.grows.map_name fun id member => (isOpen.members id member).1]
    exact isOpen.names
  guarded := leaves.guarded isOpen.guarded

theorem continues (leaves : before.Leaves (some type) after)
    (continues : before.table.Continues before.IsClean theirs ours) :
    after.table.Continues after.IsClean theirs ours :=
  leaves.carries.continues isOpen.settled.orderly isOpen.settled.valid isOpen.settled.descending
    continues leaves.tells.isClean

theorem typed (leaves : before.Leaves (some type) after) (listed : frame.IsListed before.table)
    (typed : ∀ id ∈ frame.order.toList, before.table.IsTyped before.IsClean id) :
    ∀ id ∈ frame.order.toList, after.table.IsTyped after.IsClean id :=
  fun id member => leaves.carries.isTyped isOpen.settled.orderly (typed id member)
    (listed.members id member) leaves.tells.isClean

theorem proceeds (proceeds : before.Proceeds none after) (scopes : after.scopes = before.scopes) :
    after.IsOpen type theirs := by
  obtain ⟨frame, rest, frames, length, listed, typed, continues⟩ := isOpen.frames
  refine isOpen.advance proceeds.leaves ⟨frame, rest, by rw [scopes, frames], length,
    listed.grows proceeds.grows, isOpen.typed proceeds.leaves listed typed,
    isOpen.continues proceeds.leaves continues⟩ ?_
  rw [proceeds.descs type isOpen.has]
  exact List.Subset.refl _

theorem introduces {outer : Bool} {kind : SymbolKind}
    (introduces : before.Introduces outer kind name result id between)
    (proceeds : between.Proceeds (some id) after) (scopes : after.scopes = between.scopes)
    (kinds : outer = false → kind = .field ∨ kind = .method)
    (params : kind = .method → after.IsClean →
      ∀ type ∈ (after.table.formals id).drop 1, type.IsProper ∧ type ≠ .null) :
    after.IsOpen type theirs := by
  have fresh : ¬ before.table.HasSymbol id :=
    introduces.fresh ▸ before.table.not_hasSymbol_nextSymbol
  have whole : before.Proceeds none after :=
    (introduces.proceeds.trans proceeds).forget fresh
  obtain ⟨frame, rest, frames, length, listed, typed, continues⟩ := isOpen.frames
  refine isOpen.advance whole.leaves ?_ (by rw [whole.descs type isOpen.has]; exact .refl _)
  have listedNow := listed.grows whole.grows
  have typedNow := isOpen.typed whole.leaves listed typed
  have continuesNow := isOpen.continues whole.leaves continues
  obtain ⟨inner, changed, outside, frame', framesBefore, framesAfter, position, takes⟩ :=
    introduces.takes
  rw [frames] at framesBefore
  cases outer with
  | true =>
    -- The frame of the class is the inner one.
    obtain ⟨top, rfl⟩ := length_eq_one_iff.mp position
    obtain ⟨rfl, rfl⟩ := List.cons.inj framesBefore
    refine ⟨frame, frame' :: outside, by rw [scopes, framesAfter]; rfl, length, listedNow,
      typedNow, continuesNow⟩
  | false =>
    obtain rfl := length_eq_zero_iff.mp position
    obtain ⟨rfl, rfl⟩ := List.cons.inj framesBefore
    obtain ⟨address, adds, _⟩ := introduces.adds
    have row : between.table.symbol id = { Symbol.declared kind name result 1 with
        address := address } := by
      rw [introduces.fresh, adds.symbol_new, isOpen.depth]
      rfl
    have isMember : between.table.IsMember id :=
      ⟨introduces.hasSymbol, by rw [row]; rfl, by rw [row]; exact kinds rfl⟩
    refine ⟨frame', rest, by rw [scopes, framesAfter]; rfl, length, ?_, fun other member => ?_, ?_⟩
    · refine listedNow.takes takes (proceeds.grows.isMember isMember) ?_
      rw [proceeds.grows.symbol_name introduces.hasSymbol, row]
      rfl
    · rw [takes.order, Array.toList_push, mem_append, mem_singleton] at member
      rcases member with member | rfl
      · exact typedNow other member
      · intro isMethod
        rw [proceeds.grows.symbol_kind introduces.hasSymbol, row] at isMethod
        exact params isMethod
    · intro index inherited found
      obtain ⟨own, isOwn, stands⟩ := continuesNow index inherited found
      refine ⟨own, ?_, stands⟩
      rw [takes.order, Array.toList_push, getElem?_append_left, isOwn]
      exact (List.getElem?_eq_some_iff.mp isOwn).1


end IsOpen

/-! ## Overriding -/

namespace Overrides

variable {formals : List Formal}
    (overrides : before.Overrides name result types inherited id between)
    (completes : between.Completes id formals after) (regular : before.IsRegular)
    (owner : before.owner = some context)
include overrides completes regular owner

theorem leaves : before.Leaves (some context.type) after where
  toRetains := (overrides.retains regular).trans completes.toRetains
  rows other has := by
    have hasNow := (overrides.retains regular).grows.hasSymbol has
    rw [completes.rows other hasNow, overrides.row has]
    rintro ⟨⟩
    exact before.table.not_hasSymbol_nextSymbol (overrides.fresh ▸ has)
  descs other has different := by
    have hasNow := (overrides.retains regular).grows.hasType has
    rw [completes.descs other hasNow, overrides.desc_of_ne regular owner has]
    exact fun same => different (congrArg some same)

theorem pending_eq :
    (after.table.desc context.type).pending =
      (before.table.desc context.type).pending.erase inherited := by
  have hasNow := (overrides.retains regular).grows.hasType (regular.owner context owner).1
  rw [completes.descs _ hasNow, overrides.desc_owner regular owner]

theorem replaces (isMember : before.table.IsMember inherited)
    (kind : (before.table.symbol inherited).kind = .method)
    (named : (before.table.symbol inherited).name = name) :
    after.table.Replaces id inherited := by
  have row := overrides.symbol_new
  have grows := completes.grows
  have hasId := overrides.hasSymbol
  have whole := (overrides.leaves completes regular owner).grows
  have isMethod : (after.table.symbol id).kind = .method := by
    rw [grows.symbol_kind hasId, row]
    rfl
  refine ⟨?_, ⟨⟨grows.hasSymbol hasId, ?_, .inr isMethod⟩, isMethod⟩, whole.isMember isMember, ?_⟩
  · rw [grows.symbol_name hasId, row, whole.symbol_name isMember.1, named]
    rfl
  · rw [grows.symbol_level hasId, row]
    rfl
  · rw [whole.symbol_kind isMember.1, kind]

theorem conforms (descending : before.table.IsDescending)
    (isMember : before.table.IsMember inherited)
    (kind : (before.table.symbol inherited).kind = .method)
    (used : ∀ type ∈ types, before.table.HasType type)
    (proper : ∀ type ∈ types, type.IsProper ∧ type ≠ .null)
    (declared : formals.map Formal.type = receiver :: types) (clean : after.IsClean) :
    after.table.Conforms id inherited := by
  have leaves := overrides.leaves completes regular owner
  have adds := addMethod_adds before.table name result 1
  obtain ⟨type, count, fits⟩ := Check.of_overrideProblem?_eq_none overrides.fits
  rw [adds.symbol_eq isMember.1] at type count fits
  have formals := (completes.formals clean).trans declared
  have filled := leaves.filled regular.filled
  have hasId : after.table.HasSymbol id := completes.grows.hasSymbol overrides.hasSymbol
  have isMethod : (after.table.symbol id).kind = .method := by
    rw [completes.grows.symbol_kind overrides.hasSymbol, overrides.symbol_new]
    rfl
  have ownCount : (after.table.symbol id).paramCount = types.length + 1 := by
    have length := congrArg List.length formals
    rw [Table.formals, length_map, length_take,
      Nat.min_eq_left (filled.params id hasId isMethod)] at length
    exact length
  have hasParam : ∀ param ∈ (before.table.symbol inherited).locals,
      before.table.HasSymbol param := fun param member => by
    obtain ⟨index, found⟩ := mem_iff_getElem?.mp member
    exact (regular.orderly.locals inherited isMember.1 index param found).1
  have inheritedFormals : (after.table.formals inherited).drop 1 =
      (((before.table.symbol inherited).locals.drop 1).map fun param =>
        (before.table.symbol param).type).take types.length := by
    rw [leaves.carries.formals regular.orderly isMember, Table.formals, count, ← map_take,
      ← map_drop, drop_take, Nat.add_sub_cancel]
  have sameTypes : ((before.table.symbol inherited).locals.drop 1).map (fun param =>
      ((before.table.addSymbol (.declared .method name result 1)).2.symbol param).type) =
        ((before.table.symbol inherited).locals.drop 1).map fun param =>
          (before.table.symbol param).type :=
    map_congr_left fun param member => by
      rw [adds.symbol_eq (hasParam param (mem_of_mem_drop member))]
  rw [sameTypes] at fits
  have fitsNow : ∀ entry ∈ types.zip (((before.table.symbol inherited).locals.drop 1).map
      fun param => (before.table.symbol param).type),
      after.table.assignable entry.1 entry.2 := by
    intro entry member
    obtain ⟨isOwn, isTheirs⟩ := of_mem_zip member
    have usedTheirs : before.table.HasType entry.2 := by
      obtain ⟨param, _, same⟩ := mem_map.mp isTheirs
      exact same ▸ regular.valid.hasType_symbol param
    have fitsThen := fits entry member
    rw [Table.assignable_grows adds.grows descending (used _ isOwn) usedTheirs]
      at fitsThen
    rw [Table.assignable_grows leaves.grows descending (used _ isOwn) usedTheirs]
    exact fitsThen
  refine ⟨?_, ?_, ?_, ?_⟩
  · rw [completes.grows.symbol_type overrides.hasSymbol, overrides.symbol_new,
      leaves.rows inherited isMember.1]
    exact type.symm
  · rw [ownCount, leaves.rows inherited isMember.1, count]
  · rw [formals, inheritedFormals, forall₂_iff_zip]
    refine ⟨?_, fun {mine theirs} member => ?_⟩
    · have enough := regular.filled.params inherited isMember.1 kind
      rw [drop_one, tail_cons, length_take, length_map, length_drop]
      omega
    · refine fitsNow (mine, theirs) (mem_of_mem_take (i := types.length) ?_)
      rwa [zip_eq_zipWith, take_zipWith, take_length]
  · rw [formals]
    exact proper

end Overrides

theorem IsOpen.overrides {formals : List Formal} (isOpen : before.IsOpen type theirs)
    (owner : before.owner = some context) (isType : context.type = type)
    (overrides : before.Overrides name result types inherited id between)
    (completes : between.Completes id formals after)
    (declared : formals.map Formal.type = receiver :: types)
    (typed : ∀ type ∈ types, before.table.HasType type ∧
      (before.IsClean → type.IsProper ∧ type ≠ .null)) :
    after.IsOpen type theirs := by
  have regular := isOpen.isRegular owner isType
  have leaves := overrides.leaves completes regular owner
  have pending := overrides.pending_eq completes regular owner
  rw [isType] at leaves pending
  obtain ⟨other, isOther, mayOverride, _⟩ := overrides.owner
  obtain rfl : context = other := Option.some.inj (owner.symm.trans isOther)
  rw [isType] at mayOverride
  obtain ⟨isTheirs, kind, _⟩ := isOpen.pending inherited mayOverride
  have isMember := isOpen.members inherited isTheirs
  obtain ⟨frame, rest, frames, length, listed, isTyped, continues⟩ := isOpen.frames
  obtain ⟨sameFrame, sameRest, framesBefore, bound, framesAfter⟩ := overrides.bound
  obtain ⟨rfl, rfl⟩ := List.cons.inj (frames.symm.trans framesBefore)
  obtain ⟨isListed, named⟩ := (listed.names name inherited).mp bound
  have replaces := overrides.replaces completes regular owner isMember kind named
  have conforms : after.IsClean → after.table.Conforms id inherited := fun clean =>
    overrides.conforms completes regular owner isOpen.settled.descending isMember kind
      (fun type member => (typed type member).1)
      (fun type member => (typed type member).2 (leaves.tells.isClean clean)) declared clean
  have fresh : id ∉ frame.order.toList := fun member =>
    before.table.not_hasSymbol_nextSymbol (overrides.fresh ▸ (listed.members id member).1)
  have nameNow : (after.table.symbol id).name = name := by
    rw [replaces.name, leaves.grows.symbol_name isMember.1, named]
  obtain ⟨listedNow, position, found, order⟩ :=
    (listed.grows leaves.grows).rebind bound fresh replaces.own.1 nameNow
  refine isOpen.advance leaves ⟨_, rest, by rw [completes.scopes, framesAfter], length, listedNow,
    fun other member => ?_, ?_⟩ (by rw [pending]; exact erase_subset)
  · rw [order, Frame.IsListed.mem_set_iff listed.nodup found] at member
    rcases member with rfl | ⟨member, _⟩
    · exact fun _ clean => (conforms clean).proper
    · exact isOpen.typed leaves listed isTyped other member
  intro index theirId isTheirId
  obtain ⟨own, isOwn, stands⟩ := isOpen.continues leaves continues index theirId isTheirId
  rw [order, getElem?_set]
  split_ifs with same inBounds
  · -- The inherited method stands at its own position.
    subst same
    obtain rfl : own = inherited := Option.some.inj (isOwn.symm.trans found)
    have isTheir : theirId ∈ theirs := mem_of_getElem? isTheirId
    have sameName : (before.table.symbol theirId).name = (before.table.symbol own).name := by
      rcases stands with rfl | ⟨replaced, _⟩
      · rfl
      · have same := replaced.name
        rw [leaves.grows.symbol_name isMember.1,
          leaves.grows.symbol_name (isOpen.members theirId isTheir).1] at same
        exact same.symm
    rw [inj_on_of_nodup_map isOpen.names isTheir isTheirs sameName]
    exact ⟨id, rfl, .inr ⟨replaces, conforms⟩⟩
  · exact absurd (List.getElem?_eq_some_iff.mp found).1 (same ▸ inBounds)
  · exact ⟨own, isOwn, stands⟩

end Checker

end MicroJava
