import MicroJava.Proofs.Analysis.Fields

/-!
# Records of units

Every method and every static initializer of a program gets a symbol of its own, whatever is
reported about it.  `Checker.Enlists` says so, and what is recorded of a unit stays when the
units after it are checked.
-/

namespace MicroJava

open List

variable {notes : Annotations} {after before between first second third checker : Checker}
  {part : DeclUnit} {earlier more units : List DeclUnit} {names : List Global}
  {around : Option TypeId} {place : Place} {fits weaker : Place → Prop} {rules : Rules}
  {id : SymbolId} {decl : ClassDecl}

/-! ## Later states -/

namespace Checker

/-- The members of a class, which are in its frame as long as it is open. -/
def membersOf (checker : Checker) (type : TypeId) : List SymbolId :=
  if checker.owner.map ClassContext.type = some type then checker.scopes.current
  else (checker.table.desc type).members

theorem membersOf_eq (noOwner : checker.owner = none) (type : TypeId) :
    checker.membersOf type = (checker.table.desc type).members := by
  rw [membersOf, noOwner, if_neg nofun]

/-- The class that a class extends is closed and has a member. -/
def Inherits (checker : Checker) (type : TypeId) (id : SymbolId) : Prop :=
  ∃ parent, (checker.table.desc type).parent = some parent ∧ checker.table.HasType parent ∧
    checker.owner.map ClassContext.type ≠ some parent ∧ id ∈ (checker.table.desc parent).members

/-- A class has a member. -/
structure Lists (checker : Checker) (type : TypeId) (id : SymbolId) : Prop where
  hasType : checker.table.HasType type
  isClass : checker.table.isClass type
  hasSymbol : checker.table.HasSymbol id
  member : id ∈ checker.membersOf type ∨
    (checker.table.symbol id).kind = .method ∧ checker.Inherits type id

/-- What is known stays known. -/
structure Succeeds (before after : Checker) : Prop where
  grows : before.table.Grows after.table
  rows : ∀ id, before.table.HasSymbol id → after.table.symbol id = before.table.symbol id
  lists : ∀ type id, before.Lists type id → after.Lists type id
  loopDepth : after.loopDepth = before.loopDepth
  tells : before.Tells after

theorem Lists.mono {type : TypeId} (lists : before.Lists type id)
    (grows : before.table.Grows after.table)
    (closed : ∀ other, before.table.HasType other →
      before.owner.map ClassContext.type ≠ some other →
      after.owner.map ClassContext.type ≠ some other ∧
        (after.table.desc other).members = (before.table.desc other).members)
    (opened : before.owner.map ClassContext.type = some type → id ∈ before.scopes.current →
      id ∈ after.membersOf type ∨
        (before.table.symbol id).kind = .method ∧ after.Inherits type id) :
    after.Lists type id where
  hasType := grows.hasType lists.hasType
  isClass := (grows.isClass lists.hasType).trans lists.isClass
  hasSymbol := grows.hasSymbol lists.hasSymbol
  member := by
    rw [grows.symbol_kind lists.hasSymbol]
    rcases lists.member with member | ⟨isMethod, parent, isParent, hasParent, isClosed, member⟩
    · rw [membersOf] at member
      split_ifs at member with isOpen
      · exact opened isOpen member
      · obtain ⟨notOpen, members⟩ := closed type lists.hasType isOpen
        exact .inl (by rwa [membersOf, if_neg notOpen, members])
    · obtain ⟨notOpen, members⟩ := closed parent hasParent isClosed
      exact .inr ⟨isMethod, parent, (grows.parent lists.hasType).trans isParent,
        grows.hasType hasParent, notOpen, members ▸ member⟩

namespace Succeeds

theorem refl (checker : Checker) : checker.Succeeds checker :=
  ⟨.refl _, fun _ _ => rfl, fun _ _ => id, rfl, .refl _⟩

theorem setSpace (checker : Checker) (space : Option String) :
    checker.Succeeds { checker with space := space } :=
  ⟨.refl _, fun _ _ => rfl, fun _ _ lists => lists.mono (.refl _)
    (fun _ _ isClosed => ⟨isClosed, rfl⟩) fun isOpen member => .inl (by
      rwa [membersOf, if_pos isOpen]), rfl, .refl _⟩

theorem trans (succeeds : first.Succeeds second) (next : second.Succeeds third) :
    first.Succeeds third where
  grows := succeeds.grows.trans next.grows
  rows id has := (next.rows id (succeeds.grows.hasSymbol has)).trans (succeeds.rows id has)
  lists type id lists := next.lists type id (succeeds.lists type id lists)
  loopDepth := next.loopDepth.trans succeeds.loopDepth
  tells := succeeds.tells.trans next.tells

end Succeeds

theorem Packs.succeeds {type : TypeId} {theirs : List SymbolId} (packs : before.Packs type after)
    (isOpen : before.IsOpen type theirs) (owner : before.owner.map ClassContext.type = some type) :
    before.Succeeds after where
  grows := packs.grows
  rows := packs.rows
  lists other id lists := by
    have sameOwner : after.owner = before.owner := congrArg Place.owner packs.place
    refine lists.mono packs.grows (fun other has isClosed => ?_) fun isOwner member => ?_
    · rw [sameOwner, packs.descs other has fun same => isClosed (owner.trans same.symm)]
      exact ⟨isClosed, rfl⟩
    · obtain rfl : type = other := Option.some.inj (owner.symm.trans isOwner)
      refine (packs.kept id member).imp (fun stays => ?_) fun overridden => ?_
      · rwa [membersOf, sameOwner, if_pos isOwner]
      · obtain ⟨_, isMethod, inherits⟩ := isOpen.pending id overridden
        obtain ⟨parent, isParent, hasParent, different, isMember⟩ :=
          packs.inherits isOpen.has inherits
        refine ⟨isMethod, parent, isParent, hasParent, fun same => different ?_, isMember⟩
        rw [sameOwner, owner] at same
        exact (Option.some.inj same).symm
  loopDepth := congrArg Place.loopDepth packs.place
  tells := packs.tells

theorem Proceeds.succeeds (proceeds : before.Proceeds none after) (noOwner : before.owner = none) :
    before.Succeeds after where
  grows := proceeds.grows
  rows id has := proceeds.rows id has nofun
  lists type id lists := by
    have sameOwner : after.owner = before.owner := congrArg Place.owner proceeds.place
    refine lists.mono proceeds.grows (fun other has isClosed => ?_) fun isOpen => ?_
    · rw [sameOwner, proceeds.descs other has]
      exact ⟨isClosed, rfl⟩
    · rw [noOwner] at isOpen
      cases isOpen
  loopDepth := congrArg Place.loopDepth proceeds.place
  tells := proceeds.tells

end Checker

/-! ## Units -/

/-- A unit has code: it is a method or a static initializer. -/
def DeclUnit.IsCode : DeclUnit → Prop
  | type _ => False
  | init _ => True
  | method _ => True

variable {α : Type}

theorem DeclUnit.IsCode.mark (isCode : part.IsCode) : part.mark = .symbol part.node.id := by
  cases part with
  | type => exact isCode.elim
  | init => rfl
  | method => rfl

theorem DeclUnit.isCode_of_owner? (owner : part.owner? notes = some id) : part.IsCode := by
  cases part with
  | type => cases owner
  | init => trivial
  | method => trivial

/-- The parameters that a unit declares. -/
def DeclUnit.Takes (around : Option TypeId) (formals : List Formal) : DeclUnit → Prop
  | type _ => False
  | init _ => formals = []
  | method decl => ∃ types, types.length = decl.params.length ∧
      formals = decl.formals (decl.receiver? around) types

theorem ClassDecl.type_notMem_memberUnits (decl other : ClassDecl) :
    .type other ∉ decl.memberUnits := by
  simp [memberUnits]

theorem ClassDecl.isCode_of_mem (isMember : part ∈ decl.memberUnits) : part.IsCode := by
  cases part with
  | type other => exact absurd isMember (decl.type_notMem_memberUnits other)
  | init => trivial
  | method => trivial

theorem Checker.checks_nil (checker : Checker) (loopDepth : Nat) : checker.Checks [] loopDepth :=
  ⟨{ checker with loopDepth := loopDepth, table := .initial }, _, rfl, Table.isValid_initial, rfl,
    .of_eq rfl⟩

namespace Checker

section

variable {other : Annotations}

variable (agrees : notes.AgreesAt other part.node.id)
include agrees

theorem owner?_eq : part.owner? notes = part.owner? other := by
  cases part with
  | type decl => rfl
  | init block => exact agrees.1
  | method decl => exact agrees.1

theorem class?_eq : part.class? notes = part.class? other := by
  cases part with
  | type decl => exact agrees.2
  | init block => rfl
  | method decl => rfl

theorem init?_eq : part.init? notes = part.init? other := by
  cases part with
  | type decl => rfl
  | init block => exact agrees.1
  | method decl => rfl

end

/-- What is recorded of a unit with code. -/
structure Holds (around : Option TypeId) (part : DeclUnit) (id : SymbolId)
    (checker : Checker) : Prop where
  owner : part.owner? checker.notes = some id
  has : checker.table.HasSymbol id
  kind : (checker.table.symbol id).kind = .method
  accepts : ∃ formals, part.Takes around formals ∧ checker.Accepts formals
    ((checker.table.symbol id).locals.take (checker.table.symbol id).paramCount)

namespace Holds

theorem keep (holds : before.Holds around part id) (grows : before.table.Grows after.table)
    (row : after.table.symbol id = before.table.symbol id) (tells : before.Tells after)
    (agrees : after.notes.AgreesAt before.notes part.node.id) :
    after.Holds around part id where
  owner := (owner?_eq agrees).trans holds.owner
  has := grows.hasSymbol holds.has
  kind := (grows.symbol_kind holds.has).trans holds.kind
  accepts := by
    obtain ⟨formals, takes, accepts⟩ := holds.accepts
    rw [row]
    exact ⟨formals, takes, accepts.mono grows tells⟩

end Holds

/-- What is visible in the bodies of methods. -/
structure IsAround (around : Option TypeId) (checker : Checker) : Prop where
  owner : checker.owner.map ClassContext.type = around
  frame : ∀ context, checker.owner = some context → context.frame = 2 ∧
    checker.table.HasType context.type ∧ checker.table.isClass context.type ∧
    ∃ frame rest, checker.scopes.frames = frame :: rest ∧ rest.length = 2 ∧
      ∀ name id, frame.find? name = some id →
        id ∈ frame.order.toList ∧ checker.table.IsMember id
  depth : checker.owner = none → checker.scopes.depth = 2
  guarded : checker.IsGuarded
  members : ∀ type, checker.table.HasType type → checker.table.isClass type →
    some type ≠ around → ∀ id ∈ (checker.table.desc type).members, checker.table.IsMember id

end Checker

/-! ## Accounts of units -/

/-- Entries are new, and no two of them are the same. -/
structure AreNew {α : Type} (was now : α → Prop) (entries : List α) : Prop where
  fresh : ∀ entry ∈ entries, ¬ was entry ∧ now entry
  distinct : entries.Nodup

theorem AreNew.nil (was now : α → Prop) : AreNew was now [] := ⟨nofun, nodup_nil⟩

theorem AreNew.append {first second third : α → Prop} {entries more : List α}
    (areNew : AreNew first second entries) (next : AreNew second third more)
    (early : ∀ entry, first entry → second entry) (late : ∀ entry, second entry → third entry) :
    AreNew first third (entries ++ more) where
  fresh := forall_mem_append.mpr
    ⟨fun entry member => (areNew.fresh entry member).imp_right (late entry),
      fun entry member => (next.fresh entry member).imp_left fun unknown was =>
        unknown (early entry was)⟩
  distinct := areNew.distinct.append next.distinct fun entry member again =>
    (next.fresh entry again).1 (areNew.fresh entry member).2

namespace Checker

/-- The account of units that are checked one after the other. -/
structure Accounts (rules : Rules) (units : List DeclUnit)
    (before after : Checker) : Prop where
  grants : before.Grants rules (units.filterMap (DeclUnit.owner? after.notes)) after
  owners : AreNew before.table.HasSymbol after.table.HasSymbol
    (units.filterMap (DeclUnit.owner? after.notes))
  types : AreNew before.table.HasType after.table.HasType
    (units.filterMap (DeclUnit.class? after.notes))
  isClass : ∀ type, after.table.HasType type → after.table.isClass type →
    before.table.HasType type ∨ type ∈ units.filterMap (DeclUnit.class? after.notes)
  classes : after.classes.toList =
    before.classes.toList ++ units.filterMap (DeclUnit.class? after.notes)
  inits : after.staticInits.toList =
    before.staticInits.toList ++ units.filterMap (DeclUnit.init? after.notes)

/-- Units are checked one after the other, and they are accounted for if they have nodes of their
own. -/
structure Tallies (rules : Rules) (units : List DeclUnit)
    (before after : Checker) : Prop where
  succeeds : before.Succeeds after
  notes : before.notes.Gains (units.flatMap DeclUnit.marks) after.notes
  builtins : after.builtins = before.builtins
  accounts : (units.flatMap DeclUnit.nodes).Nodup → before.Accounts rules units after

/-- Steps without units. -/
structure Idles (rules : Rules) (before after : Checker) : Prop where
  succeeds : before.Succeeds after
  kept : after.kept = before.kept
  classes : after.classes = before.classes
  isClass : ∀ type, after.table.HasType type → after.table.isClass type →
    before.table.HasType type
  grants : before.Grants rules [] after

theorem Idles.refl (checker : Checker) : checker.Idles rules checker :=
  ⟨.refl _, rfl, rfl, fun _ has _ => has, .refl _⟩

theorem Idles.setSpace (checker : Checker) (space : Option String) :
    checker.Idles rules { checker with space := space } :=
  ⟨.setSpace _ _, rfl, rfl, fun _ has _ => has, .of_symbols (.refl _) (.refl _) rfl⟩

theorem Retains.idles (retains : before.Retains after) (succeeds : before.Succeeds after)
    (kept : after.kept = before.kept) (grants : before.Grants rules [] after) :
    before.Idles rules after :=
  ⟨succeeds, kept, retains.classes,
    fun _ has isClass => (retains.hasType_of_isClass has isClass).1, grants⟩

namespace Tallies

theorem of_idles (idles : before.Idles rules after) : before.Tallies rules [] after where
  succeeds := idles.succeeds
  notes := .of_eq (congrArg Prod.fst idles.kept)
  builtins := congrArg (fun kept => kept.2.1) idles.kept
  accounts _ := {
    grants := idles.grants
    owners := .nil _ _
    types := .nil _ _
    isClass := fun type has isClass => .inl (idles.isClass type has isClass)
    classes := by rw [idles.classes, filterMap_nil, append_nil]
    inits := by
      rw [show after.staticInits = before.staticInits from
        congrArg (fun kept => kept.2.2) idles.kept, filterMap_nil, append_nil] }

theorem exists_type (tallies : before.Tallies rules units after) (isClass : .type decl ∈ units) :
    ∃ type, after.notes.type? decl.node.id = some type :=
  Option.isSome_iff_exists.mp (tallies.notes.has (.type decl.node.id)
    (mem_flatMap.mpr ⟨_, isClass, mem_cons_self⟩))

theorem agreesAt (tallies : before.Tallies rules units after)
    (distinct : ((earlier ++ units).flatMap DeclUnit.nodes).Nodup) (isUnit : part ∈ earlier) :
    ∀ node ∈ part.nodes, after.notes.AgreesAt before.notes node := by
  rw [flatMap_append, nodup_append] at distinct
  intro node inside
  refine tallies.notes.agreesAt ?_
  rw [DeclUnit.flatMap_node]
  exact fun again => distinct.2.2 node (mem_flatMap.mpr ⟨part, isUnit, inside⟩) node again rfl

theorem trans (tallies : first.Tallies rules units second)
    (next : second.Tallies rules more third) :
    first.Tallies rules (units ++ more) third where
  succeeds := tallies.succeeds.trans next.succeeds
  notes := by
    rw [flatMap_append]
    exact tallies.notes.trans next.notes
  builtins := next.builtins.trans tallies.builtins
  accounts distinct := by
    have agrees := fun part (isUnit : part ∈ units) => next.agreesAt distinct isUnit part.node.id
      mem_cons_self
    rw [flatMap_append, nodup_append] at distinct
    have early := tallies.accounts distinct.1
    have late := next.accounts distinct.2.1
    have owners : units.filterMap (DeclUnit.owner? third.notes) =
        units.filterMap (DeclUnit.owner? second.notes) :=
      filterMap_congr fun part isUnit => owner?_eq (agrees part isUnit)
    have types : units.filterMap (DeclUnit.class? third.notes) =
        units.filterMap (DeclUnit.class? second.notes) :=
      filterMap_congr fun part isUnit => class?_eq (agrees part isUnit)
    have inits : units.filterMap (DeclUnit.init? third.notes) =
        units.filterMap (DeclUnit.init? second.notes) :=
      filterMap_congr fun part isUnit => init?_eq (agrees part isUnit)
    have grows := tallies.succeeds.grows
    have growsNext := next.succeeds.grows
    constructor
    · rw [filterMap_append, owners]
      exact early.grants.trans late.grants
    · rw [filterMap_append, owners]
      exact early.owners.append late.owners (fun _ => grows.hasSymbol) fun _ => growsNext.hasSymbol
    · rw [filterMap_append, types]
      exact early.types.append late.types (fun _ => grows.hasType) fun _ => growsNext.hasType
    · intro type has isClass
      rw [filterMap_append, types, mem_append]
      rcases late.isClass type has isClass with has | isNew
      · rw [growsNext.isClass has] at isClass
        exact (early.isClass type has isClass).imp_right .inl
      · exact .inr (.inr isNew)
    · rw [late.classes, early.classes, filterMap_append, types, append_assoc]
    · rw [late.inits, early.inits, filterMap_append, inits, append_assoc]

end Tallies

/-- A unit with code is checked, between the units before it and those behind it. -/
structure Turns (rules : Rules) (earlier : List DeclUnit) (part : DeclUnit)
    (later : List DeclUnit) (id : SymbolId) (formals : List Formal)
    (before start entered done after : Checker) : Prop where
  early : before.Tallies rules earlier start
  treats : start.Treats rules part formals id entered done
  takes : part.Takes (start.owner.map ClassContext.type) formals
  was : start.IsAround (start.owner.map ClassContext.type)
  isAround : done.IsAround (start.owner.map ClassContext.type)
  succeeds : start.Succeeds done
  late : done.Tallies rules later after

/-- A unit stands in the body of a class, or in a place that fits. -/
structure Stands (fits : Place → Prop) (units : List DeclUnit) (part : DeclUnit) (place : Place)
    (checker : Checker) : Prop where
  member : ∀ decl, .type decl ∈ units → part ∈ decl.memberUnits → ∃ context,
    place.owner = some context ∧ checker.notes.type? decl.node.id = some context.type
  other : (∀ decl, .type decl ∈ units → part ∉ decl.memberUnits) → fits place

/-- Units are checked one after the other, and what stands around them fits. -/
structure Enlists (rules : Rules) (fits : Place → Prop) (units : List DeclUnit)
    (names : List Global) (before after : Checker) : Prop extends
    Tallies rules units before after where
  publishes : before.Publishes names after
  bodies : ∀ decl, .type decl ∈ units → decl.memberUnits ⊆ units
  turns : ∀ earlier part later, units = earlier ++ part :: later → part.IsCode →
    ∃ id formals start entered done,
      Turns rules earlier part later id formals before start entered done after ∧
        ((units.flatMap DeclUnit.nodes).Nodup → after.Stands fits units part start.place)

namespace Stands

theorem weaken (stands : checker.Stands fits units part place)
    (implies : ∀ place, fits place → weaker place) :
    checker.Stands weaker units part place :=
  ⟨stands.member, fun outside => implies place (stands.other outside)⟩

theorem cases (stands : checker.Stands fits units part place) :
    (∃ context decl, place.owner = some context ∧ .type decl ∈ units ∧ part ∈ decl.memberUnits ∧
        checker.notes.type? decl.node.id = some context.type) ∨
      fits place ∧ ∀ decl, .type decl ∈ units → part ∉ decl.memberUnits := by
  by_cases inside : ∃ decl, .type decl ∈ units ∧ part ∈ decl.memberUnits
  · obtain ⟨decl, isClass, isMember⟩ := inside
    obtain ⟨context, isOwner, noted⟩ := stands.member decl isClass isMember
    exact .inl ⟨context, decl, isOwner, isClass, isMember, noted⟩
  · have outside : ∀ decl, .type decl ∈ units → part ∉ decl.memberUnits :=
      fun decl isClass isMember => inside ⟨decl, isClass, isMember⟩
    exact .inr ⟨stands.other outside, outside⟩

end Stands

namespace Enlists

variable {further : List Global}

theorem fresh (enlists : before.Enlists rules fits units names after)
    (distinct : (units.flatMap DeclUnit.nodes).Nodup) :
    ∀ id ∈ units.filterMap (DeclUnit.owner? after.notes),
      ¬ before.table.HasSymbol id ∧ after.table.HasSymbol id :=
  (enlists.accounts distinct).owners.fresh

theorem of_idles (idles : before.Idles rules after) (publishes : before.Publishes names after) :
    before.Enlists rules fits [] names after :=
  ⟨.of_idles idles, publishes, nofun, fun earlier part later split => absurd split (by simp)⟩

theorem weaken (enlists : before.Enlists rules fits units names after)
    (implies : ∀ place, fits place → weaker place) :
    before.Enlists rules weaker units names after :=
  { enlists with
    turns := fun earlier part later split isCode => by
      obtain ⟨id, formals, start, entered, done, turns, stands⟩ :=
        enlists.turns earlier part later split isCode
      exact ⟨id, formals, start, entered, done, turns,
        fun distinct => (stands distinct).weaken implies⟩ }

section

variable {also : Place → Prop}

theorem stands_left (enlists : second.Enlists rules also more further third)
    (distinct : ((units ++ more).flatMap DeclUnit.nodes).Nodup) (isUnit : part ∈ units)
    (stands : second.Stands fits units part place) :
    third.Stands fits (units ++ more) part place := by
  refine ⟨fun decl isClass isMember => ?_, fun outside => stands.other fun decl isClass =>
    outside decl (mem_append_left _ isClass)⟩
  rcases mem_append.mp isClass with isClass | isClass
  · obtain ⟨context, isOwner, noted⟩ := stands.member decl isClass isMember
    exact ⟨context, isOwner, (enlists.agreesAt distinct isClass _ mem_cons_self).2.trans noted⟩
  · exact absurd (enlists.bodies decl isClass isMember) (DeclUnit.notMem_of_nodup distinct isUnit)

theorem stands_right (enlists : first.Enlists rules fits units names second)
    (distinct : ((units ++ more).flatMap DeclUnit.nodes).Nodup) (isUnit : part ∈ more)
    (stands : third.Stands also more part place) :
    third.Stands also (units ++ more) part place := by
  refine ⟨fun decl isClass isMember => ?_, fun outside => stands.other fun decl isClass =>
    outside decl (mem_append_right _ isClass)⟩
  rcases mem_append.mp isClass with isClass | isClass
  · exact absurd isUnit (DeclUnit.notMem_of_nodup distinct (enlists.bodies decl isClass isMember))
  · exact stands.member decl isClass isMember

theorem turns_append {later : List DeclUnit}
    (enlists : first.Enlists rules fits units names second)
    (next : second.Enlists rules also more further third)
    (split : units ++ more = earlier ++ part :: later) (isCode : part.IsCode) :
    ∃ id formals start entered done,
      Turns rules earlier part later id formals first start entered done third ∧
      (((units ++ more).flatMap DeclUnit.nodes).Nodup →
        earlier.length < units.length ∧ third.Stands fits (units ++ more) part start.place ∨
          units.length ≤ earlier.length ∧ third.Stands also (units ++ more) part start.place ∧
            ((∀ decl, .type decl ∉ more) → also start.place)) := by
  have apart : ((units ++ more).flatMap DeclUnit.nodes).Nodup →
      (units.flatMap DeclUnit.nodes).Nodup ∧ (more.flatMap DeclUnit.nodes).Nodup :=
        fun distinct => by
    rw [flatMap_append, nodup_append] at distinct
    exact ⟨distinct.1, distinct.2.1⟩
  rcases split_append split with ⟨gap, inUnits, rfl⟩ | ⟨gap, rfl, inMore⟩
  · obtain ⟨id, formals, start, entered, done, turns, stands⟩ :=
      enlists.turns earlier part gap inUnits isCode
    refine ⟨id, formals, start, entered, done,
      { turns with late := turns.late.trans next.toTallies }, fun distinct => .inl ⟨?_, ?_⟩⟩
    · rw [inUnits, length_append, length_cons]
      omega
    · exact next.stands_left distinct (by simp [inUnits]) (stands (apart distinct).1)
  · obtain ⟨id, formals, start, entered, done, turns, stands⟩ :=
      next.turns gap part later inMore isCode
    refine ⟨id, formals, start, entered, done,
      { turns with early := enlists.toTallies.trans turns.early }, fun distinct =>
        .inr ⟨?_, ?_, ?_⟩⟩
    · rw [length_append]
      omega
    · exact enlists.stands_right distinct (by simp [inMore]) (stands (apart distinct).2)
    · exact fun noClass => (stands (apart distinct).2).other fun decl isClass =>
        absurd isClass (noClass decl)

end

theorem trans (enlists : first.Enlists rules fits units names second)
    (next : second.Enlists rules fits more further third) :
    first.Enlists rules fits (units ++ more) (names ++ further) third where
  toTallies := enlists.toTallies.trans next.toTallies
  publishes := enlists.publishes.trans next.publishes
  bodies decl isUnit := by
    rcases mem_append.mp isUnit with isUnit | isUnit
    · exact subset_append_of_subset_left _ (enlists.bodies decl isUnit)
    · exact subset_append_of_subset_right _ (next.bodies decl isUnit)
  turns earlier part later split isCode := by
    obtain ⟨id, formals, start, entered, done, turns, stands⟩ :=
      enlists.turns_append next split isCode
    exact ⟨id, formals, start, entered, done, turns,
      fun distinct => (stands distinct).elim And.right fun behind => behind.2.1⟩

theorem after_idles (enlists : between.Enlists rules fits units further after)
    (idles : before.Idles rules between) (publishes : before.Publishes names between) :
    before.Enlists rules fits units (names ++ further) after :=
  (of_idles idles publishes).trans enlists

theorem then_idles (enlists : before.Enlists rules fits units names between)
    (idles : between.Idles rules after) (publishes : between.Publishes [] after) :
    before.Enlists rules fits units names after := by
  have both := enlists.trans (of_idles idles publishes)
  rwa [append_nil, append_nil] at both

theorem classUnits {context : ClassContext}
    (enlists : between.Enlists rules (·.owner = some context) decl.memberUnits further after)
    (tallies : before.Tallies rules [.type decl] between)
    (publishes : before.Publishes names between)
    (notes : between.notes.type? decl.node.id = some context.type) :
    before.Enlists rules fits decl.units (names ++ further) after := by
  have only : ∀ other, .type other ∈ decl.units → other = decl := fun other isUnit => by
    rcases mem_cons.mp isUnit with same | isMember
    · exact DeclUnit.type.inj same
    · exact absurd isMember (decl.type_notMem_memberUnits other)
  refine ⟨tallies.trans enlists.toTallies, publishes.trans enlists.publishes,
    fun other isUnit => only other isUnit ▸ subset_cons_self _ _,
    fun earlier part later split isCode => ?_⟩
  rcases cons_eq_append_iff.mp split with ⟨_, same⟩ | ⟨rest, rfl, inBody⟩
  · obtain ⟨rfl, _⟩ := List.cons.inj same
    exact isCode.elim
  obtain ⟨id, formals, start, entered, done, turns, stands⟩ :=
    enlists.turns rest part later inBody isCode
  refine ⟨id, formals, start, entered, done,
    { turns with early := tallies.trans turns.early }, fun distinct =>
    ⟨fun other isClass _ => ⟨context, ?_, ?_⟩, fun outside =>
      absurd ?_ (outside decl mem_cons_self)⟩⟩
  · -- There are no classes in the body of a class.
    exact (stands (nodup_cons.mp distinct).2).other fun inner isInner =>
      absurd isInner (decl.type_notMem_memberUnits inner)
  · obtain rfl := only other isClass
    have isUnit : .type other ∈ [DeclUnit.type other] := mem_cons_self
    exact (enlists.agreesAt distinct isUnit _ mem_cons_self).2.trans notes
  · rw [inBody]
    exact mem_append_right _ mem_cons_self

end Enlists
end Checker

theorem Check.Ran.forM_enlists {motive : Checker → Prop} {act : α → Check PUnit} {items : List α}
    (ran : Ran (items.forM act) before () after) (units : α → List DeclUnit)
    (names : α → List Global) (fits : Place → Prop)
    (step : ∀ item ∈ items, ∀ early late, Ran (act item) early () late → motive early →
      motive late ∧ early.Enlists rules fits (units item) (names item) late)
    (start : motive before) :
    motive after ∧ before.Enlists rules fits (items.flatMap units) (items.flatMap names) after := by
  induction items generalizing before with
  | nil =>
    obtain rfl := ran.forM_nil
    exact ⟨start, .of_idles (.refl _) (.of_outer (.refl _) (.refl _) rfl)⟩
  | cons item rest ih =>
    obtain ⟨between, itemRan, restRan⟩ := ran.forM_cons
    obtain ⟨kept, enlists⟩ := step item mem_cons_self before between itemRan start
    obtain ⟨keptAll, enlistsAll⟩ := ih restRan
      (fun other member => step other (mem_cons_of_mem _ member)) kept
    exact ⟨keptAll, enlists.trans enlistsAll⟩

/-! ## Units with code -/

namespace Checker

theorem IsAround.lists {context : ClassContext} (isAround : after.IsAround around)
    (isOwner : after.owner = some context) (member : id ∈ after.scopes.current)
    (has : after.table.HasSymbol id) :
    after.Lists context.type id where
  hasType := (isAround.frame context isOwner).2.1
  isClass := (isAround.frame context isOwner).2.2.1
  hasSymbol := has
  member := .inl (by rwa [membersOf, isOwner, Option.map_some, if_pos rfl])

namespace Treats

variable {formals : List Formal} {context : MethodContext} {entered early late : Checker}

variable (treats : before.Treats rules part formals id entered after)
include treats

theorem starts_notes (examines : Examines rules id part.body { entered with
      notes := entered.notes.setSymbol part.node.id id
      scopes := entered.scopes.push
      method := some context } early late after) :
    early.notes = before.notes.setSymbol part.node.id id := by
  rw [notes_of_aside examines.starts, ← treats.notes]

theorem owner?_eq_some (isCode : part.IsCode) (distinct : part.nodes.Nodup) :
    part.owner? after.notes = some id := by
  obtain ⟨context, early, late, examines, _, _, _⟩ := treats.examines
  have visits := (Check.walksOver_checkStmts part.body).visits examines.ran examines.valid
  have same := visits.notes _ (nodup_cons.mp distinct).1
  rw [show after.notes = late.notes from congrArg Prod.fst examines.ends, owner?_eq same,
    treats.starts_notes examines]
  cases part with
  | type => exact isCode.elim
  | init | method => exact (Annotations.symbol?_setSymbol _ _ _ _).trans (if_pos rfl)

theorem grants_all : before.Grants rules [id] after := by
  obtain ⟨context, early, late, examines, _, _, _⟩ := treats.examines
  have visits := (Check.walksOver_checkStmts part.body).visits examines.ran examines.valid
  have opens : entered.Grants rules [] early :=
    ⟨examines.grants.grows, examines.grants.tells, examines.grants.fair, examines.grants.methods⟩
  exact ((treats.grants.idle opens).idle visits.grants).idle
    (.of_symbols examines.grows examines.tells examines.size)

theorem tallies (isCode : part.IsCode) (succeeds : before.Succeeds after) :
    before.Tallies rules [part] after := by
  obtain ⟨context, early, late, examines, _, _, _⟩ := treats.examines
  have isInside : early.method.isSome := congrArg Place.isInside examines.inside.place
  have walks := (Check.walksOver_checkStmts part.body).ran examines.ran examines.valid
  have nodes : [part].flatMap DeclUnit.nodes = part.nodes := flatMap_singleton ..
  have types : [part].filterMap (DeclUnit.class? after.notes) = [] := by
    cases part with
    | type => exact isCode.elim
    | init => rfl
    | method => rfl
  have owner : part.nodes.Nodup → [part].filterMap (DeclUnit.owner? after.notes) = [id] :=
    fun distinct => by
      rw [filterMap_cons_some (treats.owner?_eq_some isCode distinct), filterMap_nil]
  constructor
  · exact succeeds
  · rw [flatMap_singleton, show after.notes = late.notes from congrArg Prod.fst examines.ends]
    have given : before.notes.Gains [part.mark] early.notes := by
      rw [isCode.mark, treats.starts_notes examines]
      exact Annotations.gains_setSymbol _ _ _
    exact given.trans (walks.notes isInside)
  · calc after.builtins
      _ = late.builtins := congrArg (fun kept => kept.2.1) examines.ends
      _ = early.builtins := walks.visits.builtins
      _ = entered.builtins := (builtins_of_aside examines.starts).trans rfl
      _ = before.builtins := treats.builtins
  · intro distinct
    rw [nodes] at distinct
    constructor
    · rw [owner distinct]
      exact treats.grants_all
    · rw [owner distinct]
      exact ⟨forall_mem_singleton.mpr
        ⟨treats.fresh, treats.completes.grows.hasSymbol treats.has⟩, nodup_singleton id⟩
    · rw [types]
      exact .nil _ _
    · intro type has isClass
      obtain ⟨hasEntered, enteredClass⟩ := treats.completes.hasType_of_isClass has isClass
      exact .inl (treats.retains.hasType_of_isClass hasEntered enteredClass).1
    · rw [types, append_nil, treats.completes.classes, treats.retains.classes]
    · have inits : after.staticInits = entered.staticInits := calc
        after.staticInits = late.staticInits := congrArg (fun kept => kept.2.2) examines.ends
        _ = early.staticInits := walks.visits.staticInits
        _ = entered.staticInits := (staticInits_of_aside examines.starts).trans rfl
      rw [inits, treats.inits]
      cases part with
      | type => exact isCode.elim
      | init => exact congrArg _ (owner distinct).symm
      | method => rfl

theorem holds (takes : part.Takes around formals) (isCode : part.IsCode)
    (distinct : part.nodes.Nodup) :
    after.Holds around part id where
  owner := treats.owner?_eq_some isCode distinct
  has := treats.completes.grows.hasSymbol treats.has
  kind := (treats.completes.grows.symbol_kind treats.has).trans treats.kind
  accepts := ⟨formals, takes, treats.completes.accepts⟩

theorem enlists (takes : part.Takes around formals) (was : before.IsAround around)
    (isAround : after.IsAround around) (succeeds : before.Succeeds after)
    (publishes : before.Publishes names after) :
    before.Enlists rules (· = before.place) [part] names after := by
  obtain rfl := was.owner
  have isCode : part.IsCode := by
    cases part with
    | type => exact takes.elim
    | init => trivial
    | method => trivial
  have notClass : ∀ decl, .type decl ∉ [part] := fun decl isUnit => by
    obtain rfl := mem_singleton.mp isUnit
    exact takes.elim
  exact {
    toTallies := treats.tallies isCode succeeds
    publishes := publishes
    bodies := fun decl isUnit => absurd isUnit (notClass decl)
    turns := fun earlier other later split _ => by
      obtain ⟨rfl, same⟩ := append_eq_singleton_iff.mp split.symm |>.resolve_right (by simp)
      obtain ⟨rfl, rfl⟩ := List.cons.inj same
      exact ⟨id, formals, before, entered, after, ⟨.of_idles (.refl _), treats, takes, was,
        isAround, succeeds, .of_idles (.refl _)⟩,
        fun _ => ⟨fun decl isClass => absurd isClass (notClass decl), fun _ => rfl⟩⟩ }

end Treats

namespace Enlists

theorem checks (enlists : before.Enlists rules fits units names after) :
    ∀ part ∈ units, after.Checks part.body before.loopDepth := by
  intro part isUnit
  by_cases isCode : part.IsCode
  · obtain ⟨earlier, later, rfl⟩ := append_of_mem isUnit
    obtain ⟨_, _, start, entered, done, turns, _⟩ := enlists.turns earlier part later rfl isCode
    obtain ⟨_, _, _, examines, _⟩ := turns.treats.examines
    have depth : entered.loopDepth = before.loopDepth :=
      (congrArg Place.loopDepth turns.treats.retains.place).trans turns.early.succeeds.loopDepth
    exact depth ▸ examines.checks.mono turns.late.succeeds.tells
  · cases part with
    | type => exact after.checks_nil _
    | init => exact absurd trivial isCode
    | method => exact absurd trivial isCode

theorem exists_holds (enlists : before.Enlists rules fits units names after)
    (distinct : (units.flatMap DeclUnit.nodes).Nodup) (isUnit : part ∈ units)
    (isCode : part.IsCode) :
    ∃ place id, after.Stands fits units part place ∧
      after.Holds (place.owner.map ClassContext.type) part id := by
  obtain ⟨earlier, later, rfl⟩ := append_of_mem isUnit
  obtain ⟨id, formals, start, entered, done, turns, stands⟩ :=
    enlists.turns earlier part later rfl isCode
  refine ⟨start.place, id, stands distinct, ?_⟩
  have whole : ((earlier ++ [part] ++ later).flatMap DeclUnit.nodes).Nodup := by
    rwa [append_assoc]
  have own := (nodup_flatMap.mp distinct).1 part isUnit
  have holds := turns.treats.holds turns.takes isCode own
  have late := turns.late.succeeds
  exact holds.keep late.grows (late.rows id holds.has) late.tells
    (turns.late.agreesAt whole (mem_append_right _ mem_cons_self) _ mem_cons_self)

end Enlists

end Checker
end MicroJava
