import MicroJava.Proofs.Analysis.Tasks

/-!
# The classes of any program

A class is entered and named, its frame gets the inherited members and then its own, and when
the frame is closed its symbols become the members of the class.  Whatever is reported on the
way, every class that is closed continues the class it extends.
-/

namespace MicroJava

open List

variable {after before : Checker} {type : TypeId} {theirs : List SymbolId} {name : String}
  {parent : Option TypeId} {decl : ClassDecl} {method : MethodDecl} {fieldCount : Nat}
  {rules : Rules}

namespace Table

variable (table : Table) (desc : TypeDesc)

theorem hasType_addType_iff (type : TypeId) :
    (table.addType desc).2.HasType type ↔ table.HasType type ∨ type = table.nextType := by
  have size : (table.addType desc).2.types.size = table.types.size + 1 := Array.size_push _
  rw [HasType, HasType, size, Nat.lt_succ_iff_lt_or_eq, nextType, TypeId.mk.injEq]

theorem desc_addType_new : (table.addType desc).2.desc table.nextType = desc := by
  refine (desc_eq_of_getElem? ?_).2
  exact Array.getElem?_push_size

theorem desc_addType {table : Table} {desc : TypeDesc} (has : table.HasType type) :
    (table.addType desc).2.desc type = table.desc type :=
  desc_of_append Array.push_eq_append has

end Table

namespace Checker

theorem IsOpen.isAround (isOpen : before.IsOpen type theirs)
    (owner : before.owner = some ⟨type, 2⟩) :
    before.IsAround (some type) where
  owner := congrArg _ owner
  frame context isOwner := by
    obtain rfl := Option.some.inj (owner.symm.trans isOwner)
    obtain ⟨frame, rest, frames, length, listed, _⟩ := isOpen.frames
    exact ⟨rfl, isOpen.has, isOpen.isClass, frame, rest, frames, length, fun name id found =>
      have member := ((listed.names name id).mp found).1
      ⟨member, listed.members id member⟩⟩
  depth isNone := nomatch owner.symm.trans isNone
  guarded := isOpen.guarded
  members other has isClass different id member :=
    (isOpen.settled.closed other has isClass different).members id member

end Checker

namespace Check

/-! ## Members -/

theorem checkMethod_proceeds (ran : Ran (checkMethod method) before () after)
    (regular : before.IsRegular) (noOwner : before.owner = none)
    (names : ∀ name ∈ "this" :: method.localNames, rules.inner name) :
    before.Proceeds none after ∧ before.Publishes (method.globals before.qualifiedName) after ∧
      ∃ formals id entered, (DeclUnit.method method).Takes none formals ∧
      before.Treats rules (.method method) formals id entered after := by
  obtain ⟨types, id, first, entered, handles⟩ :=
    checkMethod_handles ran regular (by rw [noOwner]; exact nofun) names
  obtain ⟨result, enrols⟩ := handles.enrols
  have treats := handles.treats
  have enters : first.Proceeds (some id) entered := by
    cases enrols with
    | unbound _ _ proceeds => exact proceeds.widen
    | bound introduces => exact introduces.proceeds
    | overriding overrides =>
      obtain ⟨context, isOwner, _⟩ := overrides.owner
      rw [handles.visits.owner, noOwner] at isOwner
      cases isOwner
  have publishes := handles.publishes
  rw [Checker.methodGlobals, noOwner] at publishes
  refine ⟨handles.visits.proceeds.trans
    ((enters.trans treats.completes.toProceeds).forget enrols.fresh), publishes, _, id, entered,
    ⟨types, handles.length, rfl⟩, ?_⟩
  rw [noOwner] at treats
  exact treats

theorem checkMethod_isOpen (ran : Ran (checkMethod method) before () after)
    (isOpen : before.IsOpen type theirs) (owner : before.owner = some ⟨type, 2⟩)
    (named : (before.table.desc type).name = name)
    (names : ∀ name ∈ "this" :: method.name.name :: method.localNames, rules.inner name) :
    before.Packs type after ∧ after.IsOpen type theirs ∧
      before.Enlists rules (·.owner = some ⟨type, 2⟩) [.method method] (method.statics name)
        after := by
  obtain ⟨this, isInner, names⟩ := forall_mem_cons.mp names |>.imp_right
    forall_mem_cons.mp
  obtain ⟨types, id, first, entered, handles⟩ := checkMethod_handles ran
    (isOpen.isRegular owner rfl) (fun _ => isInner) (forall_mem_cons.mpr ⟨this, names⟩)
  obtain ⟨result, enrols⟩ := handles.enrols
  have treats := handles.treats
  have ownType : before.owner.map ClassContext.type = some type := congrArg _ owner
  rw [ownType] at enrols treats
  have completes := treats.completes
  have visits := handles.visits
  have proceeds : before.Proceeds none first := visits.proceeds
  have starts := Checker.Packs.proceeds proceeds isOpen visits.scopes
  have isOpenFirst := isOpen.proceeds proceeds visits.scopes
  have ownerFirst : first.owner = some ⟨type, 2⟩ := visits.owner.trans owner
  have declared : (method.formals (method.receiver? (some type)) types).map Formal.type = _ :=
    MethodDecl.map_type_formals handles.length
  have fresh := enrols.fresh
  obtain ⟨packs, isOpenLast⟩ : first.Packs type after ∧ after.IsOpen type theirs := by
    cases enrols with
    | unbound _ _ proceeds scopes =>
      have whole := (proceeds.widen.trans completes.toProceeds).forget fresh
      have same := completes.scopes.trans scopes
      exact ⟨.proceeds whole isOpenFirst same, isOpenFirst.proceeds whole same⟩
    | bound introduces =>
      have whole := (introduces.proceeds.trans completes.toProceeds).forget fresh
      refine ⟨.introduces introduces completes.toProceeds isOpenFirst completes.scopes
        fun _ => .inl rfl, isOpenFirst.introduces introduces completes.toProceeds
        completes.scopes (fun _ => .inr rfl) fun _ clean param member => ?_⟩
      rw [completes.formals clean, declared] at member
      refine (handles.typed param ?_).2 (whole.tells.isClean clean)
      cases isReceiver : method.receiver? (some type) with
      | none =>
        rw [isReceiver] at member
        exact mem_of_mem_drop member
      | some _ =>
        rw [isReceiver] at member
        exact member
    | overriding overrides hasReceiver =>
      obtain ⟨this, isReceiver⟩ := Option.isSome_iff_exists.mp hasReceiver
      rw [isReceiver] at declared completes
      exact ⟨.overrides overrides completes isOpenFirst ownerFirst rfl,
        isOpenFirst.overrides ownerFirst rfl overrides completes declared handles.typed⟩
  have whole := starts.trans packs
  have publishes := handles.publishes
  simp only [Checker.methodGlobals, owner, named] at publishes
  have isAround := isOpenLast.isAround ((congrArg Place.owner whole.place).trans owner)
  exact ⟨whole, isOpenLast, (treats.enlists ⟨types, handles.length, rfl⟩ (isOpen.isAround owner)
    isAround (whole.succeeds isOpen ownType) publishes).weaken fun place same => same ▸ owner⟩

theorem checkStaticInit_isOpen {index : Nat} {init : StaticInit}
    (ran : Ran (checkStaticInit name index init) before () after)
    (isOpen : before.IsOpen type theirs) (owner : before.owner = some ⟨type, 2⟩) :
    before.Packs type after ∧ after.IsOpen type theirs ∧
      before.Enlists rules (·.owner = some ⟨type, 2⟩) [.init init] [] after := by
  obtain ⟨proceeds, scopes, id, entered, treats⟩ :=
    checkStaticInit_treats ran (isOpen.isRegular owner rfl)
  have packs := Checker.Packs.proceeds proceeds isOpen scopes
  have isOpenLast := isOpen.proceeds proceeds scopes
  have isAround := isOpenLast.isAround ((congrArg Place.owner packs.place).trans owner)
  exact ⟨packs, isOpenLast, (treats.enlists rfl (isOpen.isAround owner) isAround
    (packs.succeeds isOpen (congrArg _ owner)) (.of_outer proceeds.grows proceeds.tells
      (by rw [scopes]))).weaken fun place same => same ▸ owner⟩

theorem Task.check_isOpen {task : Task} (ran : Ran task.check before () after)
    (isMember : task.IsMember name) (isOpen : before.IsOpen type theirs)
    (owner : before.owner = some ⟨type, 2⟩) (named : (before.table.desc type).name = name)
    (names : ∀ name ∈ "this" :: task.innerNames, rules.inner name) :
    before.Packs type after ∧ after.IsOpen type theirs ∧
      before.Enlists rules (·.owner = some ⟨type, 2⟩) task.units (task.statics name) after := by
  let motive : Checker → Prop := fun checker => before.Packs type checker ∧
    checker.IsOpen type theirs
  have visits : ∀ early late, early.Visits [] late → motive early → motive late :=
    fun early late visits ⟨packs, isOpen⟩ =>
      ⟨packs.trans (.proceeds visits.proceeds isOpen visits.scopes),
        isOpen.proceeds visits.proceeds visits.scopes⟩
  have declared : ∀ outer kind, kind ≠ .method → (outer = false → kind = .field) →
      ∀ name type id early late, early.Introduces outer kind name type id late →
      motive early → motive late :=
    fun outer kind noMethod isField name type id early late introduces ⟨packs, isOpen⟩ =>
      ⟨packs.trans (.introduces introduces (.refl _) isOpen rfl fun inner =>
        .inr ⟨isField inner, rfl⟩), isOpen.introduces introduces (.refl _) rfl
        (fun inner => .inl (isField inner)) fun isMethod => absurd isMethod noMethod⟩
  have start : motive before := ⟨.refl isOpen, isOpen⟩
  -- Variables and fields are no units.
  have enlists : ∀ names, motive after ∧ before.Publishes names after →
      after.aside = before.aside → before.Grants rules [] after →
      before.Packs type after ∧ after.IsOpen type theirs ∧
        before.Enlists rules (·.owner = some ⟨type, 2⟩) [] names after :=
    fun names ⟨⟨packs, isOpenLast⟩, publishes⟩ aside grants => ⟨packs, isOpenLast, .of_idles
      (packs.idles (packs.succeeds isOpen (congrArg _ owner)) (Checker.kept_of_aside aside) grants)
      publishes⟩
  cases task with
  | consts | type => cases isMember
  | vars kind decl =>
    obtain rfl := isMember
    have keeps := checkVars_keeps ran (fun _ => []) (fun _ kept => kept.2.settled.valid) visits
      (fun _ _ _ _ _ _ introduces _ =>
        declared false .field nofun (fun _ => rfl) _ _ _ _ _ introduces)
      (.inr rfl)
      (fun _ kept => by rw [kept.2.depth]; exact ⟨by decide, by decide, fun _ => rfl⟩) start
    rw [flatMap_nothing] at keeps
    refine enlists _ keeps (IsAside.aside_eq asideOnly.checkVars ran)
      (checkVars_grants ran isOpen.settled.valid (.inr rfl) (by rw [isOpen.depth]; decide)
        fun _ item isItem => ?_)
    rw [Checker.qualifiedName_of_owner owner]
    exact names _ (mem_cons_of_mem _ (mem_map_of_mem isItem))
  | staticVars home decl =>
    exact enlists _ (checkStaticVars_keeps ran (fun _ kept => kept.2.settled.valid)
      (fun _ kept => kept.2.depth) visits (fun _ _ _ _ _ introduces _ =>
        declared true .var nofun nofun _ _ _ _ _ introduces) start)
      (IsAside.aside_eq asideOnly.checkStaticVars ran)
      (checkStaticVars_grants ran isOpen.settled.valid isOpen.depth)
  | staticInit home index init => exact checkStaticInit_isOpen ran isOpen owner
  | method decl => exact checkMethod_isOpen ran isOpen owner named names

theorem checkMembers_isOpen (ran : Ran (checkMembers name decl) before () after)
    (isOpen : before.IsOpen type theirs) (owner : before.owner = some ⟨type, 2⟩)
    (named : (before.table.desc type).name = name)
    (names : ∀ name ∈ "this" :: decl.innerNames, rules.inner name) :
    before.Packs type after ∧ after.IsOpen type theirs ∧
      before.Enlists rules (·.owner = some ⟨type, 2⟩) decl.memberUnits (decl.statics name)
        after := by
  rw [checkMembers_eq] at ran
  obtain ⟨⟨packs, isOpenLast⟩, enlists⟩ := ran.forM_enlists
    (motive := fun checker => before.Packs type checker ∧ checker.IsOpen type theirs)
    Task.units (Task.statics name) (·.owner = some ⟨type, 2⟩)
      (fun task member early late taskRan kept => by
      obtain ⟨packs, isOpenLate, enlists⟩ := Task.check_isOpen taskRan
        (Task.isMember_of_mem member) kept.2 ((congrArg Place.owner kept.1.place).trans owner)
        ((congrArg TypeDesc.name (kept.1.grows.bare_desc _ isOpen.has)).trans named)
        (fun name inside => names name
          (cons_subset_cons _ (Task.innerNames_subset member) inside))
      exact ⟨⟨kept.1.trans packs, isOpenLate⟩, enlists⟩) ⟨.refl isOpen, isOpen⟩
  rw [Task.units_ofClass, Task.statics_ofClass] at enlists
  exact ⟨packs, isOpenLast, enlists⟩

/-! ## Inherited members -/

theorem inherit_isOpen {id : SymbolId} (ran : Ran (inherit type id) before () after)
    (isOpen : before.IsOpen type theirs) (current : before.scopes.current = theirs)
    (isMember : before.table.IsMember id) (isTyped : before.table.IsTyped before.IsClean id)
    (inherits : before.table.Inherits type id)
    (names : ((theirs ++ [id]).map fun id => (before.table.symbol id).name).Nodup) :
    before.Leaves (some type) after ∧ after.IsOpen type (theirs ++ [id]) ∧
      after.scopes.current = theirs ++ [id] ∧ after.scopes.pop = before.scopes.pop ∧
      after.table.symbols = before.table.symbols := by
  replace ran := ran.symbol_bind
  obtain ⟨_, s₁, bindRan, ran⟩ := ran.bind
  obtain rfl := onScopes_ran bindRan
  obtain ⟨frame, rest, frames, length, listed, typed, _⟩ := isOpen.frames
  have order : frame.order.toList = theirs := by
    rw [← current, Scopes.current, frames]
  set name := (before.table.symbol id).name
  have free : frame.find? name = none := by
    rw [Option.eq_none_iff_forall_ne_some]
    intro other found
    obtain ⟨member, named⟩ := (listed.names name other).mp found
    rw [order] at member
    rw [map_append, map_singleton, nodup_append] at names
    exact names.2.2 _ (mem_map_of_mem member) _ (mem_singleton_self _) named
  have takes : frame.Takes name id (frame.bind name id) := Frame.bind_takes free
  have framesBound := Scopes.bind_frames frames name id
  have depthBound : (before.scopes.bind name id).depth = before.scopes.depth := by
    rw [Scopes.depth, Scopes.depth, framesBound, frames]
    rfl
  have placeBound : Checker.place { before with scopes := before.scopes.bind name id } =
      before.place := by
    rw [Checker.place, Checker.place, depthBound]
  have guardedBound : ∀ bound : Checker, bound.scopes = before.scopes.bind name id →
      before.table.Grows bound.table → before.IsGuarded → bound.IsGuarded :=
    fun bound same grows guarded => by
      refine guarded.change grows (show _ = [] ++ frame :: rest from frames)
        (same ▸ framesBound) fun other otherId found => ?_
      rw [takes.find] at found
      split_ifs at found with same
      · obtain rfl := Option.some.inj found
        refine .inr (Table.Leads.grows ⟨isMember.has, ?_, same, fun _ => ?_, ?_, ?_⟩ grows)
        · rw [isMember.level, length]
        · rw [isMember.level]
          decide
        · rintro rfl
          exact absurd (isOpen.settled.valid.level_absent.symm.trans isMember.level) (by decide)
        · rcases isMember.kind with kind | kind <;> rw [kind] <;> decide
      · exact .inl found
  -- Only a method can be overridden.
  obtain ⟨leaves, scopes, symbols, pending⟩ : before.Leaves (some type) after ∧
      after.scopes = before.scopes.bind name id ∧ after.table.symbols = before.table.symbols ∧
      ∀ other ∈ (after.table.desc type).pending,
        other ∈ (before.table.desc type).pending ∨
          other = id ∧ (before.table.symbol id).kind = .method := by
    split_ifs at ran with isMethod
    · obtain rfl := updateType_ran ran
      refine ⟨⟨Checker.retains_updateType isOpen.has rfl rfl placeBound rfl (.refl _)
        (guardedBound _ rfl), fun _ _ => rfl, fun other has different =>
        Table.desc_updateType_of_ne isOpen.has has (fun same => different (congrArg some same)) _⟩,
        rfl, rfl, fun other member => ?_⟩
      rw [Table.desc_updateType_self isOpen.has, mem_insert_iff] at member
      exact member.symm.imp_right fun same => ⟨same, isMethod⟩
    · obtain ⟨_, rfl⟩ := ran.pure
      have proceeds : before.Proceeds none
          { before with scopes := before.scopes.bind name id } :=
        Checker.proceeds_of_table rfl placeBound rfl (.of_eq rfl) (guardedBound _ rfl (.refl _))
      exact ⟨proceeds.leaves, rfl, rfl, fun other member => .inl member⟩
  have orderBound : (frame.bind name id).order.toList = theirs ++ [id] := by
    rw [takes.order, Array.toList_push, order]
  have areMembers : ∀ other ∈ theirs ++ [id], before.table.IsMember other :=
    forall_mem_append.mpr ⟨isOpen.members, forall_mem_singleton.mpr isMember⟩
  refine ⟨leaves, ?_, by rw [Scopes.current, scopes, framesBound]; exact orderBound,
    by rw [scopes, Scopes.pop, Scopes.pop, framesBound, frames]; rfl, symbols⟩
  exact {
    settled := leaves.isSettled isOpen.settled
    has := leaves.grows.hasType isOpen.has
    isClass := (leaves.grows.isClass isOpen.has).trans isOpen.isClass
    proper := isOpen.proper
    frames := by
      refine ⟨frame.bind name id, rest, by rw [scopes, framesBound], length,
        (listed.grows leaves.grows).takes takes (leaves.grows.isMember isMember)
          (leaves.grows.symbol_name isMember.1), ?_, ?_⟩
      · rw [orderBound, ← order]
        exact forall_mem_append.mpr ⟨isOpen.typed leaves listed typed,
          forall_mem_singleton.mpr (leaves.carries.isTyped isOpen.settled.orderly isTyped
            isMember leaves.tells.isClean)⟩
      · rw [orderBound]
        exact .refl _ _ _
    pending := fun other member => by
      rcases pending other member with member | ⟨rfl, isMethod⟩
      · obtain ⟨isTheirs, isMethod, inherits⟩ := isOpen.pending other member
        exact ⟨mem_append_left _ isTheirs,
          (leaves.grows.symbol_kind (isOpen.members other isTheirs).1).trans isMethod,
          leaves.inherits isOpen.has inherits⟩
      · exact ⟨mem_append_right _ (mem_singleton_self _),
          (leaves.grows.symbol_kind isMember.1).trans isMethod,
          leaves.inherits isOpen.has inherits⟩
    members := fun other member => leaves.grows.isMember (areMembers other member)
    names := by
      rw [leaves.grows.map_name fun other member => (areMembers other member).1]
      exact names
    guarded := leaves.guarded isOpen.guarded }

theorem inheritAll_isOpen {members : List SymbolId}
    (ran : Ran (members.forM (inherit type)) before () after) (isOpen : before.IsOpen type theirs)
    (current : before.scopes.current = theirs)
    (areMembers : ∀ id ∈ members, before.table.IsMember id)
    (areTyped : ∀ id ∈ members, before.table.IsTyped before.IsClean id)
    (inherits : ∀ id ∈ members, before.table.Inherits type id)
    (names : ((theirs ++ members).map fun id => (before.table.symbol id).name).Nodup) :
    before.Leaves (some type) after ∧ after.IsOpen type (theirs ++ members) ∧
      after.scopes.current = theirs ++ members ∧ after.scopes.pop = before.scopes.pop ∧
      after.table.symbols = before.table.symbols := by
  induction members generalizing before theirs with
  | nil =>
    obtain rfl := ran.forM_nil
    rw [append_nil]
    exact ⟨.refl _, isOpen, current, rfl, rfl⟩
  | cons id rest ih =>
    obtain ⟨between, firstRan, restRan⟩ := ran.forM_cons
    rw [forall_mem_cons] at areMembers areTyped inherits
    rw [append_cons] at names ⊢
    obtain ⟨leaves, isOpenNow, currentNow, pop, symbols⟩ := inherit_isOpen firstRan isOpen current
      areMembers.1 areTyped.1 inherits.1
      (by rw [map_append] at names; exact (nodup_append.mp names).1)
    have known : ∀ other ∈ theirs ++ [id] ++ rest, before.table.IsMember other :=
      forall_mem_append.mpr ⟨forall_mem_append.mpr
        ⟨isOpen.members, forall_mem_singleton.mpr areMembers.1⟩, areMembers.2⟩
    obtain ⟨restLeaves, isOpenLast, currentLast, restPop, restSymbols⟩ :=
      ih restRan isOpenNow currentNow
      (fun other member => leaves.grows.isMember (areMembers.2 other member))
      (fun other member => leaves.carries.isTyped isOpen.settled.orderly (areTyped.2 other member)
        (areMembers.2 other member) leaves.tells.isClean)
      (fun other member => leaves.inherits isOpen.has (inherits.2 other member))
      (by rw [leaves.grows.map_name fun other member => (known other member).1]; exact names)
    exact ⟨leaves.trans restLeaves, isOpenLast, currentLast, restPop.trans pop,
      restSymbols.trans symbols⟩

theorem setNextSlot_isOpen {slot : Int}
    (ran : Ran (onScopes fun scopes => scopes.setNextSlot slot) before () after)
    (isOpen : before.IsOpen type theirs) :
    before.Leaves (some type) after ∧ after.IsOpen type theirs ∧
      after.scopes.current = before.scopes.current ∧ after.scopes.nextSlot = slot ∧
      after.scopes.pop = before.scopes.pop ∧ after.table.symbols = before.table.symbols := by
  obtain rfl := onScopes_ran ran
  obtain ⟨frame, rest, frames, length, listed, continues⟩ := isOpen.frames
  have changed := Scopes.setNextSlot_frames frames slot
  have depth : (before.scopes.setNextSlot slot).depth = before.scopes.depth := by
    rw [Scopes.depth, Scopes.depth, changed, frames]
    rfl
  have leaves : before.Leaves (some type)
      { before with scopes := before.scopes.setNextSlot slot } :=
    Checker.Proceeds.leaves (Checker.proceeds_of_table rfl
      (by rw [Checker.place, Checker.place, depth]) rfl (.of_eq rfl) fun guarded =>
      guarded.change (.refl _) (show _ = [] ++ frame :: rest from frames) changed
        fun _ _ found => .inl found)
  refine ⟨leaves, isOpen.advance leaves ⟨_, rest, changed, length,
    ⟨listed.names, listed.nodup, listed.members⟩, continues⟩ (List.Subset.refl _), ?_, ?_, ?_, rfl⟩
  · rw [Scopes.current, changed, Scopes.current, frames]
  · rw [Scopes.nextSlot, changed]
  · rw [Scopes.pop, changed, Scopes.pop, frames]
    rfl

/-- The members that a class inherits. -/
def inherited (table : Table) (parent : Option TypeId) : List SymbolId :=
  (parent.map fun other => (table.desc other).members).getD []

theorem inheritMembers_isOpen (ran : Ran (inheritMembers type parent) before () after)
    (isOpen : before.IsOpen type []) (current : before.scopes.current = [])
    (extended : (before.table.desc type).parent = parent)
    (isParent : ∀ other, parent = some other → before.table.HasType other ∧
      before.table.isClass other ∧ other ≠ type) :
    before.Leaves (some type) after ∧ after.IsOpen type (inherited before.table parent) ∧
      after.IsPacked ∧ after.scopes.pop = before.scopes.pop ∧
      after.table.symbols = before.table.symbols := by
  cases parent with
  | none =>
    obtain ⟨leaves, isOpenLast, same, slot, rest⟩ := setNextSlot_isOpen ran isOpen
    refine ⟨leaves, isOpenLast, ⟨?_, ?_⟩, rest⟩
    · rw [same, current]
      exact nofun
    · rw [same, current]
      exact slot
  | some other =>
    obtain ⟨has, isClass, different⟩ := isParent other rfl
    have closed := isOpen.settled.closed other has isClass
      fun same => different (Option.some.inj same)
    replace ran := ran.table_bind
    obtain ⟨_, s₁, inheritRan, slotRan⟩ := ran.bind
    obtain ⟨leaves, isOpenAll, currentAll, pop, symbols⟩ :=
      inheritAll_isOpen inheritRan isOpen current
      closed.members closed.typed (fun _ member => ⟨other, extended, has, different, member⟩)
      closed.names
    obtain ⟨slotLeaves, isOpenLast, same, slot, slotPop, slotSymbols⟩ :=
      setNextSlot_isOpen slotRan isOpenAll
    have whole := leaves.trans slotLeaves
    have fields : after.table.fieldsOf after.scopes.current =
        before.table.fieldsOf (before.table.desc other).members := by
      rw [same, currentAll]
      exact whole.grows.fieldsOf fun id member => (closed.members id member).1
    refine ⟨whole, isOpenLast, ⟨?_, ?_⟩, slotPop.trans pop, slotSymbols.trans symbols⟩
    · rw [fields]
      exact closed.layout.addresses.congr fun id member =>
        whole.rows id (closed.members id (Table.mem_fieldsOf.mp member).1).1
    · rw [fields, slot, closed.layout.count]

/-! ## Classes -/

theorem parentOf_isClass {other : TypeId} (ran : Ran (parentOf decl) before parent after)
    (valid : before.table.IsValid) (isParent : parent = some other) :
    after.table.HasType other ∧ after.table.isClass other := by
  unfold parentOf at ran
  split at ran
  · obtain ⟨found, s₁, typeRan, ran⟩ := ran.bind
    obtain ⟨_, used, _⟩ := resolveType_visits typeRan valid
    replace ran := ran.table_bind
    split_ifs at ran with missing isClass
    · obtain ⟨rfl, _⟩ := ran.pure
      cases isParent
    · obtain ⟨rfl, rfl⟩ := ran.pure
      obtain rfl := Option.some.inj isParent
      exact ⟨used, isClass⟩
    · obtain ⟨_, s₂, _, ran⟩ := ran.bind
      obtain ⟨rfl, _⟩ := ran.pure
      cases isParent
  · obtain ⟨rfl, _⟩ := ran.pure
    cases isParent

end Check

namespace Checker

theorem IsSettled.addClass (settled : before.IsSettled none)
    (isParent : ∀ other, parent = some other → before.table.HasType other ∧
      before.table.isClass other) :
    IsSettled (some before.table.nextType) { before with table := (before.table.addType
      { kind := .object, name := name, parent := parent }).2 } := by
  set late := (before.table.addType { kind := .object, name := name, parent := parent }).2
  have grows : before.table.Grows late := Table.addType_grows _ _
  have hasIff : ∀ type, late.HasType type ↔ before.table.HasType type ∨
      type = before.table.nextType := Table.hasType_addType_iff _ _
  have carries : before.table.Carries late := ⟨grows, fun _ _ => rfl⟩
  have old : ∀ type, late.HasType type → some type ≠ some before.table.nextType →
      before.table.HasType type := fun type has other =>
    ((hasIff type).mp has).resolve_right fun same => other (congrArg some same)
  exact {
    valid := settled.valid.addType
      (settled.valid.hasType_basic (show TypeId.none.index < 6 by decide))
      nofun
    orderly := settled.orderly.of_symbols rfl rfl
    filled := settled.filled.of_symbols rfl grows
    descending := fun type has kind other isOther => by
      rcases (hasIff type).mp has with early | rfl
      · rw [grows.kind early] at kind
        rw [grows.parent early] at isOther
        obtain ⟨index, isClass⟩ := settled.descending type early kind other isOther
        have hasOther := settled.descending.hasType early kind isOther
        exact ⟨index, (grows.isClass hasOther).trans isClass⟩
      · rw [Table.desc_addType_new] at isOther
        obtain ⟨hasOther, isClass⟩ := isParent other isOther
        exact ⟨hasOther, (grows.isClass hasOther).trans isClass⟩
    last := fun type isLast other has _ => by
      obtain rfl := Option.some.inj isLast
      rcases (hasIff other).mp has with early | rfl
      · exact Nat.le_of_lt early
      · exact Nat.le_refl _
    closed := fun type has isClass other => by
      have early := old type has other
      have earlyClass : before.table.isClass type := (grows.isClass early).symm.trans isClass
      refine carries.isClosed settled.orderly settled.valid settled.descending
        (settled.closed type early earlyClass nofun) (Table.desc_addType early)
        (fun parent isParent => ?_) id
      exact congrArg TypeDesc.members (Table.desc_addType (settled.descending.hasType early
        (Table.kind_of_isClass earlyClass).1 isParent))
    classes := fun type member => by
      obtain ⟨has, isClass⟩ := settled.classes type member
      exact ⟨grows.hasType has, (grows.isClass has).trans isClass⟩ }

theorem IsSettled.setPlace {opened : Option TypeId} (settled : before.IsSettled opened)
    (owner : Option ClassContext) (space : Option String) (scopes : Scopes) :
    IsSettled opened { before with owner := owner, space := space, scopes := scopes } :=
  { settled with }

theorem IsOpen.setOwner (isOpen : before.IsOpen type theirs) (owner : Option ClassContext) :
    IsOpen type theirs { before with owner := owner } :=
  { isOpen with
    settled := isOpen.settled.setPlace owner before.space before.scopes
    guarded := isOpen.guarded.of_scopes (.refl _) rfl }

/-- The frame of a class is closed, and its symbols become the members of the class. -/
theorem IsOpen.close (isOpen : before.IsOpen type theirs) (isPacked : before.IsPacked)
    (inherits : ∀ parent, (before.table.desc type).parent = some parent →
      (before.table.desc parent).members = theirs)
    (count : fieldCount = (before.table.fieldsOf before.scopes.current).length)
    (table : after.table = before.table.updateType type fun desc =>
      { desc with members := before.scopes.current, fieldCount := fieldCount, pending := [] })
    (classes : after.classes = before.classes)
    (tells : before.Tells after) :
    after.IsSettled none := by
  have settled := isOpen.settled
  have has := isOpen.has
  have grows : before.table.Grows after.table := table ▸ Table.updateType_grows has rfl
  have carries : before.table.Carries after.table := ⟨grows, fun _ _ => table ▸ rfl⟩
  have sizes : after.table.types.size = before.table.types.size := table ▸ Array.size_modify
  have hasIff : ∀ other, after.table.HasType other ↔ before.table.HasType other := fun other => by
    rw [Table.HasType, Table.HasType, sizes]
  have others : ∀ other, before.table.HasType other → other ≠ type →
      after.table.desc other = before.table.desc other := fun other hasOther different => by
    rw [table]
    exact Table.desc_updateType_of_ne has hasOther different _
  have isLast : ∀ other, before.table.HasType other → before.table.isClass other → ∀ parent,
      (before.table.desc other).parent = some parent →
      before.table.HasType parent ∧ parent ≠ type :=
        fun other hasOther otherClass parent isParent => by
    have kind := (Table.kind_of_isClass otherClass).1
    refine ⟨settled.descending.hasType hasOther kind isParent, ?_⟩
    rintro rfl
    have index := (settled.descending other hasOther kind parent isParent).1
    have late := settled.last parent rfl other hasOther otherClass
    omega
  have own : after.table.desc type = { before.table.desc type with
      members := before.scopes.current, fieldCount := fieldCount, pending := [] } := by
    rw [table]
    exact Table.desc_updateType_self has _
  obtain ⟨frame, rest, frames, _, listed, typed, continues⟩ := isOpen.frames
  have current : before.scopes.current = frame.order.toList := by rw [Scopes.current, frames]
  have fields : after.table.fieldsOf before.scopes.current =
      before.table.fieldsOf before.scopes.current :=
    grows.fieldsOf fun id member => (isOpen.isMember member).1
  exact {
    valid := settled.valid.of_bare grows (table ▸ rfl) sizes
    orderly := settled.orderly.of_symbols (table ▸ rfl) (table ▸ rfl)
    filled := settled.filled.of_symbols (table ▸ rfl) grows
    descending := fun other hasOther kind parent isParent => by
      rw [hasIff] at hasOther
      rw [grows.kind hasOther] at kind
      rw [grows.parent hasOther] at isParent
      obtain ⟨index, parentClass⟩ := settled.descending other hasOther kind parent isParent
      have hasParent := settled.descending.hasType hasOther kind isParent
      exact ⟨index, (grows.isClass hasParent).trans parentClass⟩
    last := by simp
    closed := fun other hasOther otherClass _ => by
      rw [hasIff] at hasOther
      rw [grows.isClass hasOther] at otherClass
      by_cases same : other = type
      · subst same
        refine ⟨by rw [own], fun id member => ?_, ?_, fun id member => ?_,
          fun parent isParent => ?_,
          ?_, ?_⟩
        · rw [own, current] at member
          exact grows.isMember (listed.members id member)
        · rw [own, current, grows.map_name fun id member => (listed.members id member).1]
          exact listed.names_nodup
        · rw [own, current] at member
          exact carries.isTyped settled.orderly (typed id member) (listed.members id member)
            tells.isClean
        · rw [grows.parent hasOther] at isParent
          obtain ⟨hasParent, different⟩ := isLast other hasOther otherClass parent isParent
          rw [others parent hasParent different, own, current, inherits parent isParent]
          exact carries.continues settled.orderly settled.valid settled.descending continues
            tells.isClean
        · rw [own, fields]
          exact count
        · rw [own, fields]
          exact isPacked.addresses.congr fun id _ => table ▸ rfl
      · refine carries.isClosed settled.orderly settled.valid settled.descending
          (settled.closed other hasOther otherClass fun equal => same (Option.some.inj equal))
          (others other hasOther same) (fun parent isParent => ?_) tells.isClean
        obtain ⟨hasParent, different⟩ := isLast other hasOther otherClass parent isParent
        exact congrArg TypeDesc.members (others parent hasParent different)
    classes := fun other member => by
      rw [classes] at member
      obtain ⟨hasOther, otherClass⟩ := settled.classes other member
      exact ⟨grows.hasType hasOther, (grows.isClass hasOther).trans otherClass⟩ }

theorem IsOpen.close_succeeds (isOpen : before.IsOpen type theirs)
    (owner : before.owner = some ⟨type, 2⟩) (noOwner : after.owner = none)
    (table : after.table = before.table.updateType type fun desc =>
      { desc with members := before.scopes.current, fieldCount := fieldCount, pending := [] })
    (loopDepth : after.loopDepth = before.loopDepth)
    (tells : before.Tells after) :
    before.Succeeds after := by
  have grows : before.table.Grows after.table := table ▸ Table.updateType_grows isOpen.has rfl
  refine ⟨grows, fun _ _ => table ▸ rfl, fun other id lists => lists.mono grows
    (fun upper has isClosed => ⟨by rw [noOwner]; exact nofun, ?_⟩) fun isOwner member => .inl ?_,
    loopDepth, tells⟩
  · rw [table, Table.desc_updateType_of_ne isOpen.has has]
    rintro rfl
    exact isClosed (by rw [owner]; rfl)
  · rw [owner] at isOwner
    obtain rfl : type = other := Option.some.inj isOwner
    rwa [membersOf_eq noOwner, table, Table.desc_updateType_self isOpen.has]

/-- A class is entered, named and opened. -/
structure Opens (rules : Rules) (type : TypeId) (parent : Option TypeId) (global : Global)
    (before after : Checker) : Prop where
  publishes : before.Publishes [global] after
  named : (after.table.desc type).name = global.name
  isOpen : after.IsOpen type []
  current : after.scopes.current = []
  place : after.place = { before.place with depth := 3 }
  grows : before.table.Grows after.table
  rows : ∀ id, before.table.HasSymbol id → after.table.symbol id = before.table.symbol id
  descs : ∀ other, before.table.HasType other → after.table.desc other = before.table.desc other
  parent : (after.table.desc type).parent = parent
  isClass : ∀ other, after.table.HasType other → after.table.isClass other →
    before.table.HasType other ∨ other = type
  grants : before.Grants rules [] after

/-- A class is open, with what it inherits and without members of its own. -/
structure Begins (rules : Rules) (decl : ClassDecl) (type : TypeId) (theirs : List SymbolId)
    (before inside : Checker) : Prop where
  isOpen : inside.IsOpen type theirs
  owner : inside.owner = some ⟨type, 2⟩
  named : (inside.table.desc type).name = before.qualifiedName decl.name.name
  place : inside.place = { before.place with owner := some ⟨type, 2⟩, depth := 3 }
  isPacked : inside.IsPacked
  fresh : ¬ before.table.HasType type
  inherits : ∀ parent, (inside.table.desc type).parent = some parent →
    inside.table.HasType parent ∧ parent ≠ type ∧ (inside.table.desc parent).members = theirs
  descs : ∀ other, before.table.HasType other → inside.table.desc other = before.table.desc other
  publishes : before.Publishes
    [⟨.type, before.qualifiedName decl.name.name, decl.node.span⟩] inside
  notes : inside.notes.type? decl.node.id = some type
  classes : inside.classes = before.classes.push type
  tallies : before.Tallies rules [.type decl] inside

end Checker

namespace Check

theorem enterClass_opens {node : NodeId} {span : Span} {noted named listed opened : Checker}
    (noteRan : Ran (noteType node before.table.nextType)
      { before with table := (before.table.addType
        { kind := .object, name := name, parent := parent }).2 } () noted)
    (declareRan : Ran (Functor.discard (declare .type name before.table.nextType span)) noted ()
      named)
    (listRan : Ran (modify fun checker : Checker =>
      { checker with classes := checker.classes.push before.table.nextType }) named () listed)
    (openRan : Ran (onScopes Scopes.push) listed () opened)
    (settled : before.IsSettled none)
    (guarded : before.IsGuarded)
    (isParent : ∀ other, parent = some other → before.table.HasType other ∧
      before.table.isClass other)
    (depth : before.scopes.depth = 2) :
    before.Opens rules before.table.nextType parent ⟨.type, name, span⟩ opened := by
  have entered : Checker.IsSettled (some before.table.nextType) { before with
      table := (before.table.addType
        { kind := .object, name := name, parent := parent }).2 } := settled.addClass isParent
  have hasType : (before.table.addType
      { kind := .object, name := name, parent := parent }).2.HasType before.table.nextType :=
    (Table.hasType_addType_iff _ _ _).mpr (.inr rfl)
  have enters : before.table.Grows (before.table.addType
      { kind := .object, name := name, parent := parent }).2 :=
    Table.addType_grows _ _
  have notes := (noteType_visits noteRan).1
  have later : 6 ≤ before.table.nextType.index := settled.valid.basic
  have notNull : before.table.nextType ≠ .null := fun same => by
    rw [same] at later
    exact absurd later (by decide)
  obtain ⟨id, declareRan⟩ := declareRan.discard
  have isGlobal : noted.scopes.depth = false.toNat + 2 :=
    (congrArg Scopes.depth notes.scopes).trans depth
  have declares := declareIn_publishes declareRan (Nat.le_of_eq isGlobal.symm)
  rw [if_pos isGlobal] at declares
  have publishes := notes.publishes.trans declares
  -- The class may be entered without a name.
  obtain ⟨names, grants⟩ : noted.Proceeds none named ∧ noted.Grants rules [] named := by
    rcases declareIn_introduces declareRan (notes.table.valid entered.valid) nofun
      (notes.table.grows.hasType hasType) (fun _ => ⟨TypeId.isProper_of_le later, notNull⟩)
      nofun nofun with ⟨_, reports, _⟩ | introduces
    · exact ⟨reports.proceeds, reports.visits.grants⟩
    · refine ⟨introduces.proceeds, introduces.grants
        (fun _ => .inl (TypeId.isProper_of_le later)) (fun deep => ?_) nofun nofun⟩
      rw [isGlobal] at deep
      exact absurd deep (Nat.lt_irrefl _)
  have proceeds := notes.proceeds.trans names
  have notedGrants := notes.grants.idle grants
  have allGrants : before.Grants rules [] named := by
    refine Checker.Grants.idle ?_ notedGrants
    exact .of_symbols enters (.of_eq rfl) rfl
  have settledNamed := proceeds.leaves.isSettled entered
  have guardedNamed : named.IsGuarded := proceeds.guarded (guarded.of_scopes enters rfl)
  have desc : named.table.desc before.table.nextType =
      { kind := .object, name := name, parent := parent } := by
    rw [proceeds.descs _ hasType]
    exact Table.desc_addType_new _ _
  have hasNamed := proceeds.grows.hasType hasType
  have isClass : named.table.isClass before.table.nextType := by
    rw [Table.isClass, Table.kind, desc]
    simpa using notNull
  have place : named.place = before.place := proceeds.place
  have depthNamed : named.scopes.frames.length = 2 := (congrArg Place.depth place).trans depth
  obtain rfl := listRan.modify
  obtain rfl := onScopes_ran openRan
  exact {
    publishes := Checker.Publishes.then_outer
      ⟨enters.trans publishes.grows, publishes.tells, publishes.listed, publishes.gains,
        publishes.once⟩ (.refl _) (.refl _)
      (Scopes.outermost_pop (Nat.le_of_eq (congrArg (· + 1) depthNamed).symm)).symm
    named := by rw [desc]
    isOpen := {
      settled := { settledNamed with
        classes := fun type member => by
          rw [Array.toList_push, mem_append, mem_singleton] at member
          rcases member with member | rfl
          · exact settledNamed.classes type member
          · exact ⟨hasNamed, isClass⟩ }
      has := hasNamed
      isClass := isClass
      proper := TypeId.isProper_of_le later
      frames := ⟨{}, named.scopes.frames, rfl, depthNamed, Frame.IsListed.isListed_empty _,
        by simp, by simp [Table.Continues]⟩
      pending := fun id member => by
        rw [desc] at member
        cases member
      members := forall_mem_nil _
      names := nodup_nil
      guarded := guardedNamed.push rfl rfl }
    current := rfl
    place := by
      simp only [Checker.place, Place.mk.injEq] at place ⊢
      exact ⟨place.1, place.2.1, place.2.2.1, place.2.2.2.1, congrArg (· + 1) depthNamed⟩
    grows := enters.trans proceeds.grows
    rows := fun id has => proceeds.rows id has (Option.some_ne_none _)
    descs := fun other has =>
      (proceeds.descs other (enters.hasType has)).trans (Table.desc_addType has)
    parent := by rw [desc]
    isClass := fun other has otherClass =>
      (Table.hasType_addType_iff _ _ _).mp (proceeds.hasType_of_isClass has otherClass).1
    grants := ⟨allGrants.grows, allGrants.tells, allGrants.fair, allGrants.methods⟩ }

/-- Enter a class, name it and open its frame with what it inherits.  The result is its name, its
type and the class around it. -/
def openClass (decl : ClassDecl) : Check (String × TypeId × Option ClassContext) := do
  let name := (← get).qualifiedName decl.name.name
  let parent ← parentOf decl
  let type ← onTable fun table => table.addType { kind := .object, name := name, parent := parent }
  noteType decl.node.id type
  discard (declare .type name type decl.node.span)
  modify fun checker => { checker with classes := checker.classes.push type }
  onScopes Scopes.push
  inheritMembers type parent
  let outer := (← get).owner
  modify fun checker =>
    { checker with owner := some { type := type, frame := checker.scopes.depth - 1 } }
  return (name, type, outer)

/-- Close the frame of a class, whose symbols become its members. -/
def closeClass (span : Span) (name : String) (type : TypeId) (outer : Option ClassContext) :
    Check Unit := do
  let members ← closeFrame
  let table ← table
  let fieldCount := (members.filter fun id => (table.symbol id).kind = .field).length
  updateType type fun desc =>
    { desc with members := members, fieldCount := fieldCount, pending := [] }
  modify fun checker => { checker with owner := outer }
  inform ("class '" ++ name ++ "' has " ++ toString fieldCount ++ " field(s) and " ++
    toString (members.length - fieldCount) ++ " method(s)") span

theorem checkClass_eq (decl : ClassDecl) :
    checkClass decl = openClass decl >>= fun (name, type, outer) =>
      checkMembers name decl >>= fun _ => closeClass decl.node.span name type outer := by
  rfl

theorem openClass_begins {outer : Option ClassContext}
    (ran : Ran (openClass decl) before (name, type, outer) after) (settled : before.IsSettled none)
    (guarded : before.IsGuarded) (depth : before.scopes.depth = 2) (noOwner : before.owner = none) :
    name = before.qualifiedName decl.name.name ∧ outer = none ∧
      ∃ theirs, before.Begins rules decl type theirs after := by
  replace ran := ran.get_bind
  obtain ⟨parent, s₁, parentRan, ran⟩ := ran.bind
  obtain ⟨_, s₂, addRan, ran⟩ := ran.bind
  obtain ⟨_, s₃, noteRan, ran⟩ := ran.bind
  obtain ⟨_, s₄, declareRan, ran⟩ := ran.bind
  obtain ⟨_, s₅, listRan, ran⟩ := ran.bind
  obtain ⟨_, s₆, openRan, ran⟩ := ran.bind
  obtain ⟨_, s₇, inheritRan, ran⟩ := ran.bind
  replace ran := ran.get_bind
  obtain ⟨_, s₈, ownerRan, ran⟩ := ran.bind
  obtain ⟨same, rfl⟩ := ran.pure
  obtain rfl := ownerRan.modify
  cases addRan
  obtain ⟨rfl, rfl, rfl⟩ : name = before.qualifiedName decl.name.name ∧
      type = s₁.table.nextType ∧ outer = s₇.owner := by simpa using same
  have parentVisits := parentOf_visits parentRan settled.valid
  have isParent : ∀ other, parent = some other → s₁.table.HasType other ∧
      s₁.table.isClass other :=
    fun other => parentOf_isClass parentRan settled.valid
  have starts : before.Proceeds none s₁ := parentVisits.proceeds
  have depth₁ : s₁.scopes.depth = 2 := (congrArg Place.depth parentVisits.place).trans depth
  have opens : s₁.Opens rules _ _ _ s₆ := enterClass_opens noteRan declareRan listRan openRan
    (starts.leaves.isSettled settled) (starts.guarded guarded) isParent depth₁
  have notOpen : ∀ other, s₁.table.HasType other → other ≠ s₁.table.nextType := by
    rintro _ has rfl
    exact absurd has (Nat.lt_irrefl _)
  have parentBefore : ∀ other, parent = some other → s₆.table.HasType other ∧
      s₆.table.isClass other ∧ other ≠ s₁.table.nextType := fun other same => by
    obtain ⟨has, otherClass⟩ := isParent other same
    exact ⟨opens.grows.hasType has, (opens.grows.isClass has).trans otherClass, notOpen other has⟩
  obtain ⟨leaves, isOpen, isPacked, popped, symbols⟩ :=
    inheritMembers_isOpen inheritRan opens.isOpen opens.current opens.parent parentBefore
  have place : s₇.place = { before.place with depth := 3 } := by
    rw [leaves.place, opens.place, parentVisits.place]
  have owner : some (ClassContext.mk s₁.table.nextType (s₇.scopes.depth - 1)) =
      some ⟨s₁.table.nextType, 2⟩ := by rw [isOpen.depth]
  have grows : before.table.Grows s₇.table := starts.grows.trans (opens.grows.trans leaves.grows)
  have descs : ∀ other, before.table.HasType other →
      s₇.table.desc other = before.table.desc other := fun other has => by
    have has₁ := starts.grows.hasType has
    rw [leaves.descs other (opens.grows.hasType has₁) fun same =>
      notOpen other has₁ (Option.some.inj same), opens.descs other has₁, starts.descs other has]
  have grants : before.Grants rules [] s₇ := (parentVisits.grants.idle opens.grants).idle
    (.of_symbols leaves.grows leaves.tells (congrArg Array.size symbols))
  have deep : ∀ {theirs} {checker : Checker}, checker.IsOpen s₁.table.nextType theirs →
      3 ≤ checker.scopes.depth := fun isOpen => Nat.le_of_eq isOpen.depth.symm
  have fresh : ¬ before.table.HasType s₁.table.nextType := fun has =>
    notOpen _ (starts.grows.hasType has) rfl
  have kept : s₇.kept = (before.notes.setType decl.node.id s₁.table.nextType, before.builtins,
      before.staticInits) := by
    have inherited : s₇.kept = s₆.kept :=
      Checker.kept_of_aside (IsAside.aside_eq asideOnly.inheritMembers inheritRan)
    have opened : s₆.kept = s₄.kept := by
      rw [onScopes_ran openRan, listRan.modify]
      rfl
    have named : s₄.kept = s₃.kept := Checker.kept_of_aside
      (IsAside.aside_eq (asideOnly.discard asideOnly.declareIn) declareRan)
    have started := IsAside.aside_eq asideOnly.parentOf parentRan
    rw [inherited, opened, named, ← Checker.notes_of_aside started,
      ← Checker.builtins_of_aside started, ← Checker.staticInits_of_aside started]
    cases noteRan
    rfl
  have notes : s₇.notes = before.notes.setType decl.node.id s₁.table.nextType :=
    congrArg Prod.fst kept
  have noted : s₇.notes.type? decl.node.id = some s₁.table.nextType := by
    rw [notes, Annotations.type?_setType, if_pos rfl]
  have classes : s₇.classes = before.classes.push s₁.table.nextType := by
    have opened : s₆.classes = s₄.classes.push s₁.table.nextType := by
      rw [onScopes_ran openRan, listRan.modify]
    have named : s₄.classes = s₃.classes := Checker.classes_of_aside
      (IsAside.aside_eq (asideOnly.discard asideOnly.declareIn) declareRan)
    have noted : s₃.classes = s₁.classes := by
      cases noteRan
      rfl
    rw [← parentVisits.classes, ← noted, ← named, ← opened]
    exact leaves.classes
  have types : [DeclUnit.type decl].filterMap (DeclUnit.class? s₇.notes) = [s₁.table.nextType] :=
    filterMap_cons_some noted
  refine ⟨rfl, (congrArg Place.owner place).trans noOwner, _, {
    isOpen := isOpen.setOwner _
    owner := owner
    named := (congrArg TypeDesc.name (leaves.grows.bare_desc _ opens.isOpen.has)).trans opens.named
    place := ?_
    isPacked := ⟨isPacked.addresses, isPacked.next⟩
    fresh := fresh
    inherits := fun other isOther => ?_
    descs := descs
    publishes := parentVisits.publishes.trans (opens.publishes.then_outer leaves.grows
      leaves.tells ?_)
    notes := noted
    classes := classes
    tallies := ⟨?_, ?_, congrArg (·.2.1) kept, fun _ => ⟨?_, .nil _ _, ?_, ?_, ?_, ?_⟩⟩ }⟩
  · simp only [Checker.place, Place.mk.injEq] at place ⊢
    exact ⟨owner, place.2⟩
  · rw [leaves.grows.parent opens.isOpen.has, opens.parent] at isOther
    obtain ⟨has, _, different⟩ := parentBefore other isOther
    refine ⟨leaves.grows.hasType has, different, ?_⟩
    rw [leaves.descs other has fun same => different (Option.some.inj same), isOther]
    rfl
  · rw [← Scopes.outermost_pop (deep isOpen), popped, Scopes.outermost_pop (deep opens.isOpen)]
  · refine ⟨grows, fun id has => ?_, fun _ id lists => lists.mono grows (fun other has _ => ?_)
      fun isOpen => ?_, congrArg Place.loopDepth place, grants.tells⟩
    · have has₁ := starts.grows.hasSymbol has
      exact (leaves.rows id (opens.grows.hasSymbol has₁)).trans
        ((opens.rows id has₁).trans (starts.rows id has (Option.some_ne_none _)))
    · rw [owner, descs other has]
      exact ⟨fun same => notOpen other (starts.grows.hasType has) (Option.some.inj same).symm, rfl⟩
    · rw [noOwner] at isOpen
      cases isOpen
  · exact notes ▸ Annotations.gains_setType _ _ _
  · exact ⟨grants.grows, grants.tells, grants.fair, grants.methods⟩
  · rw [types]
    exact ⟨forall_mem_singleton.mpr ⟨fresh, isOpen.has⟩, nodup_singleton _⟩
  · intro other has otherClass
    rw [types, mem_singleton]
    obtain ⟨has₆, class₆⟩ := leaves.hasType_of_isClass has otherClass
    refine (opens.isClass other has₆ class₆).imp_left fun has₁ => ?_
    rw [opens.grows.isClass has₁] at class₆
    exact (starts.hasType_of_isClass has₁ class₆).1
  · rw [types, ← Array.toList_push]
    exact congrArg _ classes
  · exact (congrArg (·.2.2.toList) kept).trans (append_nil _).symm

theorem checkClass_ran (ran : Ran (checkClass decl) before () after)
    (settled : before.IsSettled none) (guarded : before.IsGuarded) (depth : before.scopes.depth = 2)
    (noOwner : before.owner = none) (names : ∀ name ∈ "this" :: decl.innerNames, rules.inner name) :
    ∃ type theirs inside last,
      Ran (openClass decl) before (before.qualifiedName decl.name.name, type, none) inside ∧
      before.Begins rules decl type theirs inside ∧
      Ran (checkMembers (before.qualifiedName decl.name.name) decl) inside () last ∧
      inside.Packs type last ∧ last.IsOpen type theirs ∧
      inside.Enlists rules (·.owner = some ⟨type, 2⟩) decl.memberUnits
        (decl.statics (before.qualifiedName decl.name.name)) last ∧
      ∃ more, after = { last with
        scopes := last.scopes.pop
        table := last.table.updateType type fun desc => { desc with
          members := last.scopes.current
          fieldCount := (last.table.fieldsOf last.scopes.current).length
          pending := [] }
        owner := none
        diagnostics := last.diagnostics ++ more } := by
  rw [checkClass_eq] at ran
  obtain ⟨⟨name, type, outer⟩, inside, openRan, ran⟩ := ran.bind
  obtain ⟨_, last, membersRan, ran⟩ := ran.bind
  obtain ⟨rfl, rfl, theirs, begins⟩ := openClass_begins openRan settled guarded depth noOwner
  obtain ⟨packs, isOpen, enlists⟩ :=
    checkMembers_isOpen membersRan begins.isOpen begins.owner begins.named names
  refine ⟨type, theirs, inside, last, openRan, begins, membersRan, packs, isOpen, enlists, ?_⟩
  obtain ⟨_, _, closeRan, ran⟩ := ran.bind
  obtain ⟨_, _, tableRan, ran⟩ := ran.bind
  obtain ⟨_, _, updateRan, ran⟩ := ran.bind
  obtain ⟨_, _, restoreRan, informRan⟩ := ran.bind
  obtain ⟨more, rfl⟩ := quiet.inform.reports informRan
  cases closeRan
  cases tableRan
  obtain rfl := updateType_ran updateRan
  obtain rfl := restoreRan.modify
  exact ⟨more, rfl⟩

theorem checkClass_isSettled {fits : Place → Prop} (ran : Ran (checkClass decl) before () after)
    (settled : before.IsSettled none) (guarded : before.IsGuarded) (depth : before.scopes.depth = 2)
    (noOwner : before.owner = none) (names : ∀ name ∈ "this" :: decl.innerNames, rules.inner name) :
    after.IsSettled none ∧ after.IsGuarded ∧ after.place = before.place ∧
      before.Enlists rules fits decl.units (⟨.type, before.qualifiedName decl.name.name,
        decl.node.span⟩ :: decl.statics (before.qualifiedName decl.name.name)) after := by
  obtain ⟨type, theirs, inside, last, _, begins, _, packs, isOpen, enlists, more, rfl⟩ :=
    checkClass_ran ran settled guarded depth noOwner names
  have inherits : ∀ parent, (last.table.desc type).parent = some parent →
      (last.table.desc parent).members = theirs := fun parent isParent => by
    rw [packs.grows.parent begins.isOpen.has] at isParent
    obtain ⟨has, different, members⟩ := begins.inherits parent isParent
    rw [packs.descs parent has fun same => different (Option.some.inj same), members]
  have whole : before.Enlists rules fits _ _ last :=
    .classUnits enlists begins.tallies begins.publishes begins.notes
  have place : last.place = { before.place with owner := some ⟨type, 2⟩, depth := 3 } :=
    packs.place.trans begins.place
  refine ⟨isOpen.close (packs.isPacked begins.isOpen begins.isPacked) inherits rfl rfl rfl
    ⟨more, rfl⟩, isOpen.guarded.pop (Table.updateType_grows isOpen.has rfl) rfl, ?_,
    whole.then_idles ⟨isOpen.close_succeeds (congrArg Place.owner place) rfl rfl rfl ⟨more, rfl⟩,
      rfl, rfl, fun other has _ => ?_,
      .of_symbols (Table.updateType_grows isOpen.has rfl) ⟨more, rfl⟩ rfl⟩
      (.of_outer (Table.updateType_grows isOpen.has rfl) ⟨more, rfl⟩
        (Scopes.outermost_pop (Nat.le_of_eq isOpen.depth.symm)))⟩
  rotate_left
  · rwa [Table.HasType, Table.updateType, Array.size_modify] at has
  obtain ⟨frame, rest, frames, length, _⟩ := isOpen.frames
  have popped : last.scopes.pop.depth = before.scopes.depth := by
    rw [Scopes.pop, Scopes.depth, frames, tail_cons, length, depth]
  simp only [Checker.place, Place.mk.injEq] at place ⊢
  exact ⟨noOwner.symm, place.2.1, place.2.2.1, place.2.2.2.1, popped⟩

end Check
end MicroJava
