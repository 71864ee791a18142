import MicroJava.Proofs.Analysis.Params

/-!
# Methods of any program

A method is entered, bound or not, and checked in a frame of its own.  Whatever is reported on
the way, the names that were visible before are visible again, and the method itself is all
that was filled in.
-/

namespace MicroJava

open List

variable {after before checker between : Checker} {types : List TypeId} {receiver : Option TypeId}
  {name text own : String} {id declared : SymbolId} {result type : TypeId} {method : MethodDecl}
  {overridden : Option SymbolId} {table : Table} {level : Nat} {context : ClassContext}
  {nodes : List NodeId} {rules : Rules}

/-- The types of the parameters of a method. -/
def Table.formals (table : Table) (id : SymbolId) : List TypeId :=
  ((table.symbol id).locals.take (table.symbol id).paramCount).map fun param =>
    (table.symbol param).type

/-- The class of the receiver of a method, if it has one. -/
def MethodDecl.receiver? (method : MethodDecl) (around : Option TypeId) : Option TypeId :=
  if method.isStatic then none else around

/-- The class of the receiver of a unit, if it has one. -/
def DeclUnit.receiver? (around : Option TypeId) : DeclUnit → Option TypeId
  | .type _ => none
  | .init _ => none
  | .method decl => decl.receiver? around

/-- A static initializer is listed. -/
def DeclUnit.inits (id : SymbolId) : DeclUnit → List SymbolId
  | .type _ => []
  | .init _ => [id]
  | .method _ => []

namespace Checker

/-- A state in which a method can be checked. -/
structure IsRegular (checker : Checker) : Prop where
  valid : checker.table.IsValid
  orderly : checker.table.IsOrderly
  filled : checker.table.IsFilled
  depth : checker.scopes.depth = checker.owner.isSome.toNat + 2
  owner : ∀ context, checker.owner = some context → checker.table.HasType context.type ∧
    (∀ id ∈ (checker.table.desc context.type).pending, checker.table.HasSymbol id) ∧
    context.type.IsProper

theorem qualifiedName_of_inside (inside : checker.method.isSome) (name : String) :
    checker.qualifiedName name = name := by
  obtain ⟨context, isMethod⟩ := Option.isSome_iff_exists.mp inside
  rw [qualifiedName, isMethod]
  cases checker.space <;> cases checker.owner <;> rfl

theorem qualifiedName_of_owner (owner : checker.owner = some context) (name : String) :
    checker.qualifiedName name = name := by
  rw [qualifiedName, owner]
  cases checker.space <;> rfl

/-- What is recorded beside symbols and types. -/
def kept (checker : Checker) : Annotations × Builtins × Array SymbolId :=
  (checker.notes, checker.builtins, checker.staticInits)

theorem kept_of_aside (aside : after.aside = before.aside) : after.kept = before.kept := by
  have same := congrArg kept aside
  exact same

/-- What is declared here without a receiver is marked by the namespace or the class around. -/
def IsMarking (checker : Checker) : Prop :=
  checker.owner.isSome ∨ checker.space.isSome ∧ checker.method = none

/-- Statements were checked, with the given number of loops around them. -/
def Checks (stmts : List Stmt) (loopDepth : Nat) (after : Checker) : Prop :=
  ∃ early late, Check.Ran (Check.checkStmts stmts) early () late ∧ early.table.IsValid ∧
    early.loopDepth = loopDepth ∧ late.Tells after

/-- Statements are checked after variables are declared, and little happens after them. -/
structure Examines (rules : Rules) (id : SymbolId) (body : List Stmt)
    (before early late after : Checker) : Prop where
  inside : before.Inside (some id) early
  grants : before.Grants rules [] early
  valid : early.table.IsValid
  starts : early.aside = before.aside
  ran : Check.Ran (Check.checkStmts body) early () late
  grows : late.table.Grows after.table
  size : after.table.symbols.size = late.table.symbols.size
  count : (after.table.symbol id).paramCount = (early.table.symbol id).paramCount
  ends : after.kept = late.kept
  tells : late.Tells after

/-- The parameters, the locals and the statements of a method are checked in a frame of its own,
and the method is filled in. -/
structure Completes (id : SymbolId) (formals : List Formal)
    (before after : Checker) : Prop extends Proceeds (some id) before after where
  scopes : after.scopes = before.scopes
  accepts : after.Accepts formals
    ((after.table.symbol id).locals.take (after.table.symbol id).paramCount)

/-- A method is entered, bound or not. -/
inductive Enrols (before : Checker) (own : String) (receiver : Option TypeId) (result : TypeId)
    (types : List TypeId) (id : SymbolId)
    (after : Checker) : Prop
  | unbound
      {text : String}
      (isNext : id = before.table.nextSymbol)
      (adds : before.table.Adds (.declared .method text result receiver.isSome.toNat) after.table)
      (proceeds : before.Proceeds none after)
      (scopes : after.scopes = before.scopes)
      (rejected : ¬ after.IsClean)
  | bound
      {outer : Bool}
      {name : String}
      (introduces : before.Introduces outer .method name result id after)
      (depth : before.scopes.depth = outer.toNat + 2 + receiver.isSome.toNat)
      (isOwn : receiver.isSome → name = own)
      (isMarked : receiver = none → before.IsMarking → IsQualified name)
  | overriding
      {inherited : SymbolId}
      (overrides : before.Overrides own result types inherited id after)
      (hasReceiver : receiver.isSome)

variable {target : Option SymbolId}

theorem Checks.mono {stmts : List Stmt} {loopDepth : Nat} (checks : between.Checks stmts loopDepth)
    (tells : between.Tells after) :
    after.Checks stmts loopDepth := by
  obtain ⟨early, late, ran, valid, depth, told⟩ := checks
  exact ⟨early, late, ran, valid, depth, told.trans tells⟩

theorem Examines.checks {body : List Stmt} {early late : Checker}
    (examines : before.Examines rules id body early late after) :
    after.Checks body before.loopDepth :=
  ⟨early, late, examines.ran, examines.valid, congrArg Place.loopDepth examines.inside.place,
    examines.tells⟩

theorem Completes.formals {formals : List Formal} (completes : before.Completes id formals after)
    (clean : after.IsClean) :
    after.table.formals id = formals.map Formal.type :=
  completes.accepts.map_type clean

theorem Proceeds.isRegular (proceeds : before.Proceeds target after) (regular : before.IsRegular) :
    after.IsRegular where
  valid := proceeds.valid regular.valid
  orderly := proceeds.orderly regular.orderly
  filled := proceeds.filled regular.filled
  depth := by
    have owner : after.owner = before.owner := congrArg Place.owner proceeds.place
    rw [owner, ← regular.depth]
    exact congrArg Place.depth proceeds.place
  owner context isOwner := by
    obtain ⟨has, pending, proper⟩ :=
      regular.owner context ((congrArg Place.owner proceeds.place).symm.trans isOwner)
    refine ⟨proceeds.grows.hasType has, fun id member => proceeds.grows.hasSymbol (pending id ?_),
      proper⟩
    rwa [proceeds.descs _ has] at member

theorem Visits.isRegular (visits : before.Visits nodes after) (regular : before.IsRegular) :
    after.IsRegular :=
  (visits.proceeds : before.Proceeds none after).isRegular regular

theorem retains_updateType {change : TypeDesc → TypeDesc} (has : before.table.HasType type)
    (keeps : (change (before.table.desc type)).bare = (before.table.desc type).bare)
    (table : after.table = before.table.updateType type change) (place : after.place = before.place)
    (classes : after.classes = before.classes) (tells : before.Tells after)
    (guarded : before.table.Grows after.table → before.IsGuarded → after.IsGuarded) :
    before.Retains after := by
  have grows : before.table.Grows after.table := table ▸ Table.updateType_grows has keeps
  have symbols : after.table.symbols = before.table.symbols := table ▸ rfl
  have sizes : after.table.types.size = before.table.types.size := table ▸ Array.size_modify
  exact {
    valid := fun isValid => isValid.of_bare grows (congrArg Array.size symbols) sizes
    orderly := fun isOrderly => isOrderly.of_symbols symbols (table ▸ rfl)
    filled := fun isFilled => isFilled.of_symbols symbols grows
    grows := grows
    arrays := fun type hasType fresh => by
      rw [Table.HasType, sizes] at hasType
      exact absurd hasType fresh
    place := place
    classes := classes
    tells := tells
    guarded := guarded grows }

theorem addMethod_adds (table : Table) (name : String) (type : TypeId) (level : Nat) :
    table.Adds (.declared .method name type level)
      (table.addSymbol (.declared .method name type level)).2 :=
  Table.addSymbol_adds rfl

namespace Overrides

variable {inherited : SymbolId}
    (overrides : before.Overrides name result types inherited id after)
include overrides

theorem symbols :
    after.table.symbols = (before.table.addSymbol (.declared .method name result 1)).2.symbols := by
  obtain ⟨context, _, _, table⟩ := overrides.owner
  rw [table]
  rfl

theorem symbol_eq (other : SymbolId) :
    after.table.symbol other =
      (before.table.addSymbol (.declared .method name result 1)).2.symbol other := by
  rw [Table.symbol, Table.symbolRow, overrides.symbols]
  rfl

theorem outermost (depth : before.scopes.depth = 3) :
    after.scopes.outermost = before.scopes.outermost := by
  obtain ⟨frame, rest, frames, _, frames'⟩ := overrides.bound
  have pop : after.scopes.pop = before.scopes.pop := by
    rw [Scopes.pop, Scopes.pop, frames, frames']
    rfl
  rw [← Scopes.outermost_pop (Nat.le_of_eq depth.symm), ← pop,
    Scopes.outermost_pop (Nat.le_of_eq (overrides.depth.trans depth).symm)]

theorem desc_owner (regular : before.IsRegular) (isOwner : before.owner = some context) :
    after.table.desc context.type = { before.table.desc context.type with
      pending := (before.table.desc context.type).pending.erase inherited } := by
  obtain ⟨other, isOther, _, table⟩ := overrides.owner
  obtain rfl : context = other := Option.some.inj (isOwner.symm.trans isOther)
  have has := (regular.owner context isOwner).1
  rw [table, Table.desc_updateType_self ((addMethod_adds _ _ _ _).grows.hasType has),
    (addMethod_adds _ _ _ _).desc_eq]

theorem desc_of_ne (regular : before.IsRegular) (isOwner : before.owner = some context)
    (has : before.table.HasType type) (different : type ≠ context.type) :
    after.table.desc type = before.table.desc type := by
  obtain ⟨other, isOther, _, table⟩ := overrides.owner
  obtain rfl : context = other := Option.some.inj (isOwner.symm.trans isOther)
  have hasOwner := (regular.owner context isOwner).1
  rw [table, Table.desc_updateType_of_ne ((addMethod_adds _ _ _ _).grows.hasType hasOwner)
    ((addMethod_adds _ _ _ _).grows.hasType has) different, (addMethod_adds _ _ _ _).desc_eq]

theorem hasSymbol : after.table.HasSymbol id := by
  rw [Table.HasSymbol, overrides.symbols, overrides.fresh]
  exact ((addMethod_adds _ _ _ _).hasSymbol_iff _).mpr (.inr rfl)

theorem symbol_new : after.table.symbol id = .declared .method name result 1 := by
  rw [overrides.symbol_eq, overrides.fresh]
  exact (addMethod_adds _ _ _ _).symbol_new

theorem retains (regular : before.IsRegular) : before.Retains after := by
  obtain ⟨context, isOwner, _, table⟩ := overrides.owner
  have entered : before.Proceeds none
      { before with table := (before.table.addSymbol (.declared .method name result 1)).2 } :=
    proceeds_addMethod before name 1 overrides.used
  refine entered.toRetains.trans (retains_updateType
    (entered.grows.hasType (regular.owner context isOwner).1) rfl table
    (place_of_aside overrides.aside overrides.depth) (classes_of_aside overrides.aside)
    overrides.tells fun grows guarded => ?_)
  obtain ⟨frame, rest, frames, _, frames'⟩ := overrides.bound
  refine guarded.change grows (show _ = [] ++ frame :: rest from frames) frames'
    fun other id found => ?_
  rw [Frame.find?_rebind] at found
  split_ifs at found with same
  · obtain rfl := Option.some.inj found
    -- The frame of the class has two frames around it.
    have level : rest.length - 1 = 1 := by
      have depth := regular.depth
      rw [isOwner, Scopes.depth, frames, length_cons] at depth
      exact congrArg (· - 2) depth
    have row := overrides.symbol_new
    refine .inr ⟨overrides.hasSymbol, ?_, ?_, ?_,
      overrides.fresh ▸ Check.nextSymbol_ne_absent regular.valid, ?_⟩ <;> rw [row]
    · exact level.symm
    · exact same
    · exact SymbolKind.noConfusion
    · exact SymbolKind.noConfusion
  · exact .inl found

theorem row {other : SymbolId} (has : before.table.HasSymbol other) :
    after.table.symbol other = before.table.symbol other := by
  rw [overrides.symbol_eq]
  exact (addMethod_adds _ _ _ _).symbol_eq has

end Overrides

namespace Enrols

variable (enrols : before.Enrols own receiver result types id after)
include enrols

theorem isNext : id = before.table.nextSymbol := by
  cases enrols with
  | unbound isNext => exact isNext
  | bound introduces => exact introduces.fresh
  | overriding overrides => exact overrides.fresh

theorem fresh : ¬ before.table.HasSymbol id :=
  enrols.isNext ▸ before.table.not_hasSymbol_nextSymbol

theorem hasSymbol_iff (other : SymbolId) :
    after.table.HasSymbol other ↔ before.table.HasSymbol other ∨ other = id := by
  rw [enrols.isNext]
  cases enrols with
  | unbound _ adds => exact adds.hasSymbol_iff other
  | bound introduces =>
    obtain ⟨address, adds, _⟩ := introduces.adds
    exact adds.hasSymbol_iff other
  | overriding overrides =>
    rw [Table.HasSymbol, overrides.symbols]
    exact (addMethod_adds _ _ _ _).hasSymbol_iff other

theorem hasSymbol : after.table.HasSymbol id := (enrols.hasSymbol_iff id).mpr (.inr rfl)

theorem row : ∃ name address, after.table.symbol id =
      { Symbol.declared .method name result receiver.isSome.toNat with address := address } ∧
    (after.IsClean → (receiver.isSome → name = own) ∧
      (receiver = none → before.IsMarking → IsQualified name)) := by
  cases enrols with
  | unbound isNext adds _ _ rejected =>
    exact ⟨_, _, isNext ▸ adds.symbol_new, fun clean => absurd clean rejected⟩
  | bound introduces depth isOwn isMarked =>
    obtain ⟨address, adds, _⟩ := introduces.adds
    have level (outer : Bool) : (outer.toNat + 2 + receiver.isSome.toNat - 2 -
        if outer then 1 else 0) = receiver.isSome.toNat := by
      cases outer
      · exact Nat.add_sub_cancel_left _ _
      · exact Nat.add_sub_cancel_left 3 _
    exact ⟨_, address, by rw [introduces.fresh, adds.symbol_new, depth, level], fun _ =>
      ⟨isOwn, isMarked⟩⟩
  | overriding overrides hasReceiver =>
    refine ⟨_, _, overrides.symbol_new.trans (by rw [hasReceiver]; rfl), fun _ =>
      ⟨fun _ => rfl, fun none => ?_⟩⟩
    rw [none] at hasReceiver
    cases hasReceiver

theorem kind : (after.table.symbol id).kind = .method := by
  obtain ⟨name, address, row, _⟩ := enrols.row
  rw [row]
  rfl

theorem symbol_type : (after.table.symbol id).type = result := by
  obtain ⟨name, address, row, _⟩ := enrols.row
  rw [row]
  rfl

theorem symbol_level : (after.table.symbol id).level = receiver.isSome.toNat := by
  obtain ⟨name, address, row, _⟩ := enrols.row
  rw [row]
  rfl

theorem isQualified (clean : after.IsClean) (none : receiver = none) (marks : before.IsMarking) :
    IsQualified (after.table.symbol id).name := by
  obtain ⟨name, address, row, named⟩ := enrols.row
  rw [row]
  exact (named clean).2 none marks

theorem grants (retains : before.Retains after)
    (typed : result = .none ∨ result.IsProper) (isInner : receiver.isSome → rules.inner own) :
    before.Grants rules [id] after := by
  refine .of_new retains.grows retains.tells (fun other => (enrols.hasSymbol_iff other).mp)
    (fun clean => ?_) fun _ => mem_singleton_self id
  obtain ⟨name, address, row, named⟩ := enrols.row
  rw [row]
  refine ⟨nofun, typed, fun level => ?_, nofun⟩
  have hasReceiver : receiver.isSome := by
    by_contra missing
    exact level (by simp [Symbol.declared, missing])
  rw [show name = own from (named clean).1 hasReceiver]
  exact isInner hasReceiver

theorem retains (regular : before.IsRegular) : before.Retains after := by
  cases enrols with
  | unbound _ _ proceeds => exact proceeds.toRetains
  | bound introduces => exact (introduces.proceeds : before.Proceeds none after).toRetains
  | overriding overrides => exact overrides.retains regular

theorem desc_eq (regular : before.IsRegular) (has : before.table.HasType type)
    (other : ∀ context, before.owner = some context → context.type ≠ type) :
    after.table.desc type = before.table.desc type := by
  cases enrols with
  | unbound _ _ proceeds => exact proceeds.descs type has
  | bound introduces => exact (introduces.proceeds : before.Proceeds none after).descs type has
  | overriding overrides =>
    obtain ⟨context, isOwner, _⟩ := overrides.owner
    exact overrides.desc_of_ne regular isOwner has (other context isOwner).symm

end Enrols

end Checker

namespace Check

theorem checkBody_inside
    (ran : Ran (checkBody id receiver method result types overridden) before () after)
    (valid : before.table.IsValid) (orderly : before.table.IsOrderly)
    (deep : 3 ≤ before.scopes.depth) (inside : before.method.isSome) (slotted : before.IsSlotted)
    (empty : before.scopes.current = []) (has : before.table.HasSymbol id)
    (used : ∀ formal ∈ method.formals receiver types, before.table.HasType formal.type ∧
      (before.IsClean → formal.type.IsProper) ∧ rules.inner formal.name)
    (inherited : ∀ other, overridden = some other → before.table.HasSymbol other)
    (names : ∀ name ∈ method.localNames, rules.inner name) :
    before.Inside (some id) after ∧
      (∃ early late, before.Examines rules id method.body early late after ∧
        after.scopes = early.scopes) ∧
      ∃ params, params <+: after.scopes.current ∧
        (after.table.symbol id).paramCount = params.length ∧
        after.Accepts (method.formals receiver types) params := by
  obtain ⟨_, s₁, paramsRan, ran⟩ := ran.bind
  obtain ⟨_, s₂, localsRan, ran⟩ := ran.bind
  obtain ⟨_, s₃, stmtsRan, ran⟩ := ran.bind
  replace ran := ran.get_bind
  obtain ⟨params, grants, count, accepts⟩ := checkParams_inside paramsRan valid orderly deep slotted
    empty has used inherited
  have valid₁ := params.valid valid
  have deep₁ : 3 ≤ s₁.scopes.depth := params.depth.symm ▸ deep
  have inside₁ : s₁.method.isSome := (congrArg Place.isInside params.place).trans inside
  -- The locals follow the parameters in the frame.
  obtain ⟨⟨locals, grantsLocals⟩, _⟩ := localsRan.forM_publishes
    (motive := fun checker => s₁.Inside none checker ∧ s₁.Grants rules [] checker) (fun _ => [])
    (fun decl isDecl early late declRan ⟨inside, grants⟩ => by
      obtain ⟨insideLate, publishes⟩ := checkVars_keeps declRan (fun _ => [])
        (motive := fun checker => s₁.Inside none checker) (fun _ inside => inside.valid valid₁)
        (fun early late visits inside => inside.trans
          (.of_scopes visits.proceeds visits.scopes (by rw [inside.depth]; omega)))
        (fun _ _ type id early late introduces _ inside => inside.trans
          (.of_introduces introduces (inside.depth.symm ▸ deep₁)))
        (.inl rfl) (fun _ inside => by
          rw [inside.depth]
          exact ⟨by omega, nofun, fun _ => if_neg (by omega)⟩) inside
      refine ⟨⟨insideLate, grants.idle (checkVars_grants declRan (inside.valid valid₁) (.inl rfl)
        (by rw [inside.depth]; exact ⟨by omega, nofun⟩) fun _ item isItem => ?_)⟩,
        flatMap_nothing decl.items ▸ publishes⟩
      rw [Checker.qualifiedName_of_inside ((congrArg Place.isInside inside.place).trans inside₁)]
      exact names _ (mem_append_right _ (mem_flatMap.mpr
        ⟨decl, isDecl, mem_map_of_mem isItem⟩)))
    ⟨.of_scopes (.refl _) rfl (by omega), .refl _⟩
  have visits := (walksOver_checkStmts _).visits stmtsRan (locals.valid valid₁)
  have told := quiet.require.reports ran
  have rest : s₁.Inside none after := locals.trans (.of_scopes
    (visits.then_reports told).proceeds (visits.then_reports told).scopes
    (by rw [locals.depth]; omega))
  have hasEarly := locals.grows.hasSymbol (params.grows.hasSymbol has)
  refine ⟨params.trans rest.widen, ⟨s₂, s₃, ?_, told.visits.scopes.trans visits.scopes⟩,
    s₁.scopes.current, rest.prefix_current, ?_, accepts.mono rest.grows rest.tells⟩
  · exact {
      inside := params.trans locals.widen
      grants := grants.trans grantsLocals
      valid := locals.valid valid₁
      starts := (IsAside.aside_eq (asideOnly.forM fun _ => asideOnly.checkVars) localsRan).trans
        (IsAside.aside_eq asideOnly.checkParams paramsRan)
      ran := stmtsRan
      grows := told.visits.table.grows
      size := by obtain ⟨more, rfl⟩ := told; rfl
      count := by
        rw [told.visits.table.symbol_eq (visits.table.grows.hasSymbol hasEarly),
          visits.table.symbol_eq hasEarly]
      ends := by obtain ⟨more, rfl⟩ := told; rfl
      tells := told.visits.tells }
  · rw [rest.rows id (params.grows.hasSymbol has) nofun, count]

end Check

variable {formals : List Formal}

theorem Checker.Inside.completes {context : MethodContext} {params : List SymbolId}
    {last : Checker} (inside : Checker.Inside (some id)
      { before with scopes := before.scopes.push, method := some context } last)
    (has : before.table.HasSymbol id) (listed : params <+: last.scopes.current)
    (count : (last.table.symbol id).paramCount = params.length)
    (accepts : last.Accepts formals params) (ends : after = { last with
      scopes := last.scopes.pop
      method := before.method
      table := last.table.updateSymbol id fun symbol =>
        { symbol with locals := last.scopes.current } }) :
    before.Completes id formals after := by
  have slotted : Checker.IsSlotted
      { before with scopes := before.scopes.push, method := some context } :=
    fun frame rest frames => (List.cons.inj frames).1 ▸ Frame.isSlotted_empty _
  have hasNow : last.table.HasSymbol id := inside.grows.hasSymbol has
  have slots := (inside.isSlotted slotted).areSlots
  have update : last.Proceeds (some id)
    { last with table := last.table.updateSymbol id fun symbol =>
      { symbol with locals := last.scopes.current } } :=
    Checker.proceeds_updateSymbol hasNow rfl slots fun _ => count ▸ listed.length_le
  have fills := inside.toProceeds.trans update
  have scopes : after.scopes = before.scopes := by
    rw [ends]
    exact inside.pop_eq
  have place : after.place = before.place := by
    have inner := fills.place
    rw [Checker.place, Checker.place, Place.mk.injEq] at inner
    obtain ⟨owner, space, _, loopDepth, _⟩ := inner
    rw [Checker.place, Checker.place, scopes, ends, Place.mk.injEq]
    exact ⟨owner, space, rfl, loopDepth, rfl⟩
  have row : (last.table.updateSymbol id fun symbol =>
      { symbol with locals := last.scopes.current }).symbol id =
        { last.table.symbol id with locals := last.scopes.current } :=
    Table.symbol_updateSymbol_self hasNow _
  have typed : last.table.Grows after.table := by
    rw [ends]
    exact (Table.updateSymbol_grows hasNow rfl)
  exact {
    valid := by rw [ends]; exact fills.valid
    orderly := by rw [ends]; exact fills.orderly
    filled := by rw [ends]; exact fills.filled
    grows := by rw [ends]; exact fills.grows
    rows := by rw [ends]; exact fills.rows
    descs := by rw [ends]; exact fills.descs
    arrays := by rw [ends]; exact fills.arrays
    place := place
    classes := by rw [ends]; exact fills.classes
    tells := by rw [ends]; exact fills.tells
    guarded := fun guarded => by
      have entered : Checker.IsGuarded
          { before with scopes := before.scopes.push, method := some context } :=
        guarded.push rfl rfl
      exact (inside.guarded entered).pop typed (by rw [ends])
    scopes := scopes
    accepts := by
      have rowNow : after.table.symbol id =
          { last.table.symbol id with locals := last.scopes.current } := by
        rw [ends]
        exact row
      rw [rowNow, count, ← prefix_iff_eq_take.mp listed]
      exact accepts.mono typed (.of_eq (by rw [ends])) }

theorem Table.hasSymbol_addSymbol (table : Table) (symbol : Symbol) :
    (table.addSymbol symbol).2.HasSymbol table.nextSymbol :=
  Nat.lt_of_lt_of_eq (Nat.lt_succ_self _) (Array.size_push _).symm

theorem Checker.Completes.after_visits (completes : between.Completes id formals after)
    (visits : before.Visits nodes between) :
    before.Completes id formals after where
  toProceeds := visits.proceeds.trans completes.toProceeds
  scopes := completes.scopes.trans visits.scopes
  accepts := completes.accepts

namespace Check

theorem of_overrideProblem?_eq_none {inherited : Symbol}
    (none : overrideProblem? table inherited result types = none) :
    inherited.type = result ∧ inherited.paramCount = types.length + 1 ∧
      ∀ entry ∈ types.zip ((inherited.locals.drop 1).map fun id => (table.symbol id).type),
        table.assignable entry.1 entry.2 := by
  rw [overrideProblem?] at none
  split_ifs at none with type count
  refine ⟨by simpa using type, by simpa using count, fun entry member => ?_⟩
  obtain ⟨index, found⟩ := mem_iff_getElem?.mp member
  rw [Option.map_eq_none_iff, find?_eq_none] at none
  have fits := none (entry, index) (mem_zipIdx_iff_getElem?.mpr found)
  simpa using fits

theorem not_isAbsent_nextSymbol (valid : table.IsValid) : ¬ table.nextSymbol.isAbsent := by
  intro absent
  have same : table.nextSymbol = .absent := by simpa [SymbolId.isAbsent] using absent
  exact table.not_hasSymbol_nextSymbol (same ▸ valid.hasSymbol_absent)

theorem declareIn_enrols {outer : Bool} {span : Span}
    (ran : Ran (declareIn outer .method name result span) before declared between)
    (orRan : Ran (orUnbound declared text result receiver.isSome.toNat) between id after)
    (valid : before.table.IsValid)
    (depth : before.scopes.depth = outer.toNat + 2 + receiver.isSome.toNat)
    (used : before.table.HasType result)
    (listed : (if before.scopes.depth = outer.toNat + 2 then [⟨.method, name, span⟩] else []) =
      names)
    (isOwn : receiver.isSome → name = own)
    (isMarked : receiver = none → before.IsMarking → IsQualified name) :
    before.Enrols own receiver result types id after ∧ before.Publishes names after := by
  have deep : outer.toNat + 2 ≤ before.scopes.depth := by omega
  have publishes := listed ▸ declareIn_publishes ran deep
  rcases declareIn_introduces ran valid (fun _ => by omega) used nofun nofun nofun with
    ⟨rfl, reports, rejected⟩ | introduces
  · have table : between.table = before.table := by
      obtain ⟨more, rfl⟩ := reports
      rfl
    have usedNow : between.table.HasType result := by rwa [table]
    have proceeds : between.Proceeds none _ :=
      Checker.proceeds_addMethod between text receiver.isSome.toNat usedNow
    cases orRan
    exact ⟨.unbound (by rw [table])
      (by rw [← table]; exact Checker.addMethod_adds between.table text result _)
      (reports.proceeds.trans proceeds) reports.visits.scopes rejected.not_isClean,
      publishes.then_outer proceeds.grows (.refl _) rfl⟩
  · rw [introduces.fresh, orUnbound, if_neg (not_isAbsent_nextSymbol valid)] at orRan
    obtain ⟨rfl, rfl⟩ := orRan.pure
    exact ⟨.bound (introduces.fresh ▸ introduces) depth isOwn isMarked, publishes⟩

theorem declareInstanceMethod_enrols
    (ran : Ran (declareInstanceMethod method result types) before (declared, overridden) between)
    (orRan : Ran (orUnbound declared text result receiver.isSome.toNat) between id after)
    (regular : before.IsRegular) (used : before.table.HasType result)
    (hasReceiver : receiver.isSome) (depth : before.scopes.depth = 3) :
    (before.Enrols method.name.name receiver result types id after ∧ before.Publishes [] after) ∧
      ∀ other, overridden = some other → before.table.HasSymbol other := by
  have present := not_isAbsent_nextSymbol regular.valid
  rcases declareInstanceMethod_ran ran used with
    ⟨rfl, declareRan⟩ | ⟨rfl, rfl, _, _, reportRan⟩ | ⟨inherited, rfl, overrides⟩
  · refine ⟨declareIn_enrols declareRan orRan regular.valid (by rw [depth, hasReceiver]; rfl) used
      (if_neg (by rw [depth]; decide)) (fun _ => rfl) fun none => ?_, nofun⟩
    rw [none] at hasReceiver
    cases hasReceiver
  · have reports := quiet.report.reports reportRan
    rw [orUnbound, if_neg present] at orRan
    obtain ⟨rfl, rfl⟩ := orRan.pure
    have adds : before.table.Adds (.declared .method method.name.name result
        receiver.isSome.toNat) between.table := by
      obtain ⟨more, rfl⟩ := reports
      rw [hasReceiver]
      exact Checker.addMethod_adds _ _ _ _
    have proceeds : before.Proceeds none between :=
      (Checker.proceeds_addMethod _ _ _ used).trans reports.proceeds
    exact ⟨⟨.unbound rfl adds proceeds reports.visits.scopes
      (not_isClean_report reportRan), .of_outer proceeds.grows proceeds.tells
      (congrArg Scopes.outermost reports.visits.scopes)⟩, nofun⟩
  · rw [orUnbound, overrides.fresh, if_neg present, ← overrides.fresh] at orRan
    obtain ⟨rfl, rfl⟩ := orRan.pure
    have grows := (overrides.retains regular).grows
    refine ⟨⟨.overriding overrides hasReceiver, .of_outer grows overrides.tells
      (overrides.outermost depth)⟩, fun other same => ?_⟩
    cases same
    obtain ⟨context, isOwner, mayOverride, _⟩ := overrides.owner
    exact (regular.owner context isOwner).2.1 inherited mayOverride

theorem isQualified_qualifiedName (noOwner : before.owner = none) (marks : before.IsMarking)
    (name : String) :
    IsQualified (before.qualifiedName name) := by
  rcases marks with hasOwner | ⟨hasSpace, outside⟩
  · rw [noOwner] at hasOwner
    cases hasOwner
  · obtain ⟨space, isSpace⟩ := Option.isSome_iff_exists.mp hasSpace
    rw [Checker.qualifiedName, isSpace, noOwner, outside]
    exact isQualified_qualify space name

theorem declareMethod_enrols
    (ran : Ran (declareMethod method result types) before (declared, overridden) between)
    (orRan : Ran (orUnbound declared text result
      (method.receiver? (before.owner.map ClassContext.type)).isSome.toNat) between id after)
    (regular : before.IsRegular) (used : before.table.HasType result) :
    (before.Enrols method.name.name (method.receiver? (before.owner.map ClassContext.type)) result
        types id after ∧
      before.Publishes (before.methodGlobals method) after) ∧
      ∀ other, overridden = some other → before.table.HasSymbol other := by
  replace ran := ran.get_bind
  have depth := regular.depth
  rw [Checker.methodGlobals]
  cases isOwner : before.owner with
  | none =>
    have noReceiver : method.receiver? none = none := ite_self none
    rw [isOwner] at depth orRan
    simp only [isOwner] at ran
    obtain ⟨_, s₁, declareRan, ran⟩ := ran.bind
    obtain ⟨same, rfl⟩ := ran.pure
    cases same
    refine ⟨declareIn_enrols declareRan orRan regular.valid ?_ used (if_pos depth) ?_
      fun _ marks => isQualified_qualifiedName isOwner marks _, nofun⟩
    · rw [Option.map_none, noReceiver]
      exact depth
    · rw [Option.map_none, noReceiver]
      exact nofun
  | some context =>
    rw [isOwner] at depth orRan
    simp only [isOwner] at ran
    simp only [Option.map_some, MethodDecl.receiver?, MethodDecl.statics] at orRan ⊢
    split_ifs at ran with isStatic
    · obtain ⟨_, s₁, declareRan, ran⟩ := ran.bind
      obtain ⟨same, rfl⟩ := ran.pure
      cases same
      simp only [if_pos isStatic] at orRan ⊢
      exact ⟨declareIn_enrols declareRan orRan regular.valid depth used (if_pos depth) nofun
        fun _ _ => isQualified_dotted _ _, nofun⟩
    · simp only [if_neg isStatic] at orRan ⊢
      exact declareInstanceMethod_enrols ran orRan regular used rfl depth

theorem resolveType_ne_null {ref : TypeRef} {isArray : Bool}
    (ran : Ran (resolveType ref isArray) before result after) (valid : before.table.IsValid)
    (filled : before.table.IsFilled) :
    result ≠ .null := by
  replace ran := ran.get_bind
  dsimp only at ran
  split_ifs at ran with missing array
  · obtain ⟨_, told, reportRan, ran⟩ := ran.bind
    obtain ⟨rfl, _⟩ := ran.pure
    decide
  all_goals
    rw [Bool.or_eq_true, not_or, bne_iff_ne, not_not] at missing
    set id := before.findTypeRef ref
  · cases ran
    change (before.table.arrayOf _).1 ≠ .null
    rw [Table.arrayOf]
    split
    next found =>
      rintro rfl
      have kind := (Table.arrayOf?_eq_some found).2.1
      rw [filled.null.2] at kind
      cases kind
    · intro same
      have index : before.table.types.size = 4 := congrArg TypeId.index same
      have basic := valid.basic
      omega
  · obtain ⟨rfl, _⟩ := ran.pure
    by_cases has : before.table.HasSymbol id
    · exact filled.names id has missing.2
    · have kind := missing.2
      rw [Table.symbol_of_not_hasSymbol has, valid.kind_absent] at kind
      cases kind

theorem owner_of_receiver
    (hasReceiver : (method.receiver? (before.owner.map ClassContext.type)).isSome) :
    before.owner.isSome := by
  rw [MethodDecl.receiver?] at hasReceiver
  split_ifs at hasReceiver
  · cases hasReceiver
  · rwa [Option.isSome_map] at hasReceiver

theorem isMarking_visits (visits : before.Visits nodes after) (marks : before.IsMarking) :
    after.IsMarking := by
  rw [Checker.IsMarking, visits.owner, visits.space]
  refine marks.imp_right fun ⟨hasSpace, outside⟩ => ⟨hasSpace, ?_⟩
  have same := visits.method_isSome
  rw [outside] at same
  exact Option.not_isSome_iff_eq_none.mp (by rw [same]; decide)

theorem receiver_hasType (regular : before.IsRegular)
    (isReceiver : method.receiver? (before.owner.map ClassContext.type) = some type) :
    before.table.HasType type ∧ type.IsProper := by
  rw [MethodDecl.receiver?] at isReceiver
  split_ifs at isReceiver
  obtain ⟨context, isOwner, rfl⟩ := Option.map_eq_some_iff.mp isReceiver
  exact ⟨(regular.owner context isOwner).1, (regular.owner context isOwner).2.2⟩

theorem formals_hasType (hasReceiver : ∀ type, receiver = some type →
      after.table.HasType type ∧ type.IsProper)
    (hasTypes : ∀ type ∈ types, after.table.HasType type ∧ (after.IsClean → type.IsProper))
    (names : ∀ name ∈ "this" :: method.localNames, rules.inner name) :
    ∀ formal ∈ method.formals receiver types, after.table.HasType formal.type ∧
      (after.IsClean → formal.type.IsProper) ∧ rules.inner formal.name := by
  refine forall_mem_append.mpr ⟨fun formal member => ?_, fun formal member => ?_⟩
  · obtain ⟨type, isReceiver, rfl⟩ := mem_map.mp member
    obtain ⟨used, proper⟩ := hasReceiver type (Option.mem_toList.mp isReceiver)
    exact ⟨used, fun _ => proper, names _ mem_cons_self⟩
  · obtain ⟨⟨param, type⟩, isEntry, rfl⟩ := mem_map.mp member
    obtain ⟨isParam, isType⟩ := of_mem_zip isEntry
    obtain ⟨used, proper⟩ := hasTypes type isType
    exact ⟨used, proper, names _ (mem_cons_of_mem _
      (mem_append_left _ (mem_map_of_mem isParam)))⟩

end Check

namespace Checker

/-- What the check of a unit with code does. -/
structure Treats (rules : Rules) (part : DeclUnit) (formals : List Formal) (id : SymbolId)
    (before entered after : Checker) : Prop where
  fresh : ¬ before.table.HasSymbol id
  has : entered.table.HasSymbol id
  kind : (entered.table.symbol id).kind = .method
  retains : before.Retains entered
  descs : ∀ type, before.table.HasType type → some type ≠ before.owner.map ClassContext.type →
    entered.table.desc type = before.table.desc type
  notes : entered.notes = before.notes
  builtins : entered.builtins = before.builtins
  inits : entered.staticInits.toList = before.staticInits.toList ++ part.inits id
  grants : before.Grants rules [id] entered
  level : (entered.table.symbol id).level =
    (part.receiver? (before.owner.map ClassContext.type)).isSome.toNat
  noResult : ∀ block, part = .init block → (entered.table.symbol id).type = .none
  marked : entered.IsClean → part.receiver? (before.owner.map ClassContext.type) = none →
    before.IsMarking → IsQualified (entered.table.symbol id).name
  completes : entered.Completes id formals after
  examines : ∃ context early late, Examines rules id part.body { entered with
      notes := entered.notes.setSymbol part.node.id id
      scopes := entered.scopes.push
      method := some context } early late after ∧
    context.result = (entered.table.symbol id).type ∧
    context.isStatic = (part.receiver? (before.owner.map ClassContext.type)).isNone ∧
    (after.table.symbol id).locals = early.scopes.current

/-- What the check of a method does. -/
structure Handles (rules : Rules) (method : MethodDecl) (types : List TypeId)
    (id : SymbolId) (before first entered after : Checker) : Prop where
  visits : before.Visits [] first
  length : types.length = method.params.length
  typed : ∀ type ∈ types, first.table.HasType type ∧
    (first.IsClean → type.IsProper ∧ type ≠ .null)
  enrols : ∃ result, first.Enrols method.name.name
    (method.receiver? (before.owner.map ClassContext.type)) result types id entered
  publishes : before.Publishes (before.methodGlobals method) after
  treats : before.Treats rules (.method method)
    (method.formals (method.receiver? (before.owner.map ClassContext.type)) types) id entered after

end Checker

namespace Check

theorem isSlotted_push (checker : Checker) (context : MethodContext) :
    Checker.IsSlotted { checker with scopes := checker.scopes.push, method := some context } :=
  fun _ _ frames => (List.cons.inj frames).1 ▸ Frame.isSlotted_empty _

theorem methodGlobals_eq (visits : before.Visits [] after) (regular : before.IsRegular) :
    after.methodGlobals method = before.methodGlobals method := by
  rw [Checker.methodGlobals, Checker.methodGlobals, visits.owner,
    Checker.qualifiedName_eq visits.place]
  cases isOwner : before.owner with
  | none => rfl
  | some owner =>
    exact congrArg (method.statics <| TypeDesc.name ·)
      (visits.table.desc_eq (regular.owner owner isOwner).1)

theorem checkMethod_handles (ran : Ran (checkMethod method) before () after)
    (regular : before.IsRegular) (isInner : before.owner.isSome → rules.inner method.name.name)
    (names : ∀ name ∈ "this" :: method.localNames, rules.inner name) :
    ∃ types id first entered, before.Handles rules method types id first entered after := by
  obtain ⟨result, s₁, resultRan, ran⟩ := ran.bind
  obtain ⟨types, s₂, typesRan, ran⟩ := ran.bind
  replace ran := ran.get_bind
  obtain ⟨⟨declared, overridden⟩, s₃, declareRan, ran⟩ := ran.bind
  obtain ⟨id, s₄, orRan, ran⟩ := ran.bind
  obtain ⟨_, s₅, noteRan, ran⟩ := ran.bind
  obtain ⟨⟨_, locals⟩, s₆, insideRan, ran⟩ := ran.bind
  obtain ⟨resultVisits, usedResult, typed⟩ := resolveResult_visits resultRan regular.valid
  have valid := resultVisits.table.valid regular.valid
  obtain ⟨typesVisits, length, found⟩ := paramTypes_visits typesRan valid
  have usedTypes : ∀ type ∈ types, s₂.table.HasType type ∧
      (s₂.IsClean → type.IsProper ∧ type ≠ .null) := fun type member => by
    obtain ⟨used, proper, _, _, early, _, typeRan, earlier⟩ := found type member
    exact ⟨used, fun clean => ⟨proper clean, resolveType_ne_null typeRan (earlier.table.valid valid)
      ((regular.filled.widens resultVisits.table).widens earlier.table)⟩⟩
  have visits := resultVisits.trans typesVisits
  have regular₂ := visits.isRegular regular
  have levels : ∀ receiver : Option TypeId, (if receiver.isSome then 1 else 0) =
      receiver.isSome.toNat := fun receiver => by cases receiver <;> rfl
  rw [levels] at orRan
  obtain ⟨⟨enrols, publishes⟩, hasInherited⟩ := declareMethod_enrols declareRan orRan regular₂
    (typesVisits.table.grows.hasType usedResult)
  have aside : s₄.aside = before.aside :=
    (IsAside.aside_eq asideOnly.orUnbound orRan).trans
      ((IsAside.aside_eq asideOnly.declareMethod declareRan).trans
        ((IsAside.aside_eq (asideOnly.mapM fun _ => asideOnly.resolveType) typesRan).trans
          (IsAside.aside_eq asideOnly.resolveResult resultRan)))
  have enters := enrols.retains regular₂
  have notes := (noteSymbol_visits noteRan).1
  have grows := enters.grows.trans notes.table.grows
  have depth : s₅.scopes.depth = s₂.scopes.depth :=
    congrArg Place.depth (notes.place.trans enters.place)
  obtain ⟨last, bodyRan, ended⟩ := insideMethod_ran insideRan ran
  obtain ⟨inside, ⟨early, late, examines, current⟩, params, listed, count, accepts⟩ :=
    checkBody_inside bodyRan (notes.table.valid (enters.valid regular₂.valid))
      ((enters.orderly regular₂.orderly).widens notes.table)
      (Nat.succ_le_succ (Nat.le.intro
        ((Nat.add_comm _ _).trans (regular₂.depth.symm.trans depth.symm))))
      rfl (isSlotted_push _ _) rfl (notes.table.grows.hasSymbol enrols.hasSymbol)
      (formals_hasType
        (fun type isReceiver => (receiver_hasType regular₂ isReceiver).imp_left grows.hasType)
        (fun type member => ⟨grows.hasType (usedTypes type member).1, fun clean =>
          ((usedTypes type member).2 ((enters.tells.trans notes.tells).isClean clean)).1⟩) names)
      (fun other same => grows.hasSymbol (hasInherited other same))
      fun name member => names name (mem_cons_of_mem _ member)
  have hasNow := notes.table.grows.hasSymbol enrols.hasSymbol
  have completes := (inside.completes hasNow listed count accepts ended).after_visits notes
  have closed := (inside.grows.hasSymbol hasNow : last.table.HasSymbol id)
  have proceeds : before.Proceeds none s₂ := visits.proceeds
  have granted := enrols.grants enters typed fun hasReceiver =>
    isInner (visits.owner ▸ owner_of_receiver hasReceiver)
  rw [visits.owner] at enrols completes
  cases noteRan
  refine ⟨types, id, s₂, s₄, visits, length, usedTypes, ⟨result, enrols⟩,
    methodGlobals_eq visits regular ▸ visits.publishes.trans (publishes.then_outer completes.grows
      completes.tells (by rw [completes.scopes])), ?_⟩
  exact {
    fresh := fun early => enrols.fresh (visits.table.grows.hasSymbol early)
    has := enrols.hasSymbol
    kind := enrols.kind
    retains := proceeds.toRetains.trans enters
    descs := fun type has other => by
      rw [enrols.desc_eq regular₂ (visits.table.grows.hasType has) fun context isOwner same => ?_,
        proceeds.descs type has]
      rw [visits.owner] at isOwner
      exact other (by rw [isOwner, Option.map_some, same])
    notes := Checker.notes_of_aside aside
    builtins := Checker.builtins_of_aside aside
    inits := by
      rw [Checker.staticInits_of_aside aside]
      exact (append_nil _).symm
    grants := visits.grants.trans granted
    level := enrols.symbol_level
    noResult := fun _ isInit => by cases isInit
    marked := fun clean none marks => enrols.isQualified clean none (isMarking_visits visits marks)
    completes := completes
    examines := by
      have row : after.table.symbol id =
          { last.table.symbol id with locals := last.scopes.current } := by
        rw [ended]
        exact Table.symbol_updateSymbol_self closed _
      refine ⟨_, early, late, { examines with
        grows := ?_
        size := ?_
        count := by rw [row]; exact examines.count
        ends := by rw [ended]; exact examines.ends
        tells := examines.tells.trans (.of_eq (by rw [ended])) }, enrols.symbol_type.symm, ?_, ?_⟩
      · rw [ended]
        exact examines.grows.trans (Table.updateSymbol_grows closed rfl)
      · rw [ended, ← examines.size]
        exact Array.size_modify
      · rw [visits.owner]
        rfl
      · rw [row]
        exact congrArg Scopes.current current }

theorem checkStaticInit_treats {owner : String} {index : Nat} {init : StaticInit}
    (ran : Ran (checkStaticInit owner index init) before () after) (regular : before.IsRegular) :
    before.Proceeds none after ∧ after.scopes = before.scopes ∧
      ∃ id entered, before.Treats rules (.init init) [] id entered after := by
  obtain ⟨id, s₁, addRan, ran⟩ := ran.bind
  obtain ⟨_, s₂, noteRan, ran⟩ := ran.bind
  obtain ⟨_, s₃, listRan, ran⟩ := ran.bind
  obtain ⟨⟨_, locals⟩, s₄, insideRan, ran⟩ := ran.bind
  have used : before.table.HasType .none := regular.valid.hasType_basic (by decide)
  obtain ⟨last, bodyRan, ended⟩ := insideMethod_ran insideRan ran
  cases addRan
  cases noteRan
  cases listRan
  set id := before.table.nextSymbol
  set table := (before.table.addSymbol
    (.declared .method (dotted owner ("static#" ++ toString index)) .none 0)).2
  let entered : Checker := { before with
    table := table
    staticInits := before.staticInits.push id }
  have adds := Checker.addMethod_adds before.table
    (dotted owner ("static#" ++ toString index)) .none 0
  have enters : before.Proceeds none entered :=
    (Checker.proceeds_addMethod before _ 0 used).trans
      (Checker.proceeds_of_table rfl rfl rfl (.refl _) fun guarded =>
        guarded.of_scopes (.refl _) rfl)
  have has : entered.table.HasSymbol id := Table.hasSymbol_addSymbol _ _
  have row : entered.table.symbol id =
      .declared .method (dotted owner ("static#" ++ toString index)) .none 0 := adds.symbol_new
  have valid := enters.valid regular.valid
  let noted : Checker := { entered with notes := entered.notes.setSymbol init.node.id id }
  let opened : Checker := { noted with
    scopes := noted.scopes.push
    method := some { symbol := id, result := .none, isStatic := true } }
  have visits : opened.Visits _ last := (walksOver_checkStmts _).visits bodyRan valid
  have inside : opened.Inside (some id) last :=
    .of_scopes visits.proceeds visits.scopes (Nat.succ_pos _)
  have count : (last.table.symbol id).paramCount = ([] : List SymbolId).length := by
    rw [visits.table.symbol_eq has]
    exact congrArg Symbol.paramCount row
  have notes : entered.Visits [init.node.id] noted := (noteSymbol_visits rfl).1
  have completes : noted.Completes id [] after :=
    inside.completes has nil_prefix count .nil ended
  have fresh : ¬ before.table.HasSymbol id := before.table.not_hasSymbol_nextSymbol
  have completed := completes.after_visits notes
  refine ⟨(enters.widen.trans completed.toProceeds).forget fresh, completed.scopes, id, entered, ?_⟩
  exact {
    fresh := fresh
    has := has
    kind := by rw [row]; rfl
    retains := enters.toRetains
    descs := fun type has _ => enters.descs type has
    notes := rfl
    builtins := rfl
    inits := Array.toList_push
    grants := .of_new enters.grows enters.tells (fun other => (adds.hasSymbol_iff other).mp)
      (fun _ => row ▸ ⟨nofun, .inl rfl, fun inside => absurd rfl inside, nofun⟩)
      fun _ => mem_singleton_self id
    level := congrArg Symbol.level row
    noResult := fun _ _ => congrArg Symbol.type row
    marked := fun _ _ _ => row ▸ isQualified_dotted _ _
    completes := completed
    examines := by
      have hasLast := (inside.grows.hasSymbol has : last.table.HasSymbol id)
      have rowLast : after.table.symbol id =
          { last.table.symbol id with locals := last.scopes.current } := by
        rw [ended]
        exact Table.symbol_updateSymbol_self hasLast _
      refine ⟨_, opened, last, ⟨.of_scopes (.refl _) rfl (Nat.succ_pos _), .refl _, valid, rfl,
        bodyRan, ?_, ?_, ?_, by rw [ended]; rfl, .of_eq (by rw [ended])⟩,
        (congrArg Symbol.type row).symm, rfl, ?_⟩
      · rw [ended]
        exact (Table.updateSymbol_grows hasLast rfl)
      · rw [ended]
        exact Array.size_modify
      · rw [rowLast, ← visits.table.symbol_eq has]
      · rw [rowLast]
        exact congrArg Scopes.current visits.scopes }

end Check
end MicroJava
