import MicroJava.Proofs.Analysis.Names

/-!
# Frames and places

What the steps of a check change beside declarations: frames and bindings, the place of the
next declaration, symbols and types that are filled in, and methods that take the places of
inherited ones.
-/

namespace MicroJava

open List

variable {after before : Checker} {inherited id : SymbolId} {table : Table} {result type : TypeId}
  {name : String} {kind : SymbolKind} {types : List TypeId} {frame : Frame} {rest : List Frame}
  {scopes : Scopes}

/-! ## Frames -/

namespace Frame

theorem find?_rebind (frame : Frame) (name other : String) (id : SymbolId) :
    (frame.rebind name id).2.find? other = if name = other then some id else frame.find? other := by
  rw [rebind]
  split <;> exact frame.find?_insert name other id

theorem replaceFirst_cases (order : Array SymbolId) (old new : SymbolId) :
    (old ∉ order ∧ replaceFirst order old new = order) ∨
      ∃ index, order.toList[index]? = some old ∧
        (replaceFirst order old new).toList = order.toList.set index new := by
  obtain ⟨symbols⟩ := order
  rw [replaceFirst, idxOf?_toArray]
  cases found : symbols.idxOf? old with
  | none => exact .inl ⟨by simpa using idxOf?_eq_none_iff.mp found, rfl⟩
  | some index =>
    obtain ⟨inside, here, _⟩ := idxOf?_eq_some_iff.mp found
    exact .inr ⟨index, List.getElem?_eq_some_iff.mpr ⟨inside, here⟩, Array.toList_setIfInBounds⟩

section Rebinding

variable {old : SymbolId} (bound : frame.find? name = some old)
include bound

theorem order_rebind : (frame.rebind name id).2.order = replaceFirst frame.order old id := by
  rw [rebind, bound]

theorem nodup_order_rebind (nodup : frame.order.toList.Nodup) (fresh : id ∉ frame.order) :
    (frame.rebind name id).2.order.toList.Nodup := by
  rw [order_rebind bound]
  rcases replaceFirst_cases frame.order old id with ⟨_, same⟩ | ⟨index, _, same⟩
  · rwa [same]
  · rw [same]
    exact nodup.set fun member => fresh (Array.mem_toList_iff.mp member)

end Rebinding

theorem bind_takes (free : frame.find? name = none) :
    frame.Takes name id (frame.bind name id) := by
  have missing : frame.bindings.contains name = false := by
    rw [Std.TreeMap.contains_eq_isSome_getElem?]
    exact congrArg Option.isSome free
  rw [Frame.bind, missing]
  exact bindNew_takes free

section Declaring

variable {level : Nat}

theorem declare_taken (found : frame.find? name = some id) :
    frame.declare table level kind name type = (.taken id, table, frame) := by
  rw [declare, found]

theorem declare_ne_taken (free : frame.find? name = none) :
    (frame.declare table level kind name type).1 ≠ .taken id := by
  rw [declare, free]
  cases kind <;> cases level <;> simp

end Declaring
end Frame

namespace Scopes

theorem replace_frames (frames : scopes.frames = frame :: rest) (name : String) (id : SymbolId) :
    (scopes.replace name id).2.frames = (frame.rebind name id).2 :: rest := by
  obtain ⟨_⟩ := scopes
  subst frames
  rfl

theorem bind_frames (frames : scopes.frames = frame :: rest) (name : String) (id : SymbolId) :
    (scopes.bind name id).frames = frame.bind name id :: rest := by
  obtain ⟨_⟩ := scopes
  subst frames
  rfl

theorem setNextSlot_frames (frames : scopes.frames = frame :: rest) (slot : Int) :
    (scopes.setNextSlot slot).frames = { frame with nextSlot := slot } :: rest := by
  obtain ⟨_⟩ := scopes
  subst frames
  rfl

theorem frames_of_findLocal? (found : scopes.findLocal? name = some id) :
    ∃ frame rest, scopes.frames = frame :: rest ∧ frame.find? name = some id := by
  cases frames : scopes.frames with
  | nil => simp [Scopes.findLocal?, frames] at found
  | cons frame rest =>
    refine ⟨frame, rest, rfl, ?_⟩
    simpa [Scopes.findLocal?, frames] using found

theorem insertIn_cons (frames : scopes.frames = frame :: rest) :
    scopes.insertIn false table kind name type =
      ((frame.declare table (rest.length - 1) kind name type).1,
        (frame.declare table (rest.length - 1) kind name type).2.1,
        ⟨(frame.declare table (rest.length - 1) kind name type).2.2 :: rest⟩) := by
  obtain ⟨_⟩ := scopes
  subst frames
  rfl

end Scopes

/-! ## Places -/

/-- Where a declaration stands. -/
structure Place where
  owner : Option ClassContext
  space : Option String
  isInside : Bool
  loopDepth : Nat
  depth : Nat

namespace Checker

/-- Where the next declaration stands. -/
def place (checker : Checker) : Place where
  owner := checker.owner
  space := checker.space
  isInside := checker.method.isSome
  loopDepth := checker.loopDepth
  depth := checker.scopes.depth

theorem qualifiedName_eq (same : after.place = before.place) :
    after.qualifiedName = before.qualifiedName := by
  have owner : after.owner = before.owner := congrArg Place.owner same
  have space : after.space = before.space := congrArg Place.space same
  have inside : after.method.isSome = before.method.isSome := congrArg Place.isInside same
  funext name
  rw [qualifiedName, qualifiedName, owner, space]
  cases atEnd : after.method with
  | none =>
    rw [atEnd, Option.isSome_none, eq_comm, Option.isSome_eq_false_iff, Option.isNone_iff_eq_none]
      at inside
    rw [inside]
  | some context =>
    rw [atEnd, Option.isSome_some, eq_comm, Option.isSome_iff_exists] at inside
    obtain ⟨other, inside⟩ := inside
    rw [inside]
    cases before.space <;> cases before.owner <;> rfl

theorem Visits.place {nodes : List NodeId} (visits : before.Visits nodes after) :
    after.place = before.place := by
  simp only [Checker.place, visits.owner, visits.space, visits.method_isSome, visits.loopDepth,
    visits.scopes]

section

variable (same : after.aside = before.aside)
include same

theorem builtins_of_aside : after.builtins = before.builtins := by
  change after.aside.builtins = before.aside.builtins
  rw [same]

theorem notes_of_aside : after.notes = before.notes := by
  change after.aside.notes = before.aside.notes
  rw [same]

theorem staticInits_of_aside : after.staticInits = before.staticInits := by
  change after.aside.staticInits = before.aside.staticInits
  rw [same]

theorem classes_of_aside : after.classes = before.classes := by
  change after.aside.classes = before.aside.classes
  rw [same]

theorem owner_of_aside : after.owner = before.owner := by
  change after.aside.owner = before.aside.owner
  rw [same]

theorem place_of_aside (depth : after.scopes.depth = before.scopes.depth) :
    after.place = before.place := by
  have place : after.aside.place = before.aside.place := by rw [same]
  have owner : after.owner = before.owner := congrArg Place.owner place
  have space : after.space = before.space := congrArg Place.space place
  have inside : after.method.isSome = before.method.isSome := congrArg Place.isInside place
  have loopDepth : after.loopDepth = before.loopDepth := congrArg Place.loopDepth place
  simp only [Checker.place, owner, space, inside, loopDepth, depth]

end

/-- An instance method takes the place of an inherited one. -/
structure Overrides (before : Checker) (name : String) (result : TypeId) (types : List TypeId)
    (inherited id : SymbolId)
    (after : Checker) : Prop where
  aside : after.aside = before.aside
  tells : before.Tells after
  fresh : id = before.table.nextSymbol
  used : before.table.HasType result
  owner : ∃ context, before.owner = some context ∧
    inherited ∈ (before.table.desc context.type).pending ∧
    after.table = (before.table.addSymbol (.declared .method name result 1)).2.updateType
      context.type fun desc => { desc with pending := desc.pending.erase inherited }
  bound : ∃ frame rest, before.scopes.frames = frame :: rest ∧
    frame.find? name = some inherited ∧ after.scopes.frames = (frame.rebind name id).2 :: rest
  fits : Check.overrideProblem? (before.table.addSymbol (.declared .method name result 1)).2
    ((before.table.addSymbol (.declared .method name result 1)).2.symbol inherited) result types =
      none

theorem Overrides.findAt? (overrides : before.Overrides name result types inherited id after) :
    before.scopes.findAt? (before.scopes.depth - 1) name = some inherited ∧
      ∀ number other, after.scopes.findAt? number other =
        if number = before.scopes.depth - 1 ∧ name = other then some id
        else before.scopes.findAt? number other := by
  obtain ⟨frame, rest, frames, found, frames'⟩ := overrides.bound
  have place : rest.length = before.scopes.depth - 1 := by rw [Scopes.depth, frames]; rfl
  rw [← place]
  exact ⟨(Scopes.findAt?_of_frames [] frames name).trans found,
    Scopes.findAt?_redirect [] frames frames' fun other => frame.find?_rebind name other id⟩

theorem Overrides.depth (overrides : before.Overrides name result types inherited id after) :
    after.scopes.depth = before.scopes.depth := by
  obtain ⟨frame, rest, frames, _, frames'⟩ := overrides.bound
  rw [Scopes.depth, Scopes.depth, frames, frames']
  rfl

end Checker

/-! ## Steps -/

namespace Check

variable {α : Type} {method : MethodDecl}

theorem updateSymbol_ran {change : Symbol → Symbol}
    (ran : Ran (updateSymbol id change) before () after) :
    after = { before with table := before.table.updateSymbol id change } :=
  (congrArg Prod.snd ran).symm

theorem updateType_ran {change : TypeDesc → TypeDesc}
    (ran : Ran (updateType type change) before () after) :
    after = { before with table := before.table.updateType type change } :=
  (congrArg Prod.snd ran).symm

theorem onScopes_ran {act : Scopes → Scopes} (ran : Ran (onScopes act) before () after) :
    after = { before with scopes := act before.scopes } :=
  (congrArg Prod.snd ran).symm

theorem insideMethod_ran {context : MethodContext} {body : Check α} {value : α}
    {locals : List SymbolId} {between : Checker}
    (ran : Ran (insideMethod context body) before (value, locals) between)
    (fillRan : Ran (updateSymbol id fun symbol => { symbol with locals := locals })
      between () after) :
    ∃ last, Ran body { before with scopes := before.scopes.push, method := some context }
      value last ∧
      after = { last with
        scopes := last.scopes.pop
        method := before.method
        table := last.table.updateSymbol id fun symbol =>
          { symbol with locals := last.scopes.current } } := by
  replace ran := ran.get_bind
  obtain ⟨_, s₁, pushRan, ran⟩ := ran.bind
  cases pushRan
  obtain ⟨_, s₂, contextRan, ran⟩ := ran.bind
  cases contextRan
  obtain ⟨value, last, bodyRan, ran⟩ := ran.bind
  obtain ⟨locals, s₃, closeRan, ran⟩ := ran.bind
  cases closeRan
  obtain ⟨_, s₄, restoreRan, ran⟩ := ran.bind
  cases restoreRan
  obtain ⟨same, rfl⟩ := ran.pure
  cases same
  exact ⟨last, bodyRan, updateSymbol_ran fillRan⟩

theorem forM_address_ran {entries : List (SymbolId × Int)}
    (ran : Ran (entries.forM fun (param, slot) =>
      updateSymbol param fun symbol => { symbol with address := slot }) before () after)
    (fits : ∀ entry ∈ entries, before.table.HasSymbol entry.1 ∧
      (before.table.symbol entry.1).address = entry.2) :
    before = after := by
  induction entries with
  | nil => exact ran.forM_nil
  | cons entry rest ih =>
    obtain ⟨between, entryRan, restRan⟩ := ran.forM_cons
    obtain ⟨has, address⟩ := fits entry mem_cons_self
    cases entryRan
    have same : before.table.updateSymbol entry.1 (fun symbol =>
        { symbol with address := entry.2 }) = before.table :=
      Table.updateSymbol_eq_self has (by rw [← address])
    simp only [same] at restRan
    exact ih restRan fun entry member => fits entry (mem_cons_of_mem _ member)

theorem copySlots_ran (ran : Ran (copySlots id inherited) before () after)
    (slots : before.table.AreSlots (before.table.symbol id).locals)
    (inheritedSlots : before.table.AreSlots (before.table.symbol inherited).locals) :
    before = after := by
  replace ran := ran.table_bind
  refine forM_address_ran ran fun entry member => ?_
  obtain ⟨index, found⟩ := mem_iff_getElem?.mp member
  rw [getElem?_zip_eq_some] at found
  obtain ⟨param, address⟩ := found
  rw [getElem?_map, Option.map_eq_some_iff] at address
  obtain ⟨theirs, inheritedParam, same⟩ := address
  obtain ⟨has, _, _, slot⟩ := slots index _ param
  obtain ⟨_, _, _, inheritedSlot⟩ := inheritedSlots index _ inheritedParam
  exact ⟨has, by rw [slot, ← same, inheritedSlot]⟩

theorem parentOf_visits {decl : ClassDecl} {parent : Option TypeId}
    (ran : Ran (parentOf decl) before parent after)
    (valid : before.table.IsValid) :
    before.Visits [] after := by
  cases written : decl.parent with
  | none =>
    rw [parentOf, written] at ran
    obtain ⟨_, rfl⟩ := ran.pure
    exact .refl _
  | some ref =>
    rw [parentOf, written] at ran
    obtain ⟨type, s₁, typeRan, ran⟩ := ran.bind
    replace ran := ran.table_bind
    have visits := (resolveType_visits typeRan valid).1
    split_ifs at ran
    · obtain ⟨_, rfl⟩ := ran.pure
      exact visits
    · obtain ⟨_, rfl⟩ := ran.pure
      exact visits
    · obtain ⟨_, s₂, reportRan, ran⟩ := ran.bind
      obtain ⟨_, rfl⟩ := ran.pure
      exact visits.then_reports (quiet.mismatch.reports reportRan)

theorem resolveResult_visits (ran : Ran (resolveResult method) before result after)
    (valid : before.table.IsValid) :
    before.Visits [] after ∧ after.table.HasType result ∧ (result = .none ∨ result.IsProper) := by
  cases written : method.result with
  | none =>
    rw [resolveResult, written] at ran
    obtain ⟨rfl, rfl⟩ := ran.pure
    exact ⟨.refl _, valid.hasType_basic (by decide), .inl rfl⟩
  | some ref =>
    rw [resolveResult, written] at ran
    obtain ⟨visits, used, typed⟩ := resolveType_visits ran valid
    exact ⟨visits, used, typed.imp_left And.left⟩

theorem paramTypes_visits {params : List Param}
    (ran : Ran (params.mapM fun param => resolveType param.type param.isArray) before types after)
    (valid : before.table.IsValid) :
    before.Visits [] after ∧ types.length = params.length ∧ ∀ type ∈ types,
      after.table.HasType type ∧ (after.IsClean → type.IsProper) ∧
        ∃ ref isArray early late, Ran (resolveType ref isArray) early type late ∧
          before.Visits [] early := by
  induction params generalizing before types with
  | nil =>
    obtain ⟨rfl, rfl⟩ := ran.pure
    exact ⟨.refl _, rfl, nofun⟩
  | cons param rest ih =>
    rw [mapM_cons] at ran
    obtain ⟨type, s₁, typeRan, ran⟩ := ran.bind
    obtain ⟨others, s₂, restRan, ran⟩ := ran.bind
    obtain ⟨rfl, rfl⟩ := ran.pure
    obtain ⟨visits, used, typed⟩ := resolveType_visits typeRan valid
    obtain ⟨restVisits, length, proper⟩ := ih restRan (visits.table.valid valid)
    refine ⟨visits.trans restVisits, congrArg (· + 1) length, fun other member => ?_⟩
    rcases mem_cons.mp member with rfl | member
    · exact ⟨restVisits.table.grows.hasType used, fun clean =>
        typed.resolve_left fun missing => (restVisits.tells.isClean clean).error_notMem missing.2,
        _, _, before, s₁, typeRan, .refl _⟩
    · obtain ⟨used, proper, ref, isArray, early, late, found, earlier⟩ := proper other member
      exact ⟨used, proper, ref, isArray, early, late, found, visits.trans earlier⟩

theorem pendingOverride?_ran {found : Option (SymbolId × TypeId)}
    (ran : Ran (pendingOverride? name) before found after) :
    before = after ∧ ∀ inherited owner, found = some (inherited, owner) →
      before.scopes.findLocal? name = some inherited ∧ ∃ context, before.owner = some context ∧
        context.type = owner ∧ inherited ∈ (before.table.desc owner).pending := by
  replace ran := ran.get_bind
  split at ran
  next existing context isFound isOwner =>
    split_ifs at ran with pending
    · obtain ⟨rfl, rfl⟩ := ran.pure
      refine ⟨rfl, fun _ _ same => ?_⟩
      cases same
      exact ⟨isFound, context, isOwner, rfl, contains_iff_mem.mp pending⟩
    · obtain ⟨rfl, rfl⟩ := ran.pure
      exact ⟨rfl, nofun⟩
  next =>
    obtain ⟨rfl, rfl⟩ := ran.pure
    exact ⟨rfl, nofun⟩

theorem declareInstanceMethod_ran {overridden : Option SymbolId}
    (ran : Ran (declareInstanceMethod method result types) before (id, overridden) after)
    (used : before.table.HasType result) :
    overridden = none ∧
        Ran (declareIn false .method method.name.name result method.node.span) before id after ∨
      overridden = none ∧ id = before.table.nextSymbol ∧ (∃ violation span,
        Ran (report violation span) { before with table := (before.table.addSymbol
          (.declared .method method.name.name result 1)).2 } () after) ∨
      ∃ inherited, overridden = some inherited ∧
        before.Overrides method.name.name result types inherited id after := by
  obtain ⟨pending, s₁, pendingRan, ran⟩ := ran.bind
  obtain ⟨rfl, found⟩ := pendingOverride?_ran pendingRan
  cases pending with
  | none =>
    obtain ⟨_, s₂, declareRan, ran⟩ := ran.bind
    obtain ⟨same, rfl⟩ := ran.pure
    cases same
    exact .inl ⟨rfl, declareRan⟩
  | some entry =>
    obtain ⟨inherited, owner⟩ := entry
    obtain ⟨isBound, context, isOwner, rfl, mayOverride⟩ := found inherited owner rfl
    obtain ⟨added, s₂, addRan, ran⟩ := ran.bind
    cases addRan
    replace ran := ran.table_bind
    dsimp only at ran
    split at ran
    · obtain ⟨_, told, reportRan, ran⟩ := ran.bind
      obtain ⟨same, rfl⟩ := ran.pure
      cases same
      exact .inr (.inl ⟨rfl, rfl, _, _, reportRan⟩)
    next fits =>
      obtain ⟨_, s₃, replaceRan, ran⟩ := ran.bind
      obtain ⟨_, s₄, updateRan, ran⟩ := ran.bind
      obtain ⟨_, s₅, informRan, ran⟩ := ran.bind
      obtain ⟨same, rfl⟩ := ran.pure
      cases same
      obtain ⟨more, rfl⟩ := quiet.inform.reports informRan
      cases replaceRan
      cases updateRan
      obtain ⟨frame, rest, frames, bound⟩ := Scopes.frames_of_findLocal? isBound
      exact .inr (.inr ⟨inherited, rfl, {
        aside := rfl
        tells := ⟨more, rfl⟩
        fresh := rfl
        used := used
        owner := ⟨context, isOwner, mayOverride, rfl⟩
        bound := ⟨frame, rest, frames, bound, Scopes.replace_frames frames _ _⟩
        fits := fits }⟩)

theorem seed_ran (ran : Ran (seed kind name type) before id after)
    (frames : before.scopes.frames = [frame]) :
    (frame.find? name = none ∧ before.Declares false kind name type id after) ∨
      (frame.find? name = some id ∧ before = after) := by
  obtain ⟨result, s₁, bindRan, ran⟩ := ran.bind
  obtain ⟨rfl, rfl⟩ := ran.pure
  have isResult : (before.scopes.insertIn false before.table kind name type).1 = result :=
    congrArg Prod.fst bindRan
  have isState : { before with
      table := (before.scopes.insertIn false before.table kind name type).2.1
      scopes := (before.scopes.insertIn false before.table kind name type).2.2 } = s₁ :=
    congrArg Prod.snd bindRan
  rw [Scopes.insertIn_cons frames] at isResult isState
  cases found : frame.find? name with
  | none =>
    refine .inl ⟨rfl, ?_⟩
    cases result with
    | fresh id => exact bind_fresh bindRan nofun
    | taken id => exact absurd isResult (Frame.declare_ne_taken found)
  | some id =>
    rw [Frame.declare_taken found] at isResult isState
    refine .inr ⟨by rw [← isResult]; rfl, ?_⟩
    have scopes : before.scopes = ⟨[frame]⟩ := by rw [← frames]
    rw [← isState, ← scopes]

end Check
end MicroJava
