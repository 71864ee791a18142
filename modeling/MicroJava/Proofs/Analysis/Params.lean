import MicroJava.Proofs.Analysis.Fairness

/-!
# Parameters of any program

A method is checked in a frame of its own, whose symbols have the slots of their positions.
-/

namespace MicroJava

open List

variable {after before : Checker} {ids : List SymbolId} {target : Option SymbolId} {name : String}
  {type : TypeId} {receiver : Option TypeId} {id : SymbolId} {method : MethodDecl}
  {types : List TypeId} {rules : Rules}

/-! ## Frames of methods -/

/-- The variables of a frame have the slots of their positions. -/
structure Frame.IsSlotted (table : Table) (frame : Frame) : Prop where
  slots : table.AreSlots frame.order.toList
  next : frame.nextSlot = frame.order.size
  names : ∀ name id, frame.find? name = some id → id ∈ frame.order.toList

theorem Frame.isSlotted_empty (table : Table) : ({} : Frame).IsSlotted table :=
  ⟨table.areSlots_nil, rfl, fun _ _ found => by simp [find?] at found⟩

variable {frame : Frame} {table : Table}

theorem Frame.IsSlotted.declare {after : Frame} {later : Table} {level : Nat}
    (slotted : frame.IsSlotted table)
    (declared : frame.declare table level .var name type = (.fresh id, later, after))
    (inner : level ≠ 0) :
    after.IsSlotted later := by
  obtain ⟨fresh, takes, address, adds, _, slot⟩ := Frame.declare_fresh declared
  obtain ⟨isNext, next⟩ := slot (.inl ⟨rfl, inner⟩)
  have order : after.order.toList = frame.order.toList ++ [id] := by
    rw [takes.order, Array.toList_push]
  refine ⟨fun index other found => ?_, ?_, fun other otherId found => ?_⟩
  · rw [order, getElem?_append] at found
    split at found
    · exact slotted.slots.grows adds.grows index other found
    next past =>
      rw [getElem?_singleton] at found
      split at found
      next here =>
        obtain rfl := Option.some.inj found
        have row : later.symbol id = _ := fresh ▸ adds.symbol_new
        rw [row]
        refine ⟨fresh ▸ (adds.hasSymbol_iff _).mpr (.inr rfl), rfl, inner, ?_⟩
        rw [Array.length_toList] at here past
        rw [show index = frame.order.size by omega]
        exact isNext.trans slotted.next
      next => cases found
  · rw [next, slotted.next, takes.order, Array.size_push]
    rfl
  · rw [takes.find] at found
    rw [order, mem_append, mem_singleton]
    split_ifs at found
    · exact .inr (Option.some.inj found).symm
    · exact .inl (slotted.names other otherId found)

theorem Frame.IsSlotted.kind (slotted : frame.IsSlotted table)
    (found : frame.find? name = some id) :
    (table.symbol id).kind = .var := by
  obtain ⟨index, isIndex⟩ := mem_iff_getElem?.mp (slotted.names name id found)
  exact (slotted.slots index id isIndex).2.1

namespace Checker

/-- Steps that declare variables in the innermost frame. -/
structure Inside (target : Option SymbolId) (before after : Checker) : Prop extends
    Proceeds target before after where
  frames : ∃ frame frame' rest, before.scopes.frames = frame :: rest ∧
    after.scopes.frames = frame' :: rest ∧ frame.order.toList <+: frame'.order.toList ∧
    (frame.IsSlotted before.table → frame'.IsSlotted after.table)
  fresh : ∀ id ∈ after.scopes.current,
    id ∈ before.scopes.current ∨ ¬ before.table.HasSymbol id

namespace Inside

theorem trans {first second third : Checker} (inside : first.Inside target second)
    (next : second.Inside target third) :
    first.Inside target third := by
  obtain ⟨frame, middle, rest, frames, middleFrames, added, slotted⟩ := inside.frames
  obtain ⟨_, last, _, sameFrames, lastFrames, addedNext, slottedNext⟩ := next.frames
  obtain ⟨rfl, rfl⟩ := List.cons.inj (middleFrames.symm.trans sameFrames)
  refine ⟨inside.toProceeds.trans next.toProceeds, ⟨frame, last, rest, frames, lastFrames,
    added.trans addedNext, slottedNext ∘ slotted⟩, fun id member => ?_⟩
  rcases next.fresh id member with member | isNew
  · exact inside.fresh id member
  · exact .inr fun has => isNew (inside.grows.hasSymbol has)

theorem of_scopes (proceeds : before.Proceeds target after) (scopes : after.scopes = before.scopes)
    (deep : 0 < before.scopes.depth) :
    before.Inside target after := by
  obtain ⟨frame, rest, frames⟩ := exists_cons_of_length_pos deep
  exact ⟨proceeds, ⟨frame, frame, rest, frames, scopes ▸ frames, prefix_rfl,
    fun slotted => ⟨slotted.slots.grows proceeds.grows, slotted.next, slotted.names⟩⟩,
    fun id member => .inl (scopes ▸ member)⟩

theorem widen (inside : before.Inside none after) : before.Inside target after :=
  ⟨inside.toProceeds.widen, inside.frames, inside.fresh⟩

theorem of_introduces (introduces : before.Introduces false .var name type id after)
    (deep : 3 ≤ before.scopes.depth) :
    before.Inside target after := by
  obtain ⟨inner, frame, rest, frame', frames, frames', length, declared⟩ := introduces.bound
  obtain rfl := eq_nil_of_length_eq_zero length
  have level : rest.length - 1 ≠ 0 := by
    rw [Scopes.depth, frames] at deep
    simp only [nil_append, length_cons] at deep
    omega
  have order : frame'.order.toList = frame.order.toList ++ [id] := by
    rw [(Frame.declare_fresh declared).2.1.order, Array.toList_push]
  refine ⟨introduces.proceeds, ⟨frame, frame', rest, frames, frames', ?_,
    fun slotted => slotted.declare declared level⟩, fun other member => ?_⟩
  · rw [order]
    exact prefix_append _ _
  · have current : before.scopes.current = frame.order.toList := by rw [Scopes.current, frames]; rfl
    have currentNow : after.scopes.current = frame'.order.toList := by
      rw [Scopes.current, frames']
      rfl
    rw [currentNow, order, mem_append, mem_singleton] at member
    rw [current]
    refine member.imp_right ?_
    rintro rfl
    exact introduces.fresh ▸ before.table.not_hasSymbol_nextSymbol

variable (inside : before.Inside target after)
include inside

theorem depth : after.scopes.depth = before.scopes.depth :=
  congrArg Place.depth inside.place

theorem prefix_current : before.scopes.current <+: after.scopes.current := by
  obtain ⟨frame, frame', rest, frames, frames', added, _⟩ := inside.frames
  rwa [Scopes.current, frames, Scopes.current, frames']

theorem pop_eq : after.scopes.pop = before.scopes.pop := by
  obtain ⟨frame, frame', rest, frames, frames', _⟩ := inside.frames
  rw [Scopes.pop, Scopes.pop, frames, frames', tail_cons, tail_cons]

end Inside
end Checker

namespace Checker

/-- The variables of the innermost frame have the slots of their positions. -/
def IsSlotted (checker : Checker) : Prop :=
  ∀ frame rest, checker.scopes.frames = frame :: rest → frame.IsSlotted checker.table

theorem Inside.isSlotted (inside : before.Inside target after) (slotted : before.IsSlotted) :
    after.IsSlotted := by
  obtain ⟨frame, frame', rest, frames, frames', _, keeps⟩ := inside.frames
  intro last others isLast
  obtain ⟨rfl, rfl⟩ := List.cons.inj (frames'.symm.trans isLast)
  exact keeps (slotted frame _ frames)

theorem IsSlotted.areSlots (slotted : before.IsSlotted) :
    before.table.AreSlots before.scopes.current := by
  rw [Scopes.current]
  split
  · exact before.table.areSlots_nil
  next frame rest frames => exact (slotted frame rest frames).slots

end Checker

/-! ## Parameters -/

/-- A parameter, or the receiver, as it is declared. -/
structure Formal where
  name : String
  type : TypeId
  span : Span

/-- The receiver and the parameters of a method. -/
def MethodDecl.formals (method : MethodDecl) (receiver : Option TypeId)
    (types : List TypeId) : List Formal :=
  receiver.toList.map (⟨"this", ·, method.node.span⟩) ++
    (method.params.zip types).map fun (param, type) => ⟨param.name.name, type, param.span⟩

theorem MethodDecl.map_type_formals (length : types.length = method.params.length) :
    (method.formals receiver types).map Formal.type = receiver.toList ++ types := by
  rw [formals, map_append, map_map, map_map]
  refine congrArg₂ _ (map_id _) ?_
  exact (map_snd_zip (Nat.le_of_eq length) :)

/-- The symbols of parameters, but for the parameters that are rejected. -/
inductive Table.Accepts (table : Table) (rejected : Formal → Prop) :
    List Formal → List SymbolId → Prop
  | nil : Accepts table rejected [] []
  | bound
      {formal : Formal}
      {formals : List Formal}
      {id : SymbolId}
      {ids : List SymbolId}
      (has : table.HasSymbol id)
      (name : (table.symbol id).name = formal.name)
      (type : (table.symbol id).type = formal.type)
      (others : Accepts table rejected formals ids) :
      Accepts table rejected (formal :: formals) (id :: ids)
  | rejected
      {formal : Formal}
      {formals : List Formal}
      {ids : List SymbolId}
      (isRejected : rejected formal)
      (others : Accepts table rejected formals ids) :
      Accepts table rejected (formal :: formals) ids

namespace Table.Accepts

variable {early late : Table} {rejected further : Formal → Prop} {formals more : List Formal}
    {others : List SymbolId}

variable (accepts : early.Accepts rejected formals ids)
include accepts

theorem mono (grows : early.Grows late) (implies : ∀ formal, rejected formal → further formal) :
    late.Accepts further formals ids := by
  induction accepts with
  | nil => exact .nil
  | bound has name type _ ih =>
    exact .bound (grows.hasSymbol has) ((grows.symbol_name has).trans name)
      ((grows.symbol_type has).trans type) ih
  | rejected isRejected _ ih => exact .rejected (implies _ isRejected) ih

theorem append (next : early.Accepts rejected more others) :
    early.Accepts rejected (formals ++ more) (ids ++ others) := by
  induction accepts with
  | nil => exact next
  | bound has name type _ ih => exact .bound has name type ih
  | rejected isRejected _ ih => exact .rejected isRejected ih

theorem forall₂ (none : ∀ formal, ¬ rejected formal) :
    List.Forall₂ (fun formal id => (early.symbol id).name = formal.name ∧
      (early.symbol id).type = formal.type) formals ids := by
  induction accepts with
  | nil => exact .nil
  | bound _ name type _ ih => exact .cons ⟨name, type⟩ ih
  | rejected isRejected => exact absurd isRejected (none _)

theorem map_type (none : ∀ formal, ¬ rejected formal) :
    ids.map (fun id => (early.symbol id).type) = formals.map Formal.type := by
  induction accepts with
  | nil => rfl
  | bound _ _ type _ ih => rw [map_cons, map_cons, type, ih]
  | rejected isRejected => exact absurd isRejected (none _)

end Table.Accepts

namespace Checker

/-- The symbols of parameters, but for those that were rejected. -/
def Accepts (checker : Checker) (formals : List Formal) (ids : List SymbolId) : Prop :=
  checker.table.Accepts (fun formal => checker.Rejects formal.name formal.span) formals ids

variable {formals : List Formal}

theorem Accepts.mono (accepts : before.Accepts formals ids) (grows : before.table.Grows after.table)
    (tells : before.Tells after) :
    after.Accepts formals ids :=
  Table.Accepts.mono accepts grows fun _ rejects => rejects.mono tells

theorem Accepts.map_type (accepts : before.Accepts formals ids) (clean : before.IsClean) :
    ids.map (fun id => (before.table.symbol id).type) = formals.map Formal.type :=
  Table.Accepts.map_type accepts fun _ rejects => rejects.not_isClean clean

end Checker

namespace Check

/-- Declare parameters in the frame of their method. -/
def declareFormals (formals : List Formal) : Check Unit :=
  formals.forM fun formal => Functor.discard (declare .var formal.name formal.type formal.span)

theorem declareVar_inside {formal : Formal}
    (ran : Ran (Functor.discard (declare .var formal.name formal.type formal.span)) before () after)
    (valid : before.table.IsValid) (deep : 3 ≤ before.scopes.depth)
    (used : before.table.HasType formal.type) (proper : before.IsClean → formal.type.IsProper)
    (isInner : rules.inner formal.name) :
    before.Inside none after ∧ before.Grants rules [] after ∧
      ∃ ids, after.scopes.current = before.scopes.current ++ ids ∧ after.Accepts [formal] ids := by
  obtain ⟨id, ran⟩ := ran.discard
  rcases declareIn_introduces ran valid nofun used nofun nofun nofun with
    ⟨_, reports, rejects⟩ | introduces
  · refine ⟨.of_scopes reports.proceeds reports.visits.scopes (by omega), reports.visits.grants,
      [], ?_, .rejected rejects .nil⟩
    rw [reports.visits.scopes, append_nil]
  · exact ⟨.of_introduces introduces deep, introduces.grants
      (fun clean => .inl (proper (introduces.tells.isClean clean))) (fun _ => isInner) nofun nofun,
      [id], introduces.current,
      .bound introduces.hasSymbol introduces.symbol_name introduces.symbol_type .nil⟩

theorem declareFormals_inside {formals : List Formal}
    (ran : Ran (declareFormals formals) before () after) (valid : before.table.IsValid)
    (deep : 3 ≤ before.scopes.depth)
    (used : ∀ formal ∈ formals, before.table.HasType formal.type ∧
      (before.IsClean → formal.type.IsProper) ∧ rules.inner formal.name) :
    before.Inside none after ∧ before.Grants rules [] after ∧
      ∃ ids, after.scopes.current = before.scopes.current ++ ids ∧ after.Accepts formals ids := by
  induction formals generalizing before with
  | nil =>
    obtain rfl := ran.forM_nil
    exact ⟨.of_scopes (.refl _) rfl (by omega), .refl _, [], (append_nil _).symm, .nil⟩
  | cons formal rest ih =>
    obtain ⟨between, firstRan, restRan⟩ := ran.forM_cons
    rw [forall_mem_cons] at used
    obtain ⟨⟨isUsed, proper, isInner⟩, others⟩ := used
    obtain ⟨first, grants, ids, current, accepts⟩ :=
      declareVar_inside firstRan valid deep isUsed proper isInner
    obtain ⟨next, grantsAll, others, currentAll, acceptsAll⟩ := ih restRan (first.valid valid)
      (first.depth.symm ▸ deep) fun other member => by
        obtain ⟨isUsed, proper, isInner⟩ := others other member
        exact ⟨first.grows.hasType isUsed, fun clean => proper (first.tells.isClean clean), isInner⟩
    refine ⟨first.trans next, grants.trans grantsAll, ids ++ others, ?_, ?_⟩
    · rw [currentAll, current, append_assoc]
    · exact (accepts.mono next.grows next.tells).append acceptsAll

theorem checkParams_eq (id : SymbolId) (receiver : Option TypeId) (method : MethodDecl)
    (types : List TypeId) (overridden : Option SymbolId) :
    checkParams id receiver method types overridden = (do
      declareFormals (method.formals receiver types)
      let params := (← get).scopes.current
      updateSymbol id fun symbol => { symbol with paramCount := params.length, locals := params }
      overridden.forM (copySlots id)) := by
  simp only [checkParams, declareFormals, MethodDecl.formals, forM_eq_forM, forM_append,
    forM_map, bind_assoc]
  cases receiver with
  | none => rfl
  | some type => rfl

theorem checkParams_inside {overridden : Option SymbolId}
    (ran : Ran (checkParams id receiver method types overridden) before () after)
    (valid : before.table.IsValid) (orderly : before.table.IsOrderly)
    (deep : 3 ≤ before.scopes.depth) (slotted : before.IsSlotted)
    (empty : before.scopes.current = []) (has : before.table.HasSymbol id)
    (used : ∀ formal ∈ method.formals receiver types, before.table.HasType formal.type ∧
      (before.IsClean → formal.type.IsProper) ∧ rules.inner formal.name)
    (inherited : ∀ other, overridden = some other → before.table.HasSymbol other) :
    before.Inside (some id) after ∧ before.Grants rules [] after ∧
      (after.table.symbol id).paramCount = after.scopes.current.length ∧
      after.Accepts (method.formals receiver types) after.scopes.current := by
  rw [checkParams_eq] at ran
  obtain ⟨_, s₁, paramsRan, ran⟩ := ran.bind
  replace ran := ran.get_bind
  obtain ⟨_, s₂, updateRan, ran⟩ := ran.bind
  obtain ⟨inside, grants, ids, current, accepts⟩ := declareFormals_inside paramsRan valid deep used
  rw [empty, nil_append] at current
  have slots := (inside.isSlotted slotted).areSlots
  have filled : s₁.Inside (some id) s₂ := by
    rw [updateSymbol_ran updateRan]
    exact .of_scopes (Checker.proceeds_updateSymbol (inside.grows.hasSymbol has) rfl slots
      fun _ => Nat.le_refl _) rfl (by rw [inside.depth]; omega)
  have row : s₂.table.symbol id = { s₁.table.symbol id with
      paramCount := s₁.scopes.current.length, locals := s₁.scopes.current } := by
    rw [updateSymbol_ran updateRan]
    exact Table.symbol_updateSymbol_self (inside.grows.hasSymbol has) _
  have scopes : s₂.scopes = s₁.scopes := by rw [updateSymbol_ran updateRan]
  have whole := inside.widen.trans filled
  -- The slots of inherited parameters are those that the parameters have anyway.
  obtain rfl : s₂ = after := by
    cases overridden with
    | none => exact ran.pure.2
    | some other =>
      exact copySlots_ran ran ((whole.orderly orderly).locals id (whole.grows.hasSymbol has))
        ((whole.orderly orderly).locals other (whole.grows.hasSymbol (inherited other rfl)))
  have grantsAll := grants.idle (.of_symbols filled.grows filled.tells (by
    rw [updateSymbol_ran updateRan]
    exact Array.size_modify))
  refine ⟨whole, grantsAll, by rw [row, scopes], ?_⟩
  rw [scopes, current]
  exact accepts.mono filled.grows filled.tells

end Check
end MicroJava
