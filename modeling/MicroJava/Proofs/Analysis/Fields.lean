import MicroJava.Proofs.Analysis.Inheritance

/-!
# Fields of classes

The frame of a class starts behind the fields that are inherited.  Each field that is declared
takes the next slot of the frame.
-/

namespace MicroJava

open List

variable {name : String} {id : SymbolId} {type : TypeId}

/-- The next slot of the innermost frame. -/
def Scopes.nextSlot (scopes : Scopes) : Int :=
  match scopes.frames with
  | [] => 0
  | frame :: _ => frame.nextSlot

variable {table : Table}

theorem Frame.nextSlot_declare_method {frame after : Frame} {later : Table} {level : Nat}
    (declared : frame.declare table level .method name type = (.fresh id, later, after)) :
    after.nextSlot = frame.nextSlot := by
  rw [declare] at declared
  split at declared <;> cases declared
  rfl

theorem Frame.nextSlot_rebind (frame : Frame) (name : String) (id : SymbolId) :
    (frame.rebind name id).2.nextSlot = frame.nextSlot := by
  rw [rebind]
  split <;> rfl

theorem Table.fieldsOf_set {ids : List SymbolId} {index : Nat} {old : SymbolId}
    (found : ids[index]? = some old) (notOld : (table.symbol old).kind ≠ .field)
    (notNew : (table.symbol id).kind ≠ .field) :
    table.fieldsOf (ids.set index id) = table.fieldsOf ids := by
  induction ids generalizing index with
  | nil => rfl
  | cons first rest ih =>
    cases index with
    | zero =>
      obtain rfl := Option.some.inj found
      rw [set_cons_zero, fieldsOf, fieldsOf, filter_cons_of_neg (by simpa using notNew),
        filter_cons_of_neg (by simpa using notOld)]
    | succ index =>
      have same := ih found
      rw [fieldsOf, fieldsOf] at same
      rw [set_cons_succ, fieldsOf, fieldsOf, filter_cons, filter_cons, same]

namespace Checker

/-- Steps in the frame of a class, by which fields may be added. -/
structure Packs (type : TypeId) (before after : Checker) : Prop extends
    Leaves (some type) before after where
  fields : ∃ added, after.table.fieldsOf after.scopes.current =
      before.table.fieldsOf before.scopes.current ++ added ∧
    (∀ id ∈ added, after.table.HasSymbol id) ∧
    after.table.AreAddressed before.scopes.nextSlot added ∧
    after.scopes.nextSlot = before.scopes.nextSlot + added.length
  kept : ∀ id ∈ before.scopes.current,
    id ∈ after.scopes.current ∨ id ∈ (before.table.desc type).pending
  pending : (after.table.desc type).pending ⊆ (before.table.desc type).pending

/-- The fields of the innermost frame have the addresses up to the next slot. -/
structure IsPacked (checker : Checker) : Prop where
  addresses : checker.table.AreAddressed 1 (checker.table.fieldsOf checker.scopes.current)
  next : checker.scopes.nextSlot =
    1 + (checker.table.fieldsOf checker.scopes.current).length

variable {theirs : List SymbolId} {before after : Checker}

theorem IsOpen.isMember (isOpen : before.IsOpen type theirs) (member : id ∈ before.scopes.current) :
    before.table.IsMember id := by
  obtain ⟨frame, rest, frames, _, listed, _⟩ := isOpen.frames
  rw [Scopes.current, frames] at member
  exact listed.members id member

namespace Packs

theorem trans {first second third : Checker} (packs : first.Packs type second)
    (next : second.Packs type third) :
    first.Packs type third where
  toLeaves := packs.toLeaves.trans next.toLeaves
  fields := by
    obtain ⟨added, fields, has, addressed, slot⟩ := packs.fields
    obtain ⟨more, fields', has', addressed', slot'⟩ := next.fields
    refine ⟨added ++ more, by rw [fields', fields, append_assoc],
      forall_mem_append.mpr ⟨fun id member => next.grows.hasSymbol (has id member), has'⟩,
      ?_, ?_⟩
    · exact (addressed.congr fun id member => next.rows id (has id member)).append
        (slot ▸ addressed')
    · rw [slot', slot, length_append]
      push_cast
      omega
  kept id member := (packs.kept id member).elim
    (fun stays => (next.kept id stays).imp_right (packs.pending ·)) .inr
  pending := List.Subset.trans next.pending packs.pending

theorem of_current (proceeds : before.Proceeds none after) (isOpen : before.IsOpen type theirs)
    (current : after.scopes.current = before.scopes.current)
    (slot : after.scopes.nextSlot = before.scopes.nextSlot) :
    before.Packs type after where
  toLeaves := proceeds.leaves
  fields := by
    refine ⟨[], ?_, nofun, nofun, ?_⟩
    · rw [current, append_nil]
      exact proceeds.grows.fieldsOf fun id member => (isOpen.isMember member).1
    · rw [slot]
      exact (Int.add_zero _).symm
  kept id member := .inl (current ▸ member)
  pending := by
    rw [proceeds.descs type isOpen.has]
    exact List.Subset.refl _

theorem proceeds (proceeds : before.Proceeds none after) (isOpen : before.IsOpen type theirs)
    (scopes : after.scopes = before.scopes) :
    before.Packs type after :=
  of_current proceeds isOpen (by rw [scopes]) (by rw [scopes])

theorem refl (isOpen : before.IsOpen type theirs) : before.Packs type before :=
  proceeds (.refl _) isOpen rfl

variable {between : Checker} {result : TypeId}

theorem introduces {outer : Bool} {kind : SymbolKind}
    (introduces : before.Introduces outer kind name result id between)
    (proceeds : between.Proceeds (some id) after) (isOpen : before.IsOpen type theirs)
    (scopes : after.scopes = between.scopes) (kinds : outer = false → kind = .method ∨
      kind = .field ∧ after.table.symbol id = between.table.symbol id) :
    before.Packs type after := by
  have fresh : ¬ before.table.HasSymbol id :=
    introduces.fresh ▸ before.table.not_hasSymbol_nextSymbol
  have whole : before.Proceeds none after :=
    (introduces.proceeds.trans proceeds).forget fresh
  obtain ⟨inner, frame, rest, frame', frames, frames', position, declared⟩ := introduces.bound
  have has : after.table.HasSymbol id := proceeds.grows.hasSymbol introduces.hasSymbol
  have isKind : (after.table.symbol id).kind = kind :=
    (proceeds.grows.symbol_kind introduces.hasSymbol).trans introduces.symbol_kind
  have kept : after.table.fieldsOf before.scopes.current =
      before.table.fieldsOf before.scopes.current :=
    whole.grows.fieldsOf fun id member => (isOpen.isMember member).1
  cases outer with
  | true =>
    -- The frame of the class is the inner one.
    obtain ⟨top, rfl⟩ := length_eq_one_iff.mp position
    refine of_current whole isOpen ?_ ?_
    · rw [scopes, Scopes.current, Scopes.current, frames, frames']
      rfl
    · rw [scopes, Scopes.nextSlot, Scopes.nextSlot, frames, frames']
      rfl
  | false =>
    obtain rfl := length_eq_zero_iff.mp position
    have current : after.scopes.current = before.scopes.current ++ [id] := by
      rw [scopes, introduces.current]
    have stays : ∀ other ∈ before.scopes.current,
        other ∈ after.scopes.current ∨ other ∈ (before.table.desc type).pending :=
      fun other member => .inl (current ▸ mem_append_left _ member)
    have pending : (after.table.desc type).pending ⊆ (before.table.desc type).pending := by
      rw [whole.descs type isOpen.has]
      exact List.Subset.refl _
    have slotBefore : before.scopes.nextSlot = frame.nextSlot := by
      rw [Scopes.nextSlot, frames]; rfl
    have slotAfter : after.scopes.nextSlot = frame'.nextSlot := by
      rw [scopes, Scopes.nextSlot, frames']
      rfl
    rcases kinds rfl with rfl | ⟨rfl, row⟩
    · refine ⟨whole.leaves, ⟨[], ?_, by simp, by simp [Table.AreAddressed], ?_⟩, stays, pending⟩
      · rw [current, Table.fieldsOf_append, kept, Table.fieldsOf, Table.fieldsOf,
          filter_cons_of_neg (by simp [isKind]), filter_nil]
      · rw [slotAfter, slotBefore, Frame.nextSlot_declare_method declared]
        exact (Int.add_zero _).symm
    · obtain ⟨isNext, _, address, adds, _, slot⟩ := Frame.declare_fresh declared
      obtain ⟨isAddress, isSlot⟩ := slot (.inr rfl)
      refine ⟨whole.leaves, ⟨[id], ?_, forall_mem_singleton.mpr has,
        fun index other found => ?_, ?_⟩, stays, pending⟩
      · rw [current, Table.fieldsOf_append, kept, Table.fieldsOf, Table.fieldsOf,
          filter_cons_of_pos (by simp [isKind]), filter_nil]
      · cases index with
        | zero =>
          obtain rfl := Option.some.inj found
          rw [row, isNext, adds.symbol_new, slotBefore]
          exact isAddress.trans (Int.add_zero _).symm
        | succ => cases found
      · rw [slotAfter, slotBefore, isSlot]
        rfl

theorem overrides {types : List TypeId} {inherited : SymbolId} {formals : List Formal}
    {context : ClassContext} (overrides : before.Overrides name result types inherited id between)
    (completes : between.Completes id formals after) (isOpen : before.IsOpen type theirs)
    (owner : before.owner = some context) (isType : context.type = type) :
    before.Packs type after := by
  have leaves := overrides.leaves completes (isOpen.isRegular owner isType) owner
  have pending := overrides.pending_eq completes (isOpen.isRegular owner isType) owner
  rw [isType] at leaves pending
  obtain ⟨other, isOther, mayOverride, _⟩ := overrides.owner
  obtain rfl : context = other := Option.some.inj (owner.symm.trans isOther)
  rw [isType] at mayOverride
  obtain ⟨isTheirs, isMethod, _⟩ := isOpen.pending inherited mayOverride
  have notOld : (after.table.symbol inherited).kind ≠ .field := by
    rw [leaves.grows.symbol_kind (isOpen.members inherited isTheirs).1, isMethod]
    exact SymbolKind.noConfusion
  have notNew : (after.table.symbol id).kind ≠ .field := by
    rw [completes.grows.symbol_kind overrides.hasSymbol, overrides.symbol_new]
    exact SymbolKind.noConfusion
  obtain ⟨frame, rest, frames, _, listed, _⟩ := isOpen.frames
  obtain ⟨sameFrame, sameRest, framesBefore, bound, framesAfter⟩ := overrides.bound
  obtain ⟨rfl, rfl⟩ := List.cons.inj (frames.symm.trans framesBefore)
  obtain ⟨isListed, _⟩ := (listed.names name inherited).mp bound
  obtain ⟨index, found, changed⟩ :=
    (Frame.replaceFirst_cases frame.order inherited id).resolve_left fun missing =>
      missing.1 (Array.mem_toList_iff.mp isListed)
  have current : after.scopes.current = before.scopes.current.set index id := by
    rw [Scopes.current, completes.scopes, framesAfter, Scopes.current, frames]
    dsimp only
    rw [Frame.order_rebind bound, changed]
  have isCurrent : before.scopes.current = frame.order.toList := by rw [Scopes.current, frames]
  refine ⟨leaves, ⟨[], ?_, by simp, by simp [Table.AreAddressed], ?_⟩, fun other member => ?_, ?_⟩
  · rw [current, isCurrent, append_nil, Table.fieldsOf_set found notOld notNew]
    exact leaves.grows.fieldsOf fun id member => (listed.members id member).1
  · rw [Scopes.nextSlot, completes.scopes, framesAfter, Scopes.nextSlot, frames]
    dsimp only
    rw [Frame.nextSlot_rebind]
    exact (Int.add_zero _).symm
  · rw [current]
    rw [isCurrent] at member ⊢
    by_cases same : other = inherited
    · exact .inr (same ▸ mayOverride)
    · exact .inl ((Frame.IsListed.mem_set_iff listed.nodup found).mpr (.inr ⟨member, same⟩))
  · rw [pending]
    exact erase_subset

theorem isPacked (packs : before.Packs type after) (isOpen : before.IsOpen type theirs)
    (isPacked : before.IsPacked) :
    after.IsPacked := by
  obtain ⟨added, fields, _, addressed, slot⟩ := packs.fields
  have kept : after.table.AreAddressed 1 (before.table.fieldsOf before.scopes.current) :=
    isPacked.addresses.congr fun id member =>
      packs.rows id (isOpen.isMember (Table.mem_fieldsOf.mp member).1).1
  refine ⟨?_, ?_⟩
  · rw [fields]
    exact kept.append (isPacked.next ▸ addressed)
  · rw [fields, slot, isPacked.next, length_append]
    push_cast
    omega

end Packs
end Checker
end MicroJava
