import Mathlib.Data.List.Pairwise
import MicroJava.Proofs.Emitter.Operations

/-!
# Backpatching

Whatever operations a session consists of, as long as none of them fails and the emitter can
be finished: every jump that was put into a list is patched exactly once, when the list is
drained, and leads to the offset of that moment.
-/

namespace MicroJava

open List

variable {emitter : Emitter} {first second target offset : Nat} {label : Label} {patch : Patch}

/-! ## Sessions -/

/-- An operation that was run. -/
structure Event where
  /-- The operation. -/
  operation : Operation
  /-- The emitter before. -/
  before : Emitter
  /-- The emitter after. -/
  after : Emitter

namespace Event

/-- The jumps that were put into a list. -/
def waits (event : Event) : List Label := event.operation.waits event.before.code.size

/-- The jumps that were taken off a list to be patched. -/
def drained (event : Event) : List Label := event.operation.drained event.before.fixups

/-- The bytes that were replaced. -/
def patches (event : Event) : List Patch := event.operation.patches event.before

end Event

/-- An emitter, and what was handed out by it. -/
structure Session where
  /-- The emitter. -/
  emitter : Emitter := {}
  /-- What may be patched. -/
  granted : Granted := {}

namespace Session

/-- Only what was handed out may be patched. -/
def allows (session : Session) : Operation → Bool
  | .patchTo label _ => label ∈ session.granted.labels
  | .patchHere label => label ∈ session.granted.labels
  | .patchFrameSize start _ => start ∈ session.granted.frames
  | _ => true

/-- An operation that was run in a session and led to an emitter. -/
def event (session : Session) (operation : Operation) (emitter : Emitter) : Event where
  operation := operation
  before := session.emitter
  after := emitter

/-- The session after an operation. -/
def next (session : Session) (granted : Granted) (emitter : Emitter) : Session where
  emitter := emitter
  granted :=
    { labels := session.granted.labels ++ granted.labels
      frames := session.granted.frames ++ granted.frames }

/-- Run operations, all of which have to be allowed and to succeed. -/
def run (session : Session) : List Operation → Option (List Event × Session)
  | [] => some ([], session)
  | operation :: rest =>
      if session.allows operation then
        match operation.act session.emitter with
        | .ok granted emitter =>
            ((session.next granted emitter).run rest).map fun (events, last) =>
              (session.event operation emitter :: events, last)
        | .error _ _ => none
      else
        none

end Session

/-- A code in which the jumps of a session have their targets. -/
structure Code.IsBackpatched (code : Code) (events : List Event) : Prop where
  /-- Every jump that was put into a list leads forward, to the offset at which the list that
  held it was drained; its operand is patched there and nowhere else. -/
  once : ∀ label ∈ events.flatMap Event.waits, ∃ event ∈ events, label ∈ event.drained ∧
    label.instruction < event.before.code.size ∧
    code.targetAt? label.instruction = some event.before.code.size ∧
    ∃ earlier later, events.flatMap Event.patches =
        earlier ++ label.patchTo event.before.code.size :: later ∧
      ∀ patch ∈ earlier ++ later, ∀ offset ∈ label.operand, ¬ patch.Touches offset
  /-- Bytes that no patch touches stay as they were written. -/
  kept : ∀ event ∈ events, ∀ offset < event.after.code.size,
    (∀ patch ∈ events.flatMap Event.patches, ¬ patch.Touches offset) →
      code.bytes[offset]? = event.after.code.bytes[offset]?
  /-- Nothing but the patches of an operation changes bytes that are there. -/
  faithful : ∀ event ∈ events, ∃ bytes : List UInt8, event.after.code.bytes =
    event.patches.foldl Patch.apply event.before.code.bytes ++ bytes.toArray

/-! ## What every operation keeps -/

/-- Two instructions of three bytes do not overlap. -/
def Apart (first second : Nat) : Prop := first + 3 ≤ second ∨ second + 3 ≤ first

theorem Apart.symm (apart : Apart first second) : Apart second first :=
  Or.symm apart

instance : Std.Symm Apart := ⟨fun _ _ => Apart.symm⟩

namespace Session

/-- Where the instructions that may be patched start. -/
def starts (events : List Event) (session : Session) : List Nat :=
  session.granted.starts ++ (events.flatMap Event.waits).map Label.instruction

/-- A patch of something that was handed out. -/
def Grants (session : Session) (patch : Patch) : Prop :=
  (∃ label ∈ session.granted.labels, ∃ target, patch = label.patchTo target) ∨
    ∃ start ∈ session.granted.frames, ∃ size : UInt8, patch = ⟨start + 2, [size]⟩

/-- What holds between two operations. -/
structure Traces (events : List Event) (session : Session) : Prop where
  apart : (starts events session).Pairwise Apart
  inside : ∀ start ∈ starts events session, start + 3 ≤ session.emitter.code.size
  labels : ∀ label ∈ session.granted.labels ++ events.flatMap Event.waits,
    label.offset = label.instruction + 1
  accounted : (events.flatMap Event.drained ++ session.emitter.fixups.pending).Perm
    (events.flatMap Event.waits)
  staged : session.emitter.fixups.IsStaged
  jumps : ∀ label ∈ events.flatMap Event.waits, ∃ op : Opcode, op.isJump ∧
    session.emitter.code.opAt? label.instruction = some op
  settled : ∀ event ∈ events, ∀ label ∈ event.drained,
    label.instruction < event.before.code.size ∧
      session.emitter.code.Leads label event.before.code.size
  legal : ∀ event ∈ events, ∀ patch ∈ event.patches,
    (∃ label ∈ event.drained, patch = label.patchTo event.before.code.size) ∨
      session.Grants patch
  kept : ∀ event ∈ events, ∀ offset < event.after.code.size,
    (∀ patch ∈ events.flatMap Event.patches, ¬ patch.Touches offset) →
      session.emitter.code.bytes[offset]? = event.after.code.bytes[offset]?
  faithful : ∀ event ∈ events, ∃ bytes : List UInt8, event.after.code.bytes =
    event.patches.foldl Patch.apply event.before.code.bytes ++ bytes.toArray
  grown : ∀ event ∈ events, event.after.code.size ≤ session.emitter.code.size

theorem traces_start : Traces [] {} := by
  constructor <;> simp [starts, Granted.starts, Fixups.pending, Fixups.IsStaged]

/-! ## One operation -/

section Step

variable {events : List Event} {session : Session} {operation : Operation} {granted : Granted}

theorem Grants.touches (grants : session.Grants patch)
    (labels : ∀ label ∈ session.granted.labels, label.offset = label.instruction + 1)
    (touches : patch.Touches offset) :
    ∃ start ∈ session.granted.starts, start < offset ∧ offset < start + 3 := by
  obtain ⟨low, high⟩ := touches
  rcases grants with ⟨label, member, target, rfl⟩ | ⟨start, member, size, rfl⟩
  · have shape := labels label member
    rw [Label.length_patchTo] at high
    simp only [Label.patchTo] at low high
    refine ⟨label.instruction, mem_append_right _ (mem_map_of_mem member), ?_⟩
    omega
  · simp only [length_singleton] at low high
    exact ⟨start, mem_append_left _ member, by omega⟩

theorem Grants.next (grants : session.Grants patch) :
    (session.next granted emitter).Grants patch := by
  rcases grants with ⟨label, member, target, same⟩ | ⟨start, member, size, same⟩
  · exact .inl ⟨label, mem_append_left _ member, target, same⟩
  · exact .inr ⟨start, mem_append_left _ member, size, same⟩

theorem legal_of_allows (allowed : session.allows operation)
    (member : patch ∈ operation.patches session.emitter) :
    (∃ label ∈ operation.drained session.emitter.fixups,
      patch = label.patchTo session.emitter.code.size) ∨ session.Grants patch := by
  have drains : patch ∈ (operation.drained session.emitter.fixups).map
      (·.patchTo session.emitter.code.size) →
      ∃ label ∈ operation.drained session.emitter.fixups,
        patch = label.patchTo session.emitter.code.size := by
    intro inMap
    obtain ⟨label, isLabel, rfl⟩ := mem_map.mp inMap
    exact ⟨label, isLabel, rfl⟩
  cases operation with
  | patchFrameSize start frameSize =>
    exact .inr (.inr ⟨start, of_decide_eq_true allowed, _, mem_singleton.mp member⟩)
  | patchTo label target =>
    exact .inr (.inl ⟨label, of_decide_eq_true allowed, target, mem_singleton.mp member⟩)
  | patchHere label =>
    exact .inr (.inl ⟨label, of_decide_eq_true allowed, _, mem_singleton.mp member⟩)
  | _ => exact .inl (drains member)

theorem drained_sublist_pending (operation : Operation) (fixups : Fixups) :
    (operation.drained fixups).Sublist fixups.pending := by
  obtain ⟨constructs, loops⟩ := fixups
  cases operation with
  | patchFalse =>
    cases constructs with
    | nil => exact nil_sublist _
    | cons construct outer =>
      simp only [Fixups.pending, flatMap_cons, Construct.pending, append_assoc]
      exact sublist_append_left _ _
  | patchBody =>
    cases constructs with
    | nil => exact nil_sublist _
    | cons construct outer =>
      simp only [Fixups.pending, flatMap_cons, Construct.pending, append_assoc]
      exact (sublist_append_left _ _).trans (sublist_append_right _ _)
  | exitLoop =>
    cases loops with
    | nil => exact nil_sublist _
    | cons loop outer =>
      simp only [Fixups.pending, flatMap_cons]
      exact (sublist_append_left _ _).trans (sublist_append_right _ _)
  | _ => exact nil_sublist _

theorem patches_of_drained {before : Emitter} (member : label ∈ operation.drained before.fixups) :
    operation.patches before =
      (operation.drained before.fixups).map (·.patchTo before.code.size) := by
  cases operation with
  | patchFrameSize _ _ => cases member
  | patchTo _ _ => cases member
  | patchHere _ => cases member
  | _ => rfl

namespace Traces

variable (traces : Traces events session)
include traces

theorem waits_nodup : (events.flatMap Event.waits).Nodup := by
  have distinct := (pairwise_append.mp traces.apart).2.1
  rw [pairwise_map] at distinct
  refine distinct.imp fun apart same => ?_
  subst same
  rcases apart with apart | apart <;> omega

theorem eq_or_apart (isFirst : first ∈ starts events session)
    (isSecond : second ∈ starts events session) :
    first = second ∨ Apart first second := by
  by_cases same : first = second
  · exact .inl same
  · exact .inr (traces.apart.forall isFirst isSecond same)

theorem start_of_waits (waits : label ∈ events.flatMap Event.waits) :
    label.instruction ∈ starts events session ∧ label.offset = label.instruction + 1 :=
  ⟨mem_append_right _ (mem_map_of_mem waits),
    traces.labels label (mem_append_right _ waits)⟩

theorem accounted_nodup :
    (events.flatMap Event.drained ++ session.emitter.fixups.pending).Nodup :=
  traces.accounted.nodup_iff.mpr traces.waits_nodup

theorem waits_of_drained (drained : label ∈ operation.drained session.emitter.fixups) :
    label ∈ events.flatMap Event.waits :=
  traces.accounted.subset
    (mem_append_right _ ((drained_sublist_pending _ _).subset drained))

theorem granted_labels : ∀ label ∈ session.granted.labels, label.offset = label.instruction + 1 :=
  fun label member => traces.labels label (mem_append_left _ member)

theorem patchTo_touches (waits : label ∈ events.flatMap Event.waits)
    (touches : (label.patchTo target).Touches offset) :
    label.instruction < offset ∧ offset < label.instruction + 3 := by
  obtain ⟨low, high⟩ := touches
  have shape := (traces.start_of_waits waits).2
  rw [Label.length_patchTo] at high
  simp only [Label.patchTo] at low high
  omega

theorem grants_outside (grants : session.Grants patch) (waits : label ∈ events.flatMap Event.waits)
    (low : label.instruction ≤ offset) (high : offset < label.instruction + 3) :
    ¬ patch.Touches offset := by
  intro touches
  obtain ⟨start, isStart, above, below⟩ := grants.touches traces.granted_labels touches
  have apart := (pairwise_append.mp traces.apart).2.2 start isStart label.instruction
    (mem_map_of_mem waits)
  rcases apart with apart | apart <;> omega

theorem patchTo_outside {first second : Label} (isFirst : first ∈ events.flatMap Event.waits)
    (isSecond : second ∈ events.flatMap Event.waits) (different : first ≠ second)
    (low : second.instruction ≤ offset) (high : offset < second.instruction + 3) :
    ¬ (first.patchTo target).Touches offset := by
  intro touches
  obtain ⟨above, below⟩ := traces.patchTo_touches isFirst touches
  obtain ⟨firstStart, firstShape⟩ := traces.start_of_waits isFirst
  obtain ⟨secondStart, secondShape⟩ := traces.start_of_waits isSecond
  rcases traces.eq_or_apart firstStart secondStart with same | apart
  · obtain ⟨firstOffset⟩ := first
    obtain ⟨secondOffset⟩ := second
    refine different (congrArg Label.mk ?_)
    simp only at firstShape secondShape
    omega
  · rcases apart with apart | apart <;> omega

theorem untouched (allowed : session.allows operation)
    (member : patch ∈ operation.patches session.emitter)
    (waits : label ∈ events.flatMap Event.waits)
    (elsewhere : label ∉ operation.drained session.emitter.fixups)
    (low : label.instruction ≤ offset) (high : offset < label.instruction + 3) :
    ¬ patch.Touches offset := by
  rcases legal_of_allows allowed member with ⟨other, isDrained, rfl⟩ | grants
  · have isWaiting := traces.waits_of_drained isDrained
    refine traces.patchTo_outside isWaiting waits ?_ low high
    rintro rfl
    exact elsewhere isDrained
  · exact traces.grants_outside grants waits low high

theorem untouched_op (allowed : session.allows operation)
    (member : patch ∈ operation.patches session.emitter)
    (waits : label ∈ events.flatMap Event.waits) :
    ¬ patch.Touches label.instruction := by
  by_cases isDrained : label ∈ operation.drained session.emitter.fixups
  · rcases legal_of_allows allowed member with ⟨other, otherDrained, rfl⟩ | grants
    · have isWaiting := traces.waits_of_drained otherDrained
      by_cases same : other = label
      · intro touches
        have above := (traces.patchTo_touches isWaiting touches).1
        rw [same] at above
        exact absurd above (Nat.lt_irrefl _)
      · exact traces.patchTo_outside isWaiting waits same (Nat.le_refl _) (by omega)
    · exact traces.grants_outside grants waits (Nat.le_refl _) (by omega)
  · exact traces.untouched allowed member waits isDrained (Nat.le_refl _) (by omega)

end Traces

section Effect

variable (does : operation.Does session.emitter granted emitter)
include does

theorem size_le : session.emitter.code.size ≤ emitter.code.size := by
  obtain ⟨bytes, code⟩ := does.code
  rw [Code.size, Code.size, code, Array.size_append, Patch.size_foldl_apply]
  omega

theorem getElem?_of_untouched (inside : offset < session.emitter.code.size)
    (untouched : ∀ patch ∈ operation.patches session.emitter, ¬ patch.Touches offset) :
    emitter.code.bytes[offset]? = session.emitter.code.bytes[offset]? := by
  obtain ⟨bytes, code⟩ := does.code
  rw [code, Array.getElem?_append_left (by rw [Patch.size_foldl_apply]; exact inside),
    Patch.getElem?_foldl_apply_of_untouched untouched]

end Effect

theorem starts_next :
    (starts (events ++ [session.event operation emitter])
      (session.next granted emitter)).Perm
      (starts events session ++ (granted.starts ++
        (operation.waits session.emitter.code.size).map Label.instruction)) := by
  rw [perm_iff_count]
  intro start
  simp only [starts, Granted.starts, Session.next, event, Event.waits, flatMap_append,
    flatMap_singleton, map_append, count_append]
  omega

namespace Traces

variable
  (traces : Traces events session)
  (allowed : session.allows operation)
  (does : operation.Does session.emitter granted emitter)
include traces does

theorem next_apart :
    (starts (events ++ [session.event operation emitter])
      (session.next granted emitter)).Pairwise Apart := by
  rw [starts_next.pairwise_iff Apart.symm]
  rcases does.fresh with none | ⟨one, _⟩
  · rw [none, append_nil]
    exact traces.apart
  · rw [one]
    refine pairwise_append.mpr ⟨traces.apart, pairwise_singleton _ _, ?_⟩
    intro start isStart other isOther
    rw [mem_singleton.mp isOther]
    exact .inl (traces.inside start isStart)

theorem next_inside :
    ∀ start ∈ starts (events ++ [session.event operation emitter])
      (session.next granted emitter), start + 3 ≤ emitter.code.size := by
  intro start isStart
  have grows := size_le does
  rcases mem_append.mp (starts_next.subset isStart) with old | new
  · have inside := traces.inside start old
    omega
  · rcases does.fresh with none | ⟨one, room⟩
    · rw [none] at new
      cases new
    · rw [one] at new
      rw [mem_singleton.mp new]
      exact room

theorem next_labels :
    ∀ label ∈ (session.next granted emitter).granted.labels ++
      (events ++ [session.event operation emitter]).flatMap Event.waits,
      label.offset = label.instruction + 1 := by
  intro label member
  rw [flatMap_append, flatMap_singleton] at member
  simp only [Session.next, mem_append] at member
  rcases member with (old | new) | (old | new)
  · exact traces.labels label (mem_append_left _ old)
  · exact does.labels label new
  · exact traces.labels label (mem_append_right _ old)
  · unfold Event.waits Operation.waits at new
    split at new
    · rw [mem_singleton.mp new]
      rfl
    · rw [mem_singleton.mp new]
      rfl
    · rw [mem_singleton.mp new]
      rfl
    · cases new

theorem next_leads (member : label ∈ operation.drained session.emitter.fixups) :
    label.instruction < session.emitter.code.size ∧
      emitter.code.Leads label session.emitter.code.size := by
  have waits := traces.waits_of_drained member
  obtain ⟨isStart, shape⟩ := traces.start_of_waits waits
  have inside := traces.inside _ isStart
  refine ⟨by omega, does.reaches label member, ?_⟩
  intro index byte here
  obtain ⟨bytes, code⟩ := does.code
  have length := label.length_patchTo session.emitter.code.size
  have bound : index < 2 := by
    rw [← length]
    exact (List.getElem?_eq_some_iff.mp here).1
  rw [code, Array.getElem?_append_left (by
    rw [Patch.size_foldl_apply, ← Code.size]
    omega)]
  -- No jump is drained twice, so that no later patch touches this one.
  have distinct := (nodup_append.mp traces.accounted_nodup).2.1.sublist
    (drained_sublist_pending operation session.emitter.fixups)
  obtain ⟨earlier, later, split⟩ := append_of_mem member
  have fits := does.fits (label.patchTo session.emitter.code.size) (by
    rw [patches_of_drained member]
    exact mem_map_of_mem member)
  rw [patches_of_drained member, split, map_append, map_cons]
  refine Patch.getElem?_foldl_apply_of_last fits here ?_
  intro patch isLater
  obtain ⟨other, isOther, rfl⟩ := mem_map.mp isLater
  rw [split] at distinct
  have different : other ≠ label := by
    rintro rfl
    exact (nodup_cons.mp (nodup_append.mp distinct).2.1).1 isOther
  have otherDrained : other ∈ operation.drained session.emitter.fixups := by
    rw [split]
    exact mem_append_right _ (mem_cons_of_mem _ isOther)
  have otherWaits := traces.waits_of_drained otherDrained
  refine traces.patchTo_outside otherWaits waits different ?_ ?_ <;>
    simp only [Label.patchTo] <;> omega

include allowed

theorem next_jumps :
    ∀ label ∈ (events ++ [session.event operation emitter]).flatMap Event.waits,
      ∃ op : Opcode, op.isJump ∧ emitter.code.opAt? label.instruction = some op := by
  intro label member
  rw [flatMap_append, flatMap_singleton, mem_append] at member
  rcases member with old | new
  · obtain ⟨op, isJump, here⟩ := traces.jumps label old
    have inside := traces.inside _ (traces.start_of_waits old).1
    have isInside : label.instruction < session.emitter.code.size := by omega
    have kept := getElem?_of_untouched does isInside fun patch member =>
      traces.untouched_op allowed member old
    refine ⟨op, isJump, ?_⟩
    rw [← here, Code.opAt?, Code.opAt?, Code.byteAt?, Code.byteAt?, kept]
  · have isNew : label.instruction = session.emitter.code.size := by
      rcases does.fresh with none | ⟨one, _⟩
      · obtain ⟨_, none⟩ := append_eq_nil_iff.mp none
        rw [map_eq_nil_iff] at none
        rw [Event.waits, event, none] at new
        cases new
      · have isStart : label.instruction ∈ granted.starts ++
            (operation.waits session.emitter.code.size).map Label.instruction :=
          mem_append_right _ (mem_map_of_mem new)
        rw [one] at isStart
        exact mem_singleton.mp isStart
    rw [isNew]
    exact does.jumps (ne_nil_of_mem new)

theorem next_settled :
    ∀ entry ∈ events ++ [session.event operation emitter], ∀ label ∈ entry.drained,
      label.instruction < entry.before.code.size ∧
        emitter.code.Leads label entry.before.code.size := by
  intro entry member label isDrained
  rcases mem_append.mp member with old | new
  · obtain ⟨below, leads⟩ := traces.settled entry old label isDrained
    refine ⟨below, leads.reaches, ?_⟩
    have inDrained : label ∈ events.flatMap Event.drained :=
      mem_flatMap.mpr ⟨entry, old, isDrained⟩
    have waits := traces.accounted.subset (mem_append_left _ inDrained)
    obtain ⟨isStart, shape⟩ := traces.start_of_waits waits
    have inside := traces.inside _ isStart
    have elsewhere : label ∉ operation.drained session.emitter.fixups := fun again =>
      (nodup_append.mp traces.accounted_nodup).2.2 label inDrained label
        ((drained_sublist_pending _ _).subset again) rfl
    intro index byte here
    have bound : index < 2 := by
      rw [← label.length_patchTo entry.before.code.size]
      exact (List.getElem?_eq_some_iff.mp here).1
    have isInside : label.offset + index < session.emitter.code.size := by omega
    rw [getElem?_of_untouched does isInside fun patch member =>
      traces.untouched allowed member waits elsewhere (by omega) (by omega)]
    exact leads.bytes index byte here
  · obtain rfl := mem_singleton.mp new
    exact traces.next_leads does isDrained

end Traces

theorem Traces.next_legal (traces : Traces events session) (allowed : session.allows operation) :
    ∀ entry ∈ events ++ [session.event operation emitter], ∀ patch ∈ entry.patches,
      (∃ label ∈ entry.drained, patch = label.patchTo entry.before.code.size) ∨
        (session.next granted emitter).Grants patch := by
  intro entry member patch isPatch
  rcases mem_append.mp member with old | new
  · exact (traces.legal entry old patch isPatch).imp_right Grants.next
  · obtain rfl := mem_singleton.mp new
    exact (legal_of_allows allowed isPatch).imp_right Grants.next

/-- One operation keeps it all. -/
theorem Traces.step (traces : Traces events session) (allowed : session.allows operation)
    (ran : operation.act session.emitter = .ok granted emitter) :
    Traces (events ++ [session.event operation emitter]) (session.next granted emitter) := by
  have does := Operation.act_does ran
  have moves := does.moves traces.staged
  have grows := size_le does
  exact {
    apart := traces.next_apart does
    inside := traces.next_inside does
    labels := traces.next_labels does
    accounted := by
      rw [flatMap_append, flatMap_append, flatMap_singleton,
        flatMap_singleton, append_assoc]
      refine (moves.perm.append_left _).trans ?_
      rw [← append_assoc]
      exact traces.accounted.append_right _
    staged := moves.staged
    jumps := traces.next_jumps allowed does
    settled := traces.next_settled allowed does
    legal := traces.next_legal allowed
    kept := by
      intro entry member offset inside untouched
      rw [flatMap_append, flatMap_singleton] at untouched
      rcases mem_append.mp member with old | new
      · have bound := traces.grown entry old
        have isInside : offset < session.emitter.code.size := by omega
        rw [← traces.kept entry old offset inside fun patch isPatch =>
          untouched patch (mem_append_left _ isPatch)]
        exact getElem?_of_untouched does isInside fun patch isPatch =>
          untouched patch (mem_append_right _ isPatch)
      · rw [mem_singleton.mp new]
        rfl
    faithful := by
      intro entry member
      rcases mem_append.mp member with old | new
      · exact traces.faithful entry old
      · rw [mem_singleton.mp new]
        exact does.code
    grown := by
      intro entry member
      rcases mem_append.mp member with old | new
      · exact Nat.le_trans (traces.grown entry old) grows
      · rw [mem_singleton.mp new]
        exact Nat.le_refl _ }

end Step

/-! ## Whole sessions -/

variable {events : List Event} {session : Session}

/-- Whole sessions keep it, too. -/
theorem Traces.run {earlier : List Event} {last : Session} {operations : List Operation}
    (traces : Traces earlier session) (ran : session.run operations = some (events, last)) :
    Traces (earlier ++ events) last := by
  induction operations generalizing earlier session events with
  | nil =>
    cases ran
    rw [append_nil]
    exact traces
  | cons operation rest ih =>
    rw [Session.run] at ran
    split at ran
    next allowed =>
      split at ran
      next granted emitter acted =>
        obtain ⟨⟨later, _⟩, restRan, same⟩ := Option.map_eq_some_iff.mp ran
        cases same
        rw [append_cons]
        exact ih (traces.step allowed acted) restRan
      next => cases ran
    next => cases ran

theorem pending_of_finish {code : Code} (finished : emitter.finish = .ok code) :
    code = emitter.code ∧ emitter.fixups.pending = [] := by
  unfold Emitter.finish at finished
  split at finished
  next balanced =>
    rw [Fixups.isBalanced, Bool.and_eq_true, List.isEmpty_iff, List.isEmpty_iff] at balanced
    refine ⟨(Except.ok.inj finished).symm, ?_⟩
    simp [Fixups.pending, balanced]
  next => cases finished

theorem Traces.once {event : Event} (traces : Traces events session) (member : event ∈ events)
    (drained : label ∈ event.drained) :
    ∃ earlier later, events.flatMap Event.patches =
        earlier ++ label.patchTo event.before.code.size :: later ∧
      ∀ patch ∈ earlier ++ later, ∀ offset ∈ label.operand, ¬ patch.Touches offset := by
  have waitsOf : ∀ entry ∈ events, ∀ other ∈ entry.drained, other ∈ events.flatMap Event.waits :=
    fun entry isEntry other isDrained => traces.accounted.subset
      (mem_append_left _ (mem_flatMap.mpr ⟨entry, isEntry, isDrained⟩))
  have waits := waitsOf event member label drained
  obtain ⟨_, shape⟩ := traces.start_of_waits waits
  have distinct := (nodup_append.mp traces.accounted_nodup).1
  obtain ⟨before, after, rfl⟩ := append_of_mem member
  obtain ⟨first, last, split⟩ := append_of_mem drained
  have patches : event.patches = first.map (·.patchTo event.before.code.size) ++
      label.patchTo event.before.code.size :: last.map (·.patchTo event.before.code.size) := by
    have all := patches_of_drained drained
    rw [Event.drained] at split
    rw [split, map_append, map_cons] at all
    exact all
  -- The jump occurs once among all that were drained.
  have single : label ∉ before.flatMap Event.drained ++ first ∧
      label ∉ last ++ after.flatMap Event.drained := by
    rw [flatMap_append, flatMap_cons, split] at distinct
    have order : before.flatMap Event.drained ++ ((first ++ label :: last) ++
        after.flatMap Event.drained) = (before.flatMap Event.drained ++ first) ++
          label :: (last ++ after.flatMap Event.drained) := by simp
    rw [order] at distinct
    obtain ⟨_, later, apart⟩ := nodup_append.mp distinct
    exact ⟨fun early => apart label early label mem_cons_self rfl,
      (nodup_cons.mp later).1⟩
  have range : ∀ offset ∈ label.operand,
      label.instruction ≤ offset ∧ offset < label.instruction + 3 := by
    intro offset inOperand
    simp only [Label.operand, mem_cons, not_mem_nil, or_false] at inOperand
    omega
  have apartOther : ∀ entry ∈ before ++ event :: after, ∀ other ∈ entry.drained, other ≠ label →
      ∀ target, ∀ offset ∈ label.operand, ¬ (other.patchTo target).Touches offset :=
    fun entry isEntry other isDrained different target offset inOperand =>
      traces.patchTo_outside (waitsOf entry isEntry other isDrained) waits different
        (range offset inOperand).1 (range offset inOperand).2
  have apartEntry : ∀ entry ∈ before ++ event :: after, label ∉ entry.drained →
      ∀ patch ∈ entry.patches, ∀ offset ∈ label.operand, ¬ patch.Touches offset := by
    intro entry isEntry elsewhere patch isPatch offset inOperand
    rcases traces.legal entry isEntry patch isPatch with ⟨other, isDrained, rfl⟩ | grants
    · refine apartOther entry isEntry other isDrained ?_ _ offset inOperand
      rintro rfl
      exact elsewhere isDrained
    · exact traces.grants_outside grants waits (range offset inOperand).1 (range offset inOperand).2
  refine ⟨before.flatMap Event.patches ++ first.map (·.patchTo event.before.code.size),
    last.map (·.patchTo event.before.code.size) ++ after.flatMap Event.patches, ?_, ?_⟩
  · rw [flatMap_append, flatMap_cons, patches]
    simp
  · obtain ⟨early, late⟩ := single
    rw [mem_append, not_or] at early late
    intro patch isPatch
    simp only [mem_append, mem_flatMap, mem_map] at isPatch
    rcases isPatch with (⟨entry, isEntry, isPatch⟩ | ⟨other, isOther, rfl⟩) |
      (⟨other, isOther, rfl⟩ | ⟨entry, isEntry, isPatch⟩)
    · exact apartEntry entry (mem_append_left _ isEntry)
        (fun isDrained => early.1 (mem_flatMap.mpr ⟨entry, isEntry, isDrained⟩)) patch isPatch
    · refine apartOther event member other ?_ (fun same => early.2 (same ▸ isOther)) _
      rw [split]
      exact mem_append_left _ isOther
    · refine apartOther event member other ?_ (fun same => late.1 (same ▸ isOther)) _
      rw [split]
      exact mem_append_right _ (mem_cons_of_mem _ isOther)
    · exact apartEntry entry (mem_append_right _ (mem_cons_of_mem _ isEntry))
        (fun isDrained => late.2 (mem_flatMap.mpr ⟨entry, isEntry, isDrained⟩)) patch isPatch

end Session

/-- After operations that succeed and an emitter that can be finished, every jump that was put
into a list is patched once, when the list is drained, and leads there; all other bytes stay as
they were written. -/
theorem run_isBackpatched {operations : List Operation} {events : List Event} {session : Session}
    {code : Code} (ran : Session.run {} operations = some (events, session))
    (finished : session.emitter.finish = .ok code) :
    code.IsBackpatched events := by
  have traces : Session.Traces events session := Session.traces_start.run ran
  obtain ⟨rfl, drained⟩ := Session.pending_of_finish finished
  refine ⟨fun label waits => ?_, traces.kept, traces.faithful⟩
  have accounted := traces.accounted
  rw [drained, append_nil] at accounted
  obtain ⟨event, member, isDrained⟩ := mem_flatMap.mp (accounted.symm.subset waits)
  obtain ⟨ahead, leads⟩ := traces.settled event member label isDrained
  obtain ⟨op, isJump, here⟩ := traces.jumps label waits
  have shape := (traces.start_of_waits waits).2
  refine ⟨event, member, isDrained, ahead, ?_, traces.once member isDrained⟩
  exact Code.targetAt?_of_reachBytes here (by simp [isJump]) leads.reaches (shape ▸ leads.bytes)

/-- A loop that is left by a `break`, behind a frame whose size is patched. -/
def Operation.loopExample : List Operation :=
  [.enter 0 1, .openConstruct .loop, .write (.loadLocal 0), .write (.const 9), .falseJump .lt,
    .bodyJump, .enterLoop 11, .falseIntoLoop, .patchBody, .finishConditions, .breakLoop,
    .continueLoop, .finishBody, .exitLoop, .finishPatching, .close, .patchFrameSize 0 2]

/-- The condition and the `break` lead past the loop, and the jump behind the condition leads
into the body. -/
theorem run_isBackpatched_loop :
    ∃ events session code, Session.run {} Operation.loopExample = some (events, session) ∧
      session.emitter.finish = .ok code ∧ code.IsBackpatched events ∧
      events.flatMap Event.waits = [⟨10⟩, ⟨13⟩, ⟨16⟩] ∧
      [9, 12, 15].map code.targetAt? = [some 21, some 15, some 21] := by
  have summary : (Session.run {} Operation.loopExample).map (fun (events, session) =>
      (session.emitter.fixups.isBalanced, events.flatMap Event.waits,
        [9, 12, 15].map session.emitter.code.targetAt?)) =
      some (true, [⟨10⟩, ⟨13⟩, ⟨16⟩], [some 21, some 15, some 21]) := by
    decide +kernel
  obtain ⟨⟨events, session⟩, ran, same⟩ := Option.map_eq_some_iff.mp summary
  obtain ⟨balanced, waits, targets⟩ := by simpa only [Prod.mk.injEq] using same
  have finished : session.emitter.finish = .ok session.emitter.code := by
    rw [Emitter.finish, if_pos balanced]
  exact ⟨events, session, _, ran, finished, run_isBackpatched ran finished, waits, targets⟩

end MicroJava
