import Mathlib.Tactic.SplitIfs
import MicroJava.Emitter

/-!
# Steps that keep the lists of jumps in order

A step of the emitter may fail because a number does not fit its operand, but not because a
construct or a loop is missing or at another stage.  `Ensures` says so, and what holds after
the step.
-/

namespace MicroJava

open List

variable {noBody noFalse : Bool} {holds later : Construct → Prop} {emitter : Emitter}
  {kept : Emitter → Prop} {fixups : Fixups} {constructs : List Construct}
  {depth larger smaller : Nat} {code : Opcode} {stage : Stage} {α : Type} {label : Label}
  {act : Emit α} {action : String} {construct : Construct} {labels : List Label}

/-- Whether a fault says that jumps were not kept in order. -/
def Fault.isBookkeeping : Fault → Bool
  | imbalance _ => true
  | wrongStage _ _ => true
  | _ => false

/-- Whether a fault says that the analysis left something out. -/
def Fault.isMissing : Fault → Bool
  | missingAttribute _ _ => true
  | unannotated _ _ _ => true
  | _ => false

/-- Whether a fault says that the code or a number is too large. -/
def Fault.isLimit (fault : Fault) : Bool := !fault.isBookkeeping && !fault.isMissing

/-- From a state in which `pre` holds, a step leads to one in which `post` holds, or it fails on a
limit. -/
structure Ensures {σ α : Type} (pre : σ → Prop) (act : EStateM Fault σ α)
    (post : α → σ → Prop) : Prop where
  outcome : ∀ before, pre before → match act before with
    | .ok value after => post value after
    | .error fault _ => fault.isLimit

namespace Ensures

variable {σ β : Type} {pre : σ → Prop} {post : α → σ → Prop}

theorem result {value : α} (holds : ∀ state, pre state → post value state) :
    Ensures pre (pure value) post :=
  ⟨holds⟩

theorem fault {fault : Fault} (limit : fault.isLimit) : Ensures pre (throw fault) post :=
  ⟨fun _ _ => limit⟩

theorem state : Ensures pre (get : EStateM Fault σ σ) fun value state =>
    value = state ∧ pre state :=
  ⟨fun _ holds => ⟨rfl, holds⟩⟩

theorem change {step : σ → σ} {post : Unit → σ → Prop}
    (holds : ∀ state, pre state → post () (step state)) :
    Ensures pre (modify step) post :=
  ⟨holds⟩

theorem bind {act : EStateM Fault σ α} {next : α → EStateM Fault σ β} {last : β → σ → Prop}
    (first : Ensures pre act post) (second : ∀ value, Ensures (post value) (next value) last) :
    Ensures pre (act >>= next) last := by
  refine ⟨fun before holds => ?_⟩
  have between := first.outcome before holds
  change match EStateM.bind act next before with
    | .ok value after => last value after
    | .error fault _ => fault.isLimit
  unfold EStateM.bind
  generalize act before = outcome at between
  cases outcome with
  | ok value after => exact (second value).outcome after between
  | error fault after => exact between

theorem weaken {act : EStateM Fault σ α} {last : α → σ → Prop} (ensures : Ensures pre act post)
    (weaker : ∀ value state, post value state → last value state) :
    Ensures pre act last := by
  refine ⟨fun before holds => ?_⟩
  have after := ensures.outcome before holds
  generalize act before = outcome at after ⊢
  cases outcome with
  | ok value state => exact weaker value state after
  | error => exact after

theorem strengthen {act : EStateM Fault σ α} {first : σ → Prop} (ensures : Ensures pre act post)
    (stronger : ∀ state, first state → pre state) :
    Ensures first act post :=
  ⟨fun before holds => ensures.outcome before (stronger before holds)⟩

theorem assume {act : EStateM Fault σ α} {known : Prop} (ensures : known → Ensures pre act post) :
    Ensures (fun state => known ∧ pre state) act post :=
  ⟨fun before holds => (ensures holds.1).outcome before holds.2⟩

theorem forM {act : α → EStateM Fault σ Unit} {items : List α}
    (each : ∀ item ∈ items, Ensures pre (act item) fun _ => pre) :
    Ensures pre (items.forM act) fun _ => pre := by
  induction items with
  | nil => exact .result fun _ holds => holds
  | cons item rest ih =>
    rw [forall_mem_cons] at each
    exact each.1.bind fun _ => ih each.2

end Ensures

/-! ## What is known about an emitter -/

/-- The operand of a jump was written. -/
def Label.IsWithin (label : Label) (size : Nat) : Prop := label.offset + 2 ≤ size

/-- All jumps of a construct were written. -/
structure Construct.IsWithin (construct : Construct) (size : Nat) : Prop where
  falseJumps : ∀ label ∈ construct.falseJumps, label.IsWithin size
  bodyJumps : ∀ label ∈ construct.bodyJumps, label.IsWithin size

/-- All jumps that wait were written. -/
structure Fixups.IsWithin (fixups : Fixups) (size : Nat) : Prop where
  constructs : ∀ construct ∈ fixups.constructs, construct.IsWithin size
  loops : ∀ loop ∈ fixups.loops, ∀ label ∈ loop.jumps, label.IsWithin size

theorem Label.IsWithin.mono {size : Nat} (within : label.IsWithin size) (le : size ≤ larger) :
    label.IsWithin larger :=
  Nat.le_trans within le

theorem Construct.IsWithin.mono {size : Nat} (within : construct.IsWithin size)
    (le : size ≤ larger) :
    construct.IsWithin larger :=
  ⟨fun label member => (within.falseJumps label member).mono le,
    fun label member => (within.bodyJumps label member).mono le⟩

theorem Fixups.IsWithin.mono {size : Nat} (within : fixups.IsWithin size) (le : size ≤ larger) :
    fixups.IsWithin larger :=
  ⟨fun construct member => (within.constructs construct member).mono le,
    fun loop member label isJump => (within.loops loop member label isJump).mono le⟩

namespace Emitter

/-- These jumps wait, and so much code was written. -/
structure Holds (fixups : Fixups) (size : Nat) (emitter : Emitter) : Prop where
  fixups : emitter.fixups = fixups
  size : size ≤ emitter.code.size

/-- These constructs and so many loops are open, and all their jumps were written. -/
structure Awaits (constructs : List Construct) (depth size : Nat)
    (emitter : Emitter) : Prop where
  constructs : emitter.fixups.constructs = constructs
  depth : emitter.fixups.loops.length = depth
  within : emitter.fixups.IsWithin emitter.code.size
  size : size ≤ emitter.code.size

/-- The innermost construct has a property. -/
def Inside (holds : Construct → Prop) (constructs : List Construct) (depth size : Nat)
    (emitter : Emitter) : Prop :=
  ∃ construct, holds construct ∧ emitter.Awaits (construct :: constructs) depth size

variable {size : Nat}

theorem Awaits.mono (awaits : emitter.Awaits constructs depth size) (le : smaller ≤ size) :
    emitter.Awaits constructs depth smaller :=
  { awaits with size := Nat.le_trans le awaits.size }

theorem Holds.mono (holds : emitter.Holds fixups size) (le : smaller ≤ size) :
    emitter.Holds fixups smaller :=
  { holds with size := Nat.le_trans le holds.size }

theorem Awaits.of_holds {after : Emitter} (awaits : emitter.Awaits constructs depth size)
    (holds : after.Holds emitter.fixups emitter.code.size) :
    after.Awaits constructs depth size where
  constructs := by rw [holds.fixups, awaits.constructs]
  depth := by rw [holds.fixups, awaits.depth]
  within := holds.fixups.symm ▸ awaits.within.mono holds.size
  size := Nat.le_trans awaits.size holds.size

/-- More code does not change what is known. -/
class IsStable (kept : Emitter → Prop) : Prop where
  of_holds : ∀ {before after : Emitter}, kept before →
    after.Holds before.fixups before.code.size → kept after

instance : IsStable (Awaits constructs depth size) := ⟨Awaits.of_holds⟩

instance : IsStable (Inside holds constructs depth size) :=
  ⟨fun ⟨construct, property, awaits⟩ written => ⟨construct, property, awaits.of_holds written⟩⟩

instance {kept : Emitter → Prop} [IsStable kept] :
    IsStable fun emitter => label.IsWithin emitter.code.size ∧ kept emitter :=
  ⟨fun ⟨within, holds⟩ written => ⟨within.mono written.size, IsStable.of_holds holds written⟩⟩

end Emitter

open Emitter (Holds Awaits Inside IsStable)

theorem Emitter.Inside.imp {size : Nat} (inside : emitter.Inside holds constructs depth size)
    (weaker : ∀ construct, holds construct → later construct) :
    emitter.Inside later constructs depth size := by
  obtain ⟨construct, property, awaits⟩ := inside
  exact ⟨construct, weaker construct property, awaits⟩

theorem Emitter.Inside.size {size : Nat} (inside : emitter.Inside holds constructs depth size) :
    size ≤ emitter.code.size := by
  obtain ⟨_, _, awaits⟩ := inside
  exact awaits.size

theorem Ensures.of_holds {pre : Emitter → Prop} {post : α → Emitter → Prop}
    (each : ∀ before, pre before →
      Ensures (Holds before.fixups before.code.size) act post) :
    Ensures pre act post :=
  ⟨fun before holds => (each before holds).outcome before ⟨rfl, Nat.le_refl _⟩⟩

/-- A step that keeps every innermost construct keeps what is known about it. -/
theorem Ensures.inside {deeper size : Nat}
    (each : ∀ construct, Ensures (Awaits (construct :: constructs) depth size) act
      fun _ => Awaits (construct :: constructs) deeper size) :
    Ensures (Inside holds constructs depth size) act
      fun _ => Inside holds constructs deeper size :=
  ⟨fun before ⟨construct, property, awaits⟩ => ((each construct).weaken
    fun _ _ after => (⟨construct, property, after⟩ : ∃ _, _)).outcome before awaits⟩

namespace Emit

/-! ## Plain instructions -/

/-- A step that only writes code. -/
class IsPlain (act : Emit α) : Prop where
  ensures : ∀ fixups size, Ensures (Holds fixups size) act fun _ => Holds fixups size

theorem IsPlain.keeps [IsStable kept] [IsPlain act] : Ensures kept act fun _ => kept :=
  .of_holds fun _ holds => (ensures _ _).weaken fun _ _ => IsStable.of_holds holds

variable {size : Nat}

theorem ensures_offset :
    Ensures (Holds fixups size) offset fun start emitter =>
      size ≤ start ∧ emitter.Holds fixups start :=
  ⟨fun _ holds => ⟨holds.size, holds.fixups, Nat.le_refl _⟩⟩

theorem ensures_bytes (values : List UInt8) :
    Ensures (Holds fixups size) (bytes values) fun _ => Holds fixups (size + values.length) :=
  .change fun emitter holds => ⟨holds.fixups, by
    rw [Code.size_push]
    exact Nat.add_le_add_right holds.size _⟩

section Plain

open IsPlain

variable {β : Type} {next : α → Emit β} {value : α} {what : String} {number slot : Int}
    {operand second : UInt8}

theorem IsPlain.fault {fault : Fault} (limit : fault.isLimit) : IsPlain (throw fault : Emit α) :=
  ⟨fun _ _ => .fault limit⟩

instance : IsPlain (pure value) := ⟨fun _ _ => .result fun _ holds => holds⟩

instance [IsPlain act] [∀ value, IsPlain (next value)] : IsPlain (act >>= next) :=
  ⟨fun fixups size => (ensures fixups size).bind fun _ => ensures fixups size⟩

instance : IsPlain offset := ⟨fun _ _ => ⟨fun _ holds => holds⟩⟩

instance {line : Nat} : IsPlain (setLine line) :=
  ⟨fun _ _ => .change fun _ holds => ⟨holds.fixups, holds.size⟩⟩

instance plainBytes {values : List UInt8} : IsPlain (bytes values) :=
  ⟨fun _ _ => (ensures_bytes values).weaken fun _ _ holds => holds.mono (Nat.le_add_right _ _)⟩

instance : IsPlain (op code) := inferInstanceAs (IsPlain (bytes [code.byte]))

instance : IsPlain (opByte code operand) :=
  inferInstanceAs (IsPlain (bytes [code.byte, operand]))

instance : IsPlain (opBytes code operand second) :=
  inferInstanceAs (IsPlain (bytes [code.byte, operand, second]))

instance {operand : UInt16} : IsPlain (opUInt16 code operand) :=
  inferInstanceAs (IsPlain (bytes (code.byte :: BigEndian.encode 2 operand.toNat)))

instance {operand : Int16} : IsPlain (opInt16 code operand) :=
  inferInstanceAs (IsPlain (bytes (code.byte :: BigEndian.encode 2 operand.toUInt16.toNat)))

instance {ofWords : Bool} : IsPlain (newArray ofWords) := by unfold newArray; infer_instance
instance {name : String} : IsPlain (invokeVirtual name) := plainBytes
instance : IsPlain (trap operand) := by unfold trap; infer_instance
instance : IsPlain ret := inferInstanceAs (IsPlain (bytes [Opcode.exit.byte, Opcode.ret.byte]))

instance plainWord {value : Int32} :
    IsPlain (grow fun code line => (code.pushOp line .const).pushWord line value) :=
  inferInstanceAs (IsPlain (bytes (Opcode.const.byte ::
    BigEndian.encode 4 value.toUInt32.toNat)))

instance {value : Int32} : IsPlain (const value) := by
  unfold const
  split_ifs <;> infer_instance

instance : IsPlain (byteOperand what number) := by
  unfold byteOperand
  split_ifs
  · infer_instance
  · exact .fault rfl

instance : IsPlain (uint16Operand what number) := by
  unfold uint16Operand
  split_ifs
  · infer_instance
  · exact .fault rfl

instance {source target : Nat} : IsPlain (displacement source target) := by
  unfold displacement
  dsimp only
  split_ifs
  · infer_instance
  · exact .fault rfl

instance : IsPlain (loadLocal slot) := by
  unfold loadLocal
  split_ifs <;> infer_instance

instance : IsPlain (storeLocal slot) := by
  unfold storeLocal
  split_ifs <;> infer_instance

instance : IsPlain (getStatic slot) := by unfold getStatic; infer_instance
instance : IsPlain (putStatic slot) := by unfold putStatic; infer_instance
instance : IsPlain (getField slot) := by unfold getField; infer_instance
instance : IsPlain (putField slot) := by unfold putField; infer_instance
instance {delta : Int8} : IsPlain (inc slot delta) := by unfold inc; infer_instance
instance {size : Nat} : IsPlain (newObject size) := by unfold newObject; infer_instance
instance {target : Nat} : IsPlain (jumpTo code target) := by unfold jumpTo; infer_instance
instance {target : Nat} : IsPlain (call target) := by unfold call; infer_instance

end Plain

/-! ## Patches -/

theorem ensures_patch {offset : Nat} {values : List UInt8}
    (written : offset + values.length ≤ size) :
    Ensures (Holds fixups size) (patch (·.patch offset values)) fun _ => Holds fixups size := by
  refine ⟨fun before holds => ?_⟩
  have covered : before.code.covers offset values.length :=
    decide_eq_true (Nat.le_trans written holds.size)
  simp only [patch, Code.patch, if_pos covered]
  refine ⟨holds.fixups, ?_⟩
  rw [Code.size, Code.overwrite, Code.size_overwriteBytes]
  exact holds.size

theorem ensures_jump (code : Opcode) :
    Ensures (Holds fixups size) (jump code) fun label emitter =>
      size ≤ label.offset + 2 ∧ emitter.Holds fixups (label.offset + 2) :=
  ensures_offset.bind fun start => .assume fun le =>
    (ensures_bytes (code.byte :: BigEndian.encode 2 (0 : Int16).toUInt16.toNat)).bind fun _ =>
      .result fun _ holds => ⟨Nat.le_trans le (Nat.le_add_right start 3), holds⟩

theorem ensures_patchHere (within : label.IsWithin size) :
    Ensures (Holds fixups size) (patchHere label) fun _ => Holds fixups size :=
  (IsPlain.ensures fixups size).bind fun _ =>
    (IsPlain.ensures fixups size).bind fun _ => ensures_patch within

theorem ensures_patchAll (within : ∀ label ∈ labels, label.IsWithin size) :
    Ensures (Holds fixups size) (patchAll labels) fun _ => Holds fixups size :=
  (Ensures.forM fun label member => ensures_patchHere (within label member)).bind
    fun _ => .result fun _ holds => holds

theorem ensures_enter (params frameSize : Nat) :
    Ensures (Holds fixups size) (enter params frameSize) fun start emitter =>
      size ≤ start + 3 ∧ emitter.Holds fixups (start + 3) := by
  unfold enter
  refine ensures_offset.bind fun start => .assume fun le => ?_
  refine (IsPlain.ensures fixups start).bind fun first => ?_
  refine (IsPlain.ensures fixups start).bind fun second => ?_
  refine (ensures_bytes [Opcode.enter.byte, first, second]).bind fun _ => ?_
  exact .result fun _ holds => ⟨Nat.le_trans le (Nat.le_add_right start 3), holds⟩

instance {params frameSize : Nat} : IsPlain (enter params frameSize) :=
  ⟨fun _ _ => (ensures_enter params frameSize).weaken fun _ _ ⟨le, written⟩ => written.mono le⟩

theorem ensures_patchFrameSize {start : Nat} (frameSize : Nat) (opened : start + 3 ≤ size) :
    Ensures (Holds fixups size) (patchFrameSize start frameSize) fun _ => Holds fixups size := by
  unfold patchFrameSize
  exact (IsPlain.ensures fixups size).bind fun _ => ensures_patch opened

/-! ## Constructs -/

section

variable [IsStable kept]

theorem ensures_jump_kept (code : Opcode) :
    Ensures kept (jump code) fun label emitter =>
      label.IsWithin emitter.code.size ∧ kept emitter :=
  .of_holds fun _ holds => (ensures_jump code).weaken fun _ _ ⟨le, written⟩ =>
    ⟨written.size, IsStable.of_holds holds (written.mono le)⟩

theorem ensures_patchHere_kept
    (within : ∀ emitter, kept emitter → label.IsWithin emitter.code.size) :
    Ensures kept (patchHere label) fun _ => kept :=
  .of_holds fun _ holds => (ensures_patchHere (within _ holds)).weaken
    fun _ _ => IsStable.of_holds holds

theorem ensures_drain {take : Fix (List Label)} {pre : Emitter → Prop}
    (takes : Ensures pre (onFixups take) fun labels emitter =>
      (∀ label ∈ labels, label.IsWithin emitter.code.size) ∧ kept emitter) :
    Ensures pre (do patchAll (← onFixups take)) fun _ => kept :=
  takes.bind fun _ => .of_holds fun _ ⟨within, holds⟩ =>
    (ensures_patchAll within).weaken fun _ _ => IsStable.of_holds holds

end

theorem ensures_enter_awaits (params frameSize : Nat) :
    Ensures (Awaits constructs depth size) (enter params frameSize) fun start emitter =>
      size ≤ start + 3 ∧ emitter.Awaits constructs depth (start + 3) := by
  refine .of_holds fun before awaits => ?_
  refine (ensures_enter params frameSize).weaken fun start after ⟨le, written⟩ => ?_
  exact ⟨Nat.le_trans awaits.size le,
    { awaits.of_holds (written.mono le) with size := written.size }⟩

theorem ensures_jump_inside (code : Opcode) :
    Ensures (Inside holds constructs depth size) (jump code) fun label emitter =>
      size ≤ label.offset + 2 ∧ emitter.Inside holds constructs depth (label.offset + 2) := by
  refine .of_holds fun before ⟨construct, property, awaits⟩ => (ensures_jump code).weaken
    fun label after ⟨le, written⟩ => ⟨Nat.le_trans awaits.size le, construct, property, ?_⟩
  exact { awaits.of_holds (written.mono le) with size := written.size }

end Emit

/-- A construct is at a stage, and its lists are empty as far as it is said. -/
structure Construct.IsAt (stage : Stage) (noFalse noBody : Bool)
    (construct : Construct) : Prop where
  stage : construct.stage = stage
  falseJumps : noFalse → construct.falseJumps = #[]
  bodyJumps : noBody → construct.bodyJumps = #[]

theorem Construct.IsAt.forget (isAt : construct.IsAt stage noFalse noBody) :
    construct.IsAt stage false false :=
  ⟨isAt.stage, nofun, nofun⟩

namespace Emit

variable {size : Nat}

theorem ensures_onConstruct {act : Construct → Except Fault (α × Construct)} (asked : Nat → Prop)
    (known : α → Nat → Prop)
    (acts : ∀ construct total, asked total → holds construct → construct.IsWithin total →
      ∃ value next, act construct = .ok (value, next) ∧ next.IsWithin total ∧
        known value total ∧ later next) :
    Ensures (fun emitter => asked emitter.code.size ∧ emitter.Inside holds constructs depth size)
      (onFixups (Fix.onConstruct action act))
      fun value emitter => known value emitter.code.size ∧
        emitter.Inside later constructs depth size := by
  refine ⟨fun before ⟨meets, construct, property, awaits⟩ => ?_⟩
  have within := awaits.within.constructs
  rw [awaits.constructs, forall_mem_cons] at within
  obtain ⟨value, next, acted, nextWithin, isKnown, nextHolds⟩ :=
    acts construct before.code.size meets property within.1
  unfold onFixups Fix.onConstruct
  simp only [awaits.constructs, acted]
  exact ⟨isKnown, next, nextHolds, rfl, awaits.depth,
    ⟨forall_mem_cons.mpr ⟨nextWithin, within.2⟩, awaits.within.loops⟩, awaits.size⟩

theorem ensures_onInnermost {act : Construct → Except Fault (α × Construct)}
    (acts : ∀ construct total, holds construct → construct.IsWithin total →
      ∃ value next, act construct = .ok (value, next) ∧ next.IsWithin total ∧ later next) :
    Ensures (Inside holds constructs depth size) (onFixups (Fix.onConstruct action act))
      fun _ => Inside later constructs depth size := by
  refine ((ensures_onConstruct (fun _ => True) (fun _ _ => True)
    fun construct total _ property within => ?_).strengthen fun _ inside =>
      ⟨trivial, inside⟩).weaken
      fun _ _ after => after.2
  obtain ⟨value, next, acted, nextWithin, nextHolds⟩ := acts construct total property within
  exact ⟨value, next, acted, nextWithin, trivial, nextHolds⟩

theorem ensures_openConstruct (kind : ConstructKind) :
    Ensures (Awaits constructs depth size) (openConstruct kind)
      fun _ => Inside (Construct.IsAt .header true true) constructs depth size := by
  refine ⟨fun before awaits => ?_⟩
  refine ⟨{ kind := kind }, ⟨rfl, fun _ => rfl, fun _ => rfl⟩, ?_, awaits.depth, ?_, awaits.size⟩
  · exact congrArg _ awaits.constructs
  · exact ⟨forall_mem_cons.mpr ⟨⟨nofun, nofun⟩, awaits.within.constructs⟩, awaits.within.loops⟩

theorem ensures_advance (target : Stage) (action : String) :
    Ensures (Inside (Construct.IsAt stage noFalse noBody) constructs depth size)
      (onFixups (Fix.advance stage target action))
      fun _ => Inside (Construct.IsAt target noFalse noBody) constructs depth size := by
  refine ensures_onInnermost fun construct total isAt within => ?_
  rw [if_pos isAt.stage]
  exact ⟨_, _, rfl, ⟨within.falseJumps, within.bodyJumps⟩, rfl, isAt.falseJumps, isAt.bodyJumps⟩

theorem ensures_finishPatching :
    Ensures (Inside (Construct.IsAt .body true true) constructs depth size)
      (onFixups Fix.finishPatching)
      fun _ => Inside (Construct.IsAt .patched true true) constructs depth size := by
  refine ensures_onInnermost fun construct total isAt within => ?_
  have drained : (construct.falseJumps.isEmpty && construct.bodyJumps.isEmpty) = true := by
    rw [isAt.falseJumps rfl, isAt.bodyJumps rfl]
    rfl
  rw [if_pos drained, if_pos isAt.stage]
  exact ⟨_, _, rfl, ⟨within.falseJumps, within.bodyJumps⟩, rfl, isAt.falseJumps, isAt.bodyJumps⟩

theorem onFixups_bind {β : Type} (act : Fix α) (next : α → Fix β) :
    onFixups (act >>= next) = onFixups act >>= fun value => onFixups (next value) := by
  funext emitter
  change onFixups (EStateM.bind act next) emitter = EStateM.bind (onFixups act) _ emitter
  simp only [onFixups, EStateM.bind]
  cases act emitter.fixups with
  | ok value fixups => rfl
  | error fault fixups => rfl

theorem ensures_close :
    Ensures (Inside (Construct.IsAt .patched noFalse noBody) constructs depth size)
      (onFixups Fix.close) fun _ => Awaits constructs depth size := by
  rw [Fix.close, onFixups_bind]
  refine (ensures_advance .closed "close").bind fun _ => ⟨fun before ⟨construct, _, awaits⟩ => ?_⟩
  have within := awaits.within.constructs
  rw [awaits.constructs, forall_mem_cons] at within
  have outer : before.fixups.constructs.tail = constructs := by
    rw [awaits.constructs, tail_cons]
  have outerWithin := within.2
  rw [← outer] at outerWithin
  exact ⟨outer, awaits.depth, ⟨outerWithin, awaits.within.loops⟩, awaits.size⟩

theorem ensures_record {act : Label → Construct → Except Fault (Unit × Construct)}
    (acts : ∀ label construct total, label.IsWithin total → holds construct →
      construct.IsWithin total →
      ∃ next, act label construct = .ok ((), next) ∧ next.IsWithin total ∧ holds next) :
    Ensures (Inside holds constructs depth size)
      (do let label ← jump code; onFixups (Fix.onConstruct action (act label)))
      fun _ => Inside holds constructs depth size := by
  refine (ensures_jump_kept code).bind fun label => ?_
  refine (ensures_onConstruct label.IsWithin (fun _ _ => True)
    fun construct total isWithin property within => ?_).weaken fun _ _ after => after.2
  obtain ⟨next, acted, nextWithin, nextHolds⟩ := acts label construct total isWithin property within
  exact ⟨(), next, acted, nextWithin, trivial, nextHolds⟩

theorem forall_mem_push {labels : Array Label} {total : Nat}
    (within : ∀ other ∈ labels, other.IsWithin total) (isWithin : label.IsWithin total) :
    ∀ other ∈ labels.push label, other.IsWithin total := by
  intro other member
  rcases Array.mem_push.mp member with member | rfl
  · exact within other member
  · exact isWithin

theorem ensures_falseJump (op : RelOp) :
    Ensures (Inside (Construct.IsAt .header false noBody) constructs depth size) (falseJump op)
      fun _ => Inside (Construct.IsAt .header false noBody) constructs depth size := by
  refine ensures_record fun label construct total isWithin isAt within => ?_
  rw [if_pos isAt.stage]
  exact ⟨_, rfl, ⟨forall_mem_push within.falseJumps isWithin, within.bodyJumps⟩,
    isAt.stage, nofun, isAt.bodyJumps⟩

theorem ensures_bodyJump :
    Ensures (Inside (Construct.IsAt .header noFalse false) constructs depth size) bodyJump
      fun _ => Inside (Construct.IsAt .header noFalse false) constructs depth size := by
  refine ensures_record fun label construct total isWithin isAt within => ?_
  rw [if_pos isAt.stage]
  exact ⟨_, rfl, ⟨within.falseJumps, forall_mem_push within.bodyJumps isWithin⟩,
    isAt.stage, isAt.falseJumps, nofun⟩

theorem ensures_takeFalse :
    Ensures (Inside (Construct.IsAt stage noFalse noBody) constructs depth size)
      (onFixups Fix.takeFalse) fun labels emitter =>
        (∀ label ∈ labels, label.IsWithin emitter.code.size) ∧
          emitter.Inside (Construct.IsAt stage true noBody) constructs depth size := by
  refine (ensures_onConstruct (fun _ => True)
    (fun (labels : List Label) total => ∀ label ∈ labels, label.IsWithin total)
    fun construct total _ isAt within => ?_).strengthen fun _ inside => ⟨trivial, inside⟩
  exact ⟨_, _, rfl, ⟨nofun, within.bodyJumps⟩,
    fun label member => within.falseJumps label (Array.mem_toList_iff.mp member),
    isAt.stage, fun _ => rfl, isAt.bodyJumps⟩

theorem ensures_takeBody :
    Ensures (Inside (Construct.IsAt stage noFalse noBody) constructs depth size)
      (onFixups Fix.takeBody) fun labels emitter =>
        (∀ label ∈ labels, label.IsWithin emitter.code.size) ∧
          emitter.Inside (Construct.IsAt stage noFalse true) constructs depth size := by
  refine (ensures_onConstruct (fun _ => True)
    (fun (labels : List Label) total => ∀ label ∈ labels, label.IsWithin total)
    fun construct total _ isAt within => ?_).strengthen fun _ inside => ⟨trivial, inside⟩
  exact ⟨_, _, rfl, ⟨within.falseJumps, nofun⟩,
    fun label member => within.bodyJumps label (Array.mem_toList_iff.mp member),
    isAt.stage, isAt.falseJumps, fun _ => rfl⟩

theorem ensures_patchFalse :
    Ensures (Inside (Construct.IsAt stage noFalse noBody) constructs depth size) patchFalse
      fun _ => Inside (Construct.IsAt stage true noBody) constructs depth size :=
  ensures_drain ensures_takeFalse

theorem ensures_patchBody :
    Ensures (Inside (Construct.IsAt stage noFalse noBody) constructs depth size) patchBody
      fun _ => Inside (Construct.IsAt stage noFalse true) constructs depth size :=
  ensures_drain ensures_takeBody

/-! ## Loops -/

theorem ensures_enterLoop (target : Nat) :
    Ensures (Awaits constructs depth size) (enterLoop target)
      fun _ => Awaits constructs (depth + 1) size :=
  ⟨fun _ awaits => ⟨awaits.constructs, congrArg (· + 1) awaits.depth,
    ⟨awaits.within.constructs, forall_mem_cons.mpr ⟨nofun, awaits.within.loops⟩⟩, awaits.size⟩⟩

theorem ensures_addExits {complaint : String} :
    Ensures (fun emitter => (∀ label ∈ labels, label.IsWithin emitter.code.size) ∧
        emitter.Awaits constructs (depth + 1) size)
      (onFixups (Fix.addExits labels complaint)) fun _ => Awaits constructs (depth + 1) size := by
  refine ⟨fun ⟨code, ⟨constructs, loops⟩, line⟩ ⟨within, awaits⟩ => ?_⟩
  obtain ⟨innermost, outer, rfl⟩ := exists_cons_of_length_eq_add_one awaits.depth
  have exits := awaits.within.loops
  rw [forall_mem_cons] at exits
  refine ⟨awaits.constructs, awaits.depth, ⟨awaits.within.constructs, ?_⟩, awaits.size⟩
  refine forall_mem_cons.mpr ⟨fun label member => ?_, exits.2⟩
  have either : label ∈ innermost.jumps ∨ label ∈ labels := by
    rw [← Array.mem_toList_iff, Array.toList_appendList, mem_append,
      Array.mem_toList_iff] at member
    exact member
  exact either.elim (exits.1 label) (within label)

theorem ensures_breakLoop :
    Ensures (Awaits constructs (depth + 1) size) breakLoop
      fun _ => Awaits constructs (depth + 1) size := by
  refine Ensures.state.bind fun emitter => ⟨fun before ⟨same, awaits⟩ => ?_⟩
  have inLoop : emitter.fixups.inLoop := by
    rw [same, Fixups.inLoop, Bool.not_eq_true', isEmpty_eq_false_iff_exists_mem]
    exact exists_mem_of_length_pos (by rw [awaits.depth]; exact Nat.succ_pos depth)
  rw [if_pos inLoop]
  refine ((ensures_jump_kept .jmp).bind fun label => ?_).outcome before awaits
  exact ensures_addExits.strengthen fun _ ⟨within, awaits⟩ =>
    ⟨forall_mem_singleton.mpr within, awaits⟩

theorem ensures_falseIntoLoop :
    Ensures (Inside (Construct.IsAt stage noFalse noBody) constructs (depth + 1) size)
      (onFixups Fix.falseIntoLoop)
      fun _ => Inside (Construct.IsAt stage true noBody) constructs (depth + 1) size := by
  rw [Fix.falseIntoLoop, onFixups_bind]
  refine ensures_takeFalse.bind fun labels => ?_
  rw [onFixups_bind]
  refine Ensures.bind ⟨fun before ⟨within, construct, isAt, awaits⟩ => ?_⟩
    fun _ => .result fun _ after => after
  exact (ensures_addExits.weaken fun _ _ after =>
    (⟨construct, isAt, after⟩ : ∃ _, _)).outcome before ⟨within, awaits⟩

theorem ensures_continueLoop :
    Ensures (Awaits constructs (depth + 1) size) continueLoop
      fun _ => Awaits constructs (depth + 1) size := by
  refine Ensures.bind ⟨fun ⟨code, ⟨constructs, loops⟩, line⟩ awaits => ?_⟩
    fun target => IsPlain.keeps
  obtain ⟨innermost, outer, rfl⟩ := exists_cons_of_length_eq_add_one awaits.depth
  exact awaits

theorem ensures_exitLoop :
    Ensures (Awaits constructs (depth + 1) size) exitLoop fun _ =>
      Awaits constructs depth size := by
  refine ensures_drain ⟨fun ⟨code, ⟨constructs, loops⟩, line⟩ awaits => ?_⟩
  obtain ⟨innermost, outer, rfl⟩ := exists_cons_of_length_eq_add_one awaits.depth
  have exits := awaits.within.loops
  rw [forall_mem_cons] at exits
  refine ⟨fun label member => exits.1 label (Array.mem_toList_iff.mp member), ?_⟩
  exact ⟨awaits.constructs, Nat.succ.inj awaits.depth, ⟨awaits.within.constructs, exits.2⟩,
    awaits.size⟩

end Emit

theorem Emitter.Awaits.finish_eq {size : Nat} (awaits : emitter.Awaits [] 0 size) :
    emitter.finish = .ok emitter.code := by
  have balanced : emitter.fixups.isBalanced := by
    rw [Fixups.isBalanced, awaits.constructs, length_eq_zero_iff.mp awaits.depth]
    rfl
  rw [Emitter.finish, if_pos balanced]

end MicroJava
