import MicroJava.Proofs.Layout.Conditions

/-!
# Operations of the emitter

A session is any sequence of operations on an emitter.  A jump without a target is either
handed out as a label, or kept in a list until the list is drained.
-/

namespace MicroJava

open List

variable {fixups : Fixups} {count start : Nat} {op : Opcode} {α : Type} {before after : Emitter}
  {labels : List Label} {granted : Granted} {construct changed : Construct}
  {take : Fix (List Label)} {outer : List Construct} {bytes : Array UInt8} {action : String}

/-! ## Patches -/

/-- Bytes that replace others. -/
structure Patch where
  offset : Nat
  values : List UInt8

namespace Patch

/-- Replace bytes. -/
def apply (bytes : Array UInt8) (patch : Patch) : Array UInt8 :=
  Code.overwriteBytes bytes patch.offset patch.values

/-- A patch replaces the byte at an offset. -/
def Touches (patch : Patch) (offset : Nat) : Prop :=
  patch.offset ≤ offset ∧ offset < patch.offset + patch.values.length

@[simp] theorem size_foldl_apply (bytes : Array UInt8) (patches : List Patch) :
    (patches.foldl apply bytes).size = bytes.size := by
  induction patches generalizing bytes with
  | nil => rfl
  | cons patch rest ih => rw [foldl_cons, ih, apply, Code.size_overwriteBytes]

theorem getElem?_foldl_apply_of_untouched {patches : List Patch} {offset : Nat}
    (untouched : ∀ patch ∈ patches, ¬ patch.Touches offset) :
    (patches.foldl apply bytes)[offset]? = bytes[offset]? := by
  induction patches generalizing bytes with
  | nil => rfl
  | cons patch rest ih =>
    obtain ⟨here, later⟩ := forall_mem_cons.mp untouched
    rw [foldl_cons, ih later]
    apply Code.getElem?_overwriteBytes_outside
    unfold Touches at here
    omega

theorem getElem?_foldl_apply_of_last {earlier later : List Patch} {patch : Patch} {index : Nat}
    {byte : UInt8} (fits : patch.offset + patch.values.length ≤ bytes.size)
    (here : patch.values[index]? = some byte)
    (untouched : ∀ other ∈ later, ¬ other.Touches (patch.offset + index)) :
    ((earlier ++ patch :: later).foldl apply bytes)[patch.offset + index]? = some byte := by
  rw [foldl_append, foldl_cons, getElem?_foldl_apply_of_untouched untouched]
  exact Code.getElem?_overwriteBytes_inside here (by rwa [size_foldl_apply])

end Patch

/-- The patch by which a jump gets a target. -/
def Label.patchTo (label : Label) (target : Nat) : Patch :=
  ⟨label.offset, Instruction.reachBytes label.instruction target⟩

theorem Label.length_patchTo (label : Label) (target : Nat) :
    (label.patchTo target).values.length = 2 := by
  simp [Label.patchTo, Instruction.reachBytes]

/-! ## Operations -/

/-- An instruction that is written at once. -/
inductive Writing
  | op (op : Opcode)
  | opByte (op : Opcode) (operand : UInt8)
  | opBytes (op : Opcode) (first second : UInt8)
  | opUInt16 (op : Opcode) (operand : UInt16)
  | opInt16 (op : Opcode) (operand : Int16)
  | const (value : Int32)
  | loadLocal (slot : Int)
  | storeLocal (slot : Int)
  | getStatic (slot : Int)
  | putStatic (slot : Int)
  | getField (offset : Int)
  | putField (offset : Int)
  | inc (slot : Int) (delta : Int8)
  | newObject (size : Nat)
  | newArray (ofWords : Bool)
  | ret
  | invokeVirtual (name : String)
  | trap (number : UInt8)
  | jumpTo (op : Opcode) (target : Nat)
  | call (target : Nat)

/-- Write an instruction. -/
def Writing.act : Writing → Emit Unit
  | .op code => Emit.op code
  | .opByte code operand => Emit.opByte code operand
  | .opBytes code first second => Emit.opBytes code first second
  | .opUInt16 code operand => Emit.opUInt16 code operand
  | .opInt16 code operand => Emit.opInt16 code operand
  | .const value => Emit.const value
  | .loadLocal slot => Emit.loadLocal slot
  | .storeLocal slot => Emit.storeLocal slot
  | .getStatic slot => Emit.getStatic slot
  | .putStatic slot => Emit.putStatic slot
  | .getField offset => Emit.getField offset
  | .putField offset => Emit.putField offset
  | .inc slot delta => Emit.inc slot delta
  | .newObject size => Emit.newObject size
  | .newArray ofWords => Emit.newArray ofWords
  | .ret => Emit.ret
  | .invokeVirtual name => Emit.invokeVirtual name
  | .trap number => Emit.trap number
  | .jumpTo code target => Emit.jumpTo code target
  | .call target => Emit.call target

/-- An operation of the emitter. -/
inductive Operation
  | setLine (line : Nat)
  | write (writing : Writing)
  | enter (params frameSize : Nat)
  | patchFrameSize (start frameSize : Nat)
  | jump (op : Opcode)
  | patchTo (label : Label) (target : Nat)
  | patchHere (label : Label)
  | openConstruct (kind : ConstructKind)
  | falseJump (op : RelOp)
  | bodyJump
  | patchFalse
  | patchBody
  | finishConditions
  | finishBody
  | finishPatching
  | close
  | enterLoop (continueTarget : Nat)
  | falseIntoLoop
  | exitLoop
  | breakLoop
  | continueLoop

/-- What an operation hands out, to be patched later. -/
structure Granted where
  labels : List Label := []
  frames : List Nat := []

/-- Where the instructions that may be patched start. -/
def Granted.starts (granted : Granted) : List Nat :=
  granted.frames ++ granted.labels.map Label.instruction

namespace Operation

/-- Run an operation that hands out nothing. -/
def plainly {α : Type} (act : Emit α) : Emit Granted := do
  let _ ← act
  return {}

/-- Run an operation. -/
def act : Operation → Emit Granted
  | setLine line => plainly (Emit.setLine line)
  | write writing => plainly writing.act
  | enter params frameSize => do return { frames := [← Emit.enter params frameSize] }
  | patchFrameSize start frameSize => plainly (Emit.patchFrameSize start frameSize)
  | jump op => do return { labels := [← Emit.jump op] }
  | patchTo label target => plainly (Emit.patchTo label target)
  | patchHere label => plainly (Emit.patchHere label)
  | openConstruct kind => plainly (Emit.openConstruct kind)
  | falseJump op => plainly (Emit.falseJump op)
  | bodyJump => plainly Emit.bodyJump
  | patchFalse => plainly Emit.patchFalse
  | patchBody => plainly Emit.patchBody
  | finishConditions => plainly (Emit.onFixups Fix.finishConditions)
  | finishBody => plainly (Emit.onFixups Fix.finishBody)
  | finishPatching => plainly (Emit.onFixups Fix.finishPatching)
  | close => plainly (Emit.onFixups Fix.close)
  | enterLoop continueTarget => plainly (Emit.enterLoop continueTarget)
  | falseIntoLoop => plainly (Emit.onFixups Fix.falseIntoLoop)
  | exitLoop => plainly Emit.exitLoop
  | breakLoop => plainly Emit.breakLoop
  | continueLoop => plainly Emit.continueLoop

/-- The jump that an operation at an offset adds to a list. -/
def waits (start : Nat) : Operation → List Label
  | falseJump _ | bodyJump | breakLoop => [⟨start + 1⟩]
  | _ => []

/-- The jumps that an operation takes off a list to give them their target. -/
def drained (fixups : Fixups) : Operation → List Label
  | patchFalse => (fixups.constructs.head?.map (·.falseJumps.toList)).getD []
  | patchBody => (fixups.constructs.head?.map (·.bodyJumps.toList)).getD []
  | exitLoop => (fixups.loops.head?.map (·.jumps.toList)).getD []
  | _ => []

/-- The bytes that an operation replaces. -/
def patches (before : Emitter) : Operation → List Patch
  | patchFrameSize start frameSize => [⟨start + 2, [UInt8.ofNat frameSize]⟩]
  | patchTo label target => [label.patchTo target]
  | patchHere label => [label.patchTo before.code.size]
  | operation => (operation.drained before.fixups).map (·.patchTo before.code.size)

end Operation

/-! ## Lists of jumps -/

/-- The jumps that wait in the lists of a construct. -/
def Construct.pending (construct : Construct) : List Label :=
  construct.falseJumps.toList ++ construct.bodyJumps.toList

namespace Fixups

/-- All jumps that wait. -/
def pending (fixups : Fixups) : List Label :=
  fixups.constructs.flatMap Construct.pending ++ fixups.loops.flatMap (·.jumps.toList)

/-- No jump waits in a construct that is only left to be closed. -/
def IsStaged (fixups : Fixups) : Prop :=
  ∀ construct ∈ fixups.constructs, construct.stage = .patched → construct.pending = []

theorem IsStaged.change (staged : fixups.IsStaged)
    (isTop : fixups.constructs = construct :: outer)
    (kept : changed.stage = .patched → (construct.stage = .patched → construct.pending = []) →
      changed.pending = []) :
    ({ fixups with constructs := changed :: outer } : Fixups).IsStaged := by
  rw [IsStaged, isTop, forall_mem_cons] at staged
  exact forall_mem_cons.mpr ⟨fun patched => kept patched staged.1, staged.2⟩

end Fixups

/-! ## How the operations run -/

namespace Emit

open Run

theorem writing_ok {writing : Writing} (ran : writing.act before = .ok () after) :
    ∃ bytes, after = before.write bytes := by
  cases writing with
  | op _ => exact ⟨_, op_ok ran⟩
  | opByte _ _ => exact ⟨_, opByte_ok ran⟩
  | opBytes _ _ _ => exact ⟨_, opBytes_ok ran⟩
  | opUInt16 _ _ => exact ⟨_, opUInt16_ok ran⟩
  | opInt16 _ _ => exact ⟨_, opInt16_ok ran⟩
  | const _ => exact ⟨_, (const_writes ran).eq⟩
  | loadLocal _ => exact ⟨_, (loadLocal_writes ran).2.eq⟩
  | storeLocal _ => exact ⟨_, (storeLocal_writes ran).2.eq⟩
  | getStatic _ => exact ⟨_, (getStatic_writes ran).2.eq⟩
  | putStatic _ => exact ⟨_, (putStatic_writes ran).2.eq⟩
  | getField _ => exact ⟨_, (getField_writes ran).2.eq⟩
  | putField _ => exact ⟨_, (putField_writes ran).2.eq⟩
  | inc _ _ => exact ⟨_, (inc_writes ran).2.eq⟩
  | newObject _ => exact ⟨_, (newObject_writes ran).eq⟩
  | newArray _ => exact ⟨_, (newArray_writes ran).eq⟩
  | ret => exact ⟨_, ret_ok ran⟩
  | invokeVirtual _ => exact ⟨_, bytes_ok ran⟩
  | trap _ => exact ⟨_, (trap_writes ran).eq⟩
  | jumpTo _ _ => exact ⟨_, (jumpTo_ok ran).2⟩
  | call _ => exact ⟨_, (call_writes ran).eq⟩

theorem patchHere_ok {label : Label} (ran : patchHere label before = .ok () after) :
    Instruction.Reaches label.instruction before.code.size ∧
      label.offset + 2 ≤ before.code.size ∧
      after = { before with
        code := before.code.overwrite label.offset
          (Instruction.reachBytes label.instruction before.code.size) } := by
  obtain ⟨_, _, located, ran⟩ := bind_ok ran
  obtain ⟨rfl, rfl⟩ := offset_ok located
  exact patchTo_ok ran

theorem patchEach_ok (ran : labels.forM patchHere before = .ok () after) :
    after.fixups = before.fixups ∧
      after.code.bytes = (labels.map (·.patchTo before.code.size)).foldl Patch.apply
        before.code.bytes ∧
      ∀ label ∈ labels, Instruction.Reaches label.instruction before.code.size ∧
        label.offset + 2 ≤ before.code.size := by
  induction labels generalizing before with
  | nil =>
    obtain rfl := forM_nil_ok ran
    exact ⟨rfl, rfl, by simp⟩
  | cons label rest ih =>
    obtain ⟨between, first, later⟩ := forM_cons_ok ran
    obtain ⟨reaches, fits, rfl⟩ := patchHere_ok first
    have sameSize : (before.code.overwrite label.offset
        (Instruction.reachBytes label.instruction before.code.size)).size = before.code.size :=
      Code.size_overwriteBytes _ _ _
    obtain ⟨fixups, bytes, each⟩ := ih later
    rw [sameSize] at bytes each
    exact ⟨fixups, bytes, forall_mem_cons.mpr ⟨⟨reaches, fits⟩, each⟩⟩

theorem patchTaken_ok (ran : (onFixups take >>= patchAll) before = .ok count after) :
    ∃ labels, take before.fixups = .ok labels after.fixups ∧
      after.code.bytes = (labels.map (·.patchTo before.code.size)).foldl Patch.apply
        before.code.bytes ∧
      ∀ label ∈ labels, Instruction.Reaches label.instruction before.code.size ∧
        label.offset + 2 ≤ before.code.size := by
  obtain ⟨labels, between, taking, ran⟩ := bind_ok ran
  obtain ⟨fixups, taken, rfl⟩ := onFixups_ok taking
  obtain ⟨_, _, each, done⟩ := bind_ok ran
  obtain ⟨_, rfl⟩ := pure_ok done
  obtain ⟨sameFixups, bytes, fits⟩ := patchEach_ok each
  rw [sameFixups]
  exact ⟨labels, taken, bytes, fits⟩

theorem jumpInto_ok {add : Label → Fix Unit}
    (ran : (jump op >>= fun label => onFixups (add label)) before = .ok () after) :
    after.code = (before.write [op.byte, 0, 0]).code ∧
      add ⟨before.code.size + 1⟩ before.fixups = .ok () after.fixups := by
  obtain ⟨label, between, jumped, ran⟩ := bind_ok ran
  obtain ⟨rfl, rfl⟩ := jump_ok jumped
  obtain ⟨fixups, added, rfl⟩ := onFixups_ok ran
  exact ⟨rfl, added⟩

theorem breakLoop_ok (ran : breakLoop before = .ok () after) :
    after.code = (before.write [Opcode.jmp.byte, 0, 0]).code ∧
      Fix.addBreak ⟨before.code.size + 1⟩ before.fixups = .ok () after.fixups := by
  obtain ⟨_, _, found, ran⟩ := bind_ok ran
  cases found
  split at ran
  next => exact jumpInto_ok ran
  next => cases ran

theorem continueLoop_ok (ran : continueLoop before = .ok () after) :
    ∃ bytes, after = before.write bytes := by
  obtain ⟨target, between, found, ran⟩ := bind_ok ran
  obtain ⟨fixups, read, rfl⟩ := onFixups_ok found
  obtain ⟨_, rfl⟩ := Fix.continueTarget_ok read
  exact ⟨_, (jumpTo_ok ran).2⟩

theorem patchFrameSize_ok {frameSize : Nat}
    (ran : patchFrameSize start frameSize before = .ok () after) :
    start + 3 ≤ before.code.size ∧
      after = { before with
        code := before.code.overwrite (start + 2) [UInt8.ofNat frameSize] } := by
  obtain ⟨_, _, checked, ran⟩ := bind_ok ran
  obtain ⟨_, rfl, rfl⟩ := byteOperand_ok checked
  exact patch_ok ran

end Emit

/-! ## What an operation does to the lists -/

namespace Fixups

variable {drained waits : List Label}

theorem pending_perm_of_construct (isTop : fixups.constructs = construct :: outer)
    (own : (drained ++ changed.pending).Perm (construct.pending ++ waits)) :
    (drained ++ ({ fixups with constructs := changed :: outer } : Fixups).pending).Perm
      (fixups.pending ++ waits) := by
  rw [perm_iff_count] at own ⊢
  intro label
  have count := own label
  simp only [pending, isTop, flatMap_cons, count_append] at count ⊢
  omega

theorem pending_perm_of_loop {loop changed : LoopExits} {outer : List LoopExits}
    (isTop : fixups.loops = loop :: outer)
    (own : (drained ++ changed.jumps.toList).Perm (loop.jumps.toList ++ waits)) :
    (drained ++ ({ fixups with loops := changed :: outer } : Fixups).pending).Perm
      (fixups.pending ++ waits) := by
  rw [perm_iff_count] at own ⊢
  intro label
  have count := own label
  simp only [pending, isTop, flatMap_cons, count_append] at count ⊢
  omega

end Fixups

namespace Operation

open Run

theorem plainly_ok {act : Emit α} (ran : plainly act before = .ok granted after) :
    granted = {} ∧ ∃ value, act before = .ok value after := by
  obtain ⟨value, between, acted, ran⟩ := bind_ok ran
  obtain ⟨rfl, rfl⟩ := pure_ok ran
  exact ⟨rfl, value, acted⟩

theorem takeFalse_drained {before after : Fixups} (ran : Fix.takeFalse before = .ok labels after) :
    patchFalse.drained before = labels := by
  obtain ⟨construct, changed, outer, isTop, acted, rfl⟩ := Fix.onConstruct_ok ran
  cases acted
  simp [drained, isTop]

theorem takeBody_drained {before after : Fixups} (ran : Fix.takeBody before = .ok labels after) :
    patchBody.drained before = labels := by
  obtain ⟨construct, changed, outer, isTop, acted, rfl⟩ := Fix.onConstruct_ok ran
  cases acted
  simp [drained, isTop]

theorem exitLoop_drained {before after : Fixups} (ran : Fix.exitLoop before = .ok labels after) :
    exitLoop.drained before = labels := by
  obtain ⟨constructs, loops⟩ := before
  cases loops with
  | nil => cases ran
  | cons innermost outer =>
    cases ran
    rfl

/-- Jumps that wait are only moved, added to a list, or taken off it to be patched. -/
structure Moves (operation : Operation) (start : Nat) (before after : Fixups) : Prop where
  perm : (operation.drained before ++ after.pending).Perm
    (before.pending ++ operation.waits start)
  staged : after.IsStaged

section

variable {operation : Operation} {before after : Fixups}

section

variable (staged : before.IsStaged)
include staged

theorem Moves.of_same (same : after = before) (undrained : operation.drained before = [])
    (noJump : operation.waits start = []) :
    operation.Moves start before after := by
  rw [same]
  exact ⟨by rw [undrained, noJump, nil_append, append_nil], staged⟩

theorem Moves.of_onConstruct {result : α} {act : Construct → Except Fault (α × Construct)}
    (ran : Fix.onConstruct action act before = .ok result after)
    (kept : ∀ construct changed, act construct = .ok (result, changed) →
      before.constructs.head? = some construct →
      (operation.drained before ++ changed.pending).Perm
          (construct.pending ++ operation.waits start) ∧
        (changed.stage = .patched → (construct.stage = .patched → construct.pending = []) →
          changed.pending = [])) :
    operation.Moves start before after := by
  obtain ⟨construct, changed, outer, isTop, acted, rfl⟩ := Fix.onConstruct_ok ran
  obtain ⟨own, patched⟩ := kept construct changed acted (by rw [isTop]; rfl)
  exact ⟨Fixups.pending_perm_of_construct isTop own, staged.change isTop patched⟩

theorem Moves.of_stage {source : Stage} {change : Construct → Construct}
    (ran : Fix.onConstruct action (fun construct =>
      if construct.stage = source then .ok ((), change construct)
      else .error (.wrongStage construct.stage action)) before = .ok () after)
    (early : ∀ construct, construct.stage = source → (change construct).stage ≠ .patched)
    (perm : ∀ construct,
      (change construct).pending.Perm (construct.pending ++ operation.waits start))
    (undrained : operation.drained before = []) :
    operation.Moves start before after := by
  refine .of_onConstruct staged ran fun construct changed acted _ => ?_
  split at acted
  next inStage =>
    cases acted
    rw [undrained]
    exact ⟨perm construct, fun patched => absurd patched (early construct inStage)⟩
  next => cases acted

theorem addFalse_moves {op : RelOp} (ran : Fix.addFalse ⟨start + 1⟩ before = .ok () after) :
    (falseJump op).Moves start before after := by
  refine .of_stage staged ran (by simp +contextual) (fun construct => ?_) rfl
  rw [perm_iff_count]
  intro label
  simp only [waits, Construct.pending, Array.toList_push, count_append]
  omega

theorem addBody_moves (ran : Fix.addBody ⟨start + 1⟩ before = .ok () after) :
    bodyJump.Moves start before after :=
  .of_stage staged ran (by simp +contextual) (by simp [waits, Construct.pending]) rfl

theorem takeFalse_moves (ran : Fix.takeFalse before = .ok labels after) :
    patchFalse.Moves start before after := by
  refine .of_onConstruct staged ran fun construct changed acted isTop => ?_
  cases acted
  simp only [drained, waits, isTop, Option.map_some, Option.getD_some, Construct.pending,
    nil_append, append_nil]
  exact ⟨.refl _, fun patched empty => (append_eq_nil_iff.mp (empty patched)).2⟩

theorem takeBody_moves (ran : Fix.takeBody before = .ok labels after) :
    patchBody.Moves start before after := by
  refine .of_onConstruct staged ran fun construct changed acted isTop => ?_
  cases acted
  simp only [drained, waits, isTop, Option.map_some, Option.getD_some, Construct.pending,
    append_nil]
  exact ⟨perm_append_comm, fun patched empty => (append_eq_nil_iff.mp (empty patched)).1⟩

theorem finishPatching_moves (ran : Fix.finishPatching before = .ok () after) :
    finishPatching.Moves start before after := by
  refine .of_onConstruct staged ran fun construct changed acted _ => ?_
  split at acted
  next empty =>
    split at acted
    next =>
      cases acted
      refine ⟨by simp [drained, waits, Construct.pending], fun _ _ => ?_⟩
      rw [Bool.and_eq_true, Array.isEmpty_iff, Array.isEmpty_iff] at empty
      simp [Construct.pending, empty]
    next => cases acted
  next => cases acted

theorem close_moves (ran : Fix.close before = .ok () after) :
    close.Moves start before after := by
  obtain ⟨_, between, advanced, ran⟩ := bind_ok ran
  obtain ⟨construct, changed, outer, isTop, acted, rfl⟩ := Fix.onConstruct_ok advanced
  cases ran
  split at acted
  next patched =>
    rw [Fixups.IsStaged, isTop, forall_mem_cons] at staged
    have empty := staged.1 patched
    refine ⟨?_, staged.2⟩
    simp [drained, waits, Fixups.pending, isTop, empty]
  next => cases acted

end

theorem addExits_perm {complaint : String}
    (ran : Fix.addExits labels complaint before = .ok () after) :
    after.pending.Perm (before.pending ++ labels) ∧ after.constructs = before.constructs := by
  obtain ⟨constructs, loops⟩ := before
  cases loops with
  | nil => cases ran
  | cons innermost outer =>
    cases ran
    refine ⟨?_, rfl⟩
    rw [← nil_append (Fixups.pending _)]
    have isTop : Fixups.loops { constructs := constructs, loops := innermost :: outer } =
      innermost :: outer := rfl
    exact Fixups.pending_perm_of_loop isTop (by simp)

theorem addBreak_moves (staged : before.IsStaged)
    (ran : Fix.addBreak ⟨start + 1⟩ before = .ok () after) :
    breakLoop.Moves start before after := by
  obtain ⟨moved, same⟩ := addExits_perm ran
  exact ⟨moved, by rw [Fixups.IsStaged, same]; exact staged⟩

theorem falseIntoLoop_moves (staged : before.IsStaged)
    (ran : Fix.falseIntoLoop before = .ok count after) :
    falseIntoLoop.Moves start before after := by
  obtain ⟨labels, between, taken, ran⟩ := bind_ok ran
  obtain ⟨_, _, added, ran⟩ := bind_ok ran
  obtain ⟨_, rfl⟩ := pure_ok ran
  have takes : patchFalse.Moves start before between := takeFalse_moves staged taken
  obtain ⟨moved, same⟩ := addExits_perm added
  refine ⟨?_, by rw [Fixups.IsStaged, same]; exact takes.staged⟩
  have perm := takes.perm
  rw [takeFalse_drained taken] at perm
  exact moved.trans (perm_append_comm.trans perm)

theorem exitLoop_moves (staged : before.IsStaged) (ran : Fix.exitLoop before = .ok labels after) :
    exitLoop.Moves start before after := by
  obtain ⟨constructs, loops⟩ := before
  cases loops with
  | nil => cases ran
  | cons innermost outer =>
    cases ran
    refine ⟨?_, staged⟩
    rw [perm_iff_count]
    intro label
    simp only [drained, waits, Fixups.pending, head?_cons, Option.map_some,
      Option.getD_some, flatMap_cons, count_append, count_nil]
    omega

end

/-! ## What an operation does -/

theorem isJump_jumpIf (op : RelOp) : (Opcode.jumpIf op).isJump := by
  cases op <;> rfl

theorem isJump_jmp : Opcode.jmp.isJump := rfl

/-- An operation replaces some bytes, adds some at the end, and changes the lists. -/
structure Does (operation : Operation) (before : Emitter) (granted : Granted)
    (after : Emitter) : Prop where
  fits : ∀ patch ∈ operation.patches before,
    patch.offset + patch.values.length ≤ before.code.size
  code : ∃ bytes : List UInt8, after.code.bytes =
    (operation.patches before).foldl Patch.apply before.code.bytes ++ bytes.toArray
  fresh : granted.starts ++ (operation.waits before.code.size).map Label.instruction = [] ∨
    granted.starts ++ (operation.waits before.code.size).map Label.instruction =
      [before.code.size] ∧ before.code.size + 3 ≤ after.code.size
  labels : ∀ label ∈ granted.labels, label.offset = label.instruction + 1
  jumps : operation.waits before.code.size ≠ [] →
    ∃ op : Opcode, op.isJump ∧ after.code.opAt? before.code.size = some op
  reaches : ∀ label ∈ operation.drained before.fixups,
    Instruction.Reaches label.instruction before.code.size
  moves : before.fixups.IsStaged →
    operation.Moves before.code.size before.fixups after.fixups

/-- An operation patches nothing and drains no list. -/
structure IsSimple (operation : Operation) (before : Emitter) : Prop where
  unpatched : operation.patches before = []
  undrained : operation.drained before.fixups = []

section

variable {operation : Operation}

theorem Does.of_ungranted (noJump : operation.waits before.code.size = [])
    (fits : ∀ patch ∈ operation.patches before,
      patch.offset + patch.values.length ≤ before.code.size)
    (bytes : List UInt8)
    (code : after.code.bytes =
      (operation.patches before).foldl Patch.apply before.code.bytes ++ bytes.toArray)
    (reaches : ∀ label ∈ operation.drained before.fixups,
      Instruction.Reaches label.instruction before.code.size)
    (moves : before.fixups.IsStaged →
      operation.Moves before.code.size before.fixups after.fixups) :
    operation.Does before {} after where
  fits := fits
  code := ⟨bytes, code⟩
  fresh := .inl (by simp [noJump, Granted.starts])
  labels := by simp
  jumps := fun some => absurd noJump some
  reaches := reaches
  moves := moves

theorem Does.of_append (bytes : List UInt8)
    (code : after.code.bytes = before.code.bytes ++ bytes.toArray)
    (noJump : operation.waits before.code.size = []) (simple : operation.IsSimple before)
    (moves : before.fixups.IsStaged →
      operation.Moves before.code.size before.fixups after.fixups) :
    operation.Does before {} after :=
  .of_ungranted noJump (by simp [simple.unpatched]) bytes (by rw [simple.unpatched]; exact code)
    (by simp [simple.undrained]) moves

theorem Does.of_write (bytes : List UInt8) (noJump : operation.waits before.code.size = [])
    (simple : operation.IsSimple before) :
    operation.Does before {} (before.write bytes) :=
  .of_append bytes (by simp [Emitter.write]) noJump simple fun staged =>
    .of_same staged rfl simple.undrained noJump

theorem Does.of_onFixups {act : Fix α}
    (ran : plainly (Emit.onFixups act) before = .ok granted after)
    (noJump : operation.waits before.code.size = []) (simple : operation.IsSimple before)
    (moves : ∀ {result fixups}, before.fixups.IsStaged → act before.fixups = .ok result fixups →
      operation.Moves before.code.size before.fixups fixups) :
    operation.Does before granted after := by
  obtain ⟨rfl, _, ran⟩ := plainly_ok ran
  obtain ⟨_, acted, rfl⟩ := Emit.onFixups_ok ran
  exact .of_append [] (by simp) noJump simple fun staged => moves staged acted

theorem Does.of_wait (isJump : op.isJump)
    (code : after.code = (before.write [op.byte, 0, 0]).code)
    (jump : operation.waits before.code.size = [⟨before.code.size + 1⟩])
    (simple : operation.IsSimple before)
    (moves : before.fixups.IsStaged → operation.Moves before.code.size before.fixups after.fixups) :
    operation.Does before {} after where
  fits := by simp [simple.unpatched]
  code := ⟨[op.byte, 0, 0], by rw [simple.unpatched, code]; simp [Emitter.write]⟩
  fresh := .inr ⟨by rw [jump]; rfl, by rw [code]; simp [Emitter.write]⟩
  labels := by simp
  jumps := fun _ => ⟨op, isJump, by
    rw [code]
    simp [Code.opAt?, Code.byteAt?, Emitter.write, Code.size]⟩
  reaches := by simp [simple.undrained]
  moves := moves

theorem Does.of_grant {bytes : List UInt8} (long : 3 ≤ bytes.length)
    (starts : granted.starts = [before.code.size])
    (labels : ∀ label ∈ granted.labels, label.offset = label.instruction + 1)
    (noJump : operation.waits before.code.size = []) (simple : operation.IsSimple before) :
    operation.Does before granted (before.write bytes) where
  fits := by simp [simple.unpatched]
  code := ⟨bytes, by simp [simple.unpatched, Emitter.write]⟩
  fresh := .inr ⟨by rw [starts, noJump]; rfl, by simpa [Emitter.write] using long⟩
  labels := labels
  jumps := fun some => absurd noJump some
  reaches := by simp [simple.undrained]
  moves := fun staged => .of_same staged rfl simple.undrained noJump

theorem Does.of_taken
    (ran : plainly (Emit.onFixups take >>= Emit.patchAll) before = .ok granted after)
    (drained : ∀ labels fixups, take before.fixups = .ok labels fixups →
      operation.drained before.fixups = labels)
    (patched : operation.patches before =
      (operation.drained before.fixups).map (·.patchTo before.code.size))
    (noJump : operation.waits before.code.size = [])
    (moves : ∀ {labels fixups}, before.fixups.IsStaged → take before.fixups = .ok labels fixups →
      operation.Moves before.code.size before.fixups fixups) :
    operation.Does before granted after := by
  obtain ⟨rfl, _, ran⟩ := plainly_ok ran
  obtain ⟨labels, taken, bytes, fits⟩ := Emit.patchTaken_ok ran
  obtain rfl := drained labels _ taken
  rw [← patched] at bytes
  refine .of_ungranted noJump ?_ [] (by rw [bytes]; simp) (fun label member =>
    (fits label member).1) fun staged => moves staged taken
  rw [patched, forall_mem_map]
  intro label member
  rw [Label.length_patchTo]
  exact (fits label member).2

theorem Does.of_patch {patch : Patch} (patched : operation.patches before = [patch])
    (noJump : operation.waits before.code.size = [])
    (undrained : operation.drained before.fixups = [])
    (fits : patch.offset + patch.values.length ≤ before.code.size)
    (code : after.code = before.code.overwrite patch.offset patch.values)
    (same : after.fixups = before.fixups) :
    operation.Does before {} after :=
  .of_ungranted noJump (by simpa [patched] using fits) []
    (by simp [patched, code, Patch.apply, Code.overwrite]) (by simp [undrained]) fun staged =>
      .of_same staged same undrained noJump

end

/-- What each operation does to the code and to the lists. -/
theorem act_does {operation : Operation} (ran : operation.act before = .ok granted after) :
    operation.Does before granted after := by
  cases operation with
  | setLine line =>
    obtain ⟨rfl, _, ran⟩ := plainly_ok ran
    cases ran
    exact .of_append [] (by simp) rfl ⟨rfl, rfl⟩ fun staged => .of_same staged rfl rfl rfl
  | write writing =>
    obtain ⟨rfl, _, ran⟩ := plainly_ok ran
    obtain ⟨bytes, rfl⟩ := Emit.writing_ok ran
    exact .of_write bytes rfl ⟨rfl, rfl⟩
  | enter params frameSize =>
    obtain ⟨start, between, entered, ran⟩ := bind_ok ran
    obtain ⟨rfl, rfl⟩ := pure_ok ran
    obtain ⟨rfl, writes⟩ := Emit.enter_writes entered
    rw [writes.eq]
    exact .of_grant (by simp [Instruction.size]) rfl (by simp) rfl ⟨rfl, rfl⟩
  | patchFrameSize start frameSize =>
    obtain ⟨rfl, _, ran⟩ := plainly_ok ran
    obtain ⟨fits, rfl⟩ := Emit.patchFrameSize_ok ran
    exact .of_patch rfl rfl rfl fits rfl rfl
  | jump op =>
    obtain ⟨label, between, jumped, ran⟩ := bind_ok ran
    obtain ⟨rfl, rfl⟩ := pure_ok ran
    obtain ⟨rfl, rfl⟩ := Emit.jump_ok jumped
    exact .of_grant (by simp) rfl (by simp [Label.instruction]) rfl ⟨rfl, rfl⟩
  | patchTo label target =>
    obtain ⟨rfl, _, ran⟩ := plainly_ok ran
    obtain ⟨_, fits, rfl⟩ := Emit.patchTo_ok ran
    exact .of_patch rfl rfl rfl (by rw [Label.length_patchTo]; exact fits) rfl rfl
  | patchHere label =>
    obtain ⟨rfl, _, ran⟩ := plainly_ok ran
    obtain ⟨_, fits, rfl⟩ := Emit.patchHere_ok ran
    exact .of_patch rfl rfl rfl (by rw [Label.length_patchTo]; exact fits) rfl rfl
  | openConstruct kind =>
    refine .of_onFixups ran rfl ⟨rfl, rfl⟩ fun staged acted => ?_
    cases acted
    refine ⟨?_, forall_mem_cons.mpr ⟨nofun, staged⟩⟩
    simp [drained, waits, Fixups.pending, Construct.pending]
  | falseJump op =>
    obtain ⟨rfl, _, ran⟩ := plainly_ok ran
    obtain ⟨code, added⟩ := Emit.jumpInto_ok ran
    exact .of_wait (isJump_jumpIf _) code rfl ⟨rfl, rfl⟩ fun staged =>
      addFalse_moves staged added
  | bodyJump =>
    obtain ⟨rfl, _, ran⟩ := plainly_ok ran
    obtain ⟨code, added⟩ := Emit.jumpInto_ok ran
    exact .of_wait isJump_jmp code rfl ⟨rfl, rfl⟩ fun staged => addBody_moves staged added
  | patchFalse => exact .of_taken ran (fun _ _ => takeFalse_drained) rfl rfl takeFalse_moves
  | patchBody => exact .of_taken ran (fun _ _ => takeBody_drained) rfl rfl takeBody_moves
  | finishConditions | finishBody =>
    exact .of_onFixups ran rfl ⟨rfl, rfl⟩ fun staged acted =>
      .of_stage staged acted (fun _ _ => nofun) (by simp [waits, Construct.pending]) rfl
  | finishPatching => exact .of_onFixups ran rfl ⟨rfl, rfl⟩ finishPatching_moves
  | close => exact .of_onFixups ran rfl ⟨rfl, rfl⟩ close_moves
  | enterLoop continueTarget =>
    refine .of_onFixups ran rfl ⟨rfl, rfl⟩ fun staged acted => ?_
    cases acted
    refine ⟨?_, staged⟩
    simp [drained, waits, Fixups.pending]
  | falseIntoLoop => exact .of_onFixups ran rfl ⟨rfl, rfl⟩ falseIntoLoop_moves
  | exitLoop => exact .of_taken ran (fun _ _ => exitLoop_drained) rfl rfl exitLoop_moves
  | breakLoop =>
    obtain ⟨rfl, _, ran⟩ := plainly_ok ran
    obtain ⟨code, added⟩ := Emit.breakLoop_ok ran
    exact .of_wait isJump_jmp code rfl ⟨rfl, rfl⟩ fun staged => addBreak_moves staged added
  | continueLoop =>
    obtain ⟨rfl, _, ran⟩ := plainly_ok ran
    obtain ⟨bytes, rfl⟩ := Emit.continueLoop_ok ran
    exact .of_write bytes rfl ⟨rfl, rfl⟩

end Operation
end MicroJava
