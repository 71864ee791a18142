import MicroJava.Proofs.Layout.Direct
import MicroJava.Proofs.Machine.Execution

/-!
# The depth of the operand stack

The depth of the operand stack can be written next to each instruction of a code.  It is right
if every instruction finds the words it takes and hands on the depth that is written where the
machine goes on.
-/

namespace MicroJava

open List Instruction

variable {more : Nat × Nat → Prop} {instr : Instruction} {stop : Nat}
  {first second : List (Instruction × Nat)}

/-! ## Effects -/

/-- How many words an operation without operands takes from the stack, and how many it puts
there. -/
def Opcode.effect : Opcode → Nat × Nat
  | neg | arrayLength => (1, 1)
  | aload | baload => (2, 1)
  | astore | bastore => (3, 0)
  | pop => (1, 0)
  | dup => (1, 2)
  | dup2 => (2, 4)
  | dupX1 => (2, 3)
  | dupX2 => (3, 4)
  | read | bread => (0, 1)
  | print | bprint => (2, 0)
  | add | sub | mul | div | rem | shl | shr => (2, 1)
  | _ => (0, 0)

/-- How many words a call takes and how many its result has. -/
def Symbol.callEffect (symbol : Symbol) : Nat × Nat :=
  (symbol.paramCount, if symbol.type = .none then 0 else 1)

/-- What the depths of a method are read with. -/
structure Gauge where
  table : Table
  invokes : Nat → SymbolId → Prop
  result : Nat

namespace Instruction

/-- Whether the next instruction may follow. -/
def goesOn : Instruction → Bool
  | plain .ret => false
  | jump .jmp _ => false
  | trap _ => false
  | _ => true

/-- Where a jump leads. -/
def target? : Instruction → Option Nat
  | jump _ target => some target
  | _ => none

end Instruction

namespace Gauge

/-- How many words the instruction at an offset takes from the stack, and how many it puts
there.  A call takes the parameters of the method at its target.  A call by name takes those of
the method that is called at this offset, and the place of a dispatch table. -/
def HasEffect (gauge : Gauge) (offset : Nat) (effect : Nat × Nat) : Instruction → Prop
  | .plain op => effect = op.effect
  | .load _ => effect = (0, 1)
  | .store _ => effect = (1, 0)
  | .getStatic _ => effect = (0, 1)
  | .putStatic _ => effect = (1, 0)
  | .getField _ => effect = (1, 1)
  | .putField _ => effect = (2, 0)
  | .const _ => effect = (0, 1)
  | .inc _ _ => effect = (0, 0)
  | .new _ => effect = (0, 1)
  | .newArray _ => effect = (1, 1)
  | .jump op _ => effect = if op = .jmp then (0, 0) else (2, 0)
  | .call target => ∃ id, (gauge.table.symbol id).kind = .method ∧
      (gauge.table.symbol id).address = (target : Int) ∧
      effect = (gauge.table.symbol id).callEffect
  | .enter params _ => effect = (params, 0)
  | .trap _ => effect = (0, 0)
  | .invokeVirtual name => ∃ id, gauge.invokes offset id ∧ (gauge.table.symbol id).isVirtual ∧
      Site.nameWords (gauge.table.symbol id).name = name ∧
      effect = ((gauge.table.symbol id).callEffect.1 + 1, (gauge.table.symbol id).callEffect.2)

/-- The effect of an instruction that is no jump, calls nothing and closes no frame. -/
def fixed? : Instruction → Option (Nat × Nat)
  | .plain .exit => none
  | .plain op => some op.effect
  | .load _ => some (0, 1)
  | .store _ => some (1, 0)
  | .getStatic _ => some (0, 1)
  | .putStatic _ => some (1, 0)
  | .getField _ => some (1, 1)
  | .putField _ => some (2, 0)
  | .const _ => some (0, 1)
  | .inc _ _ => some (0, 0)
  | .new _ => some (0, 1)
  | .newArray _ => some (1, 1)
  | .trap _ => some (0, 0)
  | _ => none

theorem hasEffect_of_fixed {effect : Nat × Nat} (gauge : Gauge) (offset : Nat)
    (isFixed : fixed? instr = some effect) :
    gauge.HasEffect offset effect instr ∧ instr.target? = none ∧
      instr ≠ .plain .exit := by
  cases instr with
  | plain op =>
    by_cases exits : op = .exit
    · rw [exits] at isFixed
      cases isFixed
    · rw [fixed?] at isFixed
      · exact ⟨(Option.some.inj isFixed).symm, rfl, fun same => exits (plain.inj same)⟩
      · exact exits
  | jump _ _ | call _ | enter _ _ | invokeVirtual _ => cases isFixed
  | _ => exact ⟨(Option.some.inj isFixed).symm, rfl, nofun⟩

/-- The depth after instructions whose effects are fixed. -/
def descend : Nat → List Instruction → Option Nat
  | depth, [] => some depth
  | depth, instr :: rest =>
      match fixed? instr with
      | none => none
      | some (pops, pushes) => if pops ≤ depth then descend (depth - pops + pushes) rest else none

/-- The instruction at an offset finds the words it takes and hands on the right depth, to the
next instruction and to the target of a jump. -/
structure Allows (gauge : Gauge) (jumps : Nat × Nat → Prop) (offset : Nat)
    (instr : Instruction) (depth next : Nat) : Prop where
  moves : ∃ pops pushes, gauge.HasEffect offset (pops, pushes) instr ∧ pops ≤ depth ∧
    (instr.goesOn → next = depth - pops + pushes) ∧
    ∀ target, instr.target? = some target → jumps (target, depth - pops + pushes)
  exits : instr = .plain .exit → depth = gauge.result

variable {gauge : Gauge} {jumps : Nat × Nat → Prop} {depth middle offset start : Nat}

theorem Allows.mono {next : Nat} (allows : gauge.Allows jumps offset instr depth next)
    (weaker : ∀ mark, jumps mark → more mark) :
    gauge.Allows more offset instr depth next := by
  obtain ⟨⟨pops, pushes, effect, enough, goesOn, leads⟩, exits⟩ := allows
  exact ⟨⟨pops, pushes, effect, enough, goesOn, fun target isTarget =>
    weaker _ (leads target isTarget)⟩, exits⟩

theorem Allows.of_effect {pops pushes : Nat}
    (effect : gauge.HasEffect offset (pops, pushes) instr) (enough : pops ≤ depth)
    (stays : instr.target? = none) (other : instr ≠ .plain .exit) :
    gauge.Allows jumps offset instr depth (depth - pops + pushes) :=
  ⟨⟨pops, pushes, effect, enough, fun _ => rfl,
    fun _ leads => by rw [stays] at leads; cases leads⟩, fun exits => absurd exits other⟩

/-! ## Depths of a sequence -/

/-- The depth at the start of a sequence. -/
def entry (stop : Nat) : List (Instruction × Nat) → Nat
  | [] => stop
  | (_, depth) :: _ => depth

/-- The offsets of a sequence with the depths there, up to its end. -/
def marks (start stop : Nat) : List (Instruction × Nat) → List (Nat × Nat)
  | [] => [(start, stop)]
  | (instr, depth) :: rest => (start, depth) :: marks (start + instr.size) stop rest

/-- Every instruction of a sequence hands on the depth that is written there. -/
def Steady (gauge : Gauge) (jumps : Nat × Nat → Prop) (start stop : Nat) :
    List (Instruction × Nat) → Prop
  | [] => True
  | (instr, depth) :: rest =>
      gauge.Allows jumps start instr depth (entry stop rest) ∧
        Steady gauge jumps (start + instr.size) stop rest

theorem Steady.mono {paced : List (Instruction × Nat)}
    (steady : Steady gauge jumps start stop paced) (weaker : ∀ mark, jumps mark → more mark) :
    Steady gauge more start stop paced := by
  induction paced generalizing start with
  | nil => trivial
  | cons first rest ih => exact ⟨steady.1.mono weaker, ih steady.2⟩

theorem mem_marks_entry (start stop : Nat) (paced : List (Instruction × Nat)) :
    (start, entry stop paced) ∈ marks start stop paced := by
  cases paced <;> exact mem_cons_self

theorem mem_marks_stop (start stop : Nat) (paced : List (Instruction × Nat)) :
    (start + totalSize (paced.map Prod.fst), stop) ∈ marks start stop paced := by
  induction paced generalizing start with
  | nil => exact mem_cons_self
  | cons first rest ih =>
    rw [map_cons, totalSize_cons, ← Nat.add_assoc]
    exact mem_cons_of_mem _ (ih _)

theorem entry_append (middle stop : Nat) (first second : List (Instruction × Nat))
    (meets : entry stop second = middle) :
    entry stop (first ++ second) = entry middle first := by
  cases first with
  | nil => exact meets
  | cons _ _ => rfl

theorem marks_append_left (meets : entry stop second = middle) :
    marks start middle first ⊆ marks start stop (first ++ second) := by
  induction first generalizing start with
  | nil =>
    rintro mark member
    rw [marks, mem_singleton] at member
    rw [member, ← meets]
    exact mem_marks_entry start stop second
  | cons head rest ih =>
    exact cons_subset_cons _ ih

theorem marks_append_right :
    marks (start + totalSize (first.map Prod.fst)) stop second ⊆
      marks start stop (first ++ second) := by
  induction first generalizing start with
  | nil => exact List.Subset.refl _
  | cons head rest ih =>
    rw [map_cons, totalSize_cons, ← Nat.add_assoc]
    exact subset_cons_of_subset _ ih

theorem Steady.append (meets : entry stop second = middle)
    (early : Steady gauge jumps start middle first)
    (late : Steady gauge jumps (start + totalSize (first.map Prod.fst)) stop second) :
    Steady gauge jumps start stop (first ++ second) := by
  induction first generalizing start with
  | nil => exact late
  | cons head rest ih =>
    have allows := early.1
    rw [← entry_append middle stop rest second meets] at allows
    rw [map_cons, totalSize_cons, ← Nat.add_assoc] at late
    exact ⟨allows, ih early.2 late⟩

/-- The depths of a sequence can be written down, from one depth to another.  Jumps lead to
offsets of the sequence or are among `jumps`, and some depths of the sequence are known. -/
def Paces (gauge : Gauge) (jumps : Nat × Nat → Prop) (start : Nat) (code : List Instruction)
    (depth stop : Nat)
    (known : List (Nat × Nat)) : Prop :=
  ∃ paced : List (Instruction × Nat), paced.map Prod.fst = code ∧ entry stop paced = depth ∧
    Steady gauge (fun mark => mark ∈ marks start stop paced ∨ jumps mark) start stop paced ∧
    known ⊆ marks start stop paced

namespace Paces

variable {between : Nat} {first second code : List Instruction} {known further : List (Nat × Nat)}

theorem nil : gauge.Paces jumps start [] depth depth [] :=
  ⟨[], rfl, rfl, trivial, nil_subset _⟩

theorem append (early : gauge.Paces jumps start first depth between known)
    (late : gauge.Paces jumps middle second between stop further)
    (isMiddle : middle = start + totalSize first) :
    gauge.Paces jumps start (first ++ second) depth stop (known ++ further) := by
  obtain ⟨front, rfl, rfl, frontSteady, frontKnown⟩ := early
  obtain ⟨back, rfl, meets, backSteady, backKnown⟩ := late
  subst isMiddle
  have left : marks start between front ⊆ marks start stop (front ++ back) :=
    marks_append_left meets
  have right : marks (start + totalSize (front.map Prod.fst)) stop back ⊆
      marks start stop (front ++ back) := marks_append_right
  refine ⟨front ++ back, map_append, entry_append between stop front back meets,
    Steady.append meets (frontSteady.mono fun _ => .imp_left (left ·))
      (backSteady.mono fun _ => .imp_left (right ·)), ?_⟩
  exact append_subset.mpr ⟨List.Subset.trans frontKnown left,
    List.Subset.trans backKnown right⟩

section

variable (paces : gauge.Paces jumps start code depth stop known)
include paces

theorem weaken (fewer : further ⊆ known) : gauge.Paces jumps start code depth stop further := by
  obtain ⟨paced, isCode, isEntry, steady, isKnown⟩ := paces
  exact ⟨paced, isCode, isEntry, steady, List.Subset.trans fewer isKnown⟩

theorem ends :
    gauge.Paces jumps start code depth stop
      ((start, depth) :: (start + totalSize code, stop) :: known) := by
  obtain ⟨paced, rfl, rfl, steady, isKnown⟩ := paces
  refine ⟨paced, rfl, rfl, steady, ?_⟩
  rw [cons_subset, cons_subset]
  exact ⟨mem_marks_entry _ _ _, mem_marks_stop _ _ _, isKnown⟩

theorem close {fewer : Nat × Nat → Prop} (closed : ∀ mark, jumps mark → mark ∈ known ∨ fewer mark) :
    gauge.Paces fewer start code depth stop known := by
  obtain ⟨paced, isCode, isEntry, steady, isKnown⟩ := paces
  refine ⟨paced, isCode, isEntry, steady.mono fun mark leads => ?_, isKnown⟩
  rcases leads with inside | leads
  · exact .inl inside
  · exact (closed mark leads).imp_left (isKnown ·)

end

theorem single (allows : gauge.Allows jumps start instr depth stop) :
    gauge.Paces jumps start [instr] depth stop [] :=
  ⟨[(instr, depth)], rfl, rfl, ⟨allows.mono fun _ => .inr, trivial⟩, nil_subset _⟩

theorem branch {op : Opcode} {target : Nat} (compares : op ≠ .jmp) (leads : jumps (target, depth)) :
    gauge.Paces jumps start [.jump op target] (depth + 2) depth [] := by
  refine single ⟨⟨2, 0, ?_, Nat.le_add_left _ _, fun _ => rfl, ?_⟩, nofun⟩
  · rw [HasEffect, if_neg compares]
  · rintro other isTarget
    obtain rfl := Option.some.inj isTarget
    exact leads

theorem leap {target : Nat} (leads : jumps (target, depth)) :
    gauge.Paces jumps start [.jump .jmp target] depth stop [] := by
  refine single ⟨⟨0, 0, rfl, Nat.zero_le _, nofun, ?_⟩, nofun⟩
  rintro other isTarget
  obtain rfl := Option.some.inj isTarget
  exact leads

theorem leave (isResult : depth = gauge.result) :
    gauge.Paces jumps start [.plain .exit, .plain .ret] depth stop [] := by
  have exits : gauge.Allows jumps start (.plain .exit) depth depth :=
    ⟨⟨0, 0, rfl, Nat.zero_le _, fun _ => rfl, nofun⟩, fun _ => isResult⟩
  have returns : ∀ offset, gauge.Allows jumps offset (.plain .ret) depth stop := fun _ =>
    ⟨⟨0, 0, rfl, Nat.zero_le _, nofun, nofun⟩, nofun⟩
  exact (single exits).append (single (returns _)) rfl

theorem straight (base early late : Nat) (runs : descend early code = some late) :
    gauge.Paces jumps start code (base + early) (base + late) [] := by
  induction code generalizing start early with
  | nil =>
    cases runs
    exact nil
  | cons instr rest ih =>
    rw [descend] at runs
    split at runs
    next => cases runs
    next pops pushes isFixed =>
      split at runs
      next enough =>
        obtain ⟨effect, stays, other⟩ := hasEffect_of_fixed gauge start isFixed
        have allows : gauge.Allows jumps start instr (base + early)
            (base + (early - pops + pushes)) := by
          rw [← Nat.add_assoc, ← Nat.add_sub_assoc enough]
          exact .of_effect effect (Nat.le_add_left_of_le enough) stays other
        exact (single allows).append (ih _ runs) rfl
      next => cases runs

end Paces
end Gauge
end MicroJava
