import MicroJava.Proofs.Machine.Instruction

/-!
# Sequences of instructions

A sequence that starts at an offset fixes the offset of each of its instructions.
`Code.Holds` says that a code holds a sequence at an offset.
-/

namespace MicroJava

variable {offset start : Nat} {instructions : List Instruction} {code : Code}
  {instr : Instruction}

namespace Instruction

/-- The number of bytes of a sequence. -/
def totalSize : List Instruction → Nat
  | [] => 0
  | instr :: rest => instr.size + totalSize rest

@[simp] theorem totalSize_nil : totalSize [] = 0 := rfl

@[simp] theorem totalSize_cons (instr : Instruction) (rest : List Instruction) :
    totalSize (instr :: rest) = instr.size + totalSize rest := rfl

@[simp] theorem totalSize_append (first second : List Instruction) :
    totalSize (first ++ second) = totalSize first + totalSize second := by
  induction first with
  | nil => simp
  | cons instr rest ih =>
    simp only [List.cons_append, totalSize_cons, ih]
    omega

theorem length_le_totalSize (instructions : List Instruction) :
    instructions.length ≤ totalSize instructions := by
  induction instructions with
  | nil => simp
  | cons instr rest ih =>
    have positive := instr.size_pos
    simp only [List.length_cons, totalSize_cons]
    omega

/-- The instructions of a sequence that starts at an offset, each with its own offset. -/
def located : Nat → List Instruction → List (Nat × Instruction)
  | _, [] => []
  | start, instr :: rest =>
      (start, instr) :: located (start + instr.size) rest

@[simp] theorem located_nil (start : Nat) : located start [] = [] := rfl

@[simp] theorem located_cons (start : Nat) (instr : Instruction) (rest : List Instruction) :
    located start (instr :: rest) =
      (start, instr) :: located (start + instr.size) rest := rfl

@[simp] theorem located_append (start : Nat) (first second : List Instruction) :
    located start (first ++ second) =
      located start first ++ located (start + totalSize first) second := by
  induction first generalizing start with
  | nil => simp
  | cons instr rest ih =>
    simp [ih, Nat.add_assoc]

/-- The offsets of the instructions of a sequence. -/
def starts (start : Nat) (instructions : List Instruction) : List Nat :=
  (located start instructions).map Prod.fst

@[simp] theorem starts_nil (start : Nat) : starts start [] = [] := rfl

@[simp] theorem starts_cons (start : Nat) (instr : Instruction) (rest : List Instruction) :
    starts start (instr :: rest) = start :: starts (start + instr.size) rest := rfl

@[simp] theorem starts_append (start : Nat) (first second : List Instruction) :
    starts start (first ++ second) =
      starts start first ++ starts (start + totalSize first) second := by
  simp [starts]

theorem exists_split_of_located (member : (offset, instr) ∈ located start instructions) :
    ∃ early late, instructions = early ++ instr :: late ∧
      offset = start + totalSize early := by
  induction instructions generalizing start with
  | nil => cases member
  | cons first rest ih =>
    rw [located_cons, List.mem_cons] at member
    rcases member with same | later
    · cases same
      exact ⟨[], rest, rfl, rfl⟩
    · obtain ⟨early, late, split, isOffset⟩ := ih later
      refine ⟨first :: early, late, by rw [split]; rfl, ?_⟩
      rw [isOffset, totalSize_cons, Nat.add_assoc]

theorem bounds_of_mem_located (member : (offset, instr) ∈ located start instructions) :
    start ≤ offset ∧ offset + instr.size ≤ start + totalSize instructions := by
  induction instructions generalizing start with
  | nil => simp at member
  | cons first rest ih =>
    rw [located_cons, List.mem_cons] at member
    rcases member with here | later
    · obtain ⟨rfl, rfl⟩ := Prod.mk.inj here
      simp
    · obtain ⟨low, high⟩ := ih later
      simp only [totalSize_cons]
      omega

end Instruction

namespace Code

open Instruction

/-- A code holds a sequence at an offset. -/
def Holds (code : Code) : Nat → List Instruction → Prop
  | _, [] => True
  | offset, instr :: rest =>
      code.Spells offset instr ∧ code.Holds (offset + instr.size) rest

@[simp] theorem holds_nil (code : Code) (offset : Nat) : code.Holds offset [] := trivial

@[simp] theorem holds_cons (code : Code) (offset : Nat) (instr : Instruction)
    (rest : List Instruction) :
    code.Holds offset (instr :: rest) ↔
      code.Spells offset instr ∧ code.Holds (offset + instr.size) rest := Iff.rfl

@[simp] theorem holds_append (code : Code) (offset : Nat) (first second : List Instruction) :
    code.Holds offset (first ++ second) ↔
      code.Holds offset first ∧ code.Holds (offset + totalSize first) second := by
  induction first generalizing offset with
  | nil => simp
  | cons instr rest ih =>
    simp only [List.cons_append, holds_cons, ih, totalSize_cons, and_assoc, Nat.add_assoc]

/-- Two sequences that follow each other are one. -/
theorem Holds.append {next : Nat} {first second : List Instruction}
    (holds : code.Holds offset first) (later : code.Holds next second)
    (follows : next = offset + totalSize first) :
    code.Holds offset (first ++ second) :=
  (holds_append code offset first second).mpr ⟨holds, follows ▸ later⟩

theorem holds_iff_forall_located (code : Code) (offset : Nat) (instructions : List Instruction) :
    code.Holds offset instructions ↔
      ∀ entry ∈ located offset instructions, code.Spells entry.1 entry.2 := by
  induction instructions generalizing offset with
  | nil => simp
  | cons instr rest ih => simp [ih]

theorem Holds.spells (holds : code.Holds start instructions)
    (member : (offset, instr) ∈ located start instructions) :
    code.Spells offset instr :=
  (holds_iff_forall_located code start instructions).mp holds _ member

private theorem offsetsFrom_eq {fuel : Nat} {found : Array Nat}
    (holds : code.Holds offset instructions) (ends : offset + totalSize instructions = code.size)
    (enough : instructions.length ≤ fuel) :
    code.offsetsFrom fuel offset found = found ++ (starts offset instructions).toArray := by
  induction instructions generalizing fuel offset found with
  | nil =>
    have atEnd : ¬ offset < code.size := by simp at ends; omega
    cases fuel with
    | zero => simp [offsetsFrom]
    | succ fuel => simp [offsetsFrom, atEnd]
  | cons instr rest ih =>
    obtain ⟨fuel, rfl⟩ : ∃ left, fuel = left + 1 := ⟨fuel - 1, by simp at enough; omega⟩
    obtain ⟨here, later⟩ := holds
    have positive := instr.size_pos
    simp only [totalSize_cons] at ends
    simp only [List.length_cons] at enough
    have inside : offset < code.size := by omega
    have next : code.offsetsFrom fuel (offset + instr.size) (found.push offset) =
        found.push offset ++ (starts (offset + instr.size) rest).toArray :=
      ih later (by omega) (by omega)
    simp only [offsetsFrom, inside, if_true, here.instructionSize?, Option.getD_some, next]
    simp

theorem Holds.offsets_eq (holds : code.Holds 0 instructions)
    (ends : totalSize instructions = code.size) :
    code.offsets = starts 0 instructions := by
  have enough : instructions.length ≤ code.size := by
    rw [← ends]
    exact length_le_totalSize instructions
  rw [offsets, offsetsFrom_eq holds (by omega) enough]
  simp

end Code
end MicroJava
