import Mathlib.Algebra.Group.Nat.Defs
import MicroJava.Generation.Generator
import MicroJava.Proofs.Semantics.Following

/-!
# Arrays and straight code

Instructions that only change the operands are composed by `Machine.Computes`.  An element of
an array is read and written at its index as long as the index is small enough for a word.
-/

namespace MicroJava

variable {value word : Int32}

open Instruction

/-! ## Small numbers as words -/

theorem not_lt_zero_ofNat {number : Nat} (isSmall : number < 2 ^ 31) :
    ¬ Int32.ofNat number < 0 := by
  rw [Int32.lt_iff_toInt_lt, Int32.toInt_ofNat_of_lt isSmall]
  exact Int.not_lt.mpr (Int.natCast_nonneg number)

theorem ofNat_lt_ofNat_iff {first second : Nat} (isSmall : first < 2 ^ 31)
    (isSmall' : second < 2 ^ 31) :
    Int32.ofNat first < Int32.ofNat second ↔ first < second := by
  rw [Int32.lt_iff_toInt_lt, Int32.toInt_ofNat_of_lt isSmall, Int32.toInt_ofNat_of_lt isSmall']
  exact Int.ofNat_lt

/-- A word that fits a byte. -/
def IsByte (word : Int32) : Prop := 0 ≤ word ∧ word ≤ 255

instance (word : Int32) : Decidable (IsByte word) := inferInstanceAs (Decidable (_ ∧ _))

instance (words : List Int32) : Decidable (∀ word ∈ words, IsByte word) :=
  List.decidableBAll IsByte words

theorem IsByte.and_eq (isByte : IsByte word) : word &&& 255 = word := by
  have small : ∀ number < 256, Int32.ofNat number &&& 255 = Int32.ofNat number := by
    decide +kernel
  have bound := Int32.le_iff_toInt_le.mp isByte.2
  rw [← Int32.ofNat_toNatClampNeg word isByte.1]
  refine small _ ?_
  rw [Int32.toNatClampNeg]
  have top : (255 : Int32).toInt = 255 := rfl
  omega

namespace Machine

variable {machine : Machine} {code : Code}

/-! ## Straight code -/

/-- Wherever they stand in a code, instructions change a machine and its operands. -/
def Computes (machine : Machine) (code : Code) (instructions : List Instruction)
    (stack : List Int32) (after : Machine)
    (result : List Int32) : Prop :=
  ∀ start, code.Holds start instructions → (machine.goOn start stack).Reaches code
    (after.goOn (start + totalSize instructions) result)

namespace Computes

variable {middle after : Machine} {first second : List Instruction} {instr : Instruction}
  {stack between result : List Int32}

theorem nil : machine.Computes code [] stack machine stack := fun _ _ => .refl

theorem append (early : machine.Computes code first stack middle between)
    (late : middle.Computes code second between after result) :
    machine.Computes code (first ++ second) stack after result := by
  intro start holds
  rw [Code.holds_append] at holds
  rw [totalSize_append, ← Nat.add_assoc]
  exact (early start holds.1).trans (late _ holds.2)

theorem cons
    (performs : ∀ start next, (machine.goOn start stack).perform next instr =
      .ok (middle.goOn next between))
    (late : middle.Computes code second between after result) :
    machine.Computes code (instr :: second) stack after result := by
  intro start holds
  rw [totalSize_cons, ← Nat.add_assoc]
  exact (Reaches.perform holds.1 (performs start _)).trans (late _ holds.2)

theorem const (late : machine.Computes code second (value :: stack) after result) :
    machine.Computes code (.const value :: second) stack after result :=
  cons (fun _ _ => rfl) late

end Computes

/-! ## Blocks -/

/-- The place of an object or array in the heap. -/
def blockIndex (reference : Int32) : Nat := reference.toInt.toNat - 1

/-- Change the words of an object or array. -/
def setBlock (machine : Machine) (reference : Int32) (words : List Int32) : Machine :=
  { machine with heap := machine.heap.set (blockIndex reference) words }

variable {reference : Int32} {words : List Int32}

theorem block_eq_ok_iff :
    machine.block reference = .ok words ↔
      ¬ reference ≤ 0 ∧ machine.heap[blockIndex reference]? = some words := by
  rw [block, blockIndex]
  split
  next isNull => exact ⟨nofun, fun isBlock => absurd isNull isBlock.1⟩
  next notNull =>
    split
    next missing => rw [missing]; exact ⟨nofun, fun isBlock => nomatch isBlock.2⟩
    next found =>
      rw [found]
      exact ⟨fun same => ⟨notNull, congrArg some (Except.ok.inj same)⟩, fun isBlock =>
        congrArg Except.ok (Option.some.inj isBlock.2)⟩

theorem block_congr {other : Machine} (same : other.heap = machine.heap) :
    other.block reference = machine.block reference := by
  rw [block, same, block]

theorem setBlock_setBlock (machine : Machine) (reference : Int32) (early late : List Int32) :
    (machine.setBlock reference early).setBlock reference late =
      machine.setBlock reference late := by
  simp only [setBlock, List.set_set]

theorem Stores.setBlock {table : Table} {locals : List SymbolId} {store : Store}
    (stores : machine.Stores table locals store) (reference : Int32) (words : List Int32) :
    (machine.setBlock reference words).Stores table locals store :=
  ⟨stores.locals, stores.globals⟩

section Block

variable (isBlock : machine.block reference = .ok words)
include isBlock

theorem setBlock_self : machine.setBlock reference words = machine := by
  obtain ⟨inside, found⟩ := List.getElem?_eq_some_iff.mp (block_eq_ok_iff.mp isBlock).2
  rw [setBlock, ← found, List.set_getElem_self]

theorem block_setBlock (changed : List Int32) :
    (machine.setBlock reference changed).block reference = .ok changed := by
  obtain ⟨notNull, found⟩ := block_eq_ok_iff.mp isBlock
  have inside := (List.getElem?_eq_some_iff.mp found).1
  exact block_eq_ok_iff.mpr ⟨notNull, List.getElem?_set_self inside⟩

theorem block_setBlock_ne {other : Int32} (differs : blockIndex other ≠ blockIndex reference)
    (changed : List Int32) :
    (machine.setBlock other changed).block reference = .ok words := by
  obtain ⟨notNull, found⟩ := block_eq_ok_iff.mp isBlock
  exact block_eq_ok_iff.mpr ⟨notNull, (List.getElem?_set_ne differs).trans found⟩

theorem perform_arrayLength (stack : List Int32) (start next : Nat) :
    (machine.goOn start (reference :: stack)).perform next (.plain .arrayLength) =
      .ok (machine.goOn next (Int32.ofNat words.length :: stack)) :=
  congrArg (fun found : Except Stop (List Int32) => found >>= fun words =>
    Except.ok (machine.goOn next (Int32.ofNat words.length :: stack))) isBlock

end Block

/-! ## Elements -/

section Elements

variable {index : Nat}
  (isBlock : machine.block reference = .ok words)
  (isSmall : index < 2 ^ 31)
include isBlock isSmall

theorem fetch_eq (found : words[index]? = some word) :
    machine.fetch reference (Int32.ofNat index) = .ok word := by
  have notNegative := not_lt_zero_ofNat isSmall
  simp only [fetch, isBlock, bind, Except.bind, pure, Except.pure, if_neg notNegative,
    Int32.toInt_ofNat_of_lt isSmall, Int.toNat_natCast, found]

theorem put_eq (inside : index < words.length) (value : Int32) :
    machine.put reference (Int32.ofNat index) value =
      .ok (machine.setBlock reference (words.set index value)) := by
  have notOutside : ¬ (Int32.ofNat index < 0 ∨ words.length ≤ index) :=
    not_or.mpr ⟨not_lt_zero_ofNat isSmall, Nat.not_le.mpr inside⟩
  simp only [put, isBlock, bind, Except.bind, pure, Except.pure,
    Int32.toInt_ofNat_of_lt isSmall, Int.toNat_natCast, if_neg notOutside, blockIndex, setBlock]

theorem perform_loadElement (found : words[index]? = some word) (type : TypeId)
    (stack : List Int32) (start next : Nat) :
    (machine.goOn start (Int32.ofNat index :: reference :: stack)).perform next
      (.plain (Gen.loadElement type)) = .ok (machine.goOn next (word :: stack)) := by
  have fetched : (machine.goOn start (Int32.ofNat index :: reference :: stack)).fetch reference
      (Int32.ofNat index) = .ok word := fetch_eq isBlock isSmall found
  have isLoad : Gen.loadElement type = .baload ∨ Gen.loadElement type = .aload := by
    rw [Gen.loadElement]
    exact ite_eq_or_eq _ _ _
  rcases isLoad with isLoad | isLoad <;> rw [isLoad] <;>
    exact congrArg (· >>= fun value => .ok (machine.goOn next (value :: stack))) fetched

theorem perform_storeElement {type : TypeId} (inside : index < words.length)
    (isByte : type = .char → IsByte value) (stack : List Int32) (start next : Nat) :
    (machine.goOn start (value :: Int32.ofNat index :: reference :: stack)).perform next
        (.plain (Gen.storeElement type)) =
      .ok ((machine.setBlock reference (words.set index value)).goOn next stack) := by
  have atStart : (machine.goOn start (value :: Int32.ofNat index :: reference :: stack)).block
      reference = .ok words := isBlock
  have put := put_eq atStart isSmall inside value
  rw [Gen.storeElement]
  split
  next isChar =>
    have putByte : (machine.goOn start (value :: Int32.ofNat index :: reference :: stack)).put
        reference (Int32.ofNat index) (value &&& 255) = .ok _ :=
      (congrArg _ (isByte isChar).and_eq).trans put
    exact congrArg (· >>= fun after => .ok (goOn after next stack)) putByte
  next => exact congrArg (· >>= fun after => .ok (goOn after next stack)) put

end Elements

end Machine
end MicroJava
