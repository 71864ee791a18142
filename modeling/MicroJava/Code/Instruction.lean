import MicroJava.Code.Basic

/-!
# Instructions in code

The instructions of a code follow each other: the length of one gives the start
of the next.  A byte that is no operation counts as an instruction of its own,
and so does a call by name whose name is not closed.
-/

namespace MicroJava
namespace Code

/-- The words from an offset up to the first minus one, at most `fuel` of them. -/
def wordsUntilClose (code : Code) : (fuel : Nat) → (offset : Nat) → Option (List Int32)
  | 0, _ => none
  | fuel + 1, offset =>
      match code.wordAt? offset with
      | none => none
      | some word =>
          if word = -1 then some []
          else (code.wordsUntilClose fuel (offset + 4)).map (word :: ·)

/-- The name that a call by name at an offset holds, if it is closed. -/
def nameAt? (code : Code) (offset : Nat) : Option (List Int32) :=
  code.wordsUntilClose code.size (offset + 1)

/-- The length of the instruction at an offset, its operation included. -/
def instructionSize? (code : Code) (offset : Nat) : Option Nat :=
  match code.opAt? offset with
  | none => none
  | some .invokeVirtual => (code.nameAt? offset).map fun name => 1 + 4 * (name.length + 1)
  | some op => some (1 + op.operandSize)

/-- Where the jump or call at an offset leads. -/
def targetAt? (code : Code) (offset : Nat) : Option Nat :=
  match code.opAt? offset with
  | none => none
  | some op =>
      if op.isJump || op = .call then
        match code.int16At? (offset + 1) with
        | none => none
        | some displacement =>
            let target := (offset : Int) + displacement.toInt
            if 0 ≤ target then some target.toNat else none
      else
        none

/-- The starts of the instructions from an offset on, at most `fuel` of them. -/
def offsetsFrom (code : Code) : (fuel : Nat) → (offset : Nat) → (found : Array Nat) → Array Nat
  | 0, _, found => found
  | fuel + 1, offset, found =>
      if offset < code.size then
        code.offsetsFrom fuel (offset + (code.instructionSize? offset).getD 1) (found.push offset)
      else
        found

/-- The starts of all instructions, in order. -/
def offsets (code : Code) : List Nat := (code.offsetsFrom code.size 0 #[]).toList

/-- The operations of all instructions, in order. -/
def ops (code : Code) : List Opcode := code.offsets.filterMap code.opAt?

/-- The operations of the instructions that start in a range. -/
def opsBetween (code : Code) (first last : Nat) : List Opcode :=
  (code.offsets.filter fun offset => first ≤ offset && offset < last).filterMap code.opAt?

/-- The part of `expected` that is left when its operations are met in order. -/
def unmet (expected actual : List Opcode) : List Opcode :=
  actual.foldl
    (fun left op =>
      match left with
      | next :: rest => if next = op then rest else left
      | [] => [])
    expected

end Code
end MicroJava
