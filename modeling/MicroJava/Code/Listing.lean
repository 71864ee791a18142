import MicroJava.Code.Instruction

/-!
# Listings

A listing shows each instruction on a line of its own: its offset, its mnemonic
and its operands.  Operands that are cut off by the end of the code are shown as
zero.
-/

namespace MicroJava
namespace Code

/-- A number, filled up with blanks on its left to a least width. -/
def padded (width value : Nat) : String :=
  let digits := toString value
  String.ofList (List.replicate (width - digits.length) ' ') ++ digits

/-- The text of a word list; words that are no characters are left out. -/
def nameText (words : List Int32) : String :=
  String.ofList (words.filterMap fun word =>
    let code := word.toUInt32.toNat
    if code.isValidChar then some (Char.ofNat code) else none)

/-- The operands of the instruction at an offset, each after a blank. -/
def operandText (code : Code) (offset : Nat) (op : Opcode) : String :=
  match op with
  | .const => " " ++ toString ((code.wordAt? (offset + 1)).getD 0).toInt
  | .invokeVirtual => " " ++ nameText ((code.nameAt? offset).getD [])
  | .inc | .enter =>
      " " ++ toString ((code.byteAt? (offset + 1)).getD 0).toNat ++
        " " ++ toString ((code.byteAt? (offset + 2)).getD 0).toInt8.toInt
  | op =>
      if op.isJump || op = .call then
        " -> " ++ toString ((code.targetAt? offset).getD 0)
      else
        match op.operandSize with
        | 1 => " " ++ toString ((code.byteAt? (offset + 1)).getD 0).toNat
        | 2 => " " ++ toString ((code.uint16At? (offset + 1)).getD 0).toNat
        | _ => ""

/-- The line of the listing for the instruction at an offset. -/
def lineText (code : Code) (offset : Nat) : String :=
  padded 5 offset ++ ": " ++
    (match code.opAt? offset with
      | none => "??? " ++ toString ((code.byteAt? offset).getD 0).toNat
      | some op => op.text ++ code.operandText offset op) ++
    "\n"

/-- The listing of a code. -/
def listing (code : Code) : String := String.join (code.offsets.map code.lineText)

/-- Mnemonics, quoted and in brackets. -/
def opsText (ops : List Opcode) : String :=
  "[" ++ String.intercalate ", " (ops.map fun op => "\"" ++ op.text ++ "\"") ++ "]"

/-- Why the code does not run through the expected operations in order, if it does not. -/
def unmetReport? (code : Code) (expected : List Opcode) : Option String :=
  match unmet expected code.ops with
  | [] => none
  | left =>
      some ("Missing opcodes in sequence.\nExpected to find: " ++ opsText left ++
        "\nActual bytecode:  " ++ opsText code.ops)

end Code
end MicroJava
