import MicroJava.BigEndian
import MicroJava.Fault
import MicroJava.Opcode

/-!
# Code

The code of a program is one sequence of bytes, each with the source line it
was written for.  Code grows at its end; bytes that were written may be patched,
but never past the end.  Numbers are read back only where all their bytes are
present.
-/

namespace MicroJava

/-- Bytes of code, with the source line of each. -/
structure Code where
  /-- The bytes. -/
  bytes : Array UInt8 := #[]
  /-- The line of each byte. -/
  lines : Array Nat := #[]
  /-- Each byte has a line. -/
  lines_size : lines.size = bytes.size := by simp

namespace Code

/-- Code that holds nothing yet. -/
def empty : Code := {}

instance : Inhabited Code := ⟨empty⟩

/-- The number of bytes, which is also where the next byte goes. -/
def size (code : Code) : Nat := code.bytes.size

/-! ## Writing -/

/-- Append one byte. -/
def pushByte (code : Code) (line : Nat) (byte : UInt8) : Code where
  bytes := code.bytes.push byte
  lines := code.lines.push line
  lines_size := by simp [code.lines_size]

/-- Append bytes. -/
def push (code : Code) (line : Nat) (bytes : List UInt8) : Code :=
  bytes.foldl (fun code byte => code.pushByte line byte) code

/-- Append an operation. -/
def pushOp (code : Code) (line : Nat) (op : Opcode) : Code := code.pushByte line op.byte

/-- Append an unsigned number of sixteen bits. -/
def pushUInt16 (code : Code) (line : Nat) (value : UInt16) : Code :=
  code.push line (BigEndian.encode 2 value.toNat)

/-- Append a signed number of sixteen bits. -/
def pushInt16 (code : Code) (line : Nat) (value : Int16) : Code :=
  code.pushUInt16 line value.toUInt16

/-- Append a word. -/
def pushWord (code : Code) (line : Nat) (value : Int32) : Code :=
  code.push line (BigEndian.encode 4 value.toUInt32.toNat)

/-- Bytes of which those from an offset on are replaced, as far as they are present. -/
def overwriteBytes (bytes : Array UInt8) (offset : Nat) : List UInt8 → Array UInt8
  | [] => bytes
  | value :: rest => overwriteBytes (bytes.setIfInBounds offset value) (offset + 1) rest

@[simp] theorem size_overwriteBytes (bytes : Array UInt8) (offset : Nat) (values : List UInt8) :
    (overwriteBytes bytes offset values).size = bytes.size := by
  induction values generalizing bytes offset with
  | nil => rfl
  | cons value rest ih => simp [overwriteBytes, ih]

/-- Replace bytes that were written before; the lines stay. -/
def overwrite (code : Code) (offset : Nat) (values : List UInt8) : Code where
  bytes := overwriteBytes code.bytes offset values
  lines := code.lines
  lines_size := by simp [code.lines_size]

/-- Whether so many bytes from an offset on were written before. -/
def covers (code : Code) (offset count : Nat) : Bool := offset + count ≤ code.size

/-- The fault of patching bytes that are not there. -/
def pastEnd (code : Code) (offset : Nat) : Fault :=
  .imbalance ("patch at " ++ toString offset ++ " is past the end of the code (" ++
    toString code.size ++ " bytes)")

/-- Replace bytes, all of which have to be there. -/
def patch (code : Code) (offset : Nat) (values : List UInt8) : Except Fault Code :=
  if code.covers offset values.length then
    .ok (code.overwrite offset values)
  else
    .error (code.pastEnd offset)

/-- Replace one byte. -/
def patchByte (code : Code) (offset : Nat) (value : UInt8) : Except Fault Code :=
  code.patch offset [value]

/-- Replace a signed number of sixteen bits. -/
def patchInt16 (code : Code) (offset : Nat) (value : Int16) : Except Fault Code :=
  code.patch offset (BigEndian.encode 2 value.toUInt16.toNat)

/-! ## Reading -/

/-- The line of a byte. -/
def lineAt? (code : Code) (offset : Nat) : Option Nat := code.lines[offset]?

/-- The byte at an offset. -/
def byteAt? (code : Code) (offset : Nat) : Option UInt8 := code.bytes[offset]?

/-- The bytes from an offset on, if that many are present. -/
def bytesAt? (code : Code) (offset count : Nat) : Option (List UInt8) :=
  if code.covers offset count then
    some (code.bytes.extract offset (offset + count)).toList
  else
    none

/-- The unsigned number of sixteen bits at an offset. -/
def uint16At? (code : Code) (offset : Nat) : Option UInt16 :=
  (code.bytesAt? offset 2).map fun bytes => UInt16.ofNat (BigEndian.decode bytes)

/-- The signed number of sixteen bits at an offset. -/
def int16At? (code : Code) (offset : Nat) : Option Int16 :=
  (code.uint16At? offset).map UInt16.toInt16

/-- The word at an offset. -/
def wordAt? (code : Code) (offset : Nat) : Option Int32 :=
  (code.bytesAt? offset 4).map fun bytes => (UInt32.ofNat (BigEndian.decode bytes)).toInt32

/-- The operation at an offset. -/
def opAt? (code : Code) (offset : Nat) : Option Opcode :=
  (code.byteAt? offset).bind Opcode.ofByte?

/-- The lines as runs of equal lines, each with the number of its bytes. -/
def lineRuns (code : Code) : List (Nat × Nat) :=
  code.lines.foldr
    (fun line runs =>
      match runs with
      | (first, count) :: rest =>
          if first = line then (first, count + 1) :: rest else (line, 1) :: runs
      | [] => [(line, 1)])
    []

@[simp] theorem bytes_push (code : Code) (line : Nat) (bytes : List UInt8) :
    (code.push line bytes).bytes = code.bytes ++ bytes.toArray := by
  induction bytes generalizing code with
  | nil => simp [push]
  | cons byte rest ih =>
    have step : code.push line (byte :: rest) = (code.pushByte line byte).push line rest := rfl
    rw [step, ih]
    simp [pushByte]

@[simp] theorem size_push (code : Code) (line : Nat) (bytes : List UInt8) :
    (code.push line bytes).size = code.size + bytes.length := by
  simp [size]

end Code
end MicroJava
