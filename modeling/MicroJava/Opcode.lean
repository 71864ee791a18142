import MicroJava.Tree.Operator

/-!
# The instruction set

The machine has an operand stack and, for each call, a frame of local slots.
An instruction is one byte, followed by its operands with the most significant
byte first.  Jumps and calls hold a signed displacement of sixteen bits, counted
from the instruction itself.
-/

namespace MicroJava

/-- The operation of an instruction. -/
inductive Opcode
  /-- Push a local slot, given by a byte. -/
  | load
  /-- Push local slot 0. -/
  | load0
  /-- Push local slot 1. -/
  | load1
  /-- Push local slot 2. -/
  | load2
  /-- Push local slot 3. -/
  | load3
  /-- Pop into a local slot, given by a byte. -/
  | store
  /-- Pop into local slot 0. -/
  | store0
  /-- Pop into local slot 1. -/
  | store1
  /-- Pop into local slot 2. -/
  | store2
  /-- Pop into local slot 3. -/
  | store3
  /-- Push a global word, given by two bytes. -/
  | getStatic
  /-- Pop into a global word, given by two bytes. -/
  | putStatic
  /-- Pop an object and push its field, given by two bytes. -/
  | getField
  /-- Pop a value and an object, and store into a field given by two bytes. -/
  | putField
  /-- Push 0. -/
  | const0
  /-- Push 1. -/
  | const1
  /-- Push 2. -/
  | const2
  /-- Push 3. -/
  | const3
  /-- Push 4. -/
  | const4
  /-- Push 5. -/
  | const5
  /-- Push minus one. -/
  | constM1
  /-- Push a word, given by four bytes. -/
  | const
  /-- Pop two words and push their sum. -/
  | add
  /-- Pop two words and push their difference. -/
  | sub
  /-- Pop two words and push their product. -/
  | mul
  /-- Pop two words and push their quotient. -/
  | div
  /-- Pop two words and push their remainder. -/
  | rem
  /-- Negate the top word. -/
  | neg
  /-- Pop two words and push the left shift. -/
  | shl
  /-- Pop two words and push the right shift. -/
  | shr
  /-- Add a signed byte to a local slot, both given by a byte. -/
  | inc
  /-- Push a new object of a size given by two bytes. -/
  | new
  /-- Pop a length and push a new array; a byte tells words from bytes. -/
  | newArray
  /-- Pop an index and an array, and push the word there. -/
  | aload
  /-- Pop a value, an index and an array, and store the word there. -/
  | astore
  /-- Pop an index and an array, and push the byte there. -/
  | baload
  /-- Pop a value, an index and an array, and store the byte there. -/
  | bastore
  /-- Pop an array and push its length. -/
  | arrayLength
  /-- Drop the top word. -/
  | pop
  /-- Repeat the top word. -/
  | dup
  /-- Repeat the two top words. -/
  | dup2
  /-- Jump. -/
  | jmp
  /-- Pop two words and jump if they are equal. -/
  | jeq
  /-- Pop two words and jump if they differ. -/
  | jne
  /-- Pop two words and jump if the lower one is less. -/
  | jlt
  /-- Pop two words and jump if the lower one is at most the upper one. -/
  | jle
  /-- Pop two words and jump if the lower one is greater. -/
  | jgt
  /-- Pop two words and jump if the lower one is at least the upper one. -/
  | jge
  /-- Call a method at a displacement given by two bytes. -/
  | call
  /-- Return to the caller. -/
  | ret
  /-- Open a frame; two bytes give its parameters and its size. -/
  | enter
  /-- Close the frame. -/
  | exit
  /-- Read a number and push it. -/
  | read
  /-- Pop a width and a number, and print the number. -/
  | print
  /-- Read a character and push it. -/
  | bread
  /-- Pop a width and a character, and print the character. -/
  | bprint
  /-- Stop with an error number, given by a byte. -/
  | trap
  /-- Pop a dispatch table and call the method of the name that follows. -/
  | invokeVirtual
  /-- Repeat the top word below the second one. -/
  | dupX1
  /-- Repeat the top word below the third one. -/
  | dupX2
deriving DecidableEq, Repr, Inhabited

namespace Opcode

/-- The operations in the order of their bytes, which count from one. -/
def all : List Opcode :=
  [load, load0, load1, load2, load3, store, store0, store1, store2, store3, getStatic,
   putStatic, getField, putField, const0, const1, const2, const3, const4, const5, constM1,
   const, add, sub, mul, div, rem, neg, shl, shr, inc, new, newArray, aload, astore, baload,
   bastore, arrayLength, pop, dup, dup2, jmp, jeq, jne, jlt, jle, jgt, jge, call, ret, enter,
   exit, read, print, bread, bprint, trap, invokeVirtual, dupX1, dupX2]

/-- The byte of an operation. -/
def byte (op : Opcode) : UInt8 := UInt8.ofNat (op.ctorIdx + 1)

/-- The operation of a byte. -/
def ofByte? (byte : UInt8) : Option Opcode :=
  match byte.toNat with
  | 0 => none
  | index + 1 => all[index]?

@[simp] theorem ofByte?_byte (op : Opcode) : ofByte? op.byte = some op := by
  cases op <;> rfl

/-- The mnemonic of an operation. -/
def text : Opcode → String
  | load => "load"
  | load0 => "load_0"
  | load1 => "load_1"
  | load2 => "load_2"
  | load3 => "load_3"
  | store => "store"
  | store0 => "store_0"
  | store1 => "store_1"
  | store2 => "store_2"
  | store3 => "store_3"
  | getStatic => "getstatic"
  | putStatic => "putstatic"
  | getField => "getfield"
  | putField => "putfield"
  | const0 => "const_0"
  | const1 => "const_1"
  | const2 => "const_2"
  | const3 => "const_3"
  | const4 => "const_4"
  | const5 => "const_5"
  | constM1 => "const_m1"
  | const => "const"
  | add => "add"
  | sub => "sub"
  | mul => "mul"
  | div => "div"
  | rem => "rem"
  | neg => "neg"
  | shl => "shl"
  | shr => "shr"
  | inc => "inc"
  | new => "new"
  | newArray => "newarray"
  | aload => "aload"
  | astore => "astore"
  | baload => "baload"
  | bastore => "bastore"
  | arrayLength => "arraylength"
  | pop => "pop"
  | dup => "dup"
  | dup2 => "dup2"
  | jmp => "jmp"
  | jeq => "jeq"
  | jne => "jne"
  | jlt => "jlt"
  | jle => "jle"
  | jgt => "jgt"
  | jge => "jge"
  | call => "call"
  | ret => "return"
  | enter => "enter"
  | exit => "exit"
  | read => "read"
  | print => "print"
  | bread => "bread"
  | bprint => "bprint"
  | trap => "trap"
  | invokeVirtual => "invokevirtual"
  | dupX1 => "dup_x1"
  | dupX2 => "dup_x2"

/-- How many bytes of operands follow; a name counts as its closing word. -/
def operandSize : Opcode → Nat
  | load | store | newArray | trap => 1
  | getStatic | putStatic | getField | putField | inc | new | jmp | jeq | jne | jlt | jle | jgt
  | jge | call | enter => 2
  | const | invokeVirtual => 4
  | _ => 0

/-- Whether the operation is a jump within a method. -/
def isJump : Opcode → Bool
  | jmp | jeq | jne | jlt | jle | jgt | jge => true
  | _ => false

/-- The jump that is taken when a relation holds. -/
def jumpIf : RelOp → Opcode
  | .eq => jeq
  | .ne => jne
  | .lt => jlt
  | .le => jle
  | .gt => jgt
  | .ge => jge

/-- The operation of an arithmetic operator. -/
def ofArith : ArithOp → Opcode
  | .add => add
  | .sub => sub
  | .mul => mul
  | .div => div
  | .rem => rem

end Opcode
end MicroJava
