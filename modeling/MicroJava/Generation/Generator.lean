import MicroJava.Analysis.Program
import MicroJava.Emitter

/-!
# The state of code generation

Generation walks a program a second time and takes every decision from what the
analysis recorded.  It stops at the first fault; the table then holds the
addresses that were known so far.

A virtual call parks its receiver in a slot behind the declared ones of the frame
until its arguments are on the stack.
-/

namespace MicroJava

/-- What generation knows at a point of its walk. -/
structure Generator where
  /-- The symbols and types; addresses of code and dispatch tables are filled in. -/
  table : Table
  /-- The code so far. -/
  emitter : Emitter := {}
  /-- The number of global words so far. -/
  dataSize : Nat
  /-- The number of declared slots of the frame. -/
  frameBase : Nat := 0
  /-- How many receivers are parked. -/
  parked : Nat := 0
  /-- How many receivers were parked at most in the frame. -/
  parkedMost : Nat := 0
deriving Inhabited

/-- A step of code generation. -/
abbrev Gen := EStateM Fault Generator

namespace Gen

/-- Emit code. -/
def emit {α : Type} (act : Emit α) : Gen α :=
  fun ⟨table, emitter, dataSize, frameBase, parked, parkedMost⟩ =>
    match act emitter with
    | .ok result emitter => .ok result ⟨table, emitter, dataSize, frameBase, parked, parkedMost⟩
    | .error fault emitter => .error fault ⟨table, emitter, dataSize, frameBase, parked, parkedMost⟩

/-- Emit an operation alone. -/
def op (op : Opcode) : Gen Unit := emit (Emit.op op)

/-- Emit a constant. -/
def const (value : Int) : Gen Unit := emit (Emit.const (Int32.ofInt value))

/-- Where the next instruction goes. -/
def offset : Gen Nat := emit Emit.offset

/-- Run an operation on the waiting jumps. -/
def fix {α : Type} (act : Fix α) : Gen α := emit (Emit.onFixups act)

/-- A symbol as it is now. -/
def symbol (id : SymbolId) : Gen Symbol := return (← get).table.symbol id

/-- Change a symbol. -/
def updateSymbol (id : SymbolId) (change : Symbol → Symbol) : Gen Unit :=
  modify fun generator => { generator with table := generator.table.updateSymbol id change }

/-- The symbol recorded for a node. -/
def symbolAt (notes : Annotations) (node : Node) : Gen SymbolId :=
  match notes.symbol node.id node.span with
  | .ok id => return id
  | .error fault => throw fault

/-- The type recorded for a node. -/
def typeAt (notes : Annotations) (node : Node) : Gen TypeId :=
  match notes.type node.id node.span with
  | .ok id => return id
  | .error fault => throw fault

/-- The address of a method whose code is emitted already. -/
def codeAddress (id : SymbolId) : Gen Nat := do
  let method ← symbol id
  if method.address < 0 then
    throw (.missingAttribute method.name "has no code address")
  else
    return method.address.toNat

/-- Let the code of a method start here. -/
def placeMethod (id : SymbolId) (span : Span) : Gen Unit := do
  emit (Emit.setLine span.line)
  let start ← offset
  updateSymbol id fun method => { method with address := start }

/-! ## Loading and storing -/

/-- The fault of using a symbol that has no place. -/
def notStorage (symbol : Symbol) (complaint : String) : Fault :=
  .missingAttribute symbol.name ("is a " ++ symbol.kind.text ++ " and " ++ complaint)

/-- The operation that reads an array element. -/
def loadElement (type : TypeId) : Opcode := if type = .char then .baload else .aload

/-- The operation that writes an array element. -/
def storeElement (type : TypeId) : Opcode := if type = .char then .bastore else .astore

/-- Read a symbol whose object or array and index are on the stack. -/
def load (id : SymbolId) : Gen Unit := do
  let symbol ← symbol id
  match symbol.kind with
  | .const => const symbol.address
  | .var =>
      if symbol.isGlobal then emit (Emit.getStatic symbol.address)
      else emit (Emit.loadLocal symbol.address)
  | .field => emit (Emit.getField symbol.address)
  | .element => op (loadElement symbol.type)
  | _ => throw (notStorage symbol "cannot be loaded")

/-- Write a symbol whose object or array and index, and then the value, are on the stack. -/
def store (id : SymbolId) : Gen Unit := do
  let symbol ← symbol id
  match symbol.kind with
  | .var =>
      if symbol.isGlobal then emit (Emit.putStatic symbol.address)
      else emit (Emit.storeLocal symbol.address)
  | .field => emit (Emit.putField symbol.address)
  | .element => op (storeElement symbol.type)
  | _ => throw (notStorage symbol "cannot be stored into")

/-! ## Frames -/

/-- Open a frame of so many declared slots.  The result is where it is opened. -/
def openFrame (params locals : Nat) : Gen Nat := do
  modify fun generator => { generator with frameBase := locals, parked := 0, parkedMost := 0 }
  emit (Emit.enter params locals)

/-- Make room for the receivers that were parked in the frame opened at `start`. -/
def closeFrame (start : Nat) : Gen Unit := do
  let generator ← get
  if generator.parkedMost = 0 then
    return ()
  else
    emit (Emit.patchFrameSize start (generator.frameBase + generator.parkedMost))

/-- Take the next slot for a receiver. -/
def park : Gen Nat :=
  modifyGet fun generator =>
    (generator.frameBase + generator.parked,
      { generator with
        parked := generator.parked + 1
        parkedMost := max generator.parkedMost (generator.parked + 1) })

/-- Give the last slot of a receiver back. -/
def unpark : Gen Unit :=
  modify fun generator => { generator with parked := generator.parked - 1 }

end Gen
end MicroJava
