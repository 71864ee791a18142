import Std.Data.TreeMap
import MicroJava.Symbol.Table

/-!
# Scopes

Names are bound in a stack of frames.  The outermost frame holds what every
program knows, the next one the program itself; both are at level zero.  A class
body or a global method is at level one, a method of a class at level two.  A
frame lists its symbols in the order in which their names were bound.
-/

namespace MicroJava

/-- A frame of names. -/
structure Frame where
  /-- The symbol of each name. -/
  bindings : Std.TreeMap String SymbolId := ∅
  /-- The symbols in the order of their declaration. -/
  order : Array SymbolId := #[]
  /-- The next free slot or field offset. -/
  nextSlot : Int := 0
deriving Inhabited

/-- The open frames, innermost first. -/
structure Scopes where
  /-- The frames. -/
  frames : List Frame := []
deriving Inhabited

/-- What a declaration leads to. -/
inductive Binding
  /-- The name was free and has a symbol now. -/
  | fresh (id : SymbolId)
  /-- The name was taken by this symbol. -/
  | taken (id : SymbolId)
deriving DecidableEq, Repr

/-- The symbol of the name after a declaration. -/
def Binding.symbol : Binding → SymbolId
  | fresh id => id
  | taken id => id

namespace Frame

/-- The symbol of a name. -/
def find? (frame : Frame) (name : String) : Option SymbolId := frame.bindings[name]?

/-- Bind a free name at the end of the order. -/
def bindNew (frame : Frame) (name : String) (id : SymbolId) : Frame :=
  { frame with
    bindings := frame.bindings.insert name id
    order := frame.order.push id }

/-- Bind a name, free or not; a name that was taken keeps its entry in the order. -/
def bind (frame : Frame) (name : String) (id : SymbolId) : Frame :=
  if frame.bindings.contains name then
    { frame with bindings := frame.bindings.insert name id }
  else
    frame.bindNew name id

/-- A symbol list in which the first occurrence of a symbol is replaced. -/
def replaceFirst (order : Array SymbolId) (old new : SymbolId) : Array SymbolId :=
  match order.idxOf? old with
  | some index => order.setIfInBounds index new
  | none => order

/-- Bind a name that is taken to another symbol, which takes over its place. -/
def rebind (frame : Frame) (name : String) (id : SymbolId) : Option SymbolId × Frame :=
  match frame.find? name with
  | some old =>
      (some old,
        { frame with
          bindings := frame.bindings.insert name id
          order := replaceFirst frame.order old id })
  | none => (none, { frame with bindings := frame.bindings.insert name id })

/-- Declare a name in a frame of the given level.  A global variable takes a global
slot, any other variable and a field the next slot of the frame. -/
def declare (frame : Frame) (table : Table) (level : Nat) (kind : SymbolKind) (name : String)
    (type : TypeId) : Binding × Table × Frame :=
  match frame.find? name with
  | some id => (.taken id, table, frame)
  | none =>
      let symbol := Symbol.declared kind name type level
      match kind, level with
      | .var, 0 =>
          let (slot, table) := table.addGlobal
          let (id, table) := table.addSymbol { symbol with address := slot }
          (.fresh id, table, frame.bindNew name id)
      | .var, _ | .field, _ =>
          let (id, table) := table.addSymbol { symbol with address := frame.nextSlot }
          (.fresh id, table, { frame.bindNew name id with nextSlot := frame.nextSlot + 1 })
      | _, _ =>
          let (id, table) := table.addSymbol symbol
          (.fresh id, table, frame.bindNew name id)

end Frame

namespace Scopes

/-! ## Frames -/

/-- Open a frame. -/
def push (scopes : Scopes) : Scopes := ⟨{} :: scopes.frames⟩

/-- Drop the innermost frame. -/
def pop (scopes : Scopes) : Scopes := ⟨scopes.frames.tail⟩

/-- The symbols of the innermost frame, in the order of their declaration. -/
def current (scopes : Scopes) : List SymbolId :=
  match scopes.frames with
  | [] => []
  | frame :: _ => frame.order.toList

/-- How many frames are open. -/
def depth (scopes : Scopes) : Nat := scopes.frames.length

/-- The level of the innermost frame. -/
def level (scopes : Scopes) : Nat := scopes.depth - 2

/-- The level of a frame with so many frames around it. -/
def levelInside (outer : List Frame) : Nat := outer.length - 1

/-- Choose the next slot of the innermost frame. -/
def setNextSlot (scopes : Scopes) (slot : Int) : Scopes :=
  match scopes.frames with
  | [] => scopes
  | frame :: outer => ⟨{ frame with nextSlot := slot } :: outer⟩

/-! ## Declaring -/

/-- Declare a name in the innermost frame. -/
def insert (scopes : Scopes) (table : Table) (kind : SymbolKind) (name : String)
    (type : TypeId) : Binding × Table × Scopes :=
  match scopes with
  | ⟨[]⟩ => (.taken .absent, table, ⟨[]⟩)
  | ⟨frame :: outer⟩ =>
      let (binding, table, frame) := frame.declare table (levelInside outer) kind name type
      (binding, table, ⟨frame :: outer⟩)

/-- Declare a name in the frame around the innermost one, or in the only frame. -/
def insertOuter (scopes : Scopes) (table : Table) (kind : SymbolKind) (name : String)
    (type : TypeId) : Binding × Table × Scopes :=
  match scopes with
  | ⟨inner :: frame :: outer⟩ =>
      let (binding, table, frame) := frame.declare table (levelInside outer) kind name type
      (binding, table, ⟨inner :: frame :: outer⟩)
  | scopes => scopes.insert table kind name type

/-- Declare a name in the innermost frame or in the one around it. -/
def insertIn (scopes : Scopes) (outer : Bool) (table : Table) (kind : SymbolKind) (name : String)
    (type : TypeId) : Binding × Table × Scopes :=
  if outer then scopes.insertOuter table kind name type else scopes.insert table kind name type

/-- Bind a name of the innermost frame to a symbol that exists already. -/
def bind (scopes : Scopes) (name : String) (id : SymbolId) : Scopes :=
  match scopes with
  | ⟨[]⟩ => ⟨[]⟩
  | ⟨frame :: outer⟩ => ⟨frame.bind name id :: outer⟩

/-- Bind a name of the innermost frame to another symbol, which takes the place of the
old one in the order. -/
def replace (scopes : Scopes) (name : String) (id : SymbolId) : Option SymbolId × Scopes :=
  match scopes with
  | ⟨[]⟩ => (none, ⟨[]⟩)
  | ⟨frame :: outer⟩ =>
      let (old, frame) := frame.rebind name id
      (old, ⟨frame :: outer⟩)

/-! ## Searching -/

/-- The symbol of a name, searched from the innermost frame on outwards. -/
def find? (scopes : Scopes) (name : String) : Option SymbolId :=
  scopes.frames.findSome? fun frame => frame.find? name

/-- The symbol of a name, or the absent symbol. -/
def find (scopes : Scopes) (name : String) : SymbolId := (scopes.find? name).getD .absent

/-- The symbol of a name in the innermost frame. -/
def findLocal? (scopes : Scopes) (name : String) : Option SymbolId :=
  scopes.frames.head?.bind fun frame => frame.find? name

/-- The frame with so many frames around it. -/
def frameAt? (scopes : Scopes) (outer : Nat) : Option Frame :=
  if outer < scopes.depth then scopes.frames[scopes.depth - 1 - outer]? else none

/-- The symbol of a name in the frame with so many frames around it. -/
def findAt? (scopes : Scopes) (outer : Nat) (name : String) : Option SymbolId :=
  (scopes.frameAt? outer).bind fun frame => frame.find? name

/-- How many frames stand around the innermost one of `frames` that binds a name. -/
def frameOfIn? (name : String) : (frames : List Frame) → Option Nat
  | [] => none
  | frame :: outer =>
      if frame.bindings.contains name then some outer.length else frameOfIn? name outer

/-- How many frames stand around the frame that binds a name. -/
def frameOf? (scopes : Scopes) (name : String) : Option Nat := frameOfIn? name scopes.frames

end Scopes
end MicroJava
