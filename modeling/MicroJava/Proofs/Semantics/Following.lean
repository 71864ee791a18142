import MicroJava.Proofs.Machine.Sequence
import MicroJava.Proofs.Semantics.Scalar
import MicroJava.Proofs.Symbol.Orderly

/-!
# Machines that follow runs

A machine follows a run if it gets to a state that fits the result of the run, and divides by
zero if the run does.
-/

namespace MicroJava

open List

variable {code : Code} {locals : List SymbolId} {first machine second third : Machine}
  {store : Store} {id : SymbolId} {table : Table} {instr : Instruction}

namespace Table

variable {other : SymbolId}

theorem AreSlots.slot_eq (areSlots : table.AreSlots locals) (isLocal : id ∈ locals) :
    locals[(table.symbol id).address.toNat]? = some id ∧ (table.symbol id).isGlobal = false := by
  obtain ⟨index, inside, rfl⟩ := getElem_of_mem isLocal
  have found := getElem?_eq_getElem inside
  obtain ⟨_, _, level, address⟩ := areSlots index _ found
  rw [address, Int.toNat_natCast, found]
  exact ⟨rfl, by simp [Symbol.isGlobal, level]⟩

theorem IsPlaced.slot_inj (placed : table.IsPlaced) (isGlobal : table.IsGlobalVar id)
    (isOther : table.IsGlobalVar other)
    (same : (table.symbol id).address.toNat = (table.symbol other).address.toNat) :
    id = other := by
  obtain ⟨slot, _, address⟩ := placed.globals id isGlobal
  obtain ⟨otherSlot, _, otherAddress⟩ := placed.globals other isOther
  rw [address, otherAddress, Int.toNat_natCast, Int.toNat_natCast] at same
  exact placed.distinct id other isGlobal isOther (by rw [address, otherAddress, same])

end Table

namespace Machine

theorem Reaches.trans (early : first.Reaches code second) (late : second.Reaches code third) :
    first.Reaches code third :=
  Relation.ReflTransGen.trans early late

theorem Reaches.perform {last : Machine} (spells : code.Spells machine.pc instr)
    (performs : machine.perform (machine.pc + instr.size) instr = .ok last) :
    machine.Reaches code last :=
  .single ((machine.step_of_spells spells).trans performs)

/-! ## Following -/

/-- Where a run has a result, the machine gets to a state that fits it.  Where the run divides by
zero, the machine gets to a division by zero. -/
def Follows {α : Type} (machine : Machine) (code : Code) (result : Except Halt α)
    (fits : α → Machine → Prop) : Prop :=
  match result with
  | .ok value => ∃ last, machine.Reaches code last ∧ fits value last
  | .error .divisionByZero =>
      ∃ last, machine.Reaches code last ∧ last.step code = .error .divisionByZero
  | .error .exhausted => True
  | .error .undefined => False

namespace Follows

variable {α β : Type} {middle : Machine} {result : Except Halt α} {fits : α → Machine → Prop}

theorem done {value : α} (fit : fits value machine) : machine.Follows code (.ok value) fits :=
  ⟨machine, .refl, fit⟩

theorem extend {ends : α → Machine → Prop} (follows : machine.Follows code result fits)
    (further : ∀ value middle, fits value middle → ∃ last, middle.Reaches code last ∧
      ends value last) :
    machine.Follows code result ends := by
  match result, follows with
  | .ok value, ⟨middle, reaches, fit⟩ =>
    obtain ⟨last, later, done⟩ := further value middle fit
    exact ⟨last, reaches.trans later, done⟩
  | .error .divisionByZero, follows => exact follows
  | .error .exhausted, _ => trivial

theorem weaken {loose : α → Machine → Prop} (follows : machine.Follows code result fits)
    (implies : ∀ value last, fits value last → loose value last) :
    machine.Follows code result loose :=
  follows.extend fun value last fit => ⟨last, .refl, implies value last fit⟩

theorem of_reaches (reaches : machine.Reaches code middle)
    (follows : middle.Follows code result fits) :
    machine.Follows code result fits := by
  match result, follows with
  | .ok value, ⟨last, later, fit⟩ => exact ⟨last, reaches.trans later, fit⟩
  | .error .divisionByZero, ⟨last, later, fails⟩ => exact ⟨last, reaches.trans later, fails⟩
  | .error .exhausted, _ => trivial

theorem bind {next : α → Except Halt β} {ends : β → Machine → Prop}
    (follows : machine.Follows code result fits)
    (later : ∀ value last, fits value last → last.Follows code (next value) ends) :
    machine.Follows code (result >>= next) ends := by
  match result, follows with
  | .ok value, ⟨last, reaches, fit⟩ => exact (later value last fit).of_reaches reaches
  | .error .divisionByZero, ⟨last, reaches, fails⟩ => exact ⟨last, reaches, fails⟩
  | .error .exhausted, _ => trivial

theorem stops (spells : code.Spells machine.pc instr)
    (fails : machine.perform (machine.pc + instr.size) instr =
      .error .divisionByZero) :
    machine.Follows code (.error .divisionByZero) fits :=
  ⟨machine, .refl, (machine.step_of_spells spells).trans fails⟩

end Follows

/-! ## Variables -/

/-- A machine has the values of variables in its slots and in its global data. -/
structure Stores (machine : Machine) (table : Table) (locals : List SymbolId)
    (store : Store) : Prop where
  locals : ∀ id ∈ locals, machine.slots[(table.symbol id).address.toNat]? = some (store id)
  globals : ∀ id, table.IsGlobalVar id →
    machine.data[(table.symbol id).address.toNat]? = some (store id)

instance (machine : Machine) (table : Table) (locals : List SymbolId) (store : Store) :
    Decidable (machine.Stores table locals store) :=
  decidable_of_iff
    ((∀ id ∈ locals, machine.slots[(table.symbol id).address.toNat]? = some (store id)) ∧
      ∀ id ∈ table.globals, machine.data[(table.symbol id).address.toNat]? = some (store id))
    ⟨fun ⟨locals, globals⟩ => ⟨locals, fun id isGlobal =>
        globals id (Table.mem_globals_iff.mpr isGlobal)⟩,
      fun stores => ⟨stores.locals, fun id member =>
        stores.globals id (Table.mem_globals_iff.mp member)⟩⟩

/-- A machine leaves everything alone but the values of variables and what it prints. -/
structure Keeps (before after : Machine) (table : Table) (locals : List SymbolId) : Prop where
  heap : after.heap = before.heap
  input : after.input = before.input
  pending : after.pending = before.pending
  returnTo : after.frames.head?.map Activation.returnTo =
    before.frames.head?.map Activation.returnTo
  callers : after.frames.tail = before.frames.tail
  slots : after.slots.length = before.slots.length
  parked : after.slots.drop locals.length = before.slots.drop locals.length
  data : after.data.length = before.data.length
  tables : after.data.drop table.globalCount = before.data.drop table.globalCount

theorem Keeps.refl (machine : Machine) (table : Table) (locals : List SymbolId) :
    machine.Keeps machine table locals :=
  ⟨rfl, rfl, rfl, rfl, rfl, rfl, rfl, rfl, rfl⟩

theorem Keeps.trans (early : first.Keeps second table locals)
    (late : second.Keeps third table locals) :
    first.Keeps third table locals where
  heap := late.heap.trans early.heap
  input := late.input.trans early.input
  pending := late.pending.trans early.pending
  returnTo := late.returnTo.trans early.returnTo
  callers := late.callers.trans early.callers
  slots := late.slots.trans early.slots
  parked := late.parked.trans early.parked
  data := late.data.trans early.data
  tables := late.tables.trans early.tables

/-- A machine becomes another one, which has the values of a store, by printing something. -/
structure Becomes (before after : Machine) (table : Table) (locals : List SymbolId) (store : Store)
    (printed : List Printed) : Prop where
  keeps : before.Keeps after table locals
  stores : after.Stores table locals store
  output : after.output = before.output ++ printed

namespace Becomes

variable {early late : Store} {before after : List Printed}

theorem refl (stores : first.Stores table locals early) :
    first.Becomes first table locals early [] :=
  ⟨.refl first table locals, stores, (append_nil _).symm⟩

theorem trans (becomes : first.Becomes second table locals early before)
    (later : second.Becomes third table locals late after) :
    first.Becomes third table locals late (before ++ after) :=
  ⟨becomes.keeps.trans later.keeps, later.stores, by
    rw [later.output, becomes.output, append_assoc]⟩

end Becomes

/-- Print a word. -/
def print (machine : Machine) (printed : Printed) : Machine :=
  { machine with output := machine.output ++ [printed] }

theorem Stores.becomes_print (stores : machine.Stores table locals store) (printed : Printed) :
    machine.Becomes (machine.print printed) table locals store [printed] :=
  ⟨⟨rfl, rfl, rfl, rfl, rfl, rfl, rfl, rfl, rfl⟩, ⟨stores.locals, stores.globals⟩, rfl⟩

/-- Give a variable a value. -/
def assign (machine : Machine) (symbol : Symbol) (value : Int32) : Machine :=
  if symbol.isGlobal then
    { machine with data := machine.data.set symbol.address.toNat value }
  else
    machine.setSlots (machine.slots.set symbol.address.toNat value)

theorem slots_setSlots {slots : List Int32} (runs : machine.frames ≠ []) :
    (machine.setSlots slots).slots = slots := by
  unfold setSlots
  split
  next none => exact absurd none runs
  next => rfl

theorem goOn_setSlots (machine : Machine) (slots stack : List Int32) (pc next : Nat)
    (rest : List Int32) :
    ((machine.goOn pc stack).setSlots slots).goOn next rest =
      (machine.setSlots slots).goOn next rest := by
  obtain ⟨_, _, _, _, frames, _, _, _⟩ := machine
  cases frames <;> rfl

theorem setSlots_goOn (machine : Machine) (slots stack : List Int32) (pc next : Nat) :
    { (machine.goOn pc stack).setSlots slots with pc := next } =
      (machine.setSlots slots).goOn next stack := by
  obtain ⟨_, _, _, _, frames, _, _, _⟩ := machine
  cases frames <;> rfl

theorem data_setSlots (machine : Machine) (slots : List Int32) :
    (machine.setSlots slots).data = machine.data := by
  unfold setSlots
  split <;> rfl

theorem Stores.frames_ne_nil (stores : machine.Stores table locals store) (isLocal : id ∈ locals) :
    machine.frames ≠ [] := by
  intro none
  have found := stores.locals id isLocal
  simp [Machine.slots, none] at found

section Assignment

variable (stores : machine.Stores table locals store) (placed : table.IsPlaced)
    (areSlots : table.AreSlots locals) (isVariable : id ∈ locals ∨ table.IsGlobalVar id)
include stores placed areSlots isVariable

theorem Stores.assign (value : Int32) :
    (machine.assign (table.symbol id) value).Stores table locals (store.set id value) := by
  rcases isVariable with isLocal | isGlobal
  · have runs := stores.frames_ne_nil isLocal
    obtain ⟨atSlot, notGlobal⟩ := areSlots.slot_eq isLocal
    have inside := (List.getElem?_eq_some_iff.mp (stores.locals id isLocal)).1
    rw [Machine.assign, notGlobal, if_neg Bool.false_ne_true]
    refine ⟨fun other isOther => ?_, fun other isOther => ?_⟩
    · rw [slots_setSlots runs, Store.set]
      split
      next same => rw [same, getElem?_set_self inside]
      next differs =>
        rw [getElem?_set_ne, stores.locals other isOther]
        intro same
        have atOther := (areSlots.slot_eq isOther).1
        rw [← same, atSlot] at atOther
        exact differs (Option.some.inj atOther).symm
    · have differs : other ≠ id := by
        rintro rfl
        exact absurd (notGlobal.symm.trans isOther.2.2) Bool.false_ne_true
      rw [data_setSlots, stores.globals other isOther, Store.set, if_neg differs]
  · have inside := (List.getElem?_eq_some_iff.mp (stores.globals id isGlobal)).1
    rw [Machine.assign, if_pos isGlobal.2.2]
    refine ⟨fun other isOther => ?_, fun other isOther => ?_⟩
    · have differs : other ≠ id := by
        rintro rfl
        exact absurd ((areSlots.slot_eq isOther).2.symm.trans isGlobal.2.2) Bool.false_ne_true
      rw [Store.set, if_neg differs]
      exact stores.locals other isOther
    · rw [Store.set]
      split
      next same =>
        rw [same]
        exact getElem?_set_self inside
      next differs =>
        rw [← stores.globals other isOther]
        exact getElem?_set_ne fun same => differs (placed.slot_inj isOther isGlobal same.symm)

theorem Stores.keeps_assign (value : Int32) :
    machine.Keeps (machine.assign (table.symbol id) value) table locals := by
  rcases isVariable with isLocal | isGlobal
  · obtain ⟨atSlot, notGlobal⟩ := areSlots.slot_eq isLocal
    have before := (List.getElem?_eq_some_iff.mp atSlot).1
    obtain ⟨frame, rest, frames⟩ := exists_cons_of_ne_nil (stores.frames_ne_nil isLocal)
    rw [Machine.assign, notGlobal, if_neg Bool.false_ne_true]
    refine ⟨?_, ?_, ?_, ?_, ?_, ?_, ?_, ?_, ?_⟩ <;>
      simp [setSlots, Machine.slots, frames, drop_set_of_lt before]
  · obtain ⟨slot, before, address⟩ := placed.globals id isGlobal
    rw [Machine.assign, if_pos isGlobal.2.2, address, Int.toNat_natCast]
    exact ⟨rfl, rfl, rfl, rfl, rfl, rfl, rfl, length_set, drop_set_of_lt before⟩

theorem Stores.becomes_assign (value : Int32) :
    machine.Becomes (machine.assign (table.symbol id) value) table locals (store.set id value)
      [] where
  keeps := stores.keeps_assign placed areSlots isVariable value
  stores := stores.assign placed areSlots isVariable value
  output := by
    rw [Machine.assign, append_nil]
    split
    · rfl
    · unfold setSlots
      split <;> rfl

end Assignment

end Machine
end MicroJava
