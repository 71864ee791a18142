import Mathlib.Data.List.Nodup
import MicroJava.Proofs.Symbol.Growth

/-!
# Slots and addresses of symbols

Each global variable has a slot of its own, the parameters and locals of a method have the
slots of its frame in the order of their declaration, and no method has code yet.
-/

namespace MicroJava

open List

variable {symbol : Symbol} {id other : SymbolId} {early late table : Table}

namespace Table

/-! ## Entering declarations -/

theorem addType_grows (table : Table) (desc : TypeDesc) : table.Grows (table.addType desc).2 := by
  have types : (table.addType desc).2.types = table.types ++ #[desc] := rfl
  exact grows_of_append (Array.append_empty).symm types

/-! ## One more symbol -/

/-- A later table has one more symbol, and perhaps one more global slot. -/
structure Adds (early : Table) (symbol : Symbol) (late : Table) : Prop where
  symbols : late.symbols = early.symbols.push symbol
  types : late.types = early.types
  slot : symbol.isGlobal → symbol.address = early.globalCount ∧
    late.globalCount = early.globalCount + 1
  kept : symbol.isGlobal = false → late.globalCount = early.globalCount

theorem not_hasSymbol_nextSymbol (table : Table) : ¬ table.HasSymbol table.nextSymbol :=
  Nat.lt_irrefl _

theorem addSymbol_adds (other : symbol.isGlobal = false) :
    table.Adds symbol (table.addSymbol symbol).2 :=
  ⟨rfl, rfl, fun isGlobal => absurd (other.symm.trans isGlobal) (by decide), fun _ => rfl⟩

namespace Adds

variable (adds : early.Adds symbol late)
include adds

theorem desc_eq (id : TypeId) : late.desc id = early.desc id := by
  simp only [desc, typeRow, adds.types]

theorem hasType_iff (id : TypeId) : late.HasType id ↔ early.HasType id := by
  rw [HasType, HasType, adds.types]

theorem hasSymbol_iff (id : SymbolId) :
    late.HasSymbol id ↔ early.HasSymbol id ∨ id = early.nextSymbol := by
  obtain ⟨index⟩ := id
  simp only [HasSymbol, adds.symbols, Array.size_push, nextSymbol, SymbolId.mk.injEq]
  omega

theorem symbol_eq (has : early.HasSymbol id) : late.symbol id = early.symbol id := by
  have added : late.symbols = early.symbols ++ #[symbol] := adds.symbols
  exact symbol_of_append added has

theorem symbol_new : late.symbol early.nextSymbol = symbol := by
  refine (symbol_eq_of_getElem? ?_).2
  rw [adds.symbols]
  exact Array.getElem?_push_size

theorem grows : early.Grows late where
  symbols_le := by rw [adds.symbols, Array.size_push]; omega
  types_le := Nat.le_of_eq (congrArg Array.size adds.types.symm)
  bare_symbol := fun _ has => by rw [adds.symbol_eq has]
  bare_desc := fun id _ => by rw [adds.desc_eq id]

theorem isValid (valid : early.IsValid) (used : early.HasType symbol.type)
    (proper : symbol.kind = .type → symbol.type.IsProper) :
    late.IsValid := by
  have base := valid.addSymbol used proper
  exact {
    absent := by rw [adds.symbols]; exact base.absent
    basic := by rw [adds.types]; exact valid.basic
    kind_none := by rw [kind, adds.desc_eq]; exact valid.kind_none
    element_anyArray := by rw [adds.desc_eq]; exact valid.element_anyArray
    symbol_types := fun other member => by
      rw [adds.hasType_iff]
      rw [adds.symbols] at member
      exact base.symbol_types other member
    type_names := by rw [adds.symbols]; exact base.type_names
    element_types := fun desc member => by
      rw [adds.hasType_iff]
      rw [adds.types] at member
      exact valid.element_types desc member
    elements := by rw [adds.types]; exact valid.elements
    shared := by rw [adds.types]; exact valid.shared }

end Adds

/-! ## Changing a symbol -/

theorem hasSymbol_updateSymbol (table : Table) (id other : SymbolId) (change : Symbol → Symbol) :
    (table.updateSymbol id change).HasSymbol other ↔ table.HasSymbol other := by
  rw [HasSymbol, HasSymbol, updateSymbol, Array.size_modify]

section

variable (has : table.HasSymbol id)
include has

theorem symbol_updateSymbol_self (change : Symbol → Symbol) :
    (table.updateSymbol id change).symbol id = change (table.symbol id) := by
  refine (symbol_eq_of_getElem? ?_).2
  have row : table.symbolRow id = id.index := if_pos has
  rw [updateSymbol, row, Array.getElem?_modify, if_pos rfl, getElem?_of_hasSymbol has]
  rfl

theorem symbol_updateSymbol_of_ne (hasOther : table.HasSymbol other) (different : other ≠ id)
    (change : Symbol → Symbol) :
    (table.updateSymbol id change).symbol other = table.symbol other := by
  refine (symbol_eq_of_getElem? ?_).2
  have row : table.symbolRow id = id.index := if_pos has
  have apart : ¬ id.index = other.index := fun same => by
    obtain ⟨index⟩ := id
    obtain ⟨otherIndex⟩ := other
    exact different (congrArg SymbolId.mk same.symm)
  rw [updateSymbol, row, Array.getElem?_modify, if_neg apart, getElem?_of_hasSymbol hasOther]

theorem updateSymbol_eq_self {change : Symbol → Symbol}
    (same : change (table.symbol id) = table.symbol id) :
    table.updateSymbol id change = table := by
  have row : table.symbolRow id = id.index := if_pos has
  have symbols : table.symbols.modify id.index change = table.symbols := by
    apply Array.ext
    · simp
    · intro index _ inside
      rw [Array.getElem_modify]
      split
      next isRow =>
        subst isRow
        have found := getElem?_of_hasSymbol has
        rw [Array.getElem?_eq_getElem inside, Option.some_inj] at found
        rw [found, same]
      next => rfl
  rw [updateSymbol, row, symbols]

theorem bare_symbol_updateSymbol {change : Symbol → Symbol} (hasOther : table.HasSymbol other)
    (keeps : (change (table.symbol id)).bare = (table.symbol id).bare) :
    ((table.updateSymbol id change).symbol other).bare = (table.symbol other).bare := by
  by_cases same : other = id
  · rw [same, symbol_updateSymbol_self has, keeps]
  · rw [symbol_updateSymbol_of_ne has hasOther same]

theorem updateSymbol_grows {change : Symbol → Symbol}
    (keeps : (change (table.symbol id)).bare = (table.symbol id).bare) :
    table.Grows (table.updateSymbol id change) where
  symbols_le := Nat.le_of_eq Array.size_modify.symm
  types_le := Nat.le_refl _
  bare_symbol := fun _ hasOther => bare_symbol_updateSymbol has hasOther keeps
  bare_desc := fun _ _ => rfl

end

theorem Adds.change (adds : early.Adds symbol late) (change : Symbol → Symbol)
    (noGlobal : symbol.isGlobal = false) (other : (change symbol).isGlobal = false) :
    early.Adds (change symbol) (late.updateSymbol early.nextSymbol change) where
  symbols := by
    have has := (adds.hasSymbol_iff _).mpr (.inr rfl)
    have row : late.symbolRow early.nextSymbol = early.symbols.size := if_pos has
    rw [updateSymbol, row, adds.symbols]
    apply Array.ext
    · simp
    · intro index inside _
      rw [Array.getElem_modify]
      split
      next last =>
        subst last
        simp
      next before =>
        have bound : index < early.symbols.size := by
          simp only [Array.size_modify, Array.size_push] at inside
          omega
        rw [Array.getElem_push_lt bound, Array.getElem_push_lt bound]
  types := adds.types
  slot := fun isGlobal => absurd (other.symm.trans isGlobal) (by decide)
  kept := fun _ => adds.kept noGlobal

/-! ## Changing a type -/

theorem desc_updateType_self {id : TypeId} (has : table.HasType id) (change : TypeDesc → TypeDesc) :
    (table.updateType id change).desc id = change (table.desc id) := by
  refine (desc_eq_of_getElem? ?_).2
  have row : table.typeRow id = id.index := if_pos has
  rw [updateType, row, Array.getElem?_modify, if_pos rfl, getElem?_of_hasType has]
  rfl

theorem desc_updateType_of_ne {id other : TypeId} (has : table.HasType id)
    (hasOther : table.HasType other) (different : other ≠ id) (change : TypeDesc → TypeDesc) :
    (table.updateType id change).desc other = table.desc other := by
  refine (desc_eq_of_getElem? ?_).2
  have row : table.typeRow id = id.index := if_pos has
  have apart : ¬ id.index = other.index := fun same => by
    obtain ⟨index⟩ := id
    obtain ⟨otherIndex⟩ := other
    exact different (congrArg TypeId.mk same.symm)
  rw [updateType, row, Array.getElem?_modify, if_neg apart, getElem?_of_hasType hasOther]

theorem bare_desc_updateType {id other : TypeId} {change : TypeDesc → TypeDesc}
    (has : table.HasType id) (hasOther : table.HasType other)
    (keeps : (change (table.desc id)).bare = (table.desc id).bare) :
    ((table.updateType id change).desc other).bare = (table.desc other).bare := by
  by_cases same : other = id
  · rw [same, desc_updateType_self has, keeps]
  · rw [desc_updateType_of_ne has hasOther same]

theorem updateType_grows {id : TypeId} {change : TypeDesc → TypeDesc} (has : table.HasType id)
    (keeps : (change (table.desc id)).bare = (table.desc id).bare) :
    table.Grows (table.updateType id change) where
  symbols_le := Nat.le_refl _
  types_le := Nat.le_of_eq Array.size_modify.symm
  bare_symbol := fun _ _ => rfl
  bare_desc := fun _ hasOther => bare_desc_updateType has hasOther keeps

theorem IsValid.of_bare (valid : early.IsValid) (grows : early.Grows late)
    (symbols : late.symbols.size = early.symbols.size)
    (types : late.types.size = early.types.size) :
    late.IsValid := by
  have hasSymbol : ∀ id, late.HasSymbol id → early.HasSymbol id := fun id has => by
    rw [HasSymbol, symbols] at has
    exact has
  have hasType : ∀ id, late.HasType id → early.HasType id := fun id has => by
    rw [HasType, types] at has
    exact has
  have symbolAt : ∀ symbol ∈ late.symbols, ∃ old ∈ early.symbols, symbol.bare = old.bare := by
    intro symbol member
    obtain ⟨index, inside, rfl⟩ := Array.mem_iff_getElem.mp member
    have found : late.symbols[(SymbolId.mk index).index]? = some late.symbols[index] :=
      Array.getElem?_eq_getElem inside
    obtain ⟨has, row⟩ := symbol_eq_of_getElem? found
    have same := grows.bare_symbol _ (hasSymbol _ has)
    rw [row] at same
    exact ⟨_, valid.symbol_mem ⟨index⟩, same⟩
  have descAt : ∀ (index : Nat) desc, late.types[index]? = some desc →
      ∃ old, early.types[index]? = some old ∧ desc.bare = old.bare := by
    intro index desc found
    have found : late.types[(TypeId.mk index).index]? = some desc := found
    obtain ⟨has, row⟩ := desc_eq_of_getElem? found
    have same := grows.bare_desc _ (hasType _ has)
    rw [row] at same
    exact ⟨_, getElem?_of_hasType (hasType _ has), same⟩
  have none : early.HasType .none := valid.hasType_basic (by decide)
  have anyArray : early.HasType .anyArray := valid.hasType_basic (by decide)
  exact {
    absent := by
      have has := grows.hasSymbol valid.hasSymbol_absent
      have row : late.symbols[0]? = some (late.symbol .absent) := getElem?_of_hasSymbol has
      rw [row, Option.map_some, grows.bare_symbol _ valid.hasSymbol_absent, valid.bare_absent]
    basic := by rw [types]; exact valid.basic
    kind_none := by rw [grows.kind none, valid.kind_none]
    element_anyArray := by
      rw [TypeDesc.element_eq_of_bare (grows.bare_desc _ anyArray), valid.element_anyArray]
    symbol_types := fun symbol member => by
      obtain ⟨old, oldMember, same⟩ := symbolAt symbol member
      rw [Symbol.type_eq_of_bare same]
      exact grows.hasType (valid.symbol_types old oldMember)
    type_names := fun symbol member kind => by
      obtain ⟨old, oldMember, same⟩ := symbolAt symbol member
      rw [Symbol.type_eq_of_bare same]
      exact valid.type_names old oldMember ((Symbol.kind_eq_of_bare same).symm.trans kind)
    element_types := fun desc member => by
      obtain ⟨index, inside, rfl⟩ := Array.mem_iff_getElem.mp member
      obtain ⟨old, found, same⟩ := descAt index _ (Array.getElem?_eq_getElem inside)
      rw [TypeDesc.element_eq_of_bare same]
      exact grows.hasType (valid.element_types old (Array.mem_of_getElem? found))
    elements := fun index desc found other array => by
      obtain ⟨old, oldFound, same⟩ := descAt index desc found
      rw [TypeDesc.element_eq_of_bare same]
      exact valid.elements index old oldFound other
        ((TypeDesc.kind_eq_of_bare same).symm.trans array)
    shared := fun index other desc otherDesc found otherFound array otherArray same => by
      obtain ⟨old, oldFound, bare⟩ := descAt index desc found
      obtain ⟨otherOld, otherOldFound, otherBare⟩ := descAt other otherDesc otherFound
      rw [TypeDesc.kind_eq_of_bare bare] at array
      rw [TypeDesc.kind_eq_of_bare otherBare] at otherArray
      rw [TypeDesc.element_eq_of_bare bare, TypeDesc.element_eq_of_bare otherBare] at same
      exact valid.shared index other old otherOld oldFound otherOldFound array otherArray same }

/-! ## Slots -/

/-- The symbols are variables of a frame, each in the slot of its position. -/
def AreSlots (table : Table) (locals : List SymbolId) : Prop :=
  ∀ (index : Nat) id, locals[index]? = some id → table.HasSymbol id ∧
    (table.symbol id).kind = .var ∧ (table.symbol id).level ≠ 0 ∧
    (table.symbol id).address = index

theorem AreSlots.grows {locals : List SymbolId} (slots : early.AreSlots locals)
    (grows : early.Grows late) :
    late.AreSlots locals := by
  intro index id found
  obtain ⟨has, kind, level, address⟩ := slots index id found
  rw [grows.symbol_kind has, grows.symbol_level has, grows.symbol_address has]
  exact ⟨grows.hasSymbol has, kind, level, address⟩

/-- A global variable of the program. -/
def IsGlobalVar (table : Table) (id : SymbolId) : Prop :=
  table.HasSymbol id ∧ id ≠ .absent ∧ (table.symbol id).isGlobal

/-- The global variables, in the order of their declaration. -/
def globals (table : Table) : List SymbolId :=
  ((List.range table.symbols.size).map SymbolId.mk).filter fun id =>
    id != .absent && (table.symbol id).isGlobal

theorem mem_globals_iff : id ∈ table.globals ↔ table.IsGlobalVar id := by
  obtain ⟨index⟩ := id
  simp [globals, IsGlobalVar, HasSymbol]

theorem Grows.globals_eq (grows : early.Grows late)
    (others : ∀ id, late.HasSymbol id → ¬ early.HasSymbol id →
      (late.symbol id).isGlobal = false) :
    late.globals = early.globals := by
  obtain ⟨more, size⟩ := Nat.exists_eq_add_of_le grows.symbols_le
  have none : (((List.range more).map (early.symbols.size + ·)).map SymbolId.mk).filter
      (fun id => id != .absent && (late.symbol id).isGlobal) = [] := by
    refine filter_eq_nil_iff.mpr fun id member => ?_
    simp only [map_map, mem_map, mem_range, Function.comp_apply] at member
    obtain ⟨offset, inside, rfl⟩ := member
    rw [others _ (Nat.lt_of_lt_of_eq (Nat.add_lt_add_left inside _) size.symm)
      (Nat.not_lt_of_le (Nat.le_add_right _ _)), Bool.and_false]
    exact Bool.false_ne_true
  rw [globals, size, range_add, map_append, filter_append, none, append_nil,
    globals]
  refine filter_congr fun id member => ?_
  obtain ⟨index, inside, rfl⟩ := mem_map.mp member
  have has : early.HasSymbol ⟨index⟩ := mem_range.mp inside
  rw [Symbol.isGlobal, Symbol.isGlobal, grows.symbol_kind has, grows.symbol_level has]

theorem Grows.map_address (grows : early.Grows late) :
    early.globals.map (fun id => (late.symbol id).address) =
      early.globals.map fun id => (early.symbol id).address :=
  map_congr_left fun _ member => grows.symbol_address (mem_globals_iff.mp member).1

theorem Adds.globals_eq (adds : early.Adds symbol late) (present : early.HasSymbol .absent)
    (isGlobal : symbol.isGlobal) :
    late.globals = early.globals ++ [early.nextSymbol] := by
  have size : late.symbols.size = early.symbols.size + 1 := by rw [adds.symbols, Array.size_push]
  have different : early.nextSymbol ≠ .absent := fun same =>
    early.not_hasSymbol_nextSymbol (same ▸ present)
  rw [globals, size, range_succ, map_append, filter_append, globals,
    map_singleton, filter_cons_of_pos, filter_nil]
  · refine congrArg (· ++ [early.nextSymbol]) (filter_congr fun id member => ?_)
    obtain ⟨index, inside, rfl⟩ := mem_map.mp member
    have has : early.HasSymbol ⟨index⟩ := mem_range.mp inside
    rw [adds.symbol_eq has]
  · rw [Bool.and_eq_true, bne_iff_ne]
    refine ⟨different, ?_⟩
    have row : late.symbol ⟨early.symbols.size⟩ = symbol := adds.symbol_new
    rw [row]
    exact isGlobal

/-- Global variables have slots of their own, and methods have no code. -/
structure IsPlaced (table : Table) : Prop where
  methods : ∀ id, table.HasSymbol id → (table.symbol id).kind = .method →
    (table.symbol id).address = Symbol.noAddress
  present : table.HasSymbol .absent
  numbered : table.globals.map (fun id => (table.symbol id).address) =
    (List.range table.globalCount).map Int.ofNat

namespace IsPlaced

variable (placed : table.IsPlaced)
include placed

theorem globals (id : SymbolId) (isGlobal : table.IsGlobalVar id) :
    ∃ slot < table.globalCount, (table.symbol id).address = (slot : Int) := by
  have listed : (table.symbol id).address ∈ (List.range table.globalCount).map Int.ofNat :=
    placed.numbered ▸ mem_map_of_mem (mem_globals_iff.mpr isGlobal)
  obtain ⟨slot, inside, same⟩ := mem_map.mp listed
  exact ⟨slot, mem_range.mp inside, same.symm⟩

theorem distinct (id other : SymbolId) (isGlobal : table.IsGlobalVar id)
    (isOther : table.IsGlobalVar other)
    (same : (table.symbol id).address = (table.symbol other).address) :
    id = other := by
  have nodup : (table.globals.map fun id => (table.symbol id).address).Nodup := by
    rw [placed.numbered]
    exact nodup_range.map fun _ _ same => Int.ofNat.inj same
  exact inj_on_of_nodup_map nodup (mem_globals_iff.mpr isGlobal)
    (mem_globals_iff.mpr isOther) same

end IsPlaced

/-- All variables have slots of their own, and methods have no code. -/
structure IsOrderly (table : Table) : Prop extends IsPlaced table where
  locals : ∀ id, table.HasSymbol id → table.AreSlots (table.symbol id).locals

theorem areSlots_nil (table : Table) : table.AreSlots [] := fun _ _ found => nomatch found

theorem IsPlaced.of_bare (placed : early.IsPlaced) (grows : early.Grows late)
    (symbols : late.symbols.size = early.symbols.size)
    (globalCount : late.globalCount = early.globalCount) :
    late.IsPlaced := by
  have old : ∀ id, late.HasSymbol id → early.HasSymbol id := fun id has => by
    rw [HasSymbol, symbols] at has
    exact has
  refine ⟨fun id has kind => ?_, grows.hasSymbol placed.present, ?_⟩
  · have hasOld := old id has
    rw [grows.symbol_kind hasOld] at kind
    rw [grows.symbol_address hasOld]
    exact placed.methods id hasOld kind
  · rw [grows.globals_eq fun id has fresh => absurd (old id has) fresh, grows.map_address,
      globalCount]
    exact placed.numbered

namespace IsOrderly

theorem of_symbols (orderly : early.IsOrderly) (symbols : late.symbols = early.symbols)
    (globalCount : late.globalCount = early.globalCount) :
    late.IsOrderly := by
  have row : late.symbol = early.symbol := by
    funext id
    simp only [symbol, symbolRow, symbols]
  have has : late.HasSymbol = early.HasSymbol := by
    funext id
    rw [HasSymbol, HasSymbol, symbols]
  have globals : late.globals = early.globals := by
    rw [Table.globals, Table.globals, row, symbols]
  have slots : late.AreSlots = early.AreSlots := by
    funext locals
    rw [AreSlots, AreSlots, row, has]
  refine ⟨⟨?_, ?_, ?_⟩, ?_⟩
  · rw [row, has]
    exact orderly.methods
  · rw [has]
    exact orderly.present
  · rw [row, globals, globalCount]
    exact orderly.numbered
  · rw [row, has, slots]
    exact orderly.locals

theorem widens (orderly : early.IsOrderly) (widens : early.Widens late) : late.IsOrderly := by
  -- A symbol that is new is neither a method nor a variable.
  have old : ∀ id, late.HasSymbol id → (late.symbol id).kind ≠ .element → early.HasSymbol id := by
    intro id has other
    by_contra fresh
    exact other (widens.element_of_fresh has fresh).1
  refine ⟨⟨fun id has kind => ?_, widens.grows.hasSymbol orderly.present, ?_⟩, fun id has => ?_⟩
  · have hasOld := old id has (by rw [kind]; decide)
    rw [widens.symbol_eq hasOld] at kind ⊢
    exact orderly.methods id hasOld kind
  · rw [widens.grows.globals_eq fun id has fresh => ?_, widens.grows.map_address,
      widens.globalCount]
    · exact orderly.numbered
    · rw [Symbol.isGlobal, (widens.element_of_fresh has fresh).1]
      rfl
  · by_cases hasOld : early.HasSymbol id
    · rw [widens.symbol_eq hasOld]
      exact (orderly.locals id hasOld).grows widens.grows
    · rw [(widens.element_of_fresh has hasOld).2]
      exact areSlots_nil late

theorem adds (orderly : early.IsOrderly) (adds : early.Adds symbol late)
    (method : symbol.kind = .method → symbol.address = Symbol.noAddress)
    (locals : symbol.locals = []) :
    late.IsOrderly := by
  have grows := adds.grows
  refine ⟨⟨fun id has kind => ?_, grows.hasSymbol orderly.present, ?_⟩, fun id has => ?_⟩
  · rcases (adds.hasSymbol_iff id).mp has with hasOld | rfl
    · rw [adds.symbol_eq hasOld] at kind ⊢
      exact orderly.methods id hasOld kind
    · rw [adds.symbol_new] at kind ⊢
      exact method kind
  · cases isGlobal : symbol.isGlobal with
    | true =>
      obtain ⟨address, count⟩ := adds.slot isGlobal
      rw [adds.globals_eq orderly.present isGlobal, map_append, grows.map_address, count,
        range_succ, map_append, orderly.numbered, map_singleton, adds.symbol_new,
        address]
      rfl
    | false =>
      rw [grows.globals_eq fun id has fresh => ?_, grows.map_address, adds.kept isGlobal]
      · exact orderly.numbered
      · rw [((adds.hasSymbol_iff id).mp has).resolve_left fresh, adds.symbol_new]
        exact isGlobal
  · rcases (adds.hasSymbol_iff id).mp has with hasOld | rfl
    · rw [adds.symbol_eq hasOld]
      exact (orderly.locals id hasOld).grows grows
    · rw [adds.symbol_new, locals]
      exact areSlots_nil late

theorem updateSymbol {change : Symbol → Symbol} (orderly : table.IsOrderly)
    (has : table.HasSymbol id) (keeps : (change (table.symbol id)).bare = (table.symbol id).bare)
    (slots : table.AreSlots (change (table.symbol id)).locals) :
    (table.updateSymbol id change).IsOrderly := by
  have grows := updateSymbol_grows has keeps
  refine ⟨orderly.toIsPlaced.of_bare grows Array.size_modify rfl, fun other hasOther => ?_⟩
  have hasOld := (table.hasSymbol_updateSymbol id other change).mp hasOther
  by_cases same : other = id
  · rw [same, symbol_updateSymbol_self has]
    exact slots.grows grows
  · rw [symbol_updateSymbol_of_ne has hasOld same]
    exact (orderly.locals other hasOld).grows grows

end IsOrderly
end Table
end MicroJava
