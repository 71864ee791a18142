import Mathlib.Tactic.Common
import MicroJava.Symbol.Table

/-!
# How a table grows

Entries are only added to a table.  What a symbol stands for and the shape of a type never
change; the parameters and locals of a method and the members of a class are filled in later.
-/

namespace MicroJava

variable {table early late : Table} {id : TypeId} {first second third : Table}
  {more : Array TypeDesc} {desc : TypeDesc}

/-- A symbol without what is filled in later. -/
def Symbol.bare (symbol : Symbol) : Symbol := { symbol with paramCount := 0, locals := [] }

/-- A type without what is filled in later. -/
def TypeDesc.bare (desc : TypeDesc) : TypeDesc :=
  { desc with members := [], dispatch := .none, pending := [], fieldCount := 0 }

variable {other : TypeDesc} {symbol : Symbol}

theorem Symbol.kind_eq_of_bare {other : Symbol} (same : symbol.bare = other.bare) :
    symbol.kind = other.kind := by
  change symbol.bare.kind = other.bare.kind
  rw [same]

theorem Symbol.type_eq_of_bare {other : Symbol} (same : symbol.bare = other.bare) :
    symbol.type = other.type := by
  change symbol.bare.type = other.bare.type
  rw [same]

theorem TypeDesc.kind_eq_of_bare (same : desc.bare = other.bare) : desc.kind = other.kind := by
  change desc.bare.kind = other.bare.kind
  rw [same]

theorem TypeDesc.element_eq_of_bare (same : desc.bare = other.bare) :
    desc.element = other.element := by
  change desc.bare.element = other.bare.element
  rw [same]

/-- A symbol that is used together with an object. -/
def Symbol.NeedsObject (symbol : Symbol) : Prop := symbol.kind = .field ∨ symbol.isVirtual

theorem Symbol.NeedsObject.kind (needs : symbol.NeedsObject) :
    symbol.kind = .field ∨ symbol.kind = .method :=
  needs.imp_right fun isVirtual => of_decide_eq_true (Bool.and_eq_true_iff.mp isVirtual).1

/-- A type that variables and elements may have. -/
def TypeId.IsProper (type : TypeId) : Prop := type ≠ .none ∧ type ≠ .anyArray

instance (type : TypeId) : Decidable type.IsProper := inferInstanceAs (Decidable (_ ∧ _))

theorem TypeId.isProper_of_le {type : TypeId} (later : 6 ≤ type.index) : type.IsProper := by
  constructor <;> rintro rfl <;> exact absurd later (by decide)

namespace Table

/-! ## Positions in use -/

/-- A position of a symbol is in use. -/
def HasSymbol (table : Table) (id : SymbolId) : Prop := id.index < table.symbols.size

/-- A position of a type is in use. -/
def HasType (table : Table) (id : TypeId) : Prop := id.index < table.types.size

instance (table : Table) (id : TypeId) : Decidable (table.HasType id) :=
  inferInstanceAs (Decidable (_ < _))

theorem getElem?_of_hasSymbol {id : SymbolId} (has : table.HasSymbol id) :
    table.symbols[id.index]? = some (table.symbol id) := by
  have inside : id.index < table.symbols.size := has
  rw [symbol, symbolRow, if_pos inside, Array.getD_eq_getD_getElem?,
    Array.getElem?_eq_getElem inside, Option.getD_some]

theorem getElem?_of_hasType (has : table.HasType id) :
    table.types[id.index]? = some (table.desc id) := by
  have inside : id.index < table.types.size := has
  rw [desc, typeRow, if_pos inside, Array.getD_eq_getD_getElem?,
    Array.getElem?_eq_getElem inside, Option.getD_some]

theorem symbol_eq_of_getElem? {id : SymbolId} {entry : Symbol}
    (found : table.symbols[id.index]? = some entry) :
    table.HasSymbol id ∧ table.symbol id = entry := by
  obtain ⟨inside, _⟩ := Array.getElem?_eq_some_iff.mp found
  have has : table.HasSymbol id := inside
  rw [getElem?_of_hasSymbol has] at found
  exact ⟨has, Option.some.inj found⟩

theorem desc_eq_of_getElem? {entry : TypeDesc} (found : table.types[id.index]? = some entry) :
    table.HasType id ∧ table.desc id = entry := by
  obtain ⟨inside, _⟩ := Array.getElem?_eq_some_iff.mp found
  have has : table.HasType id := inside
  rw [getElem?_of_hasType has] at found
  exact ⟨has, Option.some.inj found⟩

theorem symbol_of_not_hasSymbol {id : SymbolId} (unused : ¬ table.HasSymbol id) :
    table.symbol id = table.symbol .absent := by
  have outside : ¬ id.index < table.symbols.size := unused
  have first : table.symbolRow .absent = 0 := ite_self 0
  rw [symbol, symbol, symbolRow, if_neg outside, first]

theorem desc_of_not_hasType (unused : ¬ table.HasType id) :
    table.desc id = table.desc .none := by
  have outside : ¬ id.index < table.types.size := unused
  have first : table.typeRow .none = 0 := ite_self 0
  rw [desc, desc, typeRow, if_neg outside, first]

/-! ## Growth -/

/-- A later table has all entries of an earlier one. -/
structure Grows (early late : Table) : Prop where
  symbols_le : early.symbols.size ≤ late.symbols.size
  types_le : early.types.size ≤ late.types.size
  bare_symbol : ∀ id, early.HasSymbol id → (late.symbol id).bare = (early.symbol id).bare
  bare_desc : ∀ id, early.HasType id → (late.desc id).bare = (early.desc id).bare

namespace Grows

theorem refl (table : Table) : table.Grows table :=
  ⟨Nat.le_refl _, Nat.le_refl _, fun _ _ => rfl, fun _ _ => rfl⟩

theorem hasSymbol {id : SymbolId} (grows : early.Grows late) (has : early.HasSymbol id) :
    late.HasSymbol id :=
  Nat.lt_of_lt_of_le has grows.symbols_le

theorem hasType (grows : early.Grows late) (has : early.HasType id) : late.HasType id :=
  Nat.lt_of_lt_of_le has grows.types_le

theorem trans (grows : first.Grows second) (next : second.Grows third) :
    first.Grows third where
  symbols_le := Nat.le_trans grows.symbols_le next.symbols_le
  types_le := Nat.le_trans grows.types_le next.types_le
  bare_symbol := fun id has =>
    (next.bare_symbol id (grows.hasSymbol has)).trans (grows.bare_symbol id has)
  bare_desc := fun id has =>
    (next.bare_desc id (grows.hasType has)).trans (grows.bare_desc id has)

variable (grows : early.Grows late)
include grows

theorem symbol_kind {id : SymbolId} (has : early.HasSymbol id) :
    (late.symbol id).kind = (early.symbol id).kind :=
  Symbol.kind_eq_of_bare (grows.bare_symbol id has)

theorem symbol_type {id : SymbolId} (has : early.HasSymbol id) :
    (late.symbol id).type = (early.symbol id).type :=
  Symbol.type_eq_of_bare (grows.bare_symbol id has)

theorem symbol_name {id : SymbolId} (has : early.HasSymbol id) :
    (late.symbol id).name = (early.symbol id).name := by
  change (late.symbol id).bare.name = (early.symbol id).bare.name
  rw [grows.bare_symbol id has]

theorem symbol_level {id : SymbolId} (has : early.HasSymbol id) :
    (late.symbol id).level = (early.symbol id).level := by
  change (late.symbol id).bare.level = (early.symbol id).bare.level
  rw [grows.bare_symbol id has]

theorem symbol_address {id : SymbolId} (has : early.HasSymbol id) :
    (late.symbol id).address = (early.symbol id).address := by
  change (late.symbol id).bare.address = (early.symbol id).bare.address
  rw [grows.bare_symbol id has]

theorem symbol_hasValue {id : SymbolId} (has : early.HasSymbol id) :
    (late.symbol id).hasValue = (early.symbol id).hasValue := by
  change (late.symbol id).bare.hasValue = (early.symbol id).bare.hasValue
  rw [grows.bare_symbol id has]

theorem symbol_isAssignable {id : SymbolId} (has : early.HasSymbol id) :
    (late.symbol id).isAssignable = (early.symbol id).isAssignable := by
  change (late.symbol id).bare.isAssignable = (early.symbol id).bare.isAssignable
  rw [grows.bare_symbol id has]

theorem symbol_isVirtual {id : SymbolId} (has : early.HasSymbol id) :
    (late.symbol id).isVirtual = (early.symbol id).isVirtual := by
  change (late.symbol id).bare.isVirtual = (early.symbol id).bare.isVirtual
  rw [grows.bare_symbol id has]

theorem needsObject_iff {id : SymbolId} (has : early.HasSymbol id) :
    (late.symbol id).NeedsObject ↔ (early.symbol id).NeedsObject := by
  rw [Symbol.NeedsObject, Symbol.NeedsObject, grows.symbol_kind has, grows.symbol_isVirtual has]

theorem kind (has : early.HasType id) : late.kind id = early.kind id :=
  TypeDesc.kind_eq_of_bare (grows.bare_desc id has)

theorem element (has : early.HasType id) : late.element id = early.element id := by
  have same := TypeDesc.element_eq_of_bare (grows.bare_desc id has)
  rw [Table.element, Table.element, grows.kind has, same]

theorem isClass (has : early.HasType id) : late.isClass id = early.isClass id := by
  rw [Table.isClass, Table.isClass, grows.kind has]

end Grows

/-! ## Well-formed tables -/

/-- The entries that every table starts with are there, and types that are referred to are in
use. -/
structure IsValid (table : Table) : Prop where
  absent : (table.symbols[0]?).map Symbol.bare = some (.declared .var "" .none 0)
  basic : 6 ≤ table.types.size
  kind_none : table.kind .none = .none
  element_anyArray : (table.desc .anyArray).element = .none
  symbol_types : ∀ symbol ∈ table.symbols, table.HasType symbol.type
  type_names : ∀ symbol ∈ table.symbols, symbol.kind = .type → symbol.type.IsProper
  element_types : ∀ desc ∈ table.types, table.HasType desc.element
  elements : ∀ index desc, table.types[index]? = some desc → index ≠ 5 → desc.kind = .array →
    desc.element.IsProper
  shared : ∀ (index other : Nat) desc otherDesc, table.types[index]? = some desc →
    table.types[other]? = some otherDesc → desc.kind = .array → otherDesc.kind = .array →
    desc.element = otherDesc.element → index = other

theorem isValid_initial : initial.IsValid where
  absent := rfl
  basic := Nat.le_refl _
  kind_none := rfl
  element_anyArray := rfl
  symbol_types := by simp [initial, Symbol.declared, HasType, TypeId.none]
  type_names := by simp [initial, Symbol.declared]
  element_types := by simp [initial, HasType, TypeId.none]
  elements := fun index desc found other array => by
    obtain ⟨inside, rfl⟩ := Array.getElem?_eq_some_iff.mp found
    match index, inside with
    | 0, _ | 1, _ | 2, _ | 3, _ | 4, _ => cases array
    | 5, _ => exact absurd rfl other
  shared := fun index other desc otherDesc found otherFound array otherArray _ => by
    have only : ∀ (index : Nat) desc, initial.types[index]? = some desc → desc.kind = .array →
        index = 5 := by
      intro index desc found array
      obtain ⟨inside, rfl⟩ := Array.getElem?_eq_some_iff.mp found
      match index, inside with
      | 0, _ | 1, _ | 2, _ | 3, _ | 4, _ => cases array
      | 5, _ => rfl
    rw [only index desc found array, only other otherDesc otherFound otherArray]

namespace IsValid

variable (valid : table.IsValid)
include valid

theorem hasSymbol_absent : table.HasSymbol .absent := by
  obtain ⟨_, found, _⟩ := Option.map_eq_some_iff.mp valid.absent
  exact (symbol_eq_of_getElem? found).1

theorem bare_absent : (table.symbol .absent).bare = .declared .var "" .none 0 := by
  obtain ⟨symbol, found, bare⟩ := Option.map_eq_some_iff.mp valid.absent
  have row : table.symbol .absent = symbol := (symbol_eq_of_getElem? found).2
  rw [row, bare]

theorem type_absent : (table.symbol .absent).type = .none := by
  have bare : (table.symbol .absent).bare.type = .none := by rw [valid.bare_absent]; rfl
  exact bare

theorem kind_absent : (table.symbol .absent).kind = .var := by
  have bare : (table.symbol .absent).bare.kind = .var := by rw [valid.bare_absent]; rfl
  exact bare

theorem not_needsObject_absent : ¬ (table.symbol .absent).NeedsObject := by
  intro needs
  rcases needs.kind with kind | kind <;> rw [valid.kind_absent] at kind <;> cases kind

theorem level_absent : (table.symbol .absent).level = 0 := by
  have bare : (table.symbol .absent).bare.level = 0 := by rw [valid.bare_absent]; rfl
  exact bare

theorem hasType_basic (basic : id.index < 6) : table.HasType id :=
  Nat.lt_of_lt_of_le basic valid.basic

theorem symbol_mem (id : SymbolId) : table.symbol id ∈ table.symbols := by
  by_cases has : table.HasSymbol id
  · exact Array.mem_of_getElem? (getElem?_of_hasSymbol has)
  · rw [symbol_of_not_hasSymbol has]
    exact Array.mem_of_getElem? (getElem?_of_hasSymbol valid.hasSymbol_absent)

theorem desc_mem (id : TypeId) : table.desc id ∈ table.types := by
  by_cases has : table.HasType id
  · exact Array.mem_of_getElem? (getElem?_of_hasType has)
  · rw [desc_of_not_hasType has]
    exact Array.mem_of_getElem? (getElem?_of_hasType (valid.hasType_basic (by decide)))

theorem hasType_symbol (id : SymbolId) : table.HasType (table.symbol id).type :=
  valid.symbol_types _ (valid.symbol_mem id)

theorem isClass_none : table.isClass .none = false := by
  rw [isClass, valid.kind_none]
  rfl

theorem hasType_element (id : TypeId) : table.HasType (table.element id) := by
  rw [element]
  split
  · exact valid.element_types _ (valid.desc_mem id)
  · exact valid.hasType_basic (by decide)

theorem isProper_element (proper : id.IsProper) (array : table.kind id = .array) :
    (table.element id).IsProper := by
  have has : table.HasType id := by
    by_contra unused
    rw [kind, desc_of_not_hasType unused] at array
    exact absurd (valid.kind_none.symm.trans array) (by decide)
  have other : id.index ≠ 5 := by
    intro same
    obtain ⟨index⟩ := id
    exact proper.2 (congrArg TypeId.mk same)
  rw [element, if_pos array]
  exact valid.elements id.index _ (getElem?_of_hasType has) other array

end IsValid

/-! ## Adding entries -/

theorem symbol_of_append {more : Array Symbol} {id : SymbolId}
    (added : late.symbols = early.symbols ++ more) (has : early.HasSymbol id) :
    late.symbol id = early.symbol id := by
  refine (symbol_eq_of_getElem? ?_).2
  rw [added, Array.getElem?_append_left has]
  exact getElem?_of_hasSymbol has

theorem desc_of_append (added : late.types = early.types ++ more) (has : early.HasType id) :
    late.desc id = early.desc id := by
  refine (desc_eq_of_getElem? ?_).2
  rw [added, Array.getElem?_append_left has]
  exact getElem?_of_hasType has

theorem symbol_mem_of_append {more : Array Symbol} {id : SymbolId}
    (added : late.symbols = early.symbols ++ more) (has : late.HasSymbol id)
    (fresh : ¬ early.HasSymbol id) :
    late.symbol id ∈ more := by
  have found := getElem?_of_hasSymbol has
  rw [added, Array.getElem?_append_right (Nat.le_of_not_lt fresh)] at found
  exact Array.mem_of_getElem? found

theorem desc_mem_of_append (added : late.types = early.types ++ more) (has : late.HasType id)
    (fresh : ¬ early.HasType id) :
    late.desc id ∈ more := by
  have found := getElem?_of_hasType has
  rw [added, Array.getElem?_append_right (Nat.le_of_not_lt fresh)] at found
  exact Array.mem_of_getElem? found

theorem grows_of_append {moreSymbols : Array Symbol} {moreTypes : Array TypeDesc}
    (symbolsAdded : late.symbols = early.symbols ++ moreSymbols)
    (typesAdded : late.types = early.types ++ moreTypes) :
    early.Grows late where
  symbols_le := by rw [symbolsAdded, Array.size_append]; omega
  types_le := by rw [typesAdded, Array.size_append]; omega
  bare_symbol := fun _ has => by rw [symbol_of_append symbolsAdded has]
  bare_desc := fun _ has => by rw [desc_of_append typesAdded has]

theorem IsValid.addSymbol {symbol : Symbol} (valid : table.IsValid)
    (used : table.HasType symbol.type) (proper : symbol.kind = .type → symbol.type.IsProper) :
    (table.addSymbol symbol).2.IsValid := by
  have symbols : (table.addSymbol symbol).2.symbols = table.symbols ++ #[symbol] := rfl
  exact {
    absent := by
      have first : 0 < table.symbols.size := valid.hasSymbol_absent
      rw [symbols, Array.getElem?_append_left first]
      exact valid.absent
    basic := valid.basic
    kind_none := valid.kind_none
    element_anyArray := valid.element_anyArray
    symbol_types := fun other member => by
      rw [symbols, Array.mem_append, Array.mem_singleton] at member
      rcases member with old | rfl
      · exact valid.symbol_types other old
      · exact used
    type_names := fun other member => by
      rw [symbols, Array.mem_append, Array.mem_singleton] at member
      rcases member with old | rfl
      · exact valid.type_names other old
      · exact proper
    element_types := valid.element_types
    elements := valid.elements
    shared := valid.shared }

variable {element : TypeId}

theorem not_array_of_arrayOf?_eq_none {index : Nat} (missing : table.arrayOf? element = none)
    (found : table.types[index]? = some desc) (array : desc.kind = .array) :
    desc.element ≠ element := by
  rw [arrayOf?, Option.map_eq_none_iff, Array.findIdx?_eq_none_iff] at missing
  have other := missing desc (Array.mem_of_getElem? found)
  simpa [array] using other

theorem IsValid.addType (valid : table.IsValid) (used : table.HasType desc.element)
    (proper : desc.kind = .array →
      desc.element.IsProper ∧ table.arrayOf? desc.element = none) :
    (table.addType desc).2.IsValid := by
  have types : (table.addType desc).2.types = table.types ++ #[desc] := rfl
  have grows : table.Grows (table.addType desc).2 :=
    grows_of_append (Array.append_empty).symm types
  have cases : ∀ (index : Nat) other, (table.addType desc).2.types[index]? = some other →
      table.types[index]? = some other ∨ index = table.types.size ∧ other = desc := by
    intro index other found
    rw [types, Array.getElem?_append] at found
    split at found
    · exact .inl found
    next past =>
      rw [List.getElem?_toArray, List.getElem?_singleton] at found
      split_ifs at found with here
      exact .inr ⟨by omega, (Option.some.inj found).symm⟩
  exact {
    absent := valid.absent
    basic := Nat.le_trans valid.basic grows.types_le
    kind_none := by rw [grows.kind (valid.hasType_basic (by decide)), valid.kind_none]
    element_anyArray := by
      rw [desc_of_append types (valid.hasType_basic (by decide)), valid.element_anyArray]
    symbol_types := fun symbol member => grows.hasType (valid.symbol_types symbol member)
    type_names := valid.type_names
    element_types := fun other member => by
      rw [types, Array.mem_append, Array.mem_singleton] at member
      rcases member with old | rfl
      · exact grows.hasType (valid.element_types other old)
      · exact grows.hasType used
    elements := fun index other found => by
      rcases cases index other found with old | ⟨_, rfl⟩
      · exact valid.elements index other old
      · exact fun _ array => (proper array).1
    shared := fun index position first second found positionFound array secondArray same => by
      rcases cases index first found with old | ⟨here, rfl⟩ <;>
        rcases cases position second positionFound with positionOld | ⟨positionHere, rfl⟩
      · exact valid.shared index position first second old positionOld array secondArray same
      · exact absurd same (not_array_of_arrayOf?_eq_none (proper secondArray).2 old array)
      · exact absurd same.symm
          (not_array_of_arrayOf?_eq_none (proper array).2 positionOld secondArray)
      · exact here.trans positionHere.symm }

/-! ## Array elements and array types -/

/-- A table with more array elements and more array types. -/
structure Widens (early late : Table) : Prop where
  symbols : ∃ more, late.symbols = early.symbols ++ more ∧
    ∀ symbol ∈ more, symbol.kind = .element ∧ symbol.locals = []
  types : ∃ more, late.types = early.types ++ more ∧
    ∀ desc ∈ more, desc.kind = .array ∧ desc.members = []
  globalCount : late.globalCount = early.globalCount
  valid : early.IsValid → late.IsValid

namespace Widens

theorem refl (table : Table) : table.Widens table :=
  ⟨⟨#[], by simp⟩, ⟨#[], by simp⟩, rfl, id⟩

theorem trans (widens : first.Widens second) (next : second.Widens third) :
    first.Widens third := by
  obtain ⟨moreSymbols, symbols, elements⟩ := widens.symbols
  obtain ⟨moreTypes, types, arrays⟩ := widens.types
  obtain ⟨furtherSymbols, symbols', elements'⟩ := next.symbols
  obtain ⟨furtherTypes, types', arrays'⟩ := next.types
  refine ⟨⟨moreSymbols ++ furtherSymbols, ?_, ?_⟩, ⟨moreTypes ++ furtherTypes, ?_, ?_⟩,
    next.globalCount.trans widens.globalCount, next.valid ∘ widens.valid⟩
  · rw [symbols', symbols, Array.append_assoc]
  · intro symbol member
    exact (Array.mem_append.mp member).elim (elements symbol) (elements' symbol)
  · rw [types', types, Array.append_assoc]
  · intro desc member
    exact (Array.mem_append.mp member).elim (arrays desc) (arrays' desc)

variable (widens : early.Widens late)
include widens

theorem grows : early.Grows late := by
  obtain ⟨_, symbols, _⟩ := widens.symbols
  obtain ⟨_, types, _⟩ := widens.types
  exact grows_of_append symbols types

theorem symbol_eq {id : SymbolId} (has : early.HasSymbol id) :
    late.symbol id = early.symbol id := by
  obtain ⟨_, symbols, _⟩ := widens.symbols
  exact symbol_of_append symbols has

theorem desc_eq (has : early.HasType id) : late.desc id = early.desc id := by
  obtain ⟨_, types, _⟩ := widens.types
  exact desc_of_append types has

theorem element_of_fresh {id : SymbolId} (has : late.HasSymbol id) (fresh : ¬ early.HasSymbol id) :
    (late.symbol id).kind = .element ∧ (late.symbol id).locals = [] := by
  obtain ⟨_, symbols, elements⟩ := widens.symbols
  exact elements _ (symbol_mem_of_append symbols has fresh)

theorem method_of_kind {id : SymbolId} (has : late.HasSymbol id)
    (kind : (late.symbol id).kind = .method) :
    early.HasSymbol id ∧ late.symbol id = early.symbol id := by
  by_cases old : early.HasSymbol id
  · exact ⟨old, widens.symbol_eq old⟩
  · have element := (widens.element_of_fresh has old).1
    rw [kind] at element
    cases element

theorem array_of_fresh (has : late.HasType id) (fresh : ¬ early.HasType id) :
    late.kind id = .array ∧ (late.desc id).members = [] := by
  obtain ⟨_, types, arrays⟩ := widens.types
  exact arrays _ (desc_mem_of_append types has fresh)

end Widens

theorem addElement_widens (table : Table) (type : TypeId) :
    table.Widens (table.addSymbol (.declared .element "" (table.element type) 0)).2 where
  symbols := ⟨#[_], rfl, by simp⟩
  types := ⟨#[], by simp [addSymbol]⟩
  globalCount := rfl
  valid := fun valid => valid.addSymbol (valid.hasType_element type) nofun

theorem arrayOf_widens (fits : table.IsValid → table.HasType element ∧ element.IsProper) :
    table.Widens (table.arrayOf element).2 := by
  rw [arrayOf]
  split
  · exact .refl table
  next missing =>
    exact {
      symbols := ⟨#[], by simp [addType]⟩
      types := ⟨#[_], rfl, by simp⟩
      globalCount := rfl
      valid := fun valid => valid.addType (fits valid).1 fun _ => ⟨(fits valid).2, missing⟩ }

theorem arrayOf?_eq_some (found : table.arrayOf? element = some id) :
    table.HasType id ∧ table.kind id = .array ∧ (table.desc id).element = element := by
  obtain ⟨index, first, rfl⟩ := Option.map_eq_some_iff.mp found
  obtain ⟨inside, holds, _⟩ := Array.findIdx?_eq_some_iff_getElem.mp first
  have has : table.HasType ⟨index⟩ := inside
  have row := getElem?_of_hasType has
  rw [Array.getElem?_eq_getElem inside, Option.some_inj] at row
  rw [row, Bool.and_eq_true, decide_eq_true_iff, decide_eq_true_iff] at holds
  exact ⟨has, holds.1, holds.2⟩

theorem isProper_arrayOf (valid : table.IsValid) (proper : element.IsProper) :
    (table.arrayOf element).2.HasType (table.arrayOf element).1 ∧
      (table.arrayOf element).1.IsProper := by
  rw [arrayOf]
  split
  next id found =>
    obtain ⟨has, array, same⟩ := arrayOf?_eq_some found
    refine ⟨has, ?_, ?_⟩
    · rintro rfl
      exact absurd (valid.kind_none.symm.trans array) (by decide)
    · rintro rfl
      exact proper.1 (same.symm.trans valid.element_anyArray)
  next =>
    exact ⟨by simp [HasType, addType, nextType], TypeId.isProper_of_le valid.basic⟩

end Table
end MicroJava
