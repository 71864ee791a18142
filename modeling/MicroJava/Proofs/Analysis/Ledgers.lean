import MicroJava.Proofs.Analysis.Frames

/-!
# Frames as ledgers

A ledger has the names of a frame in the order in which they were first bound, each with its
symbol.  Every operation on the open frames has a counterpart on their ledgers.
-/

namespace MicroJava

open List

variable {frame' frame : Frame} {level : Nat} {first second : String × SymbolId}
  {kind : SymbolKind} {type : TypeId} {name other : String} {id old : SymbolId}
  {table later : Table} {scopes : Scopes}

/-! ## Ledgers -/

/-- The names of a frame in the order in which they were first bound, with their symbols. -/
abbrev Ledger := List (String × SymbolId)

namespace Ledger

variable {ledger : Ledger}

/-- The symbols, that of the name bound first in front. -/
def symbols (ledger : Ledger) : List SymbolId := ledger.map Prod.snd

/-- Give a name its symbol unless it has one. -/
def declare (ledger : Ledger) (name : String) (id : SymbolId) : Ledger :=
  if (ledger.lookup name).isSome then ledger else ledger ++ [(name, id)]

/-- Give a name that has a symbol another one, in its place. -/
def assign (ledger : Ledger) (name : String) (id : SymbolId) : Ledger :=
  ledger.map fun entry => if entry.1 = name then (name, id) else entry

/-- Give a name this symbol, in its place or behind all others. -/
def bind (ledger : Ledger) (name : String) (id : SymbolId) : Ledger :=
  if (ledger.lookup name).isSome then ledger.assign name id else ledger ++ [(name, id)]

/-- No name and no symbol occurs twice. -/
structure IsExact (ledger : Ledger) : Prop where
  names : (ledger.map Prod.fst).Nodup
  symbols : ledger.symbols.Nodup

theorem lookup_append_singleton (free : ledger.lookup name = none) :
    (ledger ++ [(name, id)]).lookup other =
      if name = other then some id else ledger.lookup other := by
  rw [lookup_append, lookup_cons, lookup_nil]
  by_cases same : name = other
  · rw [if_pos same, ← same, free, beq_self_eq_true]
    rfl
  · rw [if_neg same, beq_false_of_ne (Ne.symm same)]
    exact Option.or_none

theorem lookup_assign :
    (ledger.assign name id).lookup other =
      if name = other then (ledger.lookup name).map fun _ => id else ledger.lookup other := by
  induction ledger with
  | nil => simp [assign]
  | cons entry ledger hypothesis =>
    obtain ⟨first, symbol⟩ := entry
    rw [assign, map_cons, ← assign, lookup_cons, lookup_cons, hypothesis]
    by_cases same : name = other <;> by_cases here : first = name <;> grind

theorem map_fst_assign : (ledger.assign name id).map Prod.fst = ledger.map Prod.fst := by
  rw [assign, map_map]
  refine map_congr_left fun entry _ => ?_
  simp only [Function.comp_apply]
  split
  next same => exact same.symm
  next => rfl

theorem lookup_eq_some_iff (names : (ledger.map Prod.fst).Nodup) :
    ledger.lookup name = some id ↔ (name, id) ∈ ledger := by
  rw [List.lookup_eq_some_iff]
  constructor
  · rintro ⟨early, late, rfl, _⟩
    exact mem_append_right early mem_cons_self
  · intro member
    obtain ⟨early, late, rfl⟩ := append_of_mem member
    refine ⟨early, late, rfl, fun entry isEarly => bne_iff_ne.mpr fun same => ?_⟩
    rw [map_append, map_cons] at names
    refine (nodup_append.mp names).2.2 entry.1 (mem_map_of_mem isEarly) name ?_ same.symm
    exact mem_cons_self

theorem mem_symbols_iff : id ∈ ledger.symbols ↔ ∃ name, (name, id) ∈ ledger := by
  rw [symbols, mem_map]
  constructor
  · rintro ⟨⟨name, _⟩, member, rfl⟩
    exact ⟨name, member⟩
  · rintro ⟨name, member⟩
    exact ⟨(name, id), member, rfl⟩

namespace IsExact

variable (isExact : ledger.IsExact)
include isExact

theorem eq_of_snd_eq (isFirst : first ∈ ledger) (isSecond : second ∈ ledger)
    (same : first.2 = second.2) :
    first = second :=
  inj_on_of_nodup_map isExact.symbols isFirst isSecond same

theorem eq_of_fst_eq (isFirst : first ∈ ledger) (isSecond : second ∈ ledger)
    (same : first.1 = second.1) :
    first = second :=
  inj_on_of_nodup_map isExact.names isFirst isSecond same

theorem append_singleton (free : ledger.lookup name = none) (unlisted : id ∉ ledger.symbols) :
    Ledger.IsExact (ledger ++ [(name, id)]) where
  names := by
    rw [map_append, map_singleton]
    refine nodup_append.mpr ⟨isExact.names, nodup_singleton _, ?_⟩
    rintro first isName second isNew rfl
    obtain ⟨entry, member, rfl⟩ := mem_map.mp isName
    have different := lookup_eq_none_iff.mp free entry member
    exact bne_iff_ne.mp different (mem_singleton.mp isNew).symm
  symbols := by
    rw [Ledger.symbols, map_append, map_singleton]
    refine nodup_append.mpr ⟨isExact.symbols, nodup_singleton _, ?_⟩
    rintro first isListed second isNew rfl
    obtain rfl : first = id := mem_singleton.mp isNew
    exact unlisted isListed

theorem assign (unshared : ∀ other, ledger.lookup other = some id → other = name) :
    (ledger.assign name id).IsExact where
  names := by
    rw [map_fst_assign]
    exact isExact.names
  symbols := by
    rw [Ledger.symbols, Ledger.assign, map_map]
    refine List.Nodup.map_on ?_ (List.Nodup.of_map Prod.fst isExact.names)
    have apart : ∀ entry ∈ ledger, entry.2 = id → entry.1 = name := by
      rintro ⟨other, _⟩ member rfl
      exact unshared other ((lookup_eq_some_iff isExact.names).mpr member)
    intro first isFirst second isSecond same
    simp only [Function.comp_apply] at same
    split at same
    next isName =>
      split at same
      next isName' => exact isExact.eq_of_fst_eq isFirst isSecond (isName.trans isName'.symm)
      next notName => exact absurd (apart second isSecond same.symm) notName
    next notName =>
      split at same
      next => exact absurd (apart first isFirst same) notName
      next => exact isExact.eq_of_snd_eq isFirst isSecond same

theorem symbols_assign {index : Nat} (bound : ledger.lookup name = some old)
    (place : ledger.symbols[index]? = some old) :
    (ledger.assign name id).symbols = ledger.symbols.set index id := by
  have member := (lookup_eq_some_iff isExact.names).mp bound
  rw [Ledger.symbols, getElem?_map, Option.map_eq_some_iff] at place
  obtain ⟨entry, found, isOld⟩ := place
  obtain rfl := isExact.eq_of_snd_eq (mem_of_getElem? found) member isOld
  refine ext_getElem? fun position => ?_
  rw [Ledger.symbols, Ledger.symbols, Ledger.assign, getElem?_set, map_map,
    getElem?_map, getElem?_map, length_map]
  by_cases same : index = position
  · subst same
    have inside := (List.getElem?_eq_some_iff.mp found).1
    rw [found, if_pos rfl, if_pos inside]
    exact congrArg some (congrArg Prod.snd (if_pos rfl))
  · rw [if_neg same]
    cases here : ledger[position]? with
    | none => rfl
    | some other =>
      have different : other.1 ≠ name := by
        intro isName
        have again := isExact.eq_of_fst_eq (mem_of_getElem? here) member isName
        have inside := (List.getElem?_eq_some_iff.mp found).1
        refine same ((getElem?_inj inside (List.Nodup.of_map _ isExact.names)).mp ?_)
        rw [found, here, again]
      exact congrArg some (congrArg Prod.snd (if_neg different))

theorem assign_eq_self (bound : ledger.lookup name = some id) : ledger.assign name id = ledger := by
  have member := (lookup_eq_some_iff isExact.names).mp bound
  rw [Ledger.assign]
  refine (map_congr_left fun entry isEntry => ?_).trans (map_id ledger)
  split
  next isName => exact (isExact.eq_of_fst_eq isEntry member isName).symm
  next => rfl

end IsExact
end Ledger

/-! ## Frames with their ledgers -/

namespace Frame

/-- The order of a frame lists the symbols bound in it, each of them once. -/
structure IsFaithful (frame : Frame) : Prop where
  once : frame.order.toList.Nodup
  bound : ∀ id, id ∈ frame.order ↔ ∃ name, frame.find? name = some id

/-- A ledger says what a frame binds, and in which order. -/
structure Shows (frame : Frame) (ledger : Ledger) : Prop where
  find : ∀ name, frame.find? name = ledger.lookup name
  order : frame.order.toList = ledger.symbols

/-- A frame follows a ledger of different names and different symbols of a table. -/
structure Keeps (table : Table) (frame : Frame) (ledger : Ledger) : Prop
    extends frame.Shows ledger where
  isExact : ledger.IsExact
  known : ∀ id ∈ ledger.symbols, table.HasSymbol id

namespace Keeps

variable {ledger : Ledger} (keeps : frame.Keeps table ledger)
include keeps

theorem isFaithful : frame.IsFaithful where
  once := keeps.order ▸ keeps.isExact.symbols
  bound id := by
    rw [← Array.mem_toList_iff, keeps.order, Ledger.mem_symbols_iff]
    refine exists_congr fun name => ?_
    rw [keeps.find, Ledger.lookup_eq_some_iff keeps.isExact.names]

theorem mono (grows : ∀ id, table.HasSymbol id → later.HasSymbol id) : frame.Keeps later ledger :=
  ⟨keeps.toShows, keeps.isExact, fun id member => grows id (keeps.known id member)⟩

theorem congr (find : ∀ name, frame'.find? name = frame.find? name)
    (order : frame'.order = frame.order) :
    frame'.Keeps table ledger :=
  ⟨⟨fun name => (find name).trans (keeps.find name), order ▸ keeps.order⟩, keeps.isExact,
    keeps.known⟩

theorem takes (takes : frame.Takes name id frame')
    (grows : ∀ other, table.HasSymbol other ∨ other = id → later.HasSymbol other)
    (unlisted : id ∉ ledger.symbols) :
    frame'.Keeps later (ledger ++ [(name, id)]) where
  find other := by
    have free := (keeps.find name).symm.trans takes.free
    rw [takes.find, Ledger.lookup_append_singleton free, keeps.find]
  order := by
    rw [takes.order, Array.toList_push, keeps.order, Ledger.symbols, Ledger.symbols,
      map_append, map_singleton]
  isExact := keeps.isExact.append_singleton ((keeps.find name).symm.trans takes.free) unlisted
  known other member := by
    rw [Ledger.symbols, map_append, mem_append] at member
    exact grows other (member.imp (keeps.known other) mem_singleton.mp)

theorem rebind (bound : frame.find? name = some old) (has : table.HasSymbol id)
    (unshared : ∀ other, frame.find? other = some id → other = name) :
    (frame.rebind name id).2.Keeps table (ledger.assign name id) := by
  have bound' := (keeps.find name).symm.trans bound
  have symbols : ∃ index, (ledger.assign name id).symbols = ledger.symbols.set index id ∧
      (replaceFirst frame.order old id).toList = frame.order.toList.set index id := by
    rcases replaceFirst_cases frame.order old id with ⟨missing, _⟩ | ⟨index, here, replaced⟩
    · exact absurd ((keeps.isFaithful.bound old).mpr ⟨name, bound⟩) missing
    · rw [keeps.order] at here
      exact ⟨index, keeps.isExact.symbols_assign bound' here, replaced⟩
  obtain ⟨index, symbols, replaced⟩ := symbols
  refine ⟨⟨fun other => ?_, ?_⟩, keeps.isExact.assign fun other found => ?_, fun other member => ?_⟩
  · rw [find?_rebind, Ledger.lookup_assign, bound', keeps.find]
    rfl
  · rw [order_rebind bound, replaced, symbols, keeps.order]
  · exact unshared other ((keeps.find other).trans found)
  · rw [symbols] at member
    rcases mem_or_eq_of_mem_set member with isOld | rfl
    · exact keeps.known other isOld
    · exact has

end Keeps
end Frame

/-! ## Sessions -/

namespace Scopes

/-- An operation on the open frames, or on the table of symbols alone. -/
inductive Operation
  | push
  | pop
  | chain
  | setNextSlot (slot : Int)
  | insert (outer : Bool) (kind : SymbolKind) (name : String) (type : TypeId)
  | bind (name : String) (id : SymbolId)
  | replace (name : String) (id : SymbolId)
  | enter (symbol : Symbol)

/-- What an operation tells. -/
inductive Answer
  | done
  | listed (symbols : List SymbolId)
  | declared (binding : Binding)
  | replaced (old : Option SymbolId)
deriving DecidableEq

/-- The operation bound nothing. -/
def Answer.IsIdle : Answer → Prop
  | .declared (.taken _) | .replaced none => True
  | _ => False

/-- The open frames, with the table of the symbols bound in them. -/
structure Session where
  /-- The table. -/
  table : Table
  /-- The frames. -/
  scopes : Scopes := {}

/-- The frame in which a name is declared: the one around the innermost frame, if wanted and if
there is one. -/
def place (outer : Bool) (depth : Nat) : Nat := if outer ∧ 2 ≤ depth then 1 else 0

/-- What an operation does to the ledgers of the open frames when `next` is the next symbol of
the table. -/
def record (next : SymbolId) (ledgers : List Ledger) : Operation → List Ledger
  | .push => [] :: ledgers
  | .pop | .chain => ledgers.tail
  | .setNextSlot _ | .enter _ => ledgers
  | .insert outer _ name _ =>
      ledgers.modify (place outer ledgers.length) fun ledger => ledger.declare name next
  | .bind name id => ledgers.modify 0 fun ledger => ledger.bind name id
  | .replace name id => ledgers.modify 0 fun ledger => ledger.assign name id

namespace Session

variable {session : Session} {ledgers : List Ledger} {operation : Operation}

/-- Perform an operation. -/
def perform (session : Session) : Operation → Answer × Session
  | .push => (.done, { session with scopes := session.scopes.push })
  | .pop => (.done, { session with scopes := session.scopes.pop })
  | .chain => (.listed session.scopes.current, { session with scopes := session.scopes.pop })
  | .setNextSlot slot => (.done, { session with scopes := session.scopes.setNextSlot slot })
  | .insert outer kind name type =>
      let (binding, table, scopes) :=
        session.scopes.insertIn outer session.table kind name type
      (.declared binding, { table, scopes })
  | .bind name id => (.done, { session with scopes := session.scopes.bind name id })
  | .replace name id =>
      let (old, scopes) := session.scopes.replace name id
      (.replaced old, { session with scopes })
  | .enter symbol => (.done, { session with table := (session.table.addSymbol symbol).2 })

/-- A symbol that a name gets exists, and is not that of another name of the frame. -/
def Admits (session : Session) : Operation → Prop
  | .bind name id | .replace name id =>
      session.table.HasSymbol id ∧ ∀ other, session.scopes.findLocal? other = some id → other = name
  | _ => True

/-- A name that is bound gets another symbol without being replaced, or a free name of an open
frame is replaced. -/
def Lapses (session : Session) : Operation → Prop
  | .bind name id =>
      session.scopes.findLocal? name ≠ none ∧ session.scopes.findLocal? name ≠ some id
  | .replace name _ => session.scopes.depth ≠ 0 ∧ session.scopes.findLocal? name = none
  | _ => False

/-- An operation does to the frames what it does to their ledgers. -/
structure Keeps (session : Session) (ledgers : List Ledger) (operation : Operation) : Prop where
  listed : List.Forall₂ Frame.Shows (session.perform operation).2.scopes.frames
    (record session.table.nextSymbol ledgers operation)
  faithful : ∀ frame ∈ (session.perform operation).2.scopes.frames, frame.IsFaithful
  chained : operation = .chain →
    (session.perform operation).1 = .listed (ledgers.headD []).symbols
  idle : (session.perform operation).1.IsIdle →
    (session.perform operation).2.scopes = session.scopes

/-- All operations are admitted when their turn comes. -/
def AdmitsAll (session : Session) : List Operation → Prop
  | [] => True
  | operation :: operations =>
      session.Admits operation ∧ (session.perform operation).2.AdmitsAll operations

/-- No operation lapses when its turn comes. -/
def NeverLapses (session : Session) : List Operation → Prop
  | [] => True
  | operation :: operations =>
      ¬ session.Lapses operation ∧ (session.perform operation).2.NeverLapses operations

/-- All operations do to the frames what they do to the ledgers. -/
def KeepsAll (session : Session) (ledgers : List Ledger) : List Operation → Prop
  | [] => True
  | operation :: operations =>
      session.Keeps ledgers operation ∧ (session.perform operation).2.KeepsAll
        (record session.table.nextSymbol ledgers operation) operations

/-- The ledgers of the open frames. -/
def Records (session : Session) (ledgers : List Ledger) : Prop :=
  List.Forall₂ (Frame.Keeps session.table) session.scopes.frames ledgers

end Session
end Scopes

/-! ## One operation -/

namespace Frame

variable {ledger : Ledger}

theorem hasSymbol_declare (frame : Frame) (has : table.HasSymbol id) :
    (frame.declare table level kind name type).2.1.HasSymbol id := by
  cases declared : frame.declare table level kind name type with
  | mk binding rest =>
    obtain ⟨later, frame'⟩ := rest
    cases binding with
    | taken => exact (of_declare_taken declared).1 ▸ has
    | fresh =>
      obtain ⟨_, _, _, adds, _⟩ := declare_fresh declared
      exact (adds.hasSymbol_iff id).mpr (.inl has)

theorem contains_eq : frame.bindings.contains name = (frame.find? name).isSome :=
  Std.TreeMap.contains_eq_isSome_getElem?

theorem empty_keeps : Keeps table {} [] := by
  refine ⟨⟨fun name => ?_, rfl⟩, ⟨nodup_nil, nodup_nil⟩, nofun⟩
  exact Std.TreeMap.getElem?_emptyc

namespace Keeps

theorem declare (keeps : frame.Keeps table ledger) :
    (frame.declare table level kind name type).2.2.Keeps
      (frame.declare table level kind name type).2.1 (ledger.declare name table.nextSymbol) := by
  cases declared : frame.declare table level kind name type with
  | mk binding rest =>
    obtain ⟨later, frame'⟩ := rest
    cases binding with
    | taken id =>
      rw [Frame.declare] at declared
      split at declared
      next found =>
        cases declared
        rw [Ledger.declare, ← keeps.find, found]
        exact keeps
      next => split at declared <;> cases declared
    | fresh id =>
      obtain ⟨rfl, takes, address, adds, _⟩ := declare_fresh declared
      have free := (keeps.find name).symm.trans takes.free
      rw [Ledger.declare, free]
      refine keeps.takes takes (fun other => (adds.hasSymbol_iff other).mpr) fun member => ?_
      exact table.not_hasSymbol_nextSymbol (keeps.known _ member)

theorem bind (keeps : frame.Keeps table ledger) (has : table.HasSymbol id)
    (unshared : ∀ other, frame.find? other = some id → other = name)
    (same : ∀ old, frame.find? name = some old → old = id) :
    (frame.bind name id).Keeps table (ledger.bind name id) := by
  rw [Frame.bind, Ledger.bind, contains_eq, ← keeps.find]
  cases found : frame.find? name with
  | none =>
    refine keeps.takes (bindNew_takes found) (fun other isKnown => ?_) fun listed => ?_
    · exact isKnown.elim (fun known => known) fun isNew => isNew ▸ has
    · obtain ⟨other, member⟩ := Ledger.mem_symbols_iff.mp listed
      have bound := (Ledger.lookup_eq_some_iff keeps.isExact.names).mpr member
      rw [← keeps.find] at bound
      cases unshared other bound
      cases found.symm.trans bound
  | some old =>
    obtain rfl := same old found
    rw [keeps.isExact.assign_eq_self ((keeps.find name).symm.trans found)]
    refine keeps.congr (fun other => ?_) rfl
    refine (find?_insert frame name other old).trans ?_
    split
    next same => rw [← same, found]
    next => rfl

end Keeps
end Frame

theorem forall₂_modify {α β : Type} {first second : α → β → Prop} {left : List α} {right : List β}
    {change : α → α} {change' : β → β} (related : List.Forall₂ first left right)
    (kept : ∀ a b, first a b → second a b) (index : Nat)
    (changed : ∀ a b, left[index]? = some a → first a b → second (change a) (change' b)) :
    List.Forall₂ second (left.modify index change) (right.modify index change') := by
  induction related generalizing index with
  | nil =>
    rw [modify_nil, modify_nil]
    exact .nil
  | cons head tail hypothesis =>
    cases index with
    | zero => exact .cons (changed _ _ rfl head) (tail.imp kept)
    | succ index =>
      exact .cons (kept _ _ head) (hypothesis index fun a b found => changed a b found)

namespace Scopes

/-- The names of the innermost frame with their symbols. -/
def localEntries (scopes : Scopes) : List (String × SymbolId) :=
  scopes.frames.head?.elim [] fun frame => frame.bindings.toList

theorem mem_localEntries_iff :
    (name, id) ∈ scopes.localEntries ↔ scopes.findLocal? name = some id := by
  obtain ⟨_ | ⟨frame, outer⟩⟩ := scopes
  · exact ⟨nofun, nofun⟩
  · exact Std.TreeMap.mem_toList_iff_getElem?_eq_some

theorem insertIn_cases (scopes : Scopes) (outer : Bool) (table : Table) (kind : SymbolKind)
    (name : String) (type : TypeId) :
    (scopes.frames = [] ∧
        scopes.insertIn outer table kind name type = (.taken .absent, table, scopes)) ∨
      ∃ frame level, scopes.frames[place outer scopes.depth]? = some frame ∧
        scopes.insertIn outer table kind name type =
          ((frame.declare table level kind name type).1,
            (frame.declare table level kind name type).2.1,
            ⟨scopes.frames.modify (place outer scopes.depth) fun frame =>
              (frame.declare table level kind name type).2.2⟩) := by
  obtain ⟨frames⟩ := scopes
  cases outer with
  | false =>
    cases frames with
    | nil => exact .inl ⟨rfl, rfl⟩
    | cons frame rest => exact .inr ⟨frame, levelInside rest, rfl, rfl⟩
  | true =>
    match frames with
    | [] => exact .inl ⟨rfl, rfl⟩
    | [frame] => exact .inr ⟨frame, levelInside [], rfl, rfl⟩
    | inner :: frame :: rest => exact .inr ⟨frame, levelInside rest, rfl, rfl⟩

namespace Session

variable {session : Session} {ledgers : List Ledger} {operation : Operation}

theorem Records.perform (records : session.Records ledgers) (admits : session.Admits operation)
    (sound : ¬ session.Lapses operation) :
    (session.perform operation).2.Records (record session.table.nextSymbol ledgers operation) := by
  have length : session.scopes.depth = ledgers.length := records.length_eq
  obtain ⟨table, ⟨frames⟩⟩ := session
  cases operation with
  | push => exact .cons Frame.empty_keeps records
  | pop | chain =>
    cases records with
    | nil => exact .nil
    | cons head tail => exact tail
  | setNextSlot slot =>
    cases records with
    | nil => exact .nil
    | cons head tail => exact .cons (head.congr (fun _ => rfl) rfl) tail
  | insert outer kind name type =>
    have split := insertIn_cases ⟨frames⟩ outer table kind name type
    rw [length] at split
    rcases split with ⟨rfl, inserted⟩ | ⟨frame, level, found, inserted⟩
    · cases records
      rw [Records, Session.perform, inserted, record, modify_nil]
      exact .nil
    · rw [Records, Session.perform, inserted]
      refine forall₂_modify records (fun other ledger keeps => ?_) _
        fun other ledger here keeps => ?_
      · exact keeps.mono fun id has => frame.hasSymbol_declare has
      · cases found.symm.trans here
        exact keeps.declare
  | bind name id =>
    cases records with
    | nil => exact .nil
    | @cons frame _ outer _ head tail =>
      refine .cons (head.bind admits.1 admits.2 fun old found => ?_) tail
      have bound : findLocal? ⟨frame :: outer⟩ name = some old := found
      refine Classical.byContradiction fun different => sound ⟨?_, ?_⟩ <;> rw [bound]
      · exact Option.some_ne_none old
      · exact fun same => different (Option.some.inj same)
  | replace name id =>
    cases records with
    | nil => exact .nil
    | @cons frame _ _ _ head tail =>
      cases found : frame.find? name with
      | none => exact absurd ⟨Nat.succ_ne_zero _, found⟩ sound
      | some old => exact .cons (head.rebind found admits.1 admits.2) tail
  | enter symbol =>
    refine List.Forall₂.imp (fun frame ledger keeps => keeps.mono fun id has => ?_) records
    exact Nat.lt_of_lt_of_eq (Nat.lt_succ_of_lt has) (Array.size_push symbol).symm

theorem Records.keeps (records : session.Records ledgers) (admits : session.Admits operation)
    (sound : ¬ session.Lapses operation) :
    session.Keeps ledgers operation := by
  have next := records.perform admits sound
  refine ⟨next.imp fun _ _ keeps => keeps.toShows, ?_, ?_, ?_⟩
  · have faithful := next.imp fun _ _ keeps => And.intro keeps.isFaithful keeps
    exact ((forall₂_and_left _ _).mp faithful).1
  · rintro rfl
    obtain ⟨table, ⟨frames⟩⟩ := session
    cases records with
    | nil => rfl
    | cons head tail => exact congrArg Answer.listed head.order
  · intro idle
    cases operation with
    | insert outer kind name type =>
      rw [Session.perform] at idle ⊢
      cases inserted : session.scopes.insertIn outer session.table kind name type with
      | mk binding rest =>
        rw [inserted] at idle
        cases binding with
        | fresh => exact idle.elim
        | taken => exact (of_insertIn_taken inserted).2
    | replace name id =>
      obtain ⟨table, ⟨frames⟩⟩ := session
      cases frames with
      | nil => rfl
      | cons frame outer =>
        cases found : frame.find? name with
        | none => exact absurd ⟨Nat.succ_ne_zero _, found⟩ sound
        | some old =>
          rw [Session.perform, replace, Frame.rebind, found] at idle
          exact idle.elim
    | _ => exact idle.elim

theorem Records.not_keeps (records : session.Records ledgers) (lapses : session.Lapses operation) :
    ¬ session.Keeps ledgers operation := by
  intro keeps
  obtain ⟨table, ⟨frames⟩⟩ := session
  cases operation with
  | bind name id =>
    obtain ⟨bound, different⟩ := lapses
    cases records with
    | nil => exact bound rfl
    | @cons frame ledger _ _ head tail =>
      obtain ⟨old, found⟩ := Option.ne_none_iff_exists'.mp bound
      have found : frame.find? name = some old := found
      have faithful := keeps.faithful (frame.bind name id) mem_cons_self
      rw [Frame.bind, Frame.contains_eq, found] at faithful
      obtain ⟨other, stale⟩ := (faithful.bound old).mp
        ((head.isFaithful.bound old).mpr ⟨name, found⟩)
      have stale := (frame.find?_insert name other id).symm.trans stale
      split at stale
      next => exact different (found.trans stale.symm)
      next apart =>
        have isEntry := (Ledger.lookup_eq_some_iff head.isExact.names).mp
          ((head.find other).symm.trans stale)
        have isOld := (Ledger.lookup_eq_some_iff head.isExact.names).mp
          ((head.find name).symm.trans found)
        exact apart (congrArg Prod.fst (head.isExact.eq_of_snd_eq isOld isEntry rfl))
  | replace name id =>
    obtain ⟨opened, free⟩ := lapses
    cases frames with
    | nil => exact opened rfl
    | cons frame outer =>
      have free : frame.find? name = none := free
      have same := keeps.idle (by
        rw [Session.perform, replace, Frame.rebind, free]
        trivial)
      have found : (frame.rebind name id).2.find? name = some id := by
        rw [Frame.find?_rebind, if_pos rfl]
      have same : (frame.rebind name id).2 :: outer = frame :: outer := congrArg Scopes.frames same
      rw [(List.cons.inj same).1, free] at found
      cases found
  | _ => exact lapses

/-! ## All operations -/

theorem Records.keepsAll_iff {operations : List Operation} (records : session.Records ledgers)
    (admits : session.AdmitsAll operations) :
    session.KeepsAll ledgers operations ↔ session.NeverLapses operations := by
  induction operations generalizing session ledgers with
  | nil => exact Iff.rfl
  | cons operation operations hypothesis =>
    obtain ⟨admitsFirst, admitsRest⟩ := admits
    constructor
    · rintro ⟨keeps, keepsRest⟩
      have sound : ¬ session.Lapses operation := fun lapses => records.not_keeps lapses keeps
      exact ⟨sound, (hypothesis (records.perform admitsFirst sound) admitsRest).mp keepsRest⟩
    · rintro ⟨sound, soundRest⟩
      exact ⟨records.keeps admitsFirst sound,
        (hypothesis (records.perform admitsFirst sound) admitsRest).mpr soundRest⟩

/-- From no open frame on, the order of every frame lists its bound symbols once, that of the name
bound first in front, and operations that bind nothing change nothing, just as long as no name
that is bound is bound anew and no free name is replaced. -/
theorem keepsAll_iff_neverLapses (table : Table) (operations : List Operation)
    (admits : Session.AdmitsAll { table } operations) :
    Session.KeepsAll { table } [] operations ↔ Session.NeverLapses { table } operations :=
  Records.keepsAll_iff List.Forall₂.nil admits

instance decidableAdmits (session : Session) :
    (operation : Operation) → Decidable (session.Admits operation)
  | .bind name id | .replace name id =>
      decidable_of_iff
        (id.index < session.table.symbols.size ∧
          ∀ entry ∈ session.scopes.localEntries, entry.2 = id → entry.1 = name)
        (and_congr_right fun _ =>
          ⟨fun all other found => all (other, id) (mem_localEntries_iff.mpr found) rfl,
            fun all entry member same => all entry.1 (mem_localEntries_iff.mp (same ▸ member))⟩)
  | .push | .pop | .chain | .setNextSlot _ | .insert .. | .enter _ => .isTrue trivial

instance decidableLapses (session : Session) :
    (operation : Operation) → Decidable (session.Lapses operation)
  | .bind name id => inferInstanceAs (Decidable (session.scopes.findLocal? name ≠ none ∧
      session.scopes.findLocal? name ≠ some id))
  | .replace name _ => inferInstanceAs (Decidable (session.scopes.depth ≠ 0 ∧
      session.scopes.findLocal? name = none))
  | .push | .pop | .chain | .setNextSlot _ | .insert .. | .enter _ => .isFalse not_false

instance decidableAdmitsAll :
    (session : Session) → (operations : List Operation) → Decidable (session.AdmitsAll operations)
  | _, [] => .isTrue trivial
  | session, operation :: operations =>
      have := decidableAdmitsAll (session.perform operation).2 operations
      inferInstanceAs (Decidable (_ ∧ _))

instance decidableNeverLapses :
    (session : Session) → (operations : List Operation) → Decidable (session.NeverLapses operations)
  | _, [] => .isTrue trivial
  | session, operation :: operations =>
      have := decidableNeverLapses (session.perform operation).2 operations
      inferInstanceAs (Decidable (_ ∧ _))

/-- A class and a class that extends it, with a field declared twice, a method that overrides the
inherited one, and a static method of the second class. -/
def extending : List Operation :=
  [ .push, .insert false .type "Shape" .int, .insert false .type "Square" .int,
    .push, .setNextSlot 1, .insert false .field "width" .int, .insert false .method "area" .int,
    .chain,
    .push, .bind "width" ⟨3⟩, .bind "area" ⟨4⟩, .setNextSlot 2,
    .insert true .method "Square.unit" .int, .insert false .field "width" .int,
    .insert false .field "colour" .int, .enter (.declared .method "area" .int 1),
    .replace "area" ⟨7⟩, .chain,
    .chain ]

theorem keepsAll_extending :
    Session.AdmitsAll { table := .initial } extending ∧
      Session.KeepsAll { table := .initial } [] extending := by
  have admits : Session.AdmitsAll { table := .initial } extending := by decide +kernel
  exact ⟨admits, (keepsAll_iff_neverLapses .initial extending admits).mpr (by decide +kernel)⟩

/-- A free name is replaced. -/
def orphaning : List Operation :=
  [ .push, .insert false .method "f" .int, .enter (.declared .method "g" .int 0),
    .replace "g" ⟨2⟩ ]

/-- The name is bound, although the answer is that it has no symbol. -/
theorem not_keepsAll_orphaning :
    Session.AdmitsAll { table := .initial } orphaning ∧
      ¬ Session.KeepsAll { table := .initial } [] orphaning := by
  refine ⟨by decide +kernel, ?_⟩
  rintro ⟨_, _, _, last, _⟩
  have same := congrArg (fun scopes => scopes.findLocal? "g") (last.idle trivial)
  revert same
  decide +kernel

end Session
end Scopes
end MicroJava
