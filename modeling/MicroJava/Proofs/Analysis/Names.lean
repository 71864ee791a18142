import MicroJava.Proofs.Analysis.Bodies

/-!
# Declaring names

A declaration without violations enters one symbol and binds it to a name that was free in its
frame.
-/

namespace MicroJava

open List

variable {name : String} {id : SymbolId} {kind : SymbolKind} {type : TypeId} {outer : Bool}
  {span : Span} {before after : Checker} {scopes later : Scopes}

/-! ## What follows the last mark -/

theorem bareName_append {front : String} (plain : ¬ IsQualified name)
    (marked : ∀ c, front.toList.getLast? = some c → c = ':' ∨ c = '.') :
    bareName (front ++ name) = name := by
  have own : ∀ c ∈ name.toList.reverse, (c != ':' && c != '.') = true := fun c member => by
    rw [mem_reverse] at member
    rw [Bool.and_eq_true, bne_iff_ne, bne_iff_ne]
    exact ⟨fun same => plain (.inl (same ▸ member)), fun same => plain (.inr (same ▸ member))⟩
  have stops : front.toList.reverse.takeWhile (fun c => c != ':' && c != '.') = [] := by
    cases last : front.toList.reverse with
    | nil => rfl
    | cons c rest =>
      have isLast : front.toList.getLast? = some c := by
        rw [← head?_reverse, last, head?_cons]
      rcases marked c isLast with rfl | rfl <;> rfl
  rw [bareName, String.toList_append, reverse_append, takeWhile_append_of_pos own, stops,
    append_nil, reverse_reverse, String.ofList_toList]

theorem bareName_of_plain (plain : ¬ IsQualified name) : bareName name = name := by
  have both : bareName ("" ++ name) = name := bareName_append plain fun c isLast => by cases isLast
  rwa [String.empty_append] at both

theorem bareName_qualify (space : String) (plain : ¬ IsQualified name) :
    bareName (qualify space name) = name :=
  bareName_append plain fun c isLast => .inl (by simpa using isLast.symm)

theorem bareName_dotted (owner : String) (plain : ¬ IsQualified name) :
    bareName (dotted owner name) = name :=
  bareName_append plain fun c isLast => .inr (by simpa using isLast.symm)

/-! ## Declarations -/

namespace Frame

/-- A frame after a free name is bound. -/
structure Takes (frame : Frame) (name : String) (id : SymbolId) (after : Frame) : Prop where
  free : frame.find? name = none
  find : ∀ other, after.find? other = if name = other then some id else frame.find? other
  order : after.order = frame.order.push id

theorem find?_insert (frame : Frame) (name other : String) (id : SymbolId) :
    (frame.bindings.insert name id)[other]? =
      if name = other then some id else frame.find? other := by
  rw [Std.TreeMap.getElem?_insert, find?]
  simp only [Std.compare_eq_iff_eq]

theorem bindNew_takes {frame : Frame} {slot : Int} (free : frame.find? name = none) :
    frame.Takes name id { frame.bindNew name id with nextSlot := slot } :=
  ⟨free, fun other => find?_insert frame name other id, rfl⟩

theorem declare_fresh {frame after : Frame} {table later : Table} {level : Nat}
    (declared : frame.declare table level kind name type = (.fresh id, later, after)) :
    id = table.nextSymbol ∧ frame.Takes name id after ∧
      ∃ address, table.Adds { Symbol.declared kind name type level with address := address } later ∧
        (kind = .method → address = Symbol.noAddress) ∧
        (kind = .var ∧ level ≠ 0 ∨ kind = .field →
          address = frame.nextSlot ∧ after.nextSlot = frame.nextSlot + 1) := by
  rw [declare] at declared
  split at declared
  next => cases declared
  next free =>
    split at declared
    · cases declared
      refine ⟨rfl, bindNew_takes free, table.globalCount, ⟨rfl, rfl, fun _ => ⟨rfl, rfl⟩,
        by simp [Symbol.isGlobal, Symbol.declared]⟩, by simp, ?_⟩
      rintro (⟨_, inner⟩ | isField)
      · exact absurd rfl inner
      · cases isField
    next inner =>
      cases declared
      have other : ({ Symbol.declared .var name type level with
          address := frame.nextSlot } : Symbol).isGlobal = false := by
        rw [Symbol.isGlobal, Bool.and_eq_false_iff]
        exact .inr (decide_eq_false inner)
      exact ⟨rfl, bindNew_takes free, frame.nextSlot, Table.addSymbol_adds other, by simp,
        fun _ => ⟨rfl, rfl⟩⟩
    next =>
      cases declared
      exact ⟨rfl, bindNew_takes free, frame.nextSlot, Table.addSymbol_adds rfl, by simp,
        fun _ => ⟨rfl, rfl⟩⟩
    next notVar notField _ =>
      cases declared
      have other : (Symbol.declared kind name type level).isGlobal = false := by
        rw [Symbol.isGlobal, Bool.and_eq_false_iff]
        exact .inl (decide_eq_false notVar)
      refine ⟨rfl, bindNew_takes free, _, Table.addSymbol_adds other,
        fun isMethod => if_pos isMethod, ?_⟩
      rintro (⟨isVar, _⟩ | isField)
      · exact absurd isVar notVar
      · exact absurd isField notField

end Frame

namespace Scopes

theorem findAt?_eq (scopes : Scopes) (number : Nat) (name : String) :
    scopes.findAt? number name = scopes.frames.reverse[number]?.bind (·.find? name) := by
  rw [findAt?, frameAt?]
  split
  next inside => rw [getElem?_reverse inside]; rfl
  next outside => rw [getElem?_eq_none (by simpa [depth] using outside)]

variable {frame frame' : Frame} {rest : List Frame}

theorem findAt?_exchange {inner : List Frame} (frames : scopes.frames = inner ++ frame :: rest)
    (frames' : later.frames = inner ++ frame' :: rest) (number : Nat) (name : String) :
    later.findAt? number name =
      if number = rest.length then frame'.find? name else scopes.findAt? number name := by
  rw [findAt?_eq, findAt?_eq, frames, frames']
  simp only [reverse_append, reverse_cons, append_assoc, singleton_append]
  split
  next same => simp [same]
  next other =>
    rcases Nat.lt_or_gt_of_ne other with before | behind
    · rw [getElem?_append_left (by simpa using before),
        getElem?_append_left (by simpa using before)]
    · obtain ⟨more, rfl⟩ := Nat.exists_eq_add_of_lt behind
      simp [getElem?_append_right, Nat.add_assoc]

theorem findAt?_of_frames (inner : List Frame) (frames : scopes.frames = inner ++ frame :: rest)
    (name : String) :
    scopes.findAt? rest.length name = frame.find? name :=
  (findAt?_exchange frames frames _ _).trans (if_pos rfl)

theorem findAt?_redirect (inner : List Frame) (frames : scopes.frames = inner ++ frame :: rest)
    (frames' : later.frames = inner ++ frame' :: rest)
    (find : ∀ other, frame'.find? other = if name = other then some id else frame.find? other)
    (number : Nat) (other : String) :
    later.findAt? number other =
      if number = rest.length ∧ name = other then some id else scopes.findAt? number other := by
  rw [findAt?_exchange frames frames', find]
  split
  next same => simp [same, findAt?_of_frames inner frames]
  next apart => simp [apart]

end Scopes

namespace Checker

/-- A state without symbols, names and reports. -/
def aside (checker : Checker) : Checker :=
  { checker with table := .initial, scopes := {}, diagnostics := #[] }

/-- A name that was free is bound to a new symbol, in the innermost frame or in the one around
it. -/
structure Declares (before : Checker) (outer : Bool) (kind : SymbolKind) (name : String)
    (type : TypeId) (id : SymbolId)
    (after : Checker) : Prop where
  aside : after.aside = before.aside
  tells : before.Tells after
  bound : ∃ inner frame rest frame', before.scopes.frames = inner ++ frame :: rest ∧
    after.scopes.frames = inner ++ frame' :: rest ∧ inner.length = (if outer then 1 else 0) ∧
    frame.declare before.table (rest.length - 1) kind name type = (.fresh id, after.table, frame')

namespace Declares

variable (declares : before.Declares outer kind name type id after)
include declares

theorem depth : after.scopes.depth = before.scopes.depth := by
  obtain ⟨inner, frame, rest, frame', frames, frames', _⟩ := declares.bound
  rw [Scopes.depth, Scopes.depth, frames, frames', length_append, length_append]
  rfl

theorem fresh : id = before.table.nextSymbol := by
  obtain ⟨_, _, _, _, _, _, _, declared⟩ := declares.bound
  exact (Frame.declare_fresh declared).1

theorem adds :
    ∃ address, before.table.Adds
        { Symbol.declared kind name type (before.scopes.depth - 2 - if outer then 1 else 0) with
          address := address } after.table ∧
      (kind = .method → address = Symbol.noAddress) := by
  obtain ⟨inner, frame, rest, frame', frames, _, length, declared⟩ := declares.bound
  obtain ⟨_, _, address, adds, noAddress, _⟩ := Frame.declare_fresh declared
  have level : rest.length - 1 = before.scopes.depth - 2 - if outer then 1 else 0 := by
    rw [Scopes.depth, frames, length_append, length_cons, length]
    omega
  exact ⟨address, level ▸ adds, noAddress⟩

theorem takes :
    ∃ inner frame rest frame', before.scopes.frames = inner ++ frame :: rest ∧
      after.scopes.frames = inner ++ frame' :: rest ∧ inner.length = (if outer then 1 else 0) ∧
      frame.Takes name id frame' := by
  obtain ⟨inner, frame, rest, frame', frames, frames', length, declared⟩ := declares.bound
  exact ⟨inner, frame, rest, frame', frames, frames', length, (Frame.declare_fresh declared).2.1⟩

theorem grows : before.table.Grows after.table := by
  obtain ⟨_, adds, _⟩ := declares.adds
  exact adds.grows

theorem hasSymbol : after.table.HasSymbol id := by
  obtain ⟨_, adds, _⟩ := declares.adds
  rw [declares.fresh]
  exact (adds.hasSymbol_iff _).mpr (.inr rfl)

theorem symbol_type : (after.table.symbol id).type = type := by
  obtain ⟨address, adds, _⟩ := declares.adds
  rw [declares.fresh, adds.symbol_new]
  rfl

theorem symbol_name : (after.table.symbol id).name = name := by
  obtain ⟨address, adds, _⟩ := declares.adds
  rw [declares.fresh, adds.symbol_new]
  rfl

theorem symbol_kind : (after.table.symbol id).kind = kind := by
  obtain ⟨address, adds, _⟩ := declares.adds
  rw [declares.fresh, adds.symbol_new]
  rfl

end Declares

theorem Declares.findAt? (declares : before.Declares outer kind name type id after) :
    before.scopes.findAt? (before.scopes.depth - 1 - outer.toNat) name = none ∧
      ∀ number other, after.scopes.findAt? number other =
        if number = before.scopes.depth - 1 - outer.toNat ∧ name = other then some id
        else before.scopes.findAt? number other := by
  obtain ⟨inner, frame, rest, frame', frames, frames', length, takes⟩ := declares.takes
  have place : rest.length = before.scopes.depth - 1 - outer.toNat := by
    rw [Scopes.depth, frames, length_append, length_cons, length]
    cases outer <;> simp
  rw [← place]
  exact ⟨(Scopes.findAt?_of_frames inner frames name).trans takes.free,
    Scopes.findAt?_redirect inner frames frames' takes.find⟩

theorem Declares.current (declares : before.Declares false kind name type id after) :
    after.scopes.current = before.scopes.current ++ [id] := by
  obtain ⟨inner, frame, rest, frame', frames, frames', length, takes⟩ := declares.takes
  obtain rfl := eq_nil_of_length_eq_zero length
  rw [nil_append] at frames frames'
  rw [Scopes.current, frames', Scopes.current, frames]
  simp only [takes.order, Array.toList_push]

end Checker

namespace Scopes

theorem insertIn_fresh {table after : Table}
    (inserted : scopes.insertIn outer table kind name type = (.fresh id, after, later))
    (deep : outer → 2 ≤ scopes.depth) :
    ∃ inner frame rest frame', scopes.frames = inner ++ frame :: rest ∧
      later.frames = inner ++ frame' :: rest ∧ inner.length = (if outer then 1 else 0) ∧
      frame.declare table (rest.length - 1) kind name type = (.fresh id, after, frame') := by
  obtain ⟨frames⟩ := scopes
  cases outer with
  | false =>
    cases frames with
    | nil => cases inserted
    | cons frame rest =>
      simp only [insertIn, Bool.false_eq_true, if_false, insert, levelInside,
        Prod.mk.injEq] at inserted
      obtain ⟨binding, rfl, rfl⟩ := inserted
      exact ⟨[], frame, rest, _, rfl, rfl, rfl, by rw [← binding]⟩
  | true =>
    match frames with
    | [] => exact absurd (deep rfl) (by decide)
    | [frame] => exact absurd (deep rfl) (Nat.not_le_of_lt (Nat.lt_succ_self 1))
    | inner :: frame :: rest =>
      simp only [insertIn, if_true, insertOuter, levelInside, Prod.mk.injEq] at inserted
      obtain ⟨binding, rfl, rfl⟩ := inserted
      exact ⟨[inner], frame, rest, _, rfl, rfl, rfl, by rw [← binding]⟩

end Scopes

namespace Frame

theorem of_declare_taken {frame after : Frame} {table later : Table} {level : Nat}
    (declared : frame.declare table level kind name type = (.taken id, later, after)) :
    later = table ∧ after = frame := by
  rw [declare] at declared
  split at declared
  next =>
    cases declared
    exact ⟨rfl, rfl⟩
  next => split at declared <;> cases declared

end Frame

theorem Scopes.of_insertIn_taken {table after : Table}
    (inserted : scopes.insertIn outer table kind name type = (.taken id, after, later)) :
    after = table ∧ later = scopes := by
  have innermost : ∀ {scopes : Scopes},
      scopes.insert table kind name type = (.taken id, after, later) →
        after = table ∧ later = scopes := by
    rintro ⟨_ | ⟨frame, rest⟩⟩ inserted
    · cases inserted
      exact ⟨rfl, rfl⟩
    · simp only [insert, Prod.mk.injEq] at inserted
      obtain ⟨binding, rfl, rfl⟩ := inserted
      obtain ⟨sameTable, sameFrame⟩ := Frame.of_declare_taken (Prod.ext binding rfl)
      exact ⟨sameTable, congrArg (fun frame => Scopes.mk (frame :: rest)) sameFrame⟩
  cases outer with
  | false => exact innermost inserted
  | true =>
    match scopes with
    | ⟨inner :: frame :: rest⟩ =>
      simp only [insertIn, if_true, insertOuter, Prod.mk.injEq] at inserted
      obtain ⟨binding, rfl, rfl⟩ := inserted
      obtain ⟨sameTable, sameFrame⟩ := Frame.of_declare_taken (Prod.ext binding rfl)
      exact ⟨sameTable, congrArg (fun frame => Scopes.mk (inner :: frame :: rest)) sameFrame⟩
    | ⟨[_]⟩ => exact innermost inserted
    | ⟨[]⟩ => exact innermost inserted

/-- It is reported that the declaration of a name is rejected. -/
def Diagnostic.Rejects (name : String) (span : Span) (diagnostic : Diagnostic) : Prop :=
  diagnostic = .error (.masksType name) span ∨ diagnostic = .error (.duplicateName name) span

/-- It was reported that the declaration of a name is rejected. -/
def Checker.Rejects (checker : Checker) (name : String) (span : Span) : Prop :=
  ∃ diagnostic ∈ checker.diagnostics.toList, diagnostic.Rejects name span

theorem Checker.Rejects.not_isClean {checker : Checker} (rejects : checker.Rejects name span) :
    ¬ checker.IsClean := by
  obtain ⟨_, told, rfl | rfl⟩ := rejects <;>
    exact fun clean => clean.error_notMem (Array.mem_toList_iff.mp told)

theorem Checker.Rejects.mono (rejects : before.Rejects name span) (tells : before.Tells after) :
    after.Rejects name span := by
  obtain ⟨diagnostic, told, isRejected⟩ := rejects
  exact ⟨diagnostic, Array.mem_toList_iff.mpr (tells.mem (Array.mem_toList_iff.mp told)),
    isRejected⟩

theorem Check.rejects_report {cause : Violation} (ran : Ran (report cause span) before () after)
    (isCause : cause = .masksType name ∨ cause = .duplicateName name) :
    after.Rejects name span := by
  cases ran
  refine ⟨.error cause span, Array.mem_toList_iff.mpr Array.mem_push_self, ?_⟩
  exact isCause.imp (congrArg (Diagnostic.error · span)) (congrArg (Diagnostic.error · span))

namespace Check

theorem bind_taken (ran : Ran (bind outer kind name type) before (.taken id) after) :
    before = after := by
  have state : after = (bind outer kind name type before).2 := (congrArg Prod.snd ran).symm
  have result : (before.scopes.insertIn outer before.table kind name type).1 = .taken id :=
    congrArg Prod.fst ran
  obtain ⟨table, scopes⟩ := Scopes.of_insertIn_taken (Prod.ext result rfl)
  rw [state]
  change before = { before with
    table := (before.scopes.insertIn outer before.table kind name type).2.1
    scopes := (before.scopes.insertIn outer before.table kind name type).2.2 }
  rw [table, scopes]

theorem bind_fresh (ran : Ran (bind outer kind name type) before (.fresh id) after)
    (deep : outer → 2 ≤ before.scopes.depth) :
    before.Declares outer kind name type id after := by
  have state : after = (bind outer kind name type before).2 := (congrArg Prod.snd ran).symm
  have result : (before.scopes.insertIn outer before.table kind name type).1 = .fresh id :=
    congrArg Prod.fst ran
  have step : before.scopes.insertIn outer before.table kind name type =
      (.fresh id, after.table, after.scopes) := by
    rw [← result, state]
    rfl
  refine ⟨by rw [state]; rfl, .of_eq (by rw [state]; rfl), ?_⟩
  exact Scopes.insertIn_fresh step deep

theorem declareIn_ran (ran : Ran (declareIn outer kind name type span) before id after)
    (deep : outer → 2 ≤ before.scopes.depth) :
    id = .absent ∧ before.Reports after ∧ after.Rejects name span ∨
      before.Declares outer kind name type id after := by
  replace ran := ran.get_bind
  split_ifs at ran with masks
  · obtain ⟨_, told, reportRan, ran⟩ := ran.bind
    obtain ⟨rfl, rfl⟩ := ran.pure
    exact .inl ⟨rfl, quiet.report.reports reportRan, rejects_report reportRan (.inl rfl)⟩
  obtain ⟨binding, bound, bindRan, ran⟩ := ran.bind
  cases binding with
  | taken found =>
    obtain ⟨_, told, reportRan, ran⟩ := ran.bind
    obtain ⟨rfl, rfl⟩ := ran.pure
    obtain rfl := bind_taken bindRan
    exact .inl ⟨rfl, quiet.report.reports reportRan, rejects_report reportRan (.inr rfl)⟩
  | fresh found =>
    obtain ⟨_, told, informRan, ran⟩ := ran.bind
    obtain ⟨rfl, rfl⟩ := ran.pure
    have declares := bind_fresh bindRan deep
    obtain ⟨more, rfl⟩ := quiet.inform.reports informRan
    exact .inr ⟨declares.aside, declares.tells.trans ⟨more, rfl⟩, declares.bound⟩

/-! ## Steps that only declare -/

variable {α : Type}

/-- A step that changes nothing but the table and the names, and may report. -/
def IsAside (act : Check α) : Prop := ∀ checker : Checker, (act checker).2.aside = checker.aside

theorem asideOnly : Declaring fun _ => IsAside where
  pure _ := rfl
  bind isAside isAsideNext checker := (isAsideNext _ _).trans (isAside checker)
  read isAside _ checker := isAside checker checker
  report _ := rfl
  inform := by
    intro text span checker
    obtain ⟨more, told⟩ := quiet.inform.told checker
    rw [told]
    rfl
  update _ _ := rfl

theorem IsAside.aside_eq {act : Check α} {result : α} (isAside : IsAside act)
    (ran : Ran act before result after) :
    after.aside = before.aside := by
  have same := isAside before
  rwa [show act before = (result, after) from ran] at same

end Check
end MicroJava
