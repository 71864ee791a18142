import MicroJava.Proofs.Analysis.Globals
import MicroJava.Proofs.Analysis.Frames
import MicroJava.Proofs.Symbol.Lineage

/-!
# The analysis of any program

Whether or not a program keeps the rules, its analysis only ever adds symbols and types, and
it leaves what it found around a declaration as it was.  `Checker.Proceeds` says so of steps.
-/

namespace MicroJava

open List

variable {outer : Bool} {frame : Frame} {target : Option SymbolId} {name : String}
  {symbol : Symbol} {id : SymbolId} {kind : SymbolKind} {early late table : Table}
  {type : TypeId} {before after first second third : Checker} {span : Span}
  {motive : Checker → Prop} {decl : VarDecl}

/-- What methods and type names have to offer, whatever is declared. -/
structure Table.IsFilled (table : Table) : Prop where
  null : table.HasType .null ∧ table.kind .null = .object
  params : ∀ id, table.HasSymbol id → (table.symbol id).kind = .method →
    (table.symbol id).paramCount ≤ (table.symbol id).locals.length
  names : ∀ id, table.HasSymbol id → (table.symbol id).kind = .type →
    (table.symbol id).type ≠ .null

namespace Table.IsFilled

variable (isFilled : early.IsFilled)
include isFilled

theorem null_grows (grows : early.Grows late) :
    late.HasType .null ∧ late.kind .null = .object :=
  ⟨grows.hasType isFilled.null.1, (grows.kind isFilled.null.1).trans isFilled.null.2⟩

theorem of_symbols (symbols : late.symbols = early.symbols) (grows : early.Grows late) :
    late.IsFilled := by
  have same : ∀ id, late.symbol id = early.symbol id := fun id => by
    rw [symbol, symbol, symbolRow, symbolRow, symbols]
  refine ⟨isFilled.null_grows grows, fun id has kind => ?_, fun id has kind => ?_⟩
  all_goals
    rw [HasSymbol, symbols] at has
    rw [same] at kind ⊢
  · exact isFilled.params id has kind
  · exact isFilled.names id has kind

theorem widens (widens : early.Widens late) :
    late.IsFilled where
  null := isFilled.null_grows widens.grows
  params id has kind := by
    obtain ⟨hasEarly, same⟩ := widens.method_of_kind has kind
    rw [same] at kind ⊢
    exact isFilled.params id hasEarly kind
  names id has kind := by
    by_cases hasEarly : early.HasSymbol id
    · rw [widens.symbol_eq hasEarly] at kind ⊢
      exact isFilled.names id hasEarly kind
    · rw [(widens.element_of_fresh has hasEarly).1] at kind
      cases kind

theorem adds (adds : early.Adds symbol late) (count : symbol.paramCount = 0)
    (notNull : symbol.kind = .type → symbol.type ≠ .null) :
    late.IsFilled where
  null := isFilled.null_grows adds.grows
  params id has kind := by
    rcases (adds.hasSymbol_iff id).mp has with hasEarly | rfl
    · rw [adds.symbol_eq hasEarly] at kind ⊢
      exact isFilled.params id hasEarly kind
    · rw [adds.symbol_new, count]
      exact Nat.zero_le _
  names id has kind := by
    rcases (adds.hasSymbol_iff id).mp has with hasEarly | rfl
    · rw [adds.symbol_eq hasEarly] at kind ⊢
      exact isFilled.names id hasEarly kind
    · rw [adds.symbol_new] at kind ⊢
      exact notNull kind

theorem updateSymbol {change : Symbol → Symbol} (has : early.HasSymbol id)
    (keeps : (change (early.symbol id)).bare = (early.symbol id).bare)
    (count : (change (early.symbol id)).kind = .method →
      (change (early.symbol id)).paramCount ≤ (change (early.symbol id)).locals.length) :
    (early.updateSymbol id change).IsFilled where
  null := isFilled.null
  params other hasOther kind := by
    rw [hasSymbol_updateSymbol] at hasOther
    by_cases same : other = id
    · rw [same, symbol_updateSymbol_self has] at kind ⊢
      exact count kind
    · rw [symbol_updateSymbol_of_ne has hasOther same] at kind ⊢
      exact isFilled.params other hasOther kind
  names other hasOther kind := by
    rw [hasSymbol_updateSymbol] at hasOther
    have bare := bare_symbol_updateSymbol has hasOther keeps
    rw [Symbol.kind_eq_of_bare bare] at kind
    rw [Symbol.type_eq_of_bare bare]
    exact isFilled.names other hasOther kind

end Table.IsFilled

/-! ## Names -/

/-- A name in a frame of the given level leads to a symbol. -/
structure Table.Leads (table : Table) (level : Nat) (name : String) (id : SymbolId) : Prop where
  has : table.HasSymbol id
  level : (table.symbol id).level = level
  named : (table.symbol id).name = name
  field : (table.symbol id).kind = .field → (table.symbol id).level ≠ 0
  present : id ≠ .absent
  notElement : (table.symbol id).kind ≠ .element

theorem Table.Leads.grows {level : Nat} (leads : early.Leads level name id)
    (grows : early.Grows late) :
    late.Leads level name id :=
  ⟨grows.hasSymbol leads.has, (grows.symbol_level leads.has).trans leads.level,
    (grows.symbol_name leads.has).trans leads.named,
    fun isField => by
      rw [grows.symbol_level leads.has]
      exact leads.field ((grows.symbol_kind leads.has).symm.trans isField),
    leads.present, (grows.symbol_kind leads.has).symm ▸ leads.notElement⟩

theorem Table.Leads.not_needsObject (leads : table.Leads 0 name id) :
    ¬ (table.symbol id).NeedsObject := by
  rintro (isField | isVirtual)
  · exact leads.field isField leads.level
  · have level := of_decide_eq_true (Bool.and_eq_true_iff.mp isVirtual).2
    rw [leads.level] at level
    cases level

namespace Checker

/-- Names lead to symbols that have them, and that have the levels of their frames. -/
def IsGuarded (checker : Checker) : Prop :=
  ∀ inner frame rest, checker.scopes.frames = inner ++ frame :: rest →
    ∀ name id, frame.find? name = some id → checker.table.Leads (rest.length - 1) name id

namespace IsGuarded

variable (guarded : before.IsGuarded)
include guarded

theorem leads (member : frame ∈ before.scopes.frames) (found : frame.find? name = some id) :
    ∃ level, before.table.Leads level name id := by
  obtain ⟨inner, rest, frames⟩ := append_of_mem member
  exact ⟨_, guarded inner frame rest frames name id found⟩

theorem has (name : String) (id : SymbolId) (bound : before.Binds name id) :
    before.table.HasSymbol id := by
  obtain ⟨frame, member, found⟩ := bound
  obtain ⟨_, leads⟩ := guarded.leads member found
  exact leads.has

theorem change {inner rest : List Frame} {frame' : Frame} (grows : before.table.Grows after.table)
    (frames : before.scopes.frames = inner ++ frame :: rest)
    (frames' : after.scopes.frames = inner ++ frame' :: rest)
    (names : ∀ name id, frame'.find? name = some id → frame.find? name = some id ∨
      after.table.Leads (rest.length - 1) name id) :
    after.IsGuarded := by
  intro early other late split name id found
  rw [frames'] at split
  rcases split_append split with ⟨gap, rfl, rfl⟩ | ⟨_ | ⟨_, gap⟩, rfl, tail⟩
  · have leads := guarded early other (gap ++ frame :: rest)
      (by rw [frames, append_assoc, cons_append]) name id found
    simp only [length_append, length_cons] at leads ⊢
    exact leads.grows grows
  · obtain ⟨rfl, rfl⟩ := List.cons.inj tail
    exact (names name id found).elim
      (fun old => (guarded inner frame rest frames name id old).grows grows) fun new => new
  · obtain ⟨rfl, rfl⟩ := List.cons.inj tail
    exact (guarded (inner ++ frame :: gap) other late (by rw [frames, append_assoc]; rfl)
      name id found).grows grows

theorem of_scopes (grows : before.table.Grows after.table) (scopes : after.scopes = before.scopes) :
    after.IsGuarded := fun inner frame rest frames name id found =>
  (guarded inner frame rest (scopes ▸ frames) name id found).grows grows

theorem push (table : after.table = before.table) (scopes : after.scopes = before.scopes.push) :
    after.IsGuarded := by
  intro inner frame rest frames name id found
  rw [scopes] at frames
  cases inner with
  | nil =>
    obtain ⟨rfl, rfl⟩ := List.cons.inj frames
    simp [Frame.find?] at found
  | cons _ inner =>
    exact table ▸ guarded inner frame rest (List.cons.inj frames).2 name id found

theorem pop (grows : before.table.Grows after.table) (scopes : after.scopes = before.scopes.pop) :
    after.IsGuarded := by
  intro inner frame rest frames name id found
  replace frames : before.scopes.frames.tail = inner ++ frame :: rest := by
    rw [← frames, scopes]
    rfl
  cases all : before.scopes.frames with
  | nil => rw [all] at frames; exact absurd frames.symm (by simp)
  | cons top others =>
    rw [all, tail_cons] at frames
    exact (guarded (top :: inner) frame rest (by rw [all, frames]; rfl) name id found).grows grows

end IsGuarded

/-! ## Steps -/

/-- What the steps of the analysis keep, whatever they report. -/
structure Retains (before after : Checker) : Prop where
  valid : before.table.IsValid → after.table.IsValid
  orderly : before.table.IsOrderly → after.table.IsOrderly
  filled : before.table.IsFilled → after.table.IsFilled
  grows : before.table.Grows after.table
  arrays : ∀ type, after.table.HasType type → ¬ before.table.HasType type →
    after.table.kind type = .array
  place : after.place = before.place
  classes : after.classes = before.classes
  tells : before.Tells after
  guarded : before.IsGuarded → after.IsGuarded

theorem Retains.trans (retains : first.Retains second) (next : second.Retains third) :
    first.Retains third where
  valid isValid := next.valid (retains.valid isValid)
  orderly isOrderly := next.orderly (retains.orderly isOrderly)
  filled isFilled := next.filled (retains.filled isFilled)
  grows := retains.grows.trans next.grows
  arrays type has fresh := by
    by_cases early : second.table.HasType type
    · rw [next.grows.kind early]
      exact retains.arrays type early fresh
    · exact next.arrays type has early
  place := next.place.trans retains.place
  classes := next.classes.trans retains.classes
  tells := retains.tells.trans next.tells
  guarded isGuarded := next.guarded (retains.guarded isGuarded)

theorem Retains.hasType_of_isClass (retains : before.Retains after) (has : after.table.HasType type)
    (isClass : after.table.isClass type) :
    before.table.HasType type ∧ before.table.isClass type := by
  by_cases early : before.table.HasType type
  · exact ⟨early, (retains.grows.isClass early).symm.trans isClass⟩
  · have kind := (Table.kind_of_isClass isClass).1
    rw [retains.arrays type has early] at kind
    cases kind

theorem Retains.isDescending (retains : before.Retains after)
    (descending : before.table.IsDescending) :
    after.table.IsDescending := by
  intro type has kind parent isParent
  by_cases early : before.table.HasType type
  · rw [retains.grows.kind early] at kind
    rw [retains.grows.parent early] at isParent
    obtain ⟨index, isClass⟩ := descending type early kind parent isParent
    refine ⟨index, ?_⟩
    rwa [retains.grows.isClass (descending.hasType early kind isParent)]
  · rw [retains.arrays type has early] at kind
    cases kind

/-- Steps that fill in at most one method and no class. -/
structure Proceeds (target : Option SymbolId) (before after : Checker) : Prop extends
    Retains before after where
  rows : ∀ id, before.table.HasSymbol id → some id ≠ target →
    after.table.symbol id = before.table.symbol id
  descs : ∀ type, before.table.HasType type → after.table.desc type = before.table.desc type

namespace Proceeds

theorem refl (checker : Checker) : checker.Proceeds target checker where
  valid := id
  orderly := id
  filled := id
  grows := .refl _
  arrays _ has fresh := absurd has fresh
  place := rfl
  classes := rfl
  tells := .refl _
  guarded := id
  rows _ _ _ := rfl
  descs _ _ := rfl

theorem trans (proceeds : first.Proceeds target second) (next : second.Proceeds target third) :
    first.Proceeds target third where
  toRetains := proceeds.toRetains.trans next.toRetains
  rows id has other :=
    (next.rows id (proceeds.grows.hasSymbol has) other).trans (proceeds.rows id has other)
  descs type has :=
    (next.descs type (proceeds.grows.hasType has)).trans (proceeds.descs type has)

theorem widen (proceeds : before.Proceeds none after) : before.Proceeds target after :=
  { proceeds with rows := fun id has _ => proceeds.rows id has nofun }

theorem forget (proceeds : before.Proceeds (some id) after) (fresh : ¬ before.table.HasSymbol id) :
    before.Proceeds none after :=
  { proceeds with
    rows := fun other has _ => proceeds.rows other has fun same =>
      fresh (Option.some.inj same ▸ has) }

end Proceeds

theorem Visits.proceeds {nodes : List NodeId} (visits : before.Visits nodes after) :
    before.Proceeds target after where
  valid := visits.table.valid
  orderly isOrderly := isOrderly.widens visits.table
  filled isFilled := isFilled.widens visits.table
  grows := visits.table.grows
  rows _ has _ := visits.table.symbol_eq has
  descs _ has := visits.table.desc_eq has
  arrays _ has fresh := (visits.table.array_of_fresh has fresh).1
  place := visits.place
  classes := visits.classes
  tells := visits.tells
  guarded isGuarded := isGuarded.of_scopes visits.table.grows visits.scopes

theorem Reports.proceeds (reports : before.Reports after) : before.Proceeds target after :=
  reports.visits.proceeds

theorem proceeds_of_table (table : after.table = before.table) (place : after.place = before.place)
    (classes : after.classes = before.classes) (tells : before.Tells after)
    (guarded : before.IsGuarded → after.IsGuarded) :
    before.Proceeds target after where
  valid isValid := table ▸ isValid
  orderly isOrderly := table ▸ isOrderly
  filled isFilled := table ▸ isFilled
  grows := table ▸ .refl _
  arrays _ has fresh := absurd (table ▸ has) fresh
  place := place
  classes := classes
  tells := tells
  guarded := guarded
  rows _ _ _ := table ▸ rfl
  descs _ _ := table ▸ rfl

theorem proceeds_of_adds (adds : before.table.Adds symbol after.table)
    (used : before.table.HasType symbol.type)
    (proper : symbol.kind = .type → symbol.type.IsProper ∧ symbol.type ≠ .null)
    (address : symbol.kind = .method → symbol.address = Symbol.noAddress)
    (count : symbol.paramCount = 0) (locals : symbol.locals = [])
    (place : after.place = before.place) (classes : after.classes = before.classes)
    (tells : before.Tells after) (guarded : before.IsGuarded → after.IsGuarded) :
    before.Proceeds target after where
  valid isValid := adds.isValid isValid used fun kind => (proper kind).1
  orderly isOrderly := isOrderly.adds adds address locals
  filled isFilled := isFilled.adds adds count fun kind => (proper kind).2
  grows := adds.grows
  rows _ has _ := adds.symbol_eq has
  descs type _ := adds.desc_eq type
  arrays type has fresh := absurd ((adds.hasType_iff type).mp has) fresh
  place := place
  classes := classes
  tells := tells
  guarded := guarded

theorem proceeds_addMethod (before : Checker) (name : String) (level : Nat)
    (used : before.table.HasType type) :
    before.Proceeds target
      { before with table := (before.table.addSymbol (.declared .method name type level)).2 } :=
  proceeds_of_adds (Table.addSymbol_adds rfl) used nofun (fun _ => rfl) rfl rfl rfl rfl
    (.refl _) fun guarded => guarded.of_scopes (Table.addSymbol_adds rfl).grows rfl

theorem proceeds_updateSymbol {change : Symbol → Symbol} (has : before.table.HasSymbol id)
    (keeps : (change (before.table.symbol id)).bare = (before.table.symbol id).bare)
    (slots : before.table.AreSlots (change (before.table.symbol id)).locals)
    (count : (change (before.table.symbol id)).kind = .method →
      (change (before.table.symbol id)).paramCount ≤
        (change (before.table.symbol id)).locals.length) :
    before.Proceeds (some id) { before with table := before.table.updateSymbol id change } where
  valid isValid := isValid.of_bare (Table.updateSymbol_grows has keeps)
    Array.size_modify rfl
  orderly isOrderly := isOrderly.updateSymbol has keeps slots
  filled isFilled := isFilled.updateSymbol has keeps count
  grows := (Table.updateSymbol_grows has keeps)
  rows _ hasOther different := Table.symbol_updateSymbol_of_ne has hasOther
    (fun same => different (congrArg some same)) change
  descs _ _ := rfl
  arrays _ has fresh := absurd has fresh
  place := rfl
  classes := rfl
  tells := .refl _
  guarded isGuarded := isGuarded.of_scopes (Table.updateSymbol_grows has keeps) rfl

/-! ## Declarations -/

/-- A declaration that keeps the table well-formed. -/
structure Introduces (before : Checker) (outer : Bool) (kind : SymbolKind) (name : String)
    (type : TypeId) (id : SymbolId)
    (after : Checker) : Prop extends Declares before outer kind name type id after where
  used : before.table.HasType type
  proper : kind = .type → type.IsProper ∧ type ≠ .null
  field : kind = .field → outer = false ∧ 3 ≤ before.scopes.depth
  notElement : kind ≠ .element
  present : id ≠ .absent

namespace Introduces

variable (introduces : before.Introduces outer kind name type id after)
include introduces

theorem isGuarded_of_scopes {late : Checker} (guarded : before.IsGuarded)
    (scopes : late.scopes = after.scopes) (grows : before.table.Grows late.table)
    (has : late.table.HasSymbol id)
    (level : (late.table.symbol id).level = (after.table.symbol id).level)
    (named : (late.table.symbol id).name = (after.table.symbol id).name)
    (isKind : (late.table.symbol id).kind = (after.table.symbol id).kind) :
    late.IsGuarded := by
  obtain ⟨inner, frame, rest, frame', frames, frames', length, takes⟩ := introduces.takes
  obtain ⟨address, adds, _⟩ := introduces.adds
  refine guarded.change grows frames (scopes ▸ frames') fun other otherId found => ?_
  rw [takes.find] at found
  split_ifs at found with same
  · obtain rfl := Option.some.inj found
    have depth : before.scopes.depth = inner.length + rest.length + 1 := by
      rw [Scopes.depth, frames, length_append, length_cons, Nat.add_assoc]
    have isLevel : (late.table.symbol id).level = rest.length - 1 := by
      rw [level, introduces.fresh, adds.symbol_new]
      simp only [Symbol.declared]
      omega
    rw [introduces.symbol_name, same] at named
    rw [introduces.symbol_kind] at isKind
    refine .inr ⟨has, isLevel, named, fun isField => ?_, introduces.present,
      isKind ▸ introduces.notElement⟩
    obtain ⟨rfl, deep⟩ := introduces.field (isKind.symm.trans isField)
    simp only [Bool.false_eq_true, if_false] at length
    omega
  · exact .inl found

theorem proceeds : before.Proceeds target after := by
  obtain ⟨address, adds, noAddress⟩ := introduces.adds
  exact proceeds_of_adds adds introduces.used introduces.proper noAddress rfl rfl
    (place_of_aside introduces.aside introduces.depth) (classes_of_aside introduces.aside)
    introduces.tells fun guarded => introduces.isGuarded_of_scopes guarded rfl introduces.grows
      introduces.hasSymbol rfl rfl rfl

end Introduces

end Checker

namespace Check

theorem nextSymbol_ne_absent (valid : table.IsValid) :
    table.nextSymbol ≠ .absent := fun same =>
  table.not_hasSymbol_nextSymbol (same ▸ valid.hasSymbol_absent)

theorem declareIn_introduces (ran : Ran (declareIn outer kind name type span) before id after)
    (valid : before.table.IsValid) (deep : outer → 2 ≤ before.scopes.depth)
    (used : before.table.HasType type) (proper : kind = .type → type.IsProper ∧ type ≠ .null)
    (field : kind = .field → outer = false ∧ 3 ≤ before.scopes.depth)
    (notElement : kind ≠ .element) :
    id = .absent ∧ before.Reports after ∧ after.Rejects name span ∨
      before.Introduces outer kind name type id after :=
  (declareIn_ran ran deep).imp_right fun declares =>
    ⟨declares, used, proper, field, notElement, declares.fresh ▸ nextSymbol_ne_absent valid⟩

theorem Ran.forM_publishes {α : Type} {act : α → Check PUnit} {items : List α}
    (ran : Ran (items.forM act) before () after) (names : α → List Global)
    (step : ∀ item ∈ items, ∀ early late, Ran (act item) early () late → motive early →
      motive late ∧ early.Publishes (names item) late)
    (start : motive before) :
    motive after ∧ before.Publishes (items.flatMap names) after := by
  induction items generalizing before with
  | nil =>
    obtain rfl := ran.forM_nil
    exact ⟨start, .of_outer (.refl _) (.refl _) rfl⟩
  | cons item rest ih =>
    obtain ⟨between, firstRan, restRan⟩ := ran.forM_cons
    obtain ⟨kept, publishes⟩ := step item mem_cons_self _ _ firstRan start
    obtain ⟨keptAll, publishesAll⟩ :=
      ih restRan (fun other member => step other (mem_cons_of_mem _ member)) kept
    exact ⟨keptAll, publishes.trans publishesAll⟩

theorem items_keep {declareItem : VarItem → TypeId → Check PUnit}
    (ran : Ran (resolveType decl.type false >>= fun base =>
      decl.items.forM fun item => itemType base item >>= declareItem item) before () after)
    (names : VarItem → List Global)
    (valid : ∀ checker, motive checker → checker.table.IsValid)
    (types : ∀ early late, early.Visits [] late → motive early → motive late)
    (declared : ∀ item ∈ decl.items, ∀ type early late, Ran (declareItem item type) early () late →
      early.table.HasType type → (early.IsClean → type.IsProper) → motive early →
      motive late ∧ early.Publishes (names item) late)
    (start : motive before) :
    motive after ∧ before.Publishes (decl.items.flatMap names) after := by
  obtain ⟨base, s₁, baseRan, ran⟩ := ran.bind
  obtain ⟨visits, used, typed⟩ := resolveType_visits baseRan (valid _ start)
  -- The type that all items share stays in use.
  refine And.imp And.left visits.publishes.trans (ran.forM_publishes
    (motive := fun checker => motive checker ∧ checker.table.HasType base ∧ s₁.Tells checker) names
    ?_ ⟨types _ _ visits start, used, .refl _⟩)
  rintro item member early late itemRan ⟨holds, used, told⟩
  obtain ⟨type, s₂, typeRan, itemRan⟩ := itemRan.bind
  obtain ⟨visits, typeUsed, proper⟩ : early.Visits [] s₂ ∧ s₂.table.HasType type ∧
      (base.IsProper → type.IsProper) := by
    rw [itemType] at typeRan
    split_ifs at typeRan
    · obtain ⟨visits, typeUsed, isTyped, present⟩ :=
        arrayOf_visits typeRan (valid _ holds) used (typed.imp_left And.left)
      exact ⟨visits, typeUsed, fun proper => isTyped.resolve_left (present proper.1)⟩
    · obtain ⟨rfl, rfl⟩ := typeRan.pure
      exact ⟨.refl _, used, id⟩
  obtain ⟨holds, publishes⟩ := declared item member type s₂ late itemRan typeUsed
    (fun clean => proper (typed.resolve_left fun missing =>
      ((told.trans visits.tells).isClean clean).error_notMem missing.2)) (types _ _ visits holds)
  exact ⟨⟨holds, publishes.grows.hasType (visits.table.grows.hasType used),
    told.trans (visits.tells.trans publishes.tells)⟩, visits.publishes.trans publishes⟩

theorem checkVars_keeps (ran : Ran (checkVars kind decl) before () after)
    (names : VarItem → List Global) (valid : ∀ checker, motive checker → checker.table.IsValid)
    (types : ∀ early late, early.Visits [] late → motive early → motive late)
    (declared : ∀ item ∈ decl.items, ∀ type id early late,
      early.Introduces false kind (early.qualifiedName item.name.name) type id late →
      (early.IsClean → type.IsProper) → motive early → motive late)
    (isKind : kind = .var ∨ kind = .field)
    (depth : ∀ checker, motive checker → 2 ≤ checker.scopes.depth ∧
      (kind = .field → 3 ≤ checker.scopes.depth) ∧ ∀ item, (if checker.scopes.depth = 2 then
        [⟨kind, checker.qualifiedName item.name.name, item.span⟩] else []) = names item)
    (start : motive before) :
    motive after ∧ before.Publishes (decl.items.flatMap names) after := by
  have kinds : kind ≠ .type ∧ kind ≠ .element := by
    rcases isKind with rfl | rfl <;> decide
  refine items_keep ran names valid types ?_ start
  intro item member type early late itemRan used proper holds
  replace itemRan := itemRan.get_bind
  obtain ⟨id, itemRan⟩ := itemRan.discard
  obtain ⟨deep, deeper, listed⟩ := depth _ holds
  refine ⟨?_, listed item ▸ declareIn_publishes itemRan deep⟩
  rcases declareIn_introduces itemRan (valid _ holds) nofun used (absurd · kinds.1)
    (fun isField => ⟨rfl, deeper isField⟩) kinds.2 with ⟨_, reports, _⟩ | introduces
  · exact types _ _ reports.visits holds
  · exact declared item member type id early late introduces proper holds

theorem checkStaticVars_keeps {owner : String}
    (ran : Ran (checkStaticVars owner decl) before () after)
    (valid : ∀ checker, motive checker → checker.table.IsValid)
    (depth : ∀ checker, motive checker → checker.scopes.depth = 3)
    (types : ∀ early late, early.Visits [] late → motive early → motive late)
    (declared : ∀ name type id early late, early.Introduces true .var name type id late →
      (early.IsClean → type.IsProper) → motive early → motive late)
    (start : motive before) :
    motive after ∧ before.Publishes (decl.globals (dotted owner)) after := by
  refine items_keep ran _ valid types ?_ start
  intro item member type early late itemRan used proper holds
  obtain ⟨id, itemRan⟩ := itemRan.discard
  have isStatic : early.scopes.depth = true.toNat + 2 := depth _ holds
  have publishes := declareIn_publishes itemRan (Nat.le_of_eq isStatic.symm)
  rw [if_pos isStatic] at publishes
  refine ⟨?_, publishes⟩
  rcases declareIn_introduces itemRan (valid _ holds) (fun _ => by omega) used nofun nofun
    nofun with ⟨_, reports, _⟩ | introduces
  · exact types _ _ reports.visits holds
  · exact declared _ type id early late introduces proper holds

end Check

end MicroJava
