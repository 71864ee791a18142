import MicroJava.Proofs.Analysis.Hierarchy
import MicroJava.Tree.Supply

/-!
# Members of classes

In the end every class is closed: its members start with those of the class it extends, each
in its place or overridden there by a method of the same name.
-/

namespace MicroJava

open List

variable {options : Options} {program : Program} {type : TypeId}

/-- What the declarations of a program give names to. -/
def Program.rules (program : Program) : Rules where
  inner name := name ∈ "this" :: program.innerNames
  constant name value := ∃ word, (name, word) ∈ program.constants ∧ value = word.toInt

namespace Check

variable {before after : Checker}

/-! ## Declarations -/

/-- The state between declarations of the program. -/
structure IsBetween (start : Table) (space : Option String) (checker : Checker) : Prop where
  grows : start.Grows checker.table
  settled : checker.IsSettled none
  place : checker.place = ⟨none, space, false, 0, 2⟩
  guarded : checker.IsGuarded

variable {start : Table} {space : Option String} {names : List Global} {rules : Rules}
  {fits : Place → Prop}

namespace IsBetween

variable (between : IsBetween start space before)
include between

theorem noOwner : before.owner = none := congrArg Place.owner between.place

theorem depth : before.scopes.depth = 2 := congrArg Place.depth between.place

theorem named : before.qualifiedName = qualifiedIn space := by
  have place := between.place
  simp only [Checker.place, Place.mk.injEq, Option.isSome_eq_false_iff,
    Option.isNone_iff_eq_none] at place
  funext name
  rw [Checker.qualifiedName, place.1, place.2.1, place.2.2.1]
  cases space <;> rfl

theorem isRegular : before.IsRegular where
  valid := between.settled.valid
  orderly := between.settled.orderly
  filled := between.settled.filled
  depth := by rw [between.noOwner, between.depth]; rfl
  owner _ isOwner := nomatch between.noOwner.symm.trans isOwner

theorem isAround : before.IsAround none where
  owner := congrArg _ between.noOwner
  frame _ isOwner := nomatch between.noOwner.symm.trans isOwner
  depth _ := between.depth
  guarded := between.guarded
  members type has isClass _ id member :=
    (between.settled.closed type has isClass nofun).members id member

theorem of_place (grows : before.table.Grows after.table) (settled : after.IsSettled none)
    (place : after.place = before.place) (guarded : after.IsGuarded) :
    IsBetween start space after where
  grows := between.grows.trans grows
  settled := settled
  place := place.trans between.place
  guarded := guarded

theorem proceeds (proceeds : before.Proceeds none after) : IsBetween start space after :=
  between.of_place proceeds.grows (proceeds.leaves.isSettled between.settled) proceeds.place
    (proceeds.guarded between.guarded)

theorem enlists (step : before.Proceeds none after ∧ before.Publishes names after)
    (aside : after.aside = before.aside) (grants : before.Grants rules [] after) :
    IsBetween start space after ∧ before.Enlists rules fits [] names after :=
  ⟨between.proceeds step.1, .of_idles (step.1.toRetains.idles (step.1.succeeds between.noOwner)
    (Checker.kept_of_aside aside) grants) step.2⟩

theorem setSpace (space : Option String) :
    IsBetween start space { before with space := space } :=
  ⟨between.grows, between.settled.setPlace before.owner space before.scopes,
    congrArg (fun place : Place => { place with space := space }) between.place,
    between.guarded.of_scopes (.refl _) rfl⟩

end IsBetween

theorem checkConst_proceeds {item : ConstItem} (ran : Ran (checkConst type item) before () after)
    (between : IsBetween start space before) (used : before.table.HasType type)
    (proper : before.IsClean → type.IsProper)
    (isAllowed : rules.constant (qualifiedIn space item.name.name) item.value.word.toInt) :
    before.Proceeds none after ∧ before.Grants rules [] after ∧
      before.Publishes [⟨.const, qualifiedIn space item.name.name, item.span⟩] after := by
  replace ran := ran.table_bind
  obtain ⟨_, told, fitRan, ran⟩ := ran.bind
  have visits := (quiet.requireFit.reports fitRan).visits
  replace ran := ran.get_bind
  obtain ⟨id, declared, declareRan, ran⟩ := ran.bind
  have isGlobal : told.scopes.depth = false.toNat + 2 :=
    (congrArg Scopes.depth visits.scopes).trans between.depth
  have deep := Nat.le_of_eq isGlobal.symm
  rw [Checker.qualifiedName_eq visits.place, between.named] at declareRan
  have publishes := declareIn_publishes declareRan deep
  rw [if_pos isGlobal] at publishes
  refine And.imp visits.proceeds.trans (And.imp visits.grants.idle visits.publishes.trans) ?_
  rcases declareIn_introduces declareRan (visits.table.valid between.settled.valid) nofun
    (visits.table.grows.hasType used) nofun nofun nofun with ⟨rfl, reports, _⟩ | introduces
  · obtain ⟨_, rfl⟩ := ran.pure
    exact ⟨reports.proceeds, reports.visits.grants, publishes⟩
  · have present := not_isAbsent_nextSymbol (visits.table.valid between.settled.valid)
    rw [← introduces.fresh] at present
    rw [if_neg present] at ran
    obtain rfl := updateSymbol_ran ran
    obtain ⟨address, adds, _⟩ := introduces.adds
    have changed := adds.change (fun symbol => { symbol with address := item.value.word.toInt })
      rfl rfl
    rw [← introduces.fresh] at changed
    have has := (changed.hasSymbol_iff _).mpr (.inr rfl)
    have row := changed.symbol_new
    have was := adds.symbol_new
    have globals := introduces.globals deep
    rw [if_pos isGlobal] at globals
    rw [← introduces.fresh] at has row was
    have new := fun other => (changed.hasSymbol_iff other).mp
    rw [← introduces.fresh] at new
    refine ⟨?_, .of_new changed.grows introduces.tells new (fun clean => ?_)
      (fun isMethod => ?_), changed.grows, introduces.tells, ⟨[some id],
      .cons ⟨has, congrArg Symbol.kind row, congrArg Symbol.name row⟩ .nil, globals⟩,
      publishes.gains, publishes.once⟩
    rotate_left
    · have isProper : type.IsProper :=
        proper (visits.tells.isClean (introduces.tells.isClean clean))
      rw [row]
      refine ⟨fun _ => isProper, .inr isProper, fun deep => absurd ?_ deep, fun _ => isAllowed⟩
      rw [isGlobal]
      rfl
    · rw [row] at isMethod
      cases isMethod
    exact Checker.proceeds_of_adds changed introduces.used nofun nofun rfl rfl
      (Checker.place_of_aside introduces.aside introduces.depth)
      (Checker.classes_of_aside introduces.aside) introduces.tells fun guarded =>
      introduces.isGuarded_of_scopes guarded rfl changed.grows has
        (by rw [row, was]) (by rw [row, was]) (by rw [row, was])

theorem checkConsts_proceeds {decl : ConstDecl} (ran : Ran (checkConsts decl) before () after)
    (between : IsBetween start space before)
    (constants : ∀ entry ∈ (Decl.consts decl).constants space,
      rules.constant entry.1 entry.2.toInt) :
    (before.Proceeds none after ∧ before.Publishes ((Decl.consts decl).globals space) after) ∧
      before.Grants rules [] after := by
  obtain ⟨type, s₁, typeRan, ran⟩ := ran.bind
  obtain ⟨visits, used, typed⟩ := resolveType_visits typeRan between.settled.valid
  have starts : before.Proceeds none s₁ := visits.proceeds
  obtain ⟨⟨proceeds, grants, _⟩, publishes⟩ := ran.forM_publishes (motive := fun checker =>
    before.Proceeds none checker ∧ before.Grants rules [] checker ∧
      s₁.table.Grows checker.table ∧ s₁.Tells checker) _
    (fun item member early late itemRan ⟨proceeds, grants, grows, tells⟩ => by
      obtain ⟨next, nextGrants, publishes⟩ := checkConst_proceeds itemRan
        (between.proceeds proceeds) (grows.hasType used)
        (fun clean => typed.resolve_left fun missing =>
          (tells.isClean clean).error_notMem missing.2)
        (constants _ (mem_map_of_mem member))
      exact ⟨⟨proceeds.trans next, grants.idle nextGrants, grows.trans next.grows,
        tells.trans next.tells⟩, publishes⟩) ⟨starts, visits.grants, .refl _, .refl _⟩
  exact ⟨⟨proceeds, visits.publishes.trans publishes⟩, grants⟩

theorem checkVars_proceeds {decl : VarDecl} (ran : Ran (checkVars .var decl) before () after)
    (between : IsBetween start space before) :
    before.Proceeds none after ∧ before.Publishes (decl.globals (qualifiedIn space)) after :=
  checkVars_keeps ran (motive := fun checker => before.Proceeds none checker) _
    (fun _ proceeds => proceeds.valid between.settled.valid)
    (fun _ _ visits proceeds => proceeds.trans visits.proceeds)
    (fun _ _ _ _ _ _ introduces _ proceeds => proceeds.trans introduces.proceeds) (.inl rfl)
    (fun _ proceeds => by
      have now := between.proceeds proceeds
      rw [now.depth, now.named]
      exact ⟨Nat.le_refl _, nofun, fun _ => rfl⟩) (.refl _)

theorem checkDecl_isBetween {decl : Decl} (fits : Place → Prop)
    (ran : Ran (checkDecl decl) before () after) (between : IsBetween start space before)
    (names : ∀ name ∈ "this" :: decl.innerNames, rules.inner name)
    (constants : ∀ entry ∈ decl.constants space, rules.constant entry.1 entry.2.toInt) :
    IsBetween start space after ∧
      before.Enlists rules fits decl.units (decl.globals space) after := by
  cases decl with
  | consts decl =>
    obtain ⟨step, grants⟩ := checkConsts_proceeds ran between constants
    exact between.enlists step (IsAside.aside_eq asideOnly.checkConsts ran) grants
  | vars decl =>
    exact between.enlists (checkVars_proceeds ran between)
      (IsAside.aside_eq asideOnly.checkVars ran) (checkVars_grants ran between.settled.valid
        (.inl rfl) (by rw [between.depth]; decide) fun deep => absurd (between.depth ▸ deep)
          (by decide))
  | type decl =>
    obtain ⟨settled, guarded, place, enlists⟩ := checkClass_isSettled ran between.settled
      between.guarded between.depth between.noOwner names
    rw [between.named] at enlists
    exact ⟨between.of_place enlists.succeeds.grows settled place guarded, enlists⟩

theorem checkMethod_isBetween {method : MethodDecl} (ran : Ran (checkMethod method) before () after)
    (between : IsBetween start space before)
    (names : ∀ name ∈ "this" :: method.localNames, rules.inner name) :
    IsBetween start space after ∧ before.Enlists rules (· = ⟨none, space, false, 0, 2⟩)
      [.method method] (method.globals (qualifiedIn space)) after := by
  obtain ⟨proceeds, publishes, formals, id, entered, takes, treats⟩ :=
    checkMethod_proceeds ran between.isRegular between.noOwner names
  have betweenLast := between.proceeds proceeds
  exact ⟨betweenLast, (treats.enlists takes between.isAround betweenLast.isAround
    (proceeds.succeeds between.noOwner) (between.named ▸ publishes)).weaken
      fun place same => same.trans between.place⟩

/-- Where the declarations of a namespace stand. -/
def InSpace (place : Place) : Prop := ∃ name, place = ⟨none, some name, false, 0, 2⟩

theorem InSpace.noOwner {place : Place} (inSpace : InSpace place) : place.owner = none :=
  congrArg Place.owner inSpace.choose_spec

theorem checkUnit_isBetween {decls : List Decl} {methods : List MethodDecl} (fits : Place → Prop)
    (ran : Ran (checkUnit decls methods) before () after) (between : IsBetween start space before)
    (names : ∀ name ∈ "this" :: namesOf decls methods, rules.inner name)
    (constants : ∀ entry ∈ decls.flatMap (Decl.constants space),
      rules.constant entry.1 entry.2.toInt) :
    IsBetween start space after ∧ ∃ middle,
      before.Enlists rules fits (decls.flatMap Decl.units) (decls.flatMap (Decl.globals space))
        middle ∧
      middle.Enlists rules (· = ⟨none, space, false, 0, 2⟩) (methods.map .method)
        (methods.flatMap (MethodDecl.globals (qualifiedIn space))) after := by
  obtain ⟨this, names⟩ := forall_mem_cons.mp names
  obtain ⟨declNames, methodNames⟩ := forall_mem_append.mp names
  obtain ⟨_, s₁, declsRan, methodsRan⟩ := ran.bind
  obtain ⟨between₁, declEnlists⟩ := declsRan.forM_enlists Decl.units (Decl.globals space) fits
    (fun decl member early late declRan between => checkDecl_isBetween fits declRan between
      (forall_mem_cons.mpr ⟨this, fun name inside =>
        declNames name (mem_flatMap.mpr ⟨decl, member, inside⟩)⟩)
      fun entry inside => constants entry (mem_flatMap.mpr ⟨decl, member, inside⟩)) between
  obtain ⟨between₂, methodEnlists⟩ := methodsRan.forM_enlists (fun method => [.method method])
    (MethodDecl.globals (qualifiedIn space)) _
    (fun method member early late methodRan between => checkMethod_isBetween methodRan between
      (forall_mem_cons.mpr ⟨this, fun name inside =>
        methodNames name (mem_flatMap.mpr ⟨method, member, inside⟩)⟩)) between₁
  rw [← map_eq_flatMap] at methodEnlists
  exact ⟨between₂, s₁, declEnlists, methodEnlists⟩

theorem checkSpace_isBetween {space : Namespace} (ran : Ran (checkSpace space) before () after)
    (between : IsBetween start none before)
    (names : ∀ name ∈ "this" :: namesOf space.decls space.methods, rules.inner name)
    (constants : ∀ entry ∈ space.decls.flatMap (Decl.constants (some space.name.name)),
      rules.constant entry.1 entry.2.toInt) :
    IsBetween start none after ∧ before.Enlists rules InSpace
      (unitsOf space.decls space.methods)
      (globalsOf (some space.name.name) space.decls space.methods) after := by
  obtain ⟨_, s₁, enterRan, ran⟩ := ran.bind
  obtain ⟨_, s₂, unitRan, leaveRan⟩ := ran.bind
  obtain rfl := enterRan.modify
  obtain rfl := leaveRan.modify
  obtain ⟨between₂, middle, decls, methods⟩ :=
    checkUnit_isBetween InSpace unitRan (between.setSpace _) names constants
  exact ⟨between₂.setSpace none,
    ((decls.trans (methods.weaken fun place same => ⟨_, same⟩)).after_idles
    (.setSpace _ _) (.of_outer (.refl _) (.refl _) rfl)).then_idles (.setSpace _ _)
    (.of_outer (.refl _) (.refl _) rfl)⟩

/-! ## Predefined names -/

/-- The state in which the predefined names are bound. -/
def seeded : Checker := (seedUniverse.run { options := {} }).2

variable {id own : SymbolId} {last : Checker} {main : Option SymbolId} {name : String}

theorem seedUniverse_ran (ran : Ran seedUniverse { options := options } () after) :
    after = { seeded with options := options } :=
  (congrArg Prod.snd ran).symm

/-- The table with the predefined names. -/
def predefined : Table := (seedUniverse.run { options := {} }).2.table

theorem predefined_types : predefined.types = Table.initial.types := by decide +kernel

theorem predefined_isClass (type : TypeId) : predefined.isClass type = false := by
  have none : ∀ type ∈ List.range 6, Table.initial.isClass ⟨type⟩ = false := by decide
  rw [Table.isClass, Table.kind, Table.desc_of_types predefined_types]
  by_cases has : Table.initial.HasType type
  · exact none type.index (mem_range.mpr has)
  · rw [Table.desc_of_not_hasType has]
    rfl

theorem predefined_isValid : predefined.IsValid where
  absent := by decide +kernel
  basic := predefined_types ▸ Table.isValid_initial.basic
  kind_none := by
    rw [Table.kind, Table.desc_of_types predefined_types]
    rfl
  element_anyArray := by
    rw [Table.desc_of_types predefined_types]
    rfl
  symbol_types := by decide +kernel
  type_names := by decide +kernel
  element_types := by decide +kernel
  elements := predefined_types ▸ Table.isValid_initial.elements
  shared := predefined_types ▸ Table.isValid_initial.shared

theorem predefined_isOrderly : predefined.IsOrderly := by
  have rows : ∀ symbol ∈ predefined.symbols,
      (symbol.kind = .method → symbol.address = Symbol.noAddress) ∧
      ∀ entry ∈ symbol.locals.zipIdx, entry.1.index < predefined.symbols.size ∧
        (predefined.symbol entry.1).kind = .var ∧ (predefined.symbol entry.1).level ≠ 0 ∧
        (predefined.symbol entry.1).address = entry.2 := by decide +kernel
  refine ⟨⟨fun id _ => (rows _ (predefined_isValid.symbol_mem id)).1,
    predefined_isValid.hasSymbol_absent, by decide +kernel⟩, fun id _ index entry found => ?_⟩
  exact (rows _ (predefined_isValid.symbol_mem id)).2 (entry, index)
    (mk_mem_zipIdx_iff_getElem?.mpr found)

theorem predefined_isFilled : predefined.IsFilled := by
  have rows : ∀ symbol ∈ predefined.symbols,
      (symbol.kind = .method → symbol.paramCount ≤ symbol.locals.length) ∧
      (symbol.kind = .type → symbol.type ≠ .null) := by decide +kernel
  refine ⟨⟨by rw [Table.HasType, predefined_types]; decide, ?_⟩,
    fun id _ => (rows _ (predefined_isValid.symbol_mem id)).1,
    fun id _ => (rows _ (predefined_isValid.symbol_mem id)).2⟩
  rw [Table.kind, Table.desc_of_types predefined_types]
  rfl

theorem seeded_isSettled : seeded.IsSettled none where
  valid := predefined_isValid
  orderly := predefined_isOrderly
  filled := predefined_isFilled
  descending := Table.isDescending_initial.of_types predefined_types
  last := by simp
  closed type _ isClass _ := by
    rw [show seeded.table = predefined from rfl, predefined_isClass] at isClass
    cases isClass
  classes type member := by cases member

theorem seeded_isGuarded : seeded.IsGuarded := by
  have rows : ∀ frame ∈ seeded.scopes.frames, ∀ entry ∈ frame.bindings.toList,
      entry.2.index < predefined.symbols.size ∧ (predefined.symbol entry.2).level = 0 ∧
      (predefined.symbol entry.2).name = entry.1 ∧ (predefined.symbol entry.2).kind ≠ .field ∧
      entry.2 ≠ .absent ∧ (predefined.symbol entry.2).kind ≠ .element := by decide +kernel
  have one : seeded.scopes.frames.length = 1 := by decide +kernel
  intro inner frame rest frames name id found
  have member : frame ∈ seeded.scopes.frames := by
    rw [frames]
    exact mem_append_right _ mem_cons_self
  rw [frames, length_append, length_cons] at one
  obtain ⟨has, level, isName, notField, present, notElement⟩ := rows frame member (name, id)
    (Std.TreeMap.mem_toList_iff_getElem?_eq_some.mpr found)
  rw [show rest.length - 1 = 0 by omega]
  exact ⟨has, level, isName, fun isField => absurd isField notField, present, notElement⟩

/-- The predefined names. -/
def predefinedNames : List String := ["bool", "char", "chr", "eol", "int", "len", "null", "ord"]

theorem seeded_names :
    seeded.scopes.frames.map (fun frame => frame.bindings.keys) = [predefinedNames] := by
  decide +kernel

theorem seedProgram_proceeds (ran : Ran (seed .program name .none) before id after)
    (valid : before.table.IsValid) :
    before.Proceeds none after ∧ (before.scopes.depth ≤ 2 → before.Grants rules [] after) ∧
      after.aside = before.aside := by
  obtain ⟨binding, s₁, bindRan, ran⟩ := ran.bind
  obtain ⟨rfl, rfl⟩ := ran.pure
  cases binding with
  | fresh id =>
    have used : before.table.HasType .none := valid.hasType_basic (by decide)
    have declares := bind_fresh bindRan nofun
    have introduces : before.Introduces false .program name .none id s₁ :=
      ⟨declares, used, nofun, nofun, nofun, declares.fresh ▸ nextSymbol_ne_absent valid⟩
    exact ⟨introduces.proceeds, fun shallow => introduces.grants (fun _ => .inr ⟨rfl, .inr rfl⟩)
      (fun deep => absurd deep (Nat.not_lt_of_le shallow)) nofun nofun, declares.aside⟩
  | taken id =>
    obtain rfl := bind_taken bindRan
    exact ⟨.refl _, fun _ => .refl _, rfl⟩

/-- The state before anything of a program is checked, which has the given symbol. -/
structure IsStart (name : String) (own : SymbolId) (checker : Checker) : Prop where
  has : checker.table.HasSymbol own
  level : (checker.table.symbol own).level = 0
  grows : predefined.Grows checker.table
  rows : ∀ id, predefined.HasSymbol id → checker.table.symbol id = predefined.symbol id
  fresh : predefined.HasSymbol own ∨ (checker.table.symbol own).kind = .program
  taken : predefined.HasSymbol own ↔ name ∈ predefinedNames
  globals : checker.scopes.globals = []
  kept : checker.kept = ({}, seeded.builtins, #[])
  classes : checker.classes = #[]
  isClass : ∀ type, checker.table.HasType type → checker.table.isClass type = false
  loopDepth : checker.loopDepth = 0
  grants : ∀ rules, seeded.Grants rules [] checker

theorem start_isBetween {seeded named opened : Checker}
    (seedRan : Ran seedUniverse { options := options } () seeded)
    (nameRan : Ran (seed .program name .none) seeded id named)
    (openRan : Ran (onScopes Scopes.push) named () opened) :
    IsBetween opened.table none opened ∧ IsStart name id opened := by
  obtain rfl := seedUniverse_ran seedRan
  obtain rfl := onScopes_ran openRan
  have valid := predefined_isValid
  have settled : Checker.IsSettled none { seeded with options := options } :=
    { seeded_isSettled with }
  have guarded : Checker.IsGuarded { seeded with options := options } :=
    seeded_isGuarded.of_scopes (.refl _) rfl
  have steps : ∀ rules : Rules, _ ∧ (_ → Checker.Grants rules [] _ named) ∧ _ :=
    fun _ => seedProgram_proceeds nameRan valid
  obtain ⟨proceeds, _, aside⟩ := steps .all
  have placeNamed : named.place = ⟨none, none, false, 0, 1⟩ := proceeds.place
  obtain ⟨frame, frames⟩ := length_eq_one_iff.mp
    (show seeded.scopes.frames.length = 1 by decide +kernel)
  have names := seeded_names
  rw [frames] at names
  have isTaken : (frame.find? name).isSome ↔ name ∈ predefinedNames := by
    rw [← head_eq_of_cons_eq names, Std.TreeMap.mem_keys, Std.TreeMap.mem_iff_isSome_getElem?]
    rfl
  refine ⟨⟨.refl _, (proceeds.leaves.isSettled settled).setPlace _ _ _,
    congrArg (fun place : Place => { place with depth := place.depth + 1 }) placeNamed,
    (proceeds.guarded guarded).push rfl rfl⟩, ?_⟩
  have rows : ∀ id, predefined.HasSymbol id → named.table.symbol id = predefined.symbol id :=
    fun id known => proceeds.rows id known (Option.some_ne_none _)
  have globals : named.scopes.push.globals = [] := by
    rw [Scopes.globals, show named.scopes.push.depth = 2 from
      congrArg (· + 1) (congrArg Place.depth placeNamed)]
    rfl
  have kept : named.kept = ({}, seeded.builtins, #[]) := Checker.kept_of_aside aside
  have classes : named.classes = #[] := Checker.classes_of_aside aside
  have noClass : ∀ type, named.table.HasType type → named.table.isClass type = false :=
    fun type has => Bool.eq_false_iff.mpr fun isClass => by
      have isPredefined : predefined.isClass type := (proceeds.hasType_of_isClass has isClass).2
      rw [predefined_isClass] at isPredefined
      cases isPredefined
  have loopDepth : named.loopDepth = 0 := congrArg Place.loopDepth placeNamed
  have grants : ∀ rules, seeded.Grants rules [] { named with scopes := named.scopes.push } :=
    fun rules => by
      have grants := (steps rules).2.1 (show (1 : Nat) ≤ 2 by decide)
      exact ⟨grants.grows, grants.tells, grants.fair, grants.methods⟩
  rcases seed_ran nameRan frames with ⟨free, declares⟩ | ⟨found, rfl⟩
  · obtain ⟨address, adds, _⟩ := declares.adds
    have row : named.table.symbol id = _ := declares.fresh ▸ adds.symbol_new
    have isNew : ¬ predefined.HasSymbol id := by
      rw [declares.fresh]
      exact Nat.lt_irrefl _
    refine ⟨?_, ?_, proceeds.grows, rows, .inr (congrArg Symbol.kind row), ?_, globals,
      kept, classes,
      noClass, loopDepth, grants⟩
    · rw [declares.fresh]
      exact (adds.hasSymbol_iff _).mpr (.inr rfl)
    · rw [row]
      rfl
    · rw [← isTaken, free]
      exact iff_of_false isNew Bool.false_ne_true
  · have leads := guarded [] frame [] frames name id found
    exact ⟨leads.has, leads.level, proceeds.grows, rows, .inl leads.has,
      iff_of_true leads.has (isTaken.mp (found ▸ rfl)), globals, kept, classes, noClass,
      loopDepth, grants⟩

/-! ## Programs -/

/-- A unit has its turn, and what is around it.  Only methods of the program are not marked by what
is around them. -/
structure IsTurn (program : Program) (own : SymbolId) (earlier : List DeclUnit) (part : DeclUnit)
    (later : List DeclUnit) (id : SymbolId) (formals : List Formal)
    (first start entered done last : Checker) : Prop extends
    Checker.Turns program.rules earlier part later id formals first start
      entered done last where
  starts : IsStart program.name.name own first
  stands : last.Stands (·.owner = none) program.units part start.place
  marked : earlier.length < program.split → start.IsMarking
  global : program.split ≤ earlier.length → start.owner = none

/-- The last state before the symbol of the program gets its locals, and the state after that. -/
structure IsLast (program : Program) (own : SymbolId) (main : Option SymbolId)
    (last after : Checker) : Prop where
  settled : last.IsSettled none
  noOwner : after.owner = none
  carries : last.table.Carries after.table
  size : after.table.symbols.size = last.table.symbols.size
  types : after.table.types = last.table.types
  globalCount : after.table.globalCount = last.table.globalCount
  notes : after.notes = last.notes
  classes : after.classes = last.classes
  lists : ∀ type id, last.Lists type id → after.Lists type id
  tells : last.Tells after
  enlists : ∃ first : Checker, first.Enlists program.rules (·.owner = none)
    program.units program.globals last ∧ IsStart program.name.name own first
  turns : program.nodes.Nodup → ∀ earlier part later, program.units = earlier ++ part :: later →
    part.IsCode → ∃ id formals first start entered done,
      IsTurn program own earlier part later id formals first start entered done last
  builtins : after.builtins = last.builtins
  staticInits : after.staticInits = last.staticInits
  main : ∀ id, main = some id → last.table.Leads 0 "main" id ∧
    (last.table.symbol id).kind = .method
  rows : ∀ id, last.table.HasSymbol id → after.table.symbol id = if id = own then
    { last.table.symbol id with locals := last.scopes.globals } else last.table.symbol id

theorem IsLast.checks (isLast : IsLast program own main last after) :
    ∀ unit ∈ program.units, after.Checks unit.body 0 := by
  intro unit member
  obtain ⟨first, enlists, starts⟩ := isLast.enlists
  exact starts.loopDepth ▸ (enlists.checks unit member).mono isLast.tells

theorem IsLast.holds {around : Option TypeId} {part : DeclUnit}
    (isLast : IsLast program own main last after) (distinct : program.nodes.Nodup)
    (isUnit : part ∈ program.units) (holds : last.Holds around part id) :
    after.Holds around part id ∧ after.table.AreSlots (after.table.symbol id).locals ∧
      (after.table.symbol id).paramCount ≤ (after.table.symbol id).locals.length := by
  obtain ⟨first, enlists, starts⟩ := isLast.enlists
  have isOwner : id ∈ program.units.filterMap (DeclUnit.owner? last.notes) :=
    mem_filterMap.mpr ⟨part, isUnit, holds.owner⟩
  have row := isLast.rows id holds.has
  rw [if_neg fun same : id = own =>
    (enlists.fresh distinct id isOwner).1 (same ▸ starts.has)] at row
  refine ⟨holds.keep isLast.carries.toGrows row isLast.tells ?_, ?_, ?_⟩
  · rw [isLast.notes]
    exact ⟨rfl, rfl⟩
  · rw [row]
    exact (isLast.settled.orderly.locals id holds.has).grows isLast.carries.toGrows
  · rw [row]
    exact isLast.settled.filled.params id holds.has holds.kind

theorem checkMain_ran {span : Span} (ran : Ran (checkMain span) before main after) :
    before.Reports after ∧ ∀ id, main = some id → before.scopes.findLocal? "main" = some id ∧
      (before.table.symbol id).kind = .method := by
  replace ran := ran.get_bind
  obtain ⟨_, told, requireRan, ran⟩ := ran.bind
  obtain ⟨rfl, rfl⟩ := ran.pure
  refine ⟨quiet.require.reports requireRan, fun id found => ?_⟩
  rw [Option.filter_eq_some_iff] at found
  obtain ⟨⟨isMethod, _⟩, _⟩ := by
    simpa only [isEntry, Bool.and_eq_true, decide_eq_true_eq] using found.2
  exact ⟨found.1, isMethod⟩

theorem checkProgram_isLast {result : SymbolId × Option SymbolId}
    (ran : Ran (checkProgram program) { options := options } result after) :
    ∃ last, IsLast program result.1 result.2 last after := by
  obtain ⟨_, s₁, seedRan, ran⟩ := ran.bind
  obtain ⟨id, s₂, nameRan, ran⟩ := ran.bind
  obtain ⟨_, s₃, openRan, ran⟩ := ran.bind
  obtain ⟨_, s₄, spacesRan, ran⟩ := ran.bind
  obtain ⟨_, s₅, unitRan, ran⟩ := ran.bind
  obtain ⟨main, s₆, mainRan, ran⟩ := ran.bind
  obtain ⟨globals, s₇, closeRan, ran⟩ := ran.bind
  obtain ⟨_, s₈, updateRan, ran⟩ := ran.bind
  obtain ⟨_, s₉, popRan, ran⟩ := ran.bind
  obtain ⟨rfl, rfl⟩ := ran.pure
  obtain ⟨told, isMain⟩ := checkMain_ran mainRan
  have ended : s₉ = { s₆ with
      scopes := s₆.scopes.pop.pop
      table := s₆.table.updateSymbol id fun symbol =>
        { symbol with locals := s₆.scopes.current } } := by
    cases closeRan
    rw [onScopes_ran popRan, updateSymbol_ran updateRan]
  obtain ⟨between₃, starts⟩ := start_isBetween seedRan nameRan openRan
  have inSpace : ∀ space ∈ program.spaces, ∀ name ∈ "this" :: namesOf space.decls space.methods,
      program.rules.inner name := fun space member => cons_subset_cons _
    fun name inside => mem_append_left _ (mem_flatMap.mpr ⟨space, member, inside⟩)
  obtain ⟨between₄, spaces⟩ := spacesRan.forM_enlists
    (fun space => unitsOf space.decls space.methods)
    (fun space => globalsOf (some space.name.name) space.decls space.methods) _
    (fun space member early late spaceRan between =>
      checkSpace_isBetween spaceRan between (inSpace space member) fun entry inside =>
        ⟨_, mem_append_left _ (mem_flatMap.mpr ⟨space, member, inside⟩), rfl⟩) between₃
  have inProgram : ∀ name ∈ "this" :: namesOf program.decls program.methods,
      program.rules.inner name :=
    cons_subset_cons _ (subset_append_right _ _)
  obtain ⟨between₅, middle, decls, methods⟩ :=
    checkUnit_isBetween InSpace unitRan between₄ inProgram fun entry inside =>
      ⟨_, mem_append_right _ inside, rfl⟩
  have between₆ := between₅.proceeds told.proceeds
  have step : s₅.Proceeds none s₆ := told.proceeds
  have ends : s₅.Idles program.rules s₆ :=
    step.toRetains.idles (step.succeeds between₅.noOwner) (by obtain ⟨more, rfl⟩ := told; rfl)
      told.visits.grants
  -- The units before the methods of the program, and these methods.
  have marked := spaces.trans decls
  have global := methods.then_idles ends told.visits.publishes
  have hasNow := between₆.grows.hasSymbol starts.has
  have levelNow := (between₆.grows.symbol_level starts.has).trans starts.level
  have rows : ∀ other, s₆.table.HasSymbol other → s₉.table.symbol other = if other = id then
      { s₆.table.symbol other with locals := s₆.scopes.globals } else s₆.table.symbol other := by
    intro other hasOther
    rw [ended]
    split_ifs with same
    · subst same
      rw [Table.symbol_updateSymbol_self hasNow, Scopes.globals, between₆.depth]
      rfl
    · exact Table.symbol_updateSymbol_of_ne hasNow hasOther same _
  have grows : s₆.table.Grows s₉.table := by
    rw [ended]
    exact Table.updateSymbol_grows hasNow rfl
  have noOwner : s₉.owner = none := by rw [ended, between₆.noOwner]
  refine ⟨s₆, between₆.settled, noOwner, ⟨grows, fun other isMember => ?_⟩,
    ?_, ?_, ?_, ?_, ?_, fun type other lists => lists.mono grows (fun upper _ _ => ⟨?_, ?_⟩)
      fun isOpen => ?_,
    .of_eq (by rw [ended]), ⟨s₃, ?_, starts⟩,
    fun distinct earlier part later split isCode => ?_, by rw [ended], by rw [ended],
    fun other isOther => ?_, rows⟩
  · -- The symbol of the program is no member of a class.
    refine (rows other isMember.1).trans (if_neg ?_)
    rintro rfl
    exact absurd (levelNow.symm.trans isMember.2) Nat.zero_ne_one
  · rw [ended]
    exact Array.size_modify
  · rw [ended]
    rfl
  · rw [ended]
    rfl
  · rw [ended]
  · rw [ended]
  · rw [noOwner]
    exact (Option.some_ne_none upper).symm
  · rw [ended]
    rfl
  · rw [between₆.noOwner] at isOpen
    cases isOpen
  · have early : s₃.Enlists _ (·.owner = none) _ _ middle := marked.weaken fun _ => InSpace.noOwner
    have whole := early.trans (global.weaken fun place same => congrArg Place.owner same)
    rwa [append_assoc, append_assoc] at whole
  · have whole : program.units = _ ++ program.methods.map .method := (append_assoc ..).symm
    rw [Program.nodes, whole] at distinct
    obtain ⟨id, formals, start, entered, done, turns, stands⟩ :=
      marked.turns_append global (whole ▸ split) isCode
    rcases stands distinct with ⟨before, stands⟩ | ⟨behind, stands, isFit⟩
    · refine ⟨id, formals, s₃, start, entered, done, turns, starts,
        whole ▸ stands.weaken fun _ => InSpace.noOwner, fun _ => ?_,
        fun behind => absurd before (Nat.not_lt_of_le behind)⟩
      rcases stands.cases with ⟨context, _, isOwner, _⟩ | ⟨⟨space, place⟩, _⟩
      · exact .inl ((congrArg Option.isSome isOwner).trans rfl)
      · refine .inr ⟨(congrArg (·.space.isSome) place).trans rfl, ?_⟩
        exact Option.not_isSome_iff_eq_none.mp fun inside =>
          Bool.false_ne_true ((congrArg Place.isInside place).symm.trans inside)
    · refine ⟨id, formals, s₃, start, entered, done, turns, starts,
        whole ▸ stands.weaken fun _ => congrArg Place.owner,
        fun before => absurd before (Nat.not_lt_of_le behind),
        fun _ => congrArg Place.owner (isFit (by simp))⟩
  · obtain ⟨found, isMethod⟩ := isMain other isOther
    obtain ⟨more, rfl⟩ := told
    obtain ⟨frame, rest, frames, bound⟩ := Scopes.frames_of_findLocal? found
    have leads := between₅.guarded [] frame rest frames "main" other bound
    have depth := between₅.depth
    rw [Scopes.depth, frames, length_cons] at depth
    rw [show rest.length - 1 = 0 by omega] at leads
    exact ⟨leads, isMethod⟩

end Check

namespace Analysis

theorem isClean_of_errorCount {analysis : Analysis} {checker : Checker}
    (told : analysis.diagnostics = checker.diagnostics.toList)
    (accepted : analysis.errorCount = 0) :
    checker.IsClean := by
  intro diagnostic member
  rw [errorCount, length_eq_zero_iff, violations, filterMap_eq_nil_iff, told] at accepted
  have isNote := accepted diagnostic (Array.mem_toList_iff.mpr member)
  cases diagnostic with
  | info => rfl
  | error => cases isNote

/-- An analysis has what is known in the end. -/
structure IsFrom (analysis : Analysis) (final : Checker) : Prop where
  table : analysis.table = final.table
  classes : analysis.classes = final.classes.toList
  clean : analysis.errorCount = 0 → final.IsClean
  notes : analysis.notes = final.notes
  diagnostics : analysis.diagnostics = final.diagnostics.toList
  builtins : analysis.builtins = final.builtins
  staticInits : analysis.staticInits = final.staticInits.toList

/-- The analysis of a program is what is known after its last step. -/
theorem exists_isLast (options : Options) (program : Program) :
    ∃ last final : Checker, Check.IsLast program (analyze options program).program
      (analyze options program).main last final ∧ (analyze options program).IsFrom final := by
  obtain ⟨⟨⟨id, main⟩, final⟩, ran⟩ :
      ∃ result, (Check.checkProgram program).run { options := options } = result := ⟨_, rfl⟩
  obtain ⟨last, isLast⟩ := Check.checkProgram_isLast ran
  rw [analyze, ran]
  exact ⟨last, final, isLast, rfl, rfl, isClean_of_errorCount rfl, rfl, rfl, rfl, rfl⟩

theorem analyze_isValid (options : Options) (program : Program) :
    (analyze options program).table.IsValid := by
  obtain ⟨last, final, isLast, table, _⟩ := exists_isLast options program
  rw [table]
  exact isLast.settled.valid.of_bare isLast.carries.toGrows isLast.size
    (congrArg Array.size isLast.types)

theorem analyze_isDescending (options : Options) (program : Program) :
    (analyze options program).table.IsDescending := by
  obtain ⟨last, final, isLast, table, _⟩ := exists_isLast options program
  exact isLast.settled.descending.of_types (table ▸ isLast.types)

theorem analyze_isClosed (has : (analyze options program).table.HasType type)
    (isClass : (analyze options program).table.isClass type) :
    (analyze options program).table.IsClosed ((analyze options program).errorCount = 0) type := by
  obtain ⟨last, final, isLast, table, _, clean, _⟩ := exists_isLast options program
  rw [table] at has isClass ⊢
  rw [Table.HasType, isLast.types] at has
  rw [isLast.carries.isClass has] at isClass
  exact isLast.carries.isClosed isLast.settled.orderly isLast.settled.valid
    isLast.settled.descending (isLast.settled.closed type has isClass (Option.some_ne_none _))
    (Table.desc_of_types isLast.types type)
    (fun parent _ => congrArg TypeDesc.members (Table.desc_of_types isLast.types parent))
    fun accepted => isLast.tells.isClean (clean accepted)

theorem isClass_of_mem_classes (member : type ∈ (analyze options program).classes) :
    (analyze options program).table.HasType type ∧
      (analyze options program).table.isClass type := by
  obtain ⟨last, final, isLast, table, classes, _⟩ := exists_isLast options program
  rw [classes, isLast.classes] at member
  rw [table]
  obtain ⟨has, isClass⟩ := isLast.settled.classes type member
  exact ⟨isLast.carries.hasType has, (isLast.carries.isClass has).trans isClass⟩

/-- A method of a class has the name of a method of its parent, which is another one. -/
structure Overrides (analysis : Analysis) (parent : TypeId) (ours theirs : SymbolId) : Prop where
  fresh : ours ∉ (analysis.table.desc parent).members
  method : (analysis.table.symbol ours).kind = .method
  other : (analysis.table.symbol theirs).kind = .method

/-- Inherited members keep their positions. -/
structure KeepsMembers (analysis : Analysis) (type : TypeId) : Prop where
  /-- No inherited method waits for being overridden. -/
  pending : (analysis.table.desc type).pending = []
  /-- Members have different names. -/
  names : ((analysis.table.desc type).members.map fun id => (analysis.table.symbol id).name).Nodup
  /-- All members are inherited. -/
  length : ∀ parent, (analysis.table.desc type).parent = some parent →
    (analysis.table.desc parent).members.length ≤ (analysis.table.desc type).members.length
  /-- At each position there is the inherited member, or a method that overrides it. -/
  members : ∀ parent, (analysis.table.desc type).parent = some parent → ∀ (index : Nat) theirs ours,
    (analysis.table.desc parent).members[index]? = some theirs →
    (analysis.table.desc type).members[index]? = some ours →
    (analysis.table.symbol ours).name = (analysis.table.symbol theirs).name ∧
      (ours = theirs ∨ analysis.Overrides parent ours theirs ∧
        (analysis.errorCount = 0 →
          (analysis.table.symbol ours).type = (analysis.table.symbol theirs).type ∧
          (analysis.table.symbol ours).paramCount = (analysis.table.symbol theirs).paramCount))

/-- Whatever is reported about a program, its classes keep the positions of inherited members. -/
theorem analyze_keepsMembers (options : Options) (program : Program) :
    ∀ type ∈ (analyze options program).classes,
      (analyze options program).KeepsMembers type := by
  intro type member
  obtain ⟨has, isClass⟩ := isClass_of_mem_classes member
  have closed := analyze_isClosed has isClass
  refine ⟨closed.pending, closed.names, fun parent isParent =>
    (closed.parent parent isParent).length_le,
    fun parent isParent index theirs ours isTheirs isOurs => ?_⟩
  obtain ⟨own, isOwn, stands⟩ := closed.parent parent isParent index theirs isTheirs
  obtain rfl : own = ours := Option.some.inj (isOwn.symm.trans isOurs)
  by_cases same : own = theirs
  · exact ⟨same ▸ rfl, .inl same⟩
  · obtain ⟨replaces, conforms⟩ := stands.resolve_left same
    -- A member of the parent with the name of the inherited one would be the inherited one.
    have fresh : own ∉ ((analyze options program).table.desc parent).members := fun inherited => by
      have descending := analyze_isDescending options program
      have kind := (Table.kind_of_isClass isClass).1
      obtain ⟨_, parentClass⟩ := descending type has kind parent isParent
      have parentClosed := analyze_isClosed (descending.hasType has kind isParent) parentClass
      exact same (inj_on_of_nodup_map parentClosed.names inherited
        (mem_of_getElem? isTheirs) replaces.name)
    exact ⟨replaces.name, .inr ⟨⟨fresh, replaces.own.2, replaces.inherited.2⟩,
      fun accepted => ⟨(conforms accepted).type, (conforms accepted).count⟩⟩⟩

/-- A class with a method whose parameters are an object of the class and an array, and a class
below it whose method takes an object of that class. -/
def narrowing : Program :=
  Supply.plant do
    let int ← Supply.typeRef none "int"
    let upper ← Supply.typeRef none "Upper"
    let lower ← Supply.typeRef none "Lower"
    let method ← Supply.method false none false "meet"
      [← Supply.param upper "other" false, ← Supply.param int "marks" true] [] []
    let override ← Supply.method false none false "meet"
      [← Supply.param lower "other" false, ← Supply.param int "marks" true] [] []
    let upperType ← Supply.type "Upper" none [] [] [] [method]
    let lowerType ← Supply.type "Lower" (some upper) [] [] [] [override]
    let main ← Supply.method false none false "main" [] [] []
    Supply.program "Narrowing" [] [.type upperType, .type lowerType] [main]

theorem analyze_keepsMembers_narrowing :
    ∃ type ∈ (analyze {} narrowing).classes,
      ((analyze {} narrowing).table.desc type).parent.isSome ∧
        ((analyze {} narrowing).table.desc type).members ≠ [] ∧
        (analyze {} narrowing).KeepsMembers type := by
  obtain ⟨type, isClass, hasParent, hasMembers⟩ : ∃ type ∈ (analyze {} narrowing).classes,
      ((analyze {} narrowing).table.desc type).parent.isSome ∧
        ((analyze {} narrowing).table.desc type).members ≠ [] := by decide +kernel
  exact ⟨type, isClass, hasParent, hasMembers, analyze_keepsMembers {} narrowing type isClass⟩

end Analysis
end MicroJava
