import MicroJava.Proofs.Analysis.Members

/-!
# What is known after an analysis without violations

If no violation is reported and the nodes of a program have different numbers, then the
annotations of every unit keep the rules, each method has code from the unit that declares it
on, and variables have slots of their own.
-/

namespace MicroJava

open List

variable {part : DeclUnit} {earlier later : List DeclUnit} {front rest : List Frame}
    {program : Program} {id : SymbolId}

/-- Names that are declared in classes and methods have no marks of qualified names. -/
def Program.IsPlain (program : Program) : Prop :=
  ∀ name ∈ program.innerNames, ¬ IsQualified name

/-- The value that a program gives to a constant.  One constant with a value is predefined, the
end of a line. -/
def Program.constant? (program : Program) (table : Table) (id : SymbolId) : Option Int32 :=
  if id.index < Check.predefined.symbols.size then
    if (table.symbol id).name = "eol" then some 10 else none
  else
    (program.constants.find? fun entry => entry.1 = (table.symbol id).name).map Prod.snd

/-- The setting of the body of a method. -/
def Setting.inside (setting : Setting) (id : SymbolId) (units : List DeclUnit)
    (around : Option TypeId) : Setting :=
  { setting with
    locals := (setting.table.symbol id).locals
    around := around
    units := units
    receiver := (setting.table.symbol id).isVirtual
    result := (setting.table.symbol id).type }

/-- The annotations of a unit with code, and the symbol it stands for. -/
structure DeclUnit.Fits (program : Program) (setting : Setting) (earlier : List DeclUnit)
    (part : DeclUnit) (id : SymbolId) : Prop where
  owner : part.owner? setting.notes = some id
  kind : (setting.table.symbol id).kind = .method
  marked : earlier.length < program.split →
    (setting.table.symbol id).level ≠ 0 ∨ IsQualified (setting.table.symbol id).name
  global : program.split ≤ earlier.length → (setting.table.symbol id).level = 0
  slots : setting.table.AreSlots (setting.table.symbol id).locals
  count : (setting.table.symbol id).paramCount ≤ (setting.table.symbol id).locals.length
  suits : part.Suits (setting.table.symbol id)
  noted : ∃ around, setting.Surrounds part around ∧
    Stmt.AreNoted (setting.inside id (earlier ++ [part]) around) false part.body

/-- A predefined method has a result, and it is not the entry point. -/
structure Table.IsPredefined (table : Table) (id : SymbolId) : Prop where
  has : table.HasSymbol id
  kind : (table.symbol id).kind = .method
  result : (table.symbol id).type.IsProper
  name : (table.symbol id).name ≠ "main"

namespace Analysis

/-- What the annotations of a whole program are read with. -/
def setting (analysis : Analysis) (program : Program) : Setting where
  notes := analysis.notes
  table := analysis.table
  locals := []
  around := none
  units := program.units
  builtins := analysis.builtins
  plain := program.IsPlain
  receiver := False
  result := .none

/-- The analysis of a program is complete and consistent. -/
structure IsSound (program : Program) (analysis : Analysis) : Prop where
  valid : analysis.table.IsValid
  placed : analysis.table.IsPlaced
  types : ∀ decl, .type decl ∈ program.units →
    ∃ type, analysis.notes.type? decl.node.id = some type ∧ analysis.table.HasType type
  fits : ∀ earlier part later, program.units = earlier ++ part :: later → part.IsCode →
    ∃ id, part.Fits program (analysis.setting program) earlier id
  code : ∀ id, analysis.table.HasSymbol id → (analysis.table.symbol id).kind = .method →
    (analysis.setting program).HasCode id
  distinct : (analysis.builtins.all ++
    program.units.filterMap (DeclUnit.owner? analysis.notes)).Nodup
  builtins : ∀ id ∈ analysis.builtins.all, analysis.table.IsPredefined id
  staticInits : analysis.staticInits = program.units.filterMap (DeclUnit.init? analysis.notes)
  classes : analysis.classes = program.units.filterMap (DeclUnit.class? analysis.notes)
  classesDistinct : analysis.classes.Nodup
  members : ∀ type ∈ analysis.classes, ∀ id ∈ (analysis.table.desc type).members,
    analysis.table.HasSymbol id ∧ (analysis.table.symbol id).level = 1
  names : ∀ type ∈ analysis.classes, ((analysis.table.desc type).members.map fun id =>
    (analysis.table.symbol id).name).Nodup
  main : ∀ id, analysis.main = some id → (analysis.table.symbol id).kind = .method ∧
    (analysis.table.symbol id).level = 0 ∧ (analysis.table.symbol id).name = "main"
  constants : ∀ id, (analysis.table.symbol id).kind = .const →
    (analysis.table.symbol id).type ≠ .null →
    program.constant? analysis.table id = some (Int32.ofInt (analysis.table.symbol id).address)

theorem IsSound.fits_of_owner {analysis : Analysis} (sound : analysis.IsSound program)
    (split : program.units = earlier ++ part :: later)
    (owner : part.owner? analysis.notes = some id) :
    part.Fits program (analysis.setting program) earlier id := by
  obtain ⟨other, fits⟩ := sound.fits earlier part later split (DeclUnit.isCode_of_owner? owner)
  obtain rfl := Option.some.inj (owner.symm.trans fits.owner)
  exact fits

end Analysis

namespace Check

variable {own other : SymbolId} {main : Option SymbolId} {name : String} {units : List DeclUnit}
    {formals : List Formal} {first start entered done last final early late checker : Checker}
    {context : MethodContext} {rules : Rules} {owners : List SymbolId} {setting : Setting}
    {around : Option TypeId}

/-! ## What names lead to -/

theorem predefined_isFair (has : predefined.HasSymbol id) (present : id ≠ .absent) :
    (((predefined.symbol id).kind = .var → (predefined.symbol id).level = 0) →
      ((predefined.symbol id).hasValue → (predefined.symbol id).type.IsProper) ∧
      ((predefined.symbol id).type = .none ∨ (predefined.symbol id).type.IsProper)) ∧
      ¬ IsQualified (predefined.symbol id).name := by
  have rows : ∀ index ∈ List.range predefined.symbols.size, index ≠ 0 →
      (((predefined.symbol ⟨index⟩).kind = .var → (predefined.symbol ⟨index⟩).level = 0) →
        ((predefined.symbol ⟨index⟩).hasValue → (predefined.symbol ⟨index⟩).type.IsProper) ∧
        ((predefined.symbol ⟨index⟩).type = .none ∨ (predefined.symbol ⟨index⟩).type.IsProper)) ∧
      ¬ (':' ∈ (predefined.symbol ⟨index⟩).name.toList ∨
        '.' ∈ (predefined.symbol ⟨index⟩).name.toList) := by decide +kernel
  exact rows id.index (mem_range.mpr has) fun zero => present (congrArg SymbolId.mk zero)

theorem predefined_methods (has : predefined.HasSymbol id)
    (isMethod : (predefined.symbol id).kind = .method) : id ∈ seeded.builtins.all := by
  have rows : ∀ index ∈ List.range predefined.symbols.size,
      (predefined.symbol ⟨index⟩).kind = .method → ⟨index⟩ ∈ seeded.builtins.all := by
    decide +kernel
  exact rows id.index (mem_range.mpr has) isMethod

theorem predefined_constants (has : predefined.HasSymbol id)
    (isConst : (predefined.symbol id).kind = .const)
    (hasValue : (predefined.symbol id).type ≠ .null) :
    (predefined.symbol id).name = "eol" ∧ (predefined.symbol id).address = 10 := by
  have rows : ∀ index ∈ List.range predefined.symbols.size,
      (predefined.symbol ⟨index⟩).kind = .const → (predefined.symbol ⟨index⟩).type ≠ .null →
      (predefined.symbol ⟨index⟩).name = "eol" ∧ (predefined.symbol ⟨index⟩).address = 10 := by
    decide +kernel
  exact rows id.index (mem_range.mpr has) isConst hasValue

theorem predefined_isPredefined (member : id ∈ seeded.builtins.all) :
    predefined.IsPredefined id := by
  have rows : ∀ id ∈ seeded.builtins.all, predefined.HasSymbol id ∧
      (predefined.symbol id).kind = .method ∧ (predefined.symbol id).type.IsProper ∧
      (predefined.symbol id).name ≠ "main" := by
    unfold Table.HasSymbol
    decide +kernel
  obtain ⟨has, kind, result, name⟩ := rows id member
  exact ⟨has, kind, result, name⟩

namespace IsStart

variable (starts : IsStart name own first) (grants : first.Grants rules owners checker)
include starts grants

theorem isInner (clean : checker.IsClean) (has : checker.table.HasSymbol id)
    (present : id ≠ .absent) (named : (checker.table.symbol id).kind ≠ .element)
    (deep : (checker.table.symbol id).level ≠ 0)
    (qualified : IsQualified (checker.table.symbol id).name) :
    rules.inner (checker.table.symbol id).name := by
  by_cases known : predefined.HasSymbol id
  · rw [(starts.grows.trans grants.grows).symbol_name known] at qualified
    exact absurd qualified (predefined_isFair known present).2
  · exact (((starts.grants rules).trans grants).fair clean id has known named).inner deep

theorem methods (has : checker.table.HasSymbol id)
    (isMethod : (checker.table.symbol id).kind = .method) :
    id ∈ seeded.builtins.all ∨ id ∈ owners := by
  refine (((starts.grants rules).trans grants).methods id has isMethod).imp_left fun known => ?_
  rw [(starts.grows.trans grants.grows).symbol_kind known] at isMethod
  exact predefined_methods known isMethod

theorem finds (clean : checker.IsClean) (valid : checker.table.IsValid)
    (grows : checker.table.Grows setting.table)
    (code : ∀ other, other ∈ seeded.builtins.all ∨ other ∈ owners → setting.HasCode other)
    (objects : ∀ type, checker.table.HasType type → checker.table.isClass type →
      setting.HasObjects type)
    (has : checker.table.HasSymbol id) (present : id ≠ .absent)
    (named : (checker.table.symbol id).kind ≠ .element)
    (var : (checker.table.symbol id).kind = .var → (checker.table.symbol id).level = 0 ∨
      id ∈ setting.locals ∧ ¬ predefined.HasSymbol id)
    (field : (checker.table.symbol id).kind = .field → (checker.table.symbol id).level ≠ 0) :
    setting.Finds id := by
  have fair : ((checker.table.symbol id).hasValue → (checker.table.symbol id).type.IsProper) ∧
      ((checker.table.symbol id).type = .none ∨ (checker.table.symbol id).type.IsProper) := by
    by_cases known : predefined.HasSymbol id
    · have global := fun isVar => (var isVar).resolve_right fun isLocal => isLocal.2 known
      have early := starts.grows.trans grants.grows
      rw [early.symbol_kind known, early.symbol_level known] at global
      rw [early.symbol_hasValue known, early.symbol_type known]
      exact (predefined_isFair known present).1 global
    · have fair := ((starts.grants rules).trans grants).fair clean id has known named
      exact ⟨fair.value, fair.typed⟩
  have kind := grows.symbol_kind has
  have level := grows.symbol_level has
  have type := grows.symbol_type has
  refine ⟨present, ?_, ?_, ?_, fun _ => ?_, fun isMethod => ?_, ?_, kind ▸ named⟩
  · rw [kind, level]
    exact fun isVar => (var isVar).imp_right And.left
  · rw [grows.symbol_hasValue has, type]
    exact fair.1
  · rw [type]
    exact fair.2
  · rw [type, grows.isClass (valid.hasType_symbol id)]
    exact objects _ (valid.hasType_symbol id)
  · exact code id (starts.methods grants has (kind ▸ isMethod))
  · rwa [kind, level]

theorem finds_member (clean : checker.IsClean) (valid : checker.table.IsValid)
    (grows : checker.table.Grows setting.table)
    (code : ∀ other, other ∈ seeded.builtins.all ∨ other ∈ owners → setting.HasCode other)
    (objects : ∀ type, checker.table.HasType type → checker.table.isClass type →
      setting.HasObjects type)
    (isMember : checker.table.IsMember id) :
    setting.Finds id := by
  refine starts.finds grants clean valid grows code objects isMember.has ?_ ?_
    (fun isVar => ?_) fun _ => isMember.level ▸ Nat.one_ne_zero
  · rintro rfl
    exact absurd (valid.level_absent.symm.trans isMember.level) Nat.zero_ne_one
  · rcases isMember.kind with kind | kind <;> rw [kind] <;> decide
  · rcases isMember.kind with kind | kind <;> rw [isVar] at kind <;> cases kind

end IsStart

theorem leads_or_isMember {frame : Frame} (isAround : checker.IsAround around)
    (frames : checker.scopes.frames = front ++ frame :: rest) (found : frame.find? name = some id) :
    checker.table.Leads 0 name id ∨ (∃ owner, checker.owner = some owner ∧ front = [] ∧
      rest.length = 2 ∧ checker.table.IsMember id ∧ id ∈ checker.scopes.current) := by
  have leads := isAround.guarded front frame rest frames name id found
  cases isOwner : checker.owner with
  | none =>
    have depth := isAround.depth isOwner
    rw [Scopes.depth, frames, length_append, length_cons] at depth
    rw [show rest.length - 1 = 0 by omega] at leads
    exact .inl leads
  | some owner =>
    obtain ⟨_, _, _, top, below, split, length, names⟩ := isAround.frame owner isOwner
    rw [split] at frames
    cases front with
    | nil =>
      obtain ⟨rfl, rfl⟩ := List.cons.inj frames
      refine .inr ⟨owner, rfl, rfl, length, (names name id found).2, ?_⟩
      rw [Scopes.current, split]
      exact (names name id found).1
    | cons _ front =>
      have below : below = front ++ frame :: rest := (List.cons.inj frames).2
      rw [below, length_append, length_cons] at length
      rw [show rest.length - 1 = 0 by omega] at leads
      exact .inl leads

/-! ## Bodies -/

/-- What the annotations of a program are read with. -/
def settingOf (program : Program) (final : Checker) : Setting where
  notes := final.notes
  table := final.table
  locals := []
  around := none
  units := program.units
  builtins := final.builtins
  plain := program.IsPlain
  receiver := False
  result := .none

theorem IsLast.builtins_eq (isLast : IsLast program own main last final) :
    final.builtins = seeded.builtins := by
  obtain ⟨first, enlists, starts⟩ := isLast.enlists
  exact isLast.builtins.trans (enlists.builtins.trans
    (congrArg (fun kept => kept.2.1) starts.kept))

section Bodies

variable (turn : IsTurn program own earlier part later id formals first start entered done last)
  (isLast : IsLast program own main last final)
  (distinct : ((earlier ++ part :: later).flatMap DeclUnit.nodes).Nodup) (isCode : part.IsCode)

include turn isLast in
theorem IsTurn.symbol_final : final.table.symbol id = done.table.symbol id := by
  have has : done.table.HasSymbol id := turn.treats.completes.grows.hasSymbol turn.treats.has
  rw [isLast.rows id (turn.late.succeeds.grows.hasSymbol has), if_neg fun same : id = own =>
    turn.treats.fresh (turn.early.succeeds.grows.hasSymbol (same ▸ turn.starts.has)),
    turn.late.succeeds.rows id has]

include turn isLast in
theorem IsTurn.grows_final : done.table.Grows final.table :=
  turn.late.succeeds.grows.trans isLast.carries.toGrows

include turn isLast in
theorem IsTurn.tells_final : done.Tells final := turn.late.succeeds.tells.trans isLast.tells

include turn isLast distinct in
theorem IsTurn.agreesAt {node : NodeId} (member : node ∈ part.nodes) :
    final.notes.AgreesAt done.notes node := by
  have whole : ((earlier ++ [part] ++ later).flatMap DeclUnit.nodes).Nodup := by
    rwa [append_assoc]
  rw [isLast.notes]
  exact turn.late.agreesAt whole (mem_append_right _ mem_cons_self) node member

include turn isLast distinct isCode in
theorem IsTurn.agreesAt_earlier {unit : DeclUnit} (member : unit ∈ earlier) :
    final.notes.AgreesAt start.notes unit.node.id := by
  rw [isLast.notes]
  exact ((turn.treats.tallies isCode turn.succeeds).trans turn.late).agreesAt distinct member _
    mem_cons_self

include turn isLast distinct isCode in
theorem IsTurn.owner?_final : part.owner? final.notes = some id := by
  have own : part.nodes.Nodup :=
    (nodup_flatMap.mp distinct).1 part (mem_append_right _ mem_cons_self)
  exact (Checker.owner?_eq (turn.agreesAt isLast distinct mem_cons_self)).trans
    (turn.treats.owner?_eq_some isCode own)

section Examined

variable (examines : Checker.Examines program.rules id part.body { entered with
    notes := entered.notes.setSymbol part.node.id id
    scopes := entered.scopes.push
    method := some context } early late done)

include examines in
theorem grows_examined : early.table.Grows done.table :=
  ((walksOver_checkStmts _).visits examines.ran examines.valid).table.grows.trans examines.grows

include turn examines in
theorem IsTurn.loopDepth : early.loopDepth = 0 := calc
  early.loopDepth = entered.loopDepth := congrArg Place.loopDepth examines.inside.place
  _ = start.loopDepth := congrArg Place.loopDepth turn.treats.retains.place
  _ = first.loopDepth := turn.early.succeeds.loopDepth
  _ = 0 := turn.starts.loopDepth

include turn distinct examines in
theorem IsTurn.grants_early :
    first.Grants program.rules
      (earlier.filterMap (DeclUnit.owner? start.notes) ++ [id]) early := by
  have opens : entered.Grants program.rules [] early :=
    ⟨examines.grants.grows, examines.grants.tells, examines.grants.fair, examines.grants.methods⟩
  exact (turn.early.accounts (DeclUnit.nodup_earlier distinct)).grants.trans
    (turn.treats.grants.idle opens)

include turn examines in
theorem IsTurn.find?_cases {frame : Frame} (frames : early.scopes.frames = front ++ frame :: rest)
    (found : frame.find? name = some other) :
    (front = [] ∧ rest = entered.scopes.frames ∧ (early.table.symbol other).kind = .var ∧
        other ∈ early.scopes.current ∧ ¬ predefined.HasSymbol other) ∨
      early.table.HasSymbol other ∧ (done.table.Leads 0 name other ∨
        ∃ owner top, early.owner = some owner ∧ owner.frame = 2 ∧ front = [top] ∧
          rest.length = 2 ∧ done.table.IsMember other ∧ other ∈ done.scopes.current) := by
  obtain ⟨_, top, below, opened, framesEarly, _, keeps⟩ := examines.inside.frames
  obtain ⟨rfl, rfl⟩ := List.cons.inj opened
  have slotted := keeps (Frame.isSlotted_empty _)
  rw [framesEarly] at frames
  cases front with
  | nil =>
    obtain ⟨rfl, rfl⟩ := List.cons.inj frames
    have listed := slotted.names name other found
    have current : early.scopes.current = top.order.toList := by rw [Scopes.current, framesEarly]
    refine .inl ⟨rfl, rfl, slotted.kind found, current ▸ listed, fun known => ?_⟩
    rcases examines.inside.fresh other (current ▸ listed) with old | isNew
    · cases old
    · exact isNew (turn.treats.retains.grows.hasSymbol
        (turn.early.succeeds.grows.hasSymbol (turn.starts.grows.hasSymbol known)))
  | cons head front =>
    obtain ⟨rfl, framesEntered⟩ := List.cons.inj frames
    have guarded := turn.treats.retains.guarded turn.was.guarded
    have member : frame ∈ entered.scopes.frames :=
      framesEntered ▸ mem_append_right _ mem_cons_self
    refine .inr ⟨examines.inside.grows.hasSymbol (guarded.has name other ⟨frame, member, found⟩),
      ?_⟩
    rw [← turn.treats.completes.scopes] at framesEntered
    refine (leads_or_isMember turn.isAround framesEntered found).imp_right ?_
    rintro ⟨owner, isOwner, rfl, length, isMember⟩
    have sameOwner : early.owner = done.owner :=
      (congrArg Place.owner examines.inside.place : early.owner = entered.owner).trans
        (congrArg Place.owner turn.treats.completes.place).symm
    exact ⟨owner, top, sameOwner.trans isOwner, (turn.isAround.frame owner isOwner).1, rfl, length,
      isMember⟩

include turn isLast distinct isCode in
theorem IsTurn.hasCode (around : Option TypeId) (other : SymbolId)
    (known : other ∈ seeded.builtins.all ∨
      other ∈ earlier.filterMap (DeclUnit.owner? start.notes) ++ [id]) :
    ((settingOf program final).inside id (earlier ++ [part]) around).HasCode other := by
  rcases known with isBuiltin | owned
  · left
    rw [Setting.inside, settingOf, isLast.builtins_eq]
    exact isBuiltin
  · rcases mem_append.mp owned with owned | own
    · obtain ⟨unit, member, owner⟩ := mem_filterMap.mp owned
      exact .inr ⟨unit, mem_append_left _ member,
        (Checker.owner?_eq (turn.agreesAt_earlier isLast distinct isCode member)).trans owner⟩
    · obtain rfl := mem_singleton.mp own
      exact .inr ⟨part, mem_append_right _ mem_cons_self,
        turn.owner?_final isLast distinct isCode⟩

include turn isLast distinct isCode examines in
theorem IsTurn.hasObjects (around : Option TypeId) (type : TypeId) (has : early.table.HasType type)
    (isClass : early.table.isClass type) :
    ((settingOf program final).inside id (earlier ++ [part]) around).HasObjects type := by
  obtain ⟨has, isClass⟩ := examines.inside.hasType_of_isClass has isClass
  obtain ⟨has, isClass⟩ := turn.treats.retains.hasType_of_isClass has isClass
  rcases (turn.early.accounts (DeclUnit.nodup_earlier distinct)).isClass type has isClass with
    old | listed
  · rw [turn.early.succeeds.grows.isClass old, turn.starts.isClass type old] at isClass
    cases isClass
  · obtain ⟨unit, member, isType⟩ := mem_filterMap.mp listed
    exact ⟨unit, mem_append_left _ member,
      (Checker.class?_eq (turn.agreesAt_earlier isLast distinct isCode member)).trans isType⟩

include turn isLast in
theorem IsTurn.lists_final {type : TypeId} (lists : done.Lists type other) :
    final.table.Lists type other := by
  have lists := isLast.lists type other (turn.late.succeeds.lists type other lists)
  have member := lists.member
  rw [Checker.membersOf_eq isLast.noOwner] at member
  exact ⟨lists.hasType, lists.isClass, member.imp_right (And.imp_right
    fun ⟨parent, isParent, _, _, isMember⟩ => ⟨parent, isParent, isMember⟩)⟩

include turn isLast in
theorem IsTurn.isLocated {owner : ClassContext} (isOwner : done.owner = some owner)
    (isMember : done.table.IsMember other) (listed : other ∈ done.scopes.current) :
    ((settingOf program final).inside id units around).IsLocated (some owner.type) other := fun _ =>
  ⟨owner.type, rfl, turn.lists_final isLast (turn.isAround.lists isOwner listed isMember.has)⟩

include turn isLast distinct isCode examines in
theorem IsTurn.covers (clean : final.IsClean)
    (result : context.result = (entered.table.symbol id).type)
    (static : context.isStatic = (part.receiver? (start.owner.map ClassContext.type)).isNone)
    (listed : (done.table.symbol id).locals = early.scopes.current) :
    ((settingOf program final).inside id (earlier ++ [part])
      (start.owner.map ClassContext.type)).Covers
      early := by
  have visits := (walksOver_checkStmts part.body).visits examines.ran examines.valid
  have toDone := grows_examined examines
  have toFinal := toDone.trans (turn.grows_final isLast)
  have cleanEarly : early.IsClean := visits.tells.isClean
    ((examines.tells.trans (turn.tells_final isLast)).isClean clean)
  have grants := turn.grants_early distinct examines
  have guarded : early.IsGuarded := examines.inside.guarded
    ((turn.treats.retains.guarded turn.was.guarded).push rfl rfl)
  have locals : (final.table.symbol id).locals = early.scopes.current := by
    rw [turn.symbol_final isLast, listed]
  have code := turn.hasCode isLast distinct isCode (start.owner.map ClassContext.type)
  have objects := turn.hasObjects isLast distinct isCode examines
    (start.owner.map ClassContext.type)
  have belongs : ∀ other, done.table.IsMember other →
      ((settingOf program final).inside id (earlier ++ [part])
        (start.owner.map ClassContext.type)).BelongsToObjects other := fun other isMember =>
    ⟨((turn.grows_final isLast).isMember isMember).kind,
      ((turn.grows_final isLast).isMember isMember).level⟩
  have ownerEarly : early.owner = done.owner :=
    (congrArg Place.owner examines.inside.place : early.owner = entered.owner).trans
      (congrArg Place.owner turn.treats.completes.place).symm
  obtain ⟨_, top, _, opened, framesEarly, _⟩ := examines.inside.frames
  obtain ⟨_, rfl⟩ := List.cons.inj opened
  rw [← turn.treats.completes.scopes] at framesEarly
  refine ⟨examines.valid, ?_, ?_, ?_, ?_, ?_, ?_, ?_⟩
  · rintro name other ⟨frame, member, found⟩
    obtain ⟨front, rest, frames⟩ := append_of_mem member
    have leads := guarded front frame rest frames name other found
    refine ⟨leads.has, turn.starts.finds grants cleanEarly examines.valid toFinal code objects
      leads.has leads.present leads.notElement (fun isVar => ?_) leads.field, fun needs => ?_⟩
    all_goals rcases turn.find?_cases examines frames found with ⟨_, _, kind, isLocal, isNew⟩ |
      ⟨has, global | ⟨owner, _, isOwner, _, _, _, isOwn, listed⟩⟩
    · exact .inr ⟨by rw [Setting.inside, settingOf, locals]; exact isLocal, isNew⟩
    · exact .inl ((toDone.symbol_level has).symm.trans global.level)
    · rw [← toDone.symbol_kind has] at isVar
      rcases isOwn.kind with kind | kind <;> rw [isVar] at kind <;> cases kind
    · exact absurd ((toFinal.symbol_kind leads.has).trans kind) needs.kind_ne_var
    · exact absurd needs (global.grows (turn.grows_final isLast)).not_needsObject
    · rw [ownerEarly] at isOwner
      obtain ⟨type, isType, lists⟩ := turn.isLocated isLast isOwner isOwn listed needs
      refine ⟨type, ?_, lists⟩
      rw [Setting.inside, settingOf, ← turn.isAround.owner, isOwner, ← isType]
      rfl
  · rintro plain name other ⟨frame, member, found⟩ qualified
    obtain ⟨_, leads⟩ := guarded.leads member found
    refine (toFinal.symbol_level leads.has).trans (by_contra fun deep => ?_)
    have inside := turn.starts.isInner grants cleanEarly leads.has leads.present
      leads.notElement deep
      (leads.named.symm ▸ qualified)
    rw [leads.named] at inside
    rcases mem_cons.mp inside with rfl | inside
    · revert qualified
      unfold IsQualified
      decide
    · exact plain name inside qualified
  · intro type has isClass outside other member
    obtain ⟨hasEntered, enteredClass⟩ := examines.inside.hasType_of_isClass has isClass
    obtain ⟨hasStart, startClass⟩ := turn.treats.retains.hasType_of_isClass hasEntered enteredClass
    have notAround : some type ≠ start.owner.map ClassContext.type := fun same => by
      rw [← turn.isAround.owner, ← ownerEarly] at same
      obtain ⟨owner, isOwner, isType⟩ := Option.map_eq_some_iff.mp same.symm
      exact outside owner isOwner isType
    rw [examines.inside.descs type hasEntered, turn.treats.descs type hasStart notAround] at member
    have wasMember := turn.was.members type hasStart startClass notAround other member
    have toEarly := turn.treats.retains.grows.trans examines.inside.grows
    have isMember := toEarly.isMember wasMember
    refine ⟨isMember.has, turn.starts.finds_member grants cleanEarly examines.valid toFinal code
      objects isMember, belongs other (toDone.isMember isMember), fun _ => ⟨type, rfl,
      turn.lists_final isLast (turn.succeeds.lists type other
        ⟨hasStart, startClass, wasMember.has, .inl ?_⟩)⟩⟩
    rwa [Checker.membersOf, if_neg fun same => notAround same.symm]
  · intro owner isOwner name other found
    rw [ownerEarly] at isOwner
    obtain ⟨isFrame, _, _, frame, rest, frames, length, names⟩ := turn.isAround.frame owner isOwner
    rw [isFrame, ← length,
      Scopes.findAt?_of_frames [_] (framesEarly.trans (congrArg _ frames))] at found
    obtain ⟨listed, isMember⟩ := names name other found
    refine ⟨belongs other isMember, turn.isLocated isLast isOwner isMember ?_⟩
    rw [Scopes.current, frames]
    exact listed
  · intro name other found needs
    obtain ⟨front, frame, rest, frames, found, free⟩ := findSome?_eq_some_iff.mp found
    rcases turn.find?_cases examines frames found with ⟨_, _, isVar, _⟩ |
      ⟨_, global | ⟨owner, top, isOwner, isFrame, rfl, length, _⟩⟩
    · have leads := guarded front frame rest frames name other found
      exact absurd ((toFinal.symbol_kind leads.has).trans isVar) needs.kind_ne_var
    · exact absurd needs (global.grows (turn.grows_final isLast)).not_needsObject
    · have unbound : top.bindings.contains name = false := by
        rw [Std.TreeMap.contains_eq_isSome_getElem?]
        exact congrArg Option.isSome (free top mem_cons_self)
      have bound : frame.bindings.contains name = true := by
        rw [Std.TreeMap.contains_eq_isSome_getElem?]
        exact congrArg Option.isSome found
      refine ⟨owner, isOwner, ?_⟩
      rw [isFrame, Scopes.frameOf?, frames, singleton_append, Scopes.frameOfIn?, unbound,
        Scopes.frameOfIn?, bound, if_pos rfl, length]
      rfl
  · have sameMethod : early.method = some context := congrArg Checker.method examines.starts
    refine ⟨context, sameMethod, ?_, fun notStatic => ?_⟩
    · rw [Setting.inside, settingOf, turn.symbol_final isLast]
      exact result.trans (turn.treats.completes.grows.symbol_type turn.treats.has).symm
    · have level := turn.treats.level
      rw [static, Option.isNone_eq_false_iff] at notStatic
      rw [notStatic] at level
      rw [Setting.inside, settingOf, turn.symbol_final isLast,
        turn.treats.completes.grows.symbol_isVirtual turn.treats.has, Symbol.isVirtual,
        turn.treats.kind, level]
      rfl
  · intro other has isMethod
    by_cases same : other = id
    · subst same
      rw [Setting.inside, settingOf, turn.symbol_final isLast, examines.count]
    · have different : some other ≠ some id := fun equal => same (Option.some.inj equal)
      have hasEntered : entered.table.HasSymbol other :=
        (examines.grants.methods other has isMethod).resolve_right not_mem_nil
      have hasDone := turn.treats.completes.grows.hasSymbol hasEntered
      have row : last.table.symbol other = early.table.symbol other := calc
        last.table.symbol other = done.table.symbol other := turn.late.succeeds.rows other hasDone
        _ = entered.table.symbol other := turn.treats.completes.rows other hasEntered different
        _ = early.table.symbol other := (examines.inside.rows other hasEntered different).symm
      rw [Setting.inside, settingOf,
        isLast.rows other (turn.late.succeeds.grows.hasSymbol hasDone), row]
      split_ifs <;> rfl

end Examined

include turn isLast distinct isCode in
theorem IsTurn.areNoted (clean : final.IsClean) :
    Stmt.AreNoted ((settingOf program final).inside id (earlier ++ [part])
      (start.owner.map ClassContext.type)) false part.body := by
  obtain ⟨context, early, late, examines, result, static, listed⟩ := turn.treats.examines
  have visits := (walksOver_checkStmts part.body).visits examines.ran examines.valid
  have own : part.nodes.Nodup :=
    (nodup_flatMap.mp distinct).1 part (mem_append_right _ mem_cons_self)
  have noted : done.notes = late.notes := congrArg Prod.fst examines.ends
  refine checkStmts_noted examines.ran (fun inLoop => absurd (turn.loopDepth examines) inLoop)
    ⟨turn.covers isLast distinct isCode examines clean result static listed, ⟨?_, ?_, ?_⟩,
      (nodup_cons.mp own).2⟩
  · exact (examines.tells.trans (turn.tells_final isLast)).isClean clean
  · exact examines.grows.trans (turn.grows_final isLast)
  · intro node member
    rw [← noted]
    exact turn.agreesAt isLast distinct (mem_cons_of_mem _ member)

include turn isLast in
theorem IsTurn.surrounds :
    (settingOf program final).Surrounds part (start.owner.map ClassContext.type) := by
  rcases turn.stands.cases with ⟨context, decl, isOwner, isClass, isMember, noted⟩ |
    ⟨noOwner, outside⟩
  · rw [show start.owner = some context from isOwner]
    rw [← isLast.notes] at noted
    exact ⟨decl, isClass, isMember, noted⟩
  · rw [show start.owner = none from noOwner]
    exact outside

include turn isLast in
theorem IsTurn.frame :
    final.table.AreSlots (final.table.symbol id).locals ∧
      (final.table.symbol id).paramCount ≤ (final.table.symbol id).locals.length := by
  have grows := turn.treats.completes.grows.trans turn.late.succeeds.grows
  have hasDone := turn.treats.completes.grows.hasSymbol turn.treats.has
  rw [turn.symbol_final isLast, ← turn.late.succeeds.rows id hasDone]
  have has := grows.hasSymbol turn.treats.has
  exact ⟨(isLast.settled.orderly.locals id has).grows isLast.carries.toGrows,
    isLast.settled.filled.params id has
      ((grows.symbol_kind turn.treats.has).trans turn.treats.kind)⟩

include turn isLast in
theorem IsTurn.suits (clean : final.IsClean) : part.Suits (final.table.symbol id) := by
  have treats := turn.treats
  have grows := treats.completes.grows
  have filled := (turn.frame isLast).2
  have count := congrArg List.length
    (treats.completes.formals ((turn.tells_final isLast).isClean clean))
  rw [turn.symbol_final isLast] at filled ⊢
  rw [Table.formals, length_map, length_map, length_take,
    Nat.min_eq_left filled] at count
  have level := (grows.symbol_level treats.has).trans treats.level
  have takes := turn.takes
  cases part with
  | type => trivial
  | init block =>
    refine ⟨count.trans (congrArg List.length takes),
      (grows.symbol_type treats.has).trans (treats.noResult block rfl), ?_⟩
    rw [Symbol.isVirtual, level]
    exact Bool.and_false _
  | method decl =>
    intro isVirtual
    obtain ⟨types, _, rfl⟩ := takes
    rw [Symbol.isVirtual, Bool.and_eq_true, decide_eq_true_iff, decide_eq_true_iff,
      level] at isVirtual
    cases isStatic : decl.isStatic with
    | true =>
      rw [DeclUnit.receiver?, MethodDecl.receiver?, isStatic] at isVirtual
      cases isVirtual.2
    | false =>
      refine ⟨?_, rfl⟩
      obtain ⟨type, isReceiver⟩ := Option.isSome_iff_exists.mp
        (show (decl.receiver? (start.owner.map ClassContext.type)).isSome from
          Bool.toNat_eq_one.mp isVirtual.2)
      rw [count, isReceiver]
      exact Nat.succ_pos _

end Bodies

/-! ## Programs -/

variable (isLast : IsLast program own main last final) (distinct : program.nodes.Nodup)
include isLast distinct

theorem IsLast.fits (clean : final.IsClean) (split : program.units = earlier ++ part :: later)
    (isCode : part.IsCode) :
    ∃ id, part.Fits program (settingOf program final) earlier id := by
  obtain ⟨id, formals, first, start, entered, done, turn⟩ :=
    isLast.turns distinct earlier part later split isCode
  have treats := turn.treats
  have grows := treats.completes.grows.trans (turn.grows_final isLast)
  rw [Program.nodes, split] at distinct
  have level := (grows.symbol_level treats.has).trans treats.level
  have frame := turn.frame isLast
  refine ⟨id, turn.owner?_final isLast distinct isCode,
    (grows.symbol_kind treats.has).trans treats.kind, fun before => ?_, fun behind => ?_,
    frame.1, frame.2, turn.suits isLast clean, _, turn.surrounds isLast,
    turn.areNoted isLast distinct isCode clean⟩
  · rw [settingOf, level, grows.symbol_name treats.has]
    cases isReceiver : part.receiver? (start.owner.map ClassContext.type) with
    | none => exact .inr (treats.marked ((treats.completes.tells.trans
        (turn.tells_final isLast)).isClean clean) isReceiver (turn.marked before))
    | some type => exact .inl Nat.one_ne_zero
  · rw [settingOf, level, turn.global behind]
    cases part with
    | type => rfl
    | init => rfl
    | method decl =>
      rw [DeclUnit.receiver?, MethodDecl.receiver?]
      split <;> rfl

theorem IsLast.constant?_eq (clean : final.IsClean)
    (isConst : (final.table.symbol id).kind = .const)
    (hasValue : (final.table.symbol id).type ≠ .null) :
    program.constant? final.table id = some (Int32.ofInt (final.table.symbol id).address) := by
  obtain ⟨first, enlists, starts⟩ := isLast.enlists
  have grows := isLast.carries.toGrows
  have cleanLast := isLast.tells.isClean clean
  rw [Program.constant?]
  split
  next known =>
    have all := (starts.grows.trans enlists.succeeds.grows).trans grows
    rw [all.symbol_kind known] at isConst
    rw [all.symbol_type known] at hasValue
    obtain ⟨name, value⟩ := predefined_constants known isConst hasValue
    rw [all.symbol_name known, all.symbol_address known, if_pos name, value]
    rfl
  next isNew =>
    have hasLast : last.table.HasSymbol id := by
      by_contra missing
      rw [Table.HasSymbol, ← isLast.size] at missing
      have valid := isLast.settled.valid
      rw [Table.symbol_of_not_hasSymbol missing, grows.symbol_kind valid.hasSymbol_absent,
        valid.kind_absent] at isConst
      cases isConst
    rw [grows.symbol_kind hasLast] at isConst
    rw [grows.symbol_name hasLast, grows.symbol_address hasLast]
    have grants := (starts.grants _).trans (enlists.accounts distinct).grants
    obtain ⟨word, declared, value⟩ := (grants.fair cleanLast id hasLast isNew
      (isConst.trans_ne (by decide))).constant isConst
    have apart := (enlists.publishes.once cleanLast).apart.sublist program.constants_sublist
    obtain ⟨entry, found⟩ : ∃ entry, program.constants.find? (fun entry =>
        entry.1 = (last.table.symbol id).name) = some entry :=
      Option.isSome_iff_exists.mp (find?_isSome.mpr ⟨_, declared, decide_eq_true rfl⟩)
    have named := find?_some found
    obtain rfl := inj_on_of_nodup_map apart (mem_of_find?_eq_some found) declared
      (of_decide_eq_true named)
    rw [found, value, Int32.ofInt_toInt]
    rfl

end Check

/-- An analysis without violations is complete and consistent. -/
theorem analyze_isSound {options : Options} (accepted : (analyze options program).errorCount = 0)
    (distinct : program.nodes.Nodup) :
    (analyze options program).IsSound program := by
  obtain ⟨last, final, isLast, table, classes, clean, notes, _, builtins, staticInits⟩ :=
    Analysis.exists_isLast options program
  obtain ⟨first, enlists, starts⟩ := isLast.enlists
  replace clean := clean accepted
  have accounts := enlists.accounts distinct
  have grows := isLast.carries.toGrows
  have seededAll : (analyze options program).builtins = Check.seeded.builtins :=
    builtins.trans isLast.builtins_eq
  have noted : final.notes = last.notes := isLast.notes
  have setting : (analyze options program).setting program = Check.settingOf program final := by
    rw [Analysis.setting, table, notes, builtins]
    rfl
  constructor
  · exact Analysis.analyze_isValid options program
  · rw [table]
    exact isLast.settled.orderly.toIsPlaced.of_bare grows isLast.size isLast.globalCount
  · intro decl isUnit
    obtain ⟨type, isType⟩ := enlists.exists_type isUnit
    have has := (accounts.types.fresh type (mem_filterMap.mpr ⟨_, isUnit, isType⟩)).2
    rw [table, notes, noted]
    exact ⟨type, isType, grows.hasType has⟩
  · intro earlier part later split isCode
    rw [setting]
    exact isLast.fits distinct clean split isCode
  · intro id has isMethod
    have hasLast : last.table.HasSymbol id := by
      rwa [table, Table.HasSymbol, isLast.size] at has
    rw [table, grows.symbol_kind hasLast] at isMethod
    rw [Setting.HasCode, Analysis.setting, seededAll, notes, noted]
    exact (starts.methods accounts.grants hasLast isMethod).imp_right fun owned => by
      obtain ⟨part, isUnit, owner⟩ := mem_filterMap.mp owned
      exact ⟨part, isUnit, owner⟩
  · rw [notes, noted, seededAll]
    refine List.Nodup.append (by decide +kernel) accounts.owners.distinct
      fun id isBuiltin owned => ?_
    exact (accounts.owners.fresh id owned).1
      (starts.grows.hasSymbol (Check.predefined_isPredefined isBuiltin).has)
  · intro id member
    rw [seededAll] at member
    have predefined := Check.predefined_isPredefined member
    have all := (starts.grows.trans enlists.succeeds.grows).trans grows
    rw [table]
    exact ⟨all.hasSymbol predefined.has, (all.symbol_kind predefined.has).trans predefined.kind,
      (all.symbol_type predefined.has).symm ▸ predefined.result,
      (all.symbol_name predefined.has).symm ▸ predefined.name⟩
  · rw [staticInits, isLast.staticInits, accounts.inits, notes, noted,
      show first.staticInits = #[] from congrArg (fun kept => kept.2.2) starts.kept]
    rfl
  · rw [classes, isLast.classes, accounts.classes, notes, noted, starts.classes]
    rfl
  · rw [classes, isLast.classes, accounts.classes, starts.classes]
    exact accounts.types.distinct
  · intro type member id inside
    obtain ⟨has, isClass⟩ := Analysis.isClass_of_mem_classes member
    have isMember := (Analysis.analyze_isClosed has isClass).members id inside
    exact ⟨isMember.has, isMember.level⟩
  · intro type member
    obtain ⟨has, isClass⟩ := Analysis.isClass_of_mem_classes member
    exact (Analysis.analyze_isClosed has isClass).names
  · intro id isMain
    obtain ⟨leads, isMethod⟩ := isLast.main id isMain
    rw [table, grows.symbol_kind leads.has, grows.symbol_level leads.has,
      grows.symbol_name leads.has]
    exact ⟨isMethod, leads.level, leads.named⟩
  · rw [table]
    exact fun id => isLast.constant?_eq distinct clean

end MicroJava
