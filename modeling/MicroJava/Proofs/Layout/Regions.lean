import MicroJava.Proofs.Layout.Building

/-!
# The regions of a program

Every region is the code of a predefined method, or of a static initializer or method whose
body keeps the rules.
-/

namespace MicroJava

open List Instruction

variable {analysis : Analysis} {program : Program} {region : Region} {part : DeclUnit}
  {id : SymbolId} {done rest : List CodeUnit} {earlier later : List DeclUnit}

/-! ## Layouts at a unit -/

namespace Layout

theorem UnitsDefined.split {layout : Layout} {part : CodeUnit}
    (defined : layout.UnitsDefined analysis (done ++ part :: rest)) :
    (done.foldl (add analysis) layout).UnitDefined analysis part := by
  induction done generalizing layout with
  | nil => exact defined.1
  | cons first done ih => exact ih defined.2

end Layout

theorem Program.mem_methods_of_split (split : program.units = earlier ++ part :: later)
    (late : program.split ≤ earlier.length) :
    part ∈ program.methods.map DeclUnit.method := by
  rw [units, unitsOf, ← append_assoc] at split
  rw [Program.split] at late
  rcases split_append split with ⟨middle, front, _⟩ | ⟨middle, _, methods⟩
  · rw [front, length_append, length_cons] at late
    omega
  · rw [methods]
    simp

/-- The statements of a unit and what they are compiled with. -/
structure Body where
  site : Site
  setting : Setting
  prologue : List Instruction
  start : Nat
  statements : List Stmt

namespace Body

/-- The code of the statements. -/
def code (body : Body) : List Instruction := body.site.stmtsCode body.start 0 0 body.statements

/-- The most receivers that are parked at once. -/
def peak (body : Body) : Nat := body.site.stmtsPeak body.statements

end Body

/-- What the body of a method is compiled with. -/
structure Site.IsOf (site : Site) (analysis : Analysis) (method : SymbolId) : Prop where
  notes : site.notes = analysis.notes
  places : site.table.Places analysis.table
  frameBase : site.frameBase = (analysis.table.symbol method).locals.length

theorem Site.exists_isOf (analysis : Analysis) (method : SymbolId) :
    ∃ site : Site, site.IsOf analysis method :=
  ⟨⟨analysis.notes, analysis.table, _⟩, rfl, .refl _, rfl⟩

namespace Analysis

/-- The regions of a program. -/
def regions (analysis : Analysis) (program : Program) : List Region :=
  (analysis.layoutOf program).regions

/-- The analysis of a program whose methods have the addresses of their regions. -/
abbrev laidOut (analysis : Analysis) (program : Program) : Analysis :=
  { analysis with table := (analysis.layoutOf program).table }

/-- A region holds the code of a unit of the program. -/
structure Compiles (analysis : Analysis) (program : Program) (region : Region)
    (body : Body) : Prop where
  unit : ∃ part ∈ program.units, part.owner? analysis.notes = some region.owner ∧
    part.body = body.statements ∧ part.Suits (analysis.table.symbol region.owner)
  table : body.setting.table = analysis.table
  plain : body.setting.plain = program.IsPlain
  locals : body.setting.locals = (analysis.table.symbol region.owner).locals
  receiver : body.setting.receiver = (analysis.table.symbol region.owner).isVirtual
  result : body.setting.result = (analysis.table.symbol region.owner).type
  count : (analysis.table.symbol region.owner).paramCount ≤
    (analysis.table.symbol region.owner).locals.length
  slots : analysis.table.AreSlots (analysis.table.symbol region.owner).locals
  site : ∃ done rest part, analysis.units program = done ++ .declared part :: rest ∧
    part.owner? analysis.notes = some region.owner ∧
    body.site = (Layout.of analysis done).site analysis.notes region.owner ∧
    ∀ unit ∈ body.setting.units, CodeUnit.declared unit ∈ done ++ [.declared part]
  sees : body.site.Sees body.setting
  placed : ∀ id, (analysis.table.symbol id).kind = .method →
    0 ≤ (body.site.table.symbol id).address →
      ∃ other ∈ analysis.regions program, other.owner = id ∧
        (body.site.table.symbol id).address = (other.start : Int)
  frameBase : body.site.frameBase = (analysis.table.symbol region.owner).locals.length
  noted : Stmt.AreNoted body.setting false body.statements
  defined : body.site.StmtsDefined body.statements
  prologue : body.prologue = analysis.prologueCode body.site.table region.owner
  prepared : analysis.main = some region.owner → analysis.PrologueDefined body.site.table
  start : body.start = region.start + 3 + totalSize body.prologue
  code : region.code =
    .enter (analysis.table.symbol region.owner).paramCount (body.site.frameBase + body.peak) ::
      (body.prologue ++ (body.code ++ endCode (analysis.table.symbol region.owner).type))

namespace Compiles

variable {body : Body} (compiles : analysis.Compiles program region body)
include compiles

theorem front (params size : Nat) :
    region.start + totalSize (.enter params size :: body.prologue) = body.start := by
  rw [compiles.start, totalSize_cons, ← Nat.add_assoc]
  rfl

theorem holds_parts {code : Code} (holds : code.Holds region.start region.code) :
    code.Holds region.start (.enter (analysis.table.symbol region.owner).paramCount
        (body.site.frameBase + body.peak) :: body.prologue) ∧
      code.Holds body.start body.code ∧
      code.Holds (body.start + body.site.stmtsSize body.statements)
        (endCode (analysis.table.symbol region.owner).type) := by
  rwa [compiles.code, ← cons_append, Code.holds_append, Code.holds_append, compiles.front,
    Body.code, Site.totalSize_stmtsCode] at holds

theorem site_notes : body.site.notes = analysis.notes := by
  obtain ⟨_, _, _, _, _, site, _⟩ := compiles.site
  rw [site]
  rfl

theorem isOf (sound : analysis.IsSound program) :
    body.site.IsOf (analysis.laidOut program) region.owner := by
  have places := compiles.sees.places
  have late := sound.followsAll.places
  rw [compiles.table] at places
  exact ⟨compiles.site_notes, places.between late, by rw [compiles.frameBase, late.locals]⟩

end Compiles

namespace IsSound

theorem split_units (split : analysis.units program = done ++ .declared part :: rest) :
    ∃ earlier later, program.units = earlier ++ part :: later ∧
      done = analysis.builtins.all.map CodeUnit.builtin ++ earlier.map CodeUnit.declared ∧
      rest = later.map CodeUnit.declared := by
  rw [Analysis.units] at split
  rcases split_append split with ⟨middle, builtins, _⟩ | ⟨middle, before, behind⟩
  · -- A declared unit is none of the predefined methods.
    have member : CodeUnit.declared part ∈ analysis.builtins.all.map CodeUnit.builtin := by
      rw [builtins]
      simp
    obtain ⟨_, _, same⟩ := mem_map.mp member
    cases same
  · obtain ⟨earlier, behind, whole, rfl, tail⟩ := map_eq_append_iff.mp behind
    obtain ⟨unit, later, rfl, same, rfl⟩ := map_eq_cons_iff.mp tail
    obtain rfl := CodeUnit.declared.inj same
    exact ⟨earlier, later, whole, before, rfl⟩

theorem mem_units {builtins : List CodeUnit} {unit : DeclUnit} (member : unit ∈ earlier ++ [part]) :
    CodeUnit.declared unit ∈ (builtins ++ earlier.map CodeUnit.declared) ++ [.declared part] := by
  rw [append_assoc]
  refine mem_append_right _ ?_
  rw [← map_singleton, ← map_append]
  exact mem_map_of_mem member

theorem split_le_of_main (sound : analysis.IsSound program)
    (split : program.units = earlier ++ part :: later)
    (owner : part.owner? analysis.notes = some id) (isMain : analysis.main = some id) :
    program.split ≤ earlier.length := by
  obtain ⟨_, level, name⟩ := sound.main id isMain
  by_contra early
  rcases (sound.fits_of_owner split owner).marked (Nat.not_le.mp early) with nonzero | qualified
  · exact nonzero level
  · rw [show ((analysis.setting program).table.symbol id).name = "main" from name] at qualified
    exact absurd qualified (by simp [IsQualified])

theorem main_ne_init {block : StaticInit} (sound : analysis.IsSound program)
    (split : program.units = earlier ++ .init block :: later)
    (owner : analysis.notes.symbol? block.node.id = some id) :
    analysis.main ≠ some id := by
  intro isMain
  -- Behind the declarations there are only methods.
  have behind := Program.mem_methods_of_split split (sound.split_le_of_main split owner isMain)
  obtain ⟨_, _, same⟩ := mem_map.mp behind
  cases same

theorem site_sees (setting : Setting) (sound : analysis.IsSound program)
    (split : analysis.units program = done ++ rest)
    (kind : (analysis.table.symbol id).kind = .method) (notes : setting.notes = analysis.notes)
    (table : setting.table = analysis.table) :
    ((Layout.of analysis done).site analysis.notes id).Sees setting ∧
      ((Layout.of analysis done).site analysis.notes id).frameBase =
        (analysis.table.symbol id).locals.length := by
  have places : analysis.table.Places ((Layout.of analysis done).placed id) :=
    (sound.follows split).places.updateSymbol sound.valid kind _
  refine ⟨⟨notes.symm, by rw [table]; exact places, table ▸ sound.valid⟩, ?_⟩
  exact congrArg List.length (places.locals id)

variable (sound : analysis.IsSound program)
include sound

theorem site_placed {part : CodeUnit} {owner : SymbolId} (id : SymbolId)
    (split : analysis.units program = done ++ part :: rest)
    (isOwner : part.owner? analysis.notes = some owner)
    (kind : (analysis.table.symbol id).kind = .method)
    (placed : 0 ≤ (((Layout.of analysis done).site analysis.notes owner).table.symbol id).address) :
    ∃ other ∈ analysis.regions program, other.owner = id ∧
      (((Layout.of analysis done).site analysis.notes owner).table.symbol id).address =
        (other.start : Int) := by
  rw [← Layout.table_concat done part isOwner] at placed ⊢
  exact sound.exists_region (split.trans (append_cons ..)) kind placed

theorem compiles (defined : Layout.Defined analysis (analysis.units program))
    (split : analysis.units program = done ++ .declared part :: rest)
    (owner : part.owner? analysis.notes = some region.owner)
    (kind : (analysis.table.symbol region.owner).kind = .method)
    (start : region.start = (Layout.of analysis done).size)
    (code : region.code = (Layout.of analysis done).code analysis region.owner (.declared part)) :
    ∃ body, analysis.Compiles program region body := by
  obtain ⟨earlier, later, splitUnits, isDone, _⟩ := split_units split
  have member : part ∈ program.units := by rw [splitUnits]; simp
  have fits := sound.fits_of_owner splitUnits owner
  obtain ⟨around, _, noted⟩ := fits.noted
  have each := defined.each
  rw [split] at each
  have unit := each.split
  obtain ⟨sees, frameBase⟩ := site_sees
    ((analysis.setting program).inside region.owner (earlier ++ [part]) around) sound split kind
    rfl rfl
  have placed := fun id => sound.site_placed id split owner
  have units : ∀ unit ∈ earlier ++ [part],
      CodeUnit.declared unit ∈ done ++ [CodeUnit.declared part] := by
    rw [isDone]
    exact fun unit member => mem_units member
  let body : Body :=
    { site := (Layout.of analysis done).site analysis.notes region.owner
      setting := (analysis.setting program).inside region.owner (earlier ++ [part]) around
      prologue := analysis.prologueCode ((Layout.of analysis done).placed region.owner) region.owner
      start := region.start + 3 + totalSize
        (analysis.prologueCode ((Layout.of analysis done).placed region.owner) region.owner)
      statements := part.body }
  refine ⟨body, ?_⟩
  cases part with
  | type decl => cases owner
  | init block =>
    have named : analysis.notes.symbol? block.node.id = some region.owner := owner
    have notMain := sound.main_ne_init splitUnits named
    have bodyDefined := unit.2
    simp only [named, Option.getD_some] at bodyDefined
    refine ⟨⟨_, member, owner, rfl, fits.suits⟩, rfl, rfl, rfl, rfl, rfl, fits.count,
      fits.slots, ⟨done, rest, _, split, owner, rfl, units⟩, sees, placed, frameBase, noted,
      bodyDefined, rfl, fun isMain => absurd isMain notMain, rfl, ?_⟩
    have noPrologue : body.prologue = [] := if_neg notMain
    have noSkip : body.start = region.start + 3 := by
      change region.start + 3 + totalSize body.prologue = _
      rw [noPrologue]
      rfl
    have noParams : (analysis.table.symbol region.owner).paramCount = 0 := fits.suits.1
    have noResult : (analysis.table.symbol region.owner).type = .none := fits.suits.2.1
    rw [code, noParams, noResult, noPrologue, Body.code, noSkip, start]
    rfl
  | method decl =>
    have named : analysis.notes.symbol? decl.node.id = some region.owner := owner
    obtain ⟨_, prepared, bodyDefined⟩ := unit
    simp only [named, Option.getD_some] at prepared bodyDefined
    refine ⟨⟨_, member, owner, rfl, fits.suits⟩, rfl, rfl, rfl, rfl, rfl, fits.count,
      fits.slots, ⟨done, rest, _, split, owner, rfl, units⟩, sees, placed, frameBase, noted,
      bodyDefined, rfl, prepared, rfl, ?_⟩
    have symbol : body.site.table.symbol region.owner = _ := sees.places.symbol region.owner
    have method : region.code = .enter (body.site.table.symbol region.owner).paramCount
        (body.site.frameBase + body.peak) :: (body.prologue ++ (body.code ++
          endCode (body.site.table.symbol region.owner).type)) := by
      rw [code, Layout.code, Site.methodCode, ← start]
      simp only [append_assoc]
      rfl
    rw [method, symbol]
    rfl

/-- A region holds the code of a predefined method or of a unit of the program. -/
theorem region_cases (defined : Layout.Defined analysis (analysis.units program))
    (member : region ∈ (analysis.layoutOf program).regions) :
    (region.owner ∈ analysis.builtins.all ∧ region.code = analysis.builtins.code region.owner) ∨
      ∃ body, analysis.Compiles program region body := by
  obtain ⟨done, unit, rest, split, owner, kind, start, code⟩ :=
    Layout.isLaid_of_mem (fun part inside => sound.isKnown inside) member
  cases unit with
  | builtin id =>
    obtain rfl := Option.some.inj owner
    refine .inl ⟨?_, code⟩
    have isUnit : CodeUnit.builtin region.owner ∈ analysis.units program := by rw [split]; simp
    rcases mem_append.mp isUnit with builtin | declared
    · obtain ⟨id, isBuiltin, same⟩ := mem_map.mp builtin
      exact CodeUnit.builtin.inj same ▸ isBuiltin
    · obtain ⟨_, _, same⟩ := mem_map.mp declared
      cases same
  | declared part =>
    exact .inr (sound.compiles defined split owner kind start code)

theorem eq_of_owner {first second : DeclUnit} (isFirst : first ∈ program.units)
    (isSecond : second ∈ program.units) (firstOwner : first.owner? analysis.notes = some id)
    (secondOwner : second.owner? analysis.notes = some id) :
    first = second := by
  have apart := pairwise_iff_getElem.mp
    (pairwise_filterMap.mp (nodup_append.mp sound.distinct).2.1)
  obtain ⟨here, isHere, rfl⟩ := getElem_of_mem isFirst
  obtain ⟨there, isThere, rfl⟩ := getElem_of_mem isSecond
  rcases Nat.lt_trichotomy here there with before | rfl | behind
  · exact absurd rfl (apart here there isHere isThere before id firstOwner id secondOwner)
  · rfl
  · exact absurd rfl (apart there here isThere isHere behind id secondOwner id firstOwner)

theorem not_builtin_of_owner (isPart : part ∈ program.units)
    (owner : part.owner? analysis.notes = some id) :
    id ∉ analysis.builtins.all := fun isBuiltin =>
  (nodup_append.mp sound.distinct).2.2 id isBuiltin id
    (mem_filterMap.mpr ⟨part, isPart, owner⟩) rfl

theorem exists_compiles (defined : Layout.Defined analysis (analysis.units program))
    (isPart : part ∈ program.units) (owner : part.owner? analysis.notes = some id) :
    ∃ region ∈ analysis.regions program, region.owner = id ∧
      ∃ body, analysis.Compiles program region body ∧ body.statements = part.body := by
  have isOwner : id ∈ (analysis.units program).filterMap (CodeUnit.owner? analysis.notes) := by
    rw [owners_eq]
    exact mem_append_right _ (mem_filterMap.mpr ⟨part, isPart, owner⟩)
  rw [← sound.followsAll.owners] at isOwner
  obtain ⟨region, isRegion, rfl⟩ := mem_map.mp isOwner
  obtain ⟨body, compiles⟩ := (sound.region_cases defined isRegion).resolve_left
    fun ⟨isBuiltin, _⟩ => sound.not_builtin_of_owner isPart owner isBuiltin
  obtain ⟨other, isOther, otherOwner, isBody, _⟩ := compiles.unit
  obtain rfl := sound.eq_of_owner isPart isOther owner otherOwner
  exact ⟨region, isRegion, rfl, body, compiles, isBody.symm⟩

end IsSound
end Analysis
end MicroJava
