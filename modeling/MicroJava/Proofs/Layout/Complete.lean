import MicroJava.Proofs.Layout.Dispatch
import MicroJava.Proofs.Layout.WellFormed

/-!
# What generation may lack

Analysis does not check that what members are looked up in, or what an array is unpacked from,
has a value.  If all of these can be loaded, generation fails at most on the limits of the
instruction set.
-/

namespace MicroJava

open List

variable {analysis : Analysis} {node : Node} {program : Program} {setting : Setting}
  {id : SymbolId} {done rest : List CodeUnit} {earlier later : List DeclUnit} {part : DeclUnit}
  {callee : Designator} {layout : Layout}

/-! ## Where values are needed -/

/-- A designator stands for something with a value. -/
def Designator.Loads (notes : Annotations) (table : Table) (designator : Designator) : Prop :=
  ∃ id, notes.symbol? designator.id = some id ∧ (table.symbol id).hasValue

instance (notes : Annotations) (table : Table) (designator : Designator) :
    Decidable (designator.Loads notes table) :=
  decidable_of_iff ((notes.symbol? designator.id).any fun id => (table.symbol id).hasValue)
    (by simp [Designator.Loads, Option.any_eq_true])

namespace Part

/-- What a part is looked up in can be loaded; a member may also be looked up in a class. -/
def LoadsBase (notes : Annotations) (table : Table) : Part → Prop
  | designator (.element _ base _) => base.Loads notes table
  | designator (.member _ base _) =>
      ∃ id, notes.symbol? base.id = some id ∧
        ((table.symbol id).kind = .type ∨ (table.symbol id).hasValue)
  | _ => True

instance (notes : Annotations) (table : Table) (part : Part) :
    Decidable (part.LoadsBase notes table) :=
  match part with
  | designator (.element _ base _) => inferInstanceAs (Decidable (base.Loads notes table))
  | designator (.member _ base _) =>
      decidable_of_iff ((notes.symbol? base.id).any fun id =>
          (table.symbol id).kind = .type ∨ (table.symbol id).hasValue)
        (by simp [LoadsBase, Option.any_eq_true])
  | designator (.name _ _) => .isTrue trivial
  | designator (.qualified _ _ _) => .isTrue trivial
  | expression _ => .isTrue trivial

end Part

/-- What an action unpacks. -/
def Action.sources : Action → List Designator
  | .unpack _ _ _ source => [source]
  | _ => []

mutual

/-- What a statement unpacks. -/
def Stmt.sources (statement : Stmt) : List Designator :=
  match statement with
  | .action step => step.sources
  | .ifThen _ _ body => body.sources
  | .ifElse _ _ body alternative => body.sources ++ alternative.sources
  | .loop _ init _ update body =>
      init.flatMap Action.sources ++ update.flatMap Action.sources ++ body.sources
  | .block _ body => Stmt.sourcesOf body
  | _ => []

/-- What statements that follow each other unpack. -/
def Stmt.sourcesOf (statements : List Stmt) : List Designator :=
  match statements with
  | [] => []
  | first :: rest => first.sources ++ Stmt.sourcesOf rest

end

/-- What a program unpacks. -/
def Program.sources (program : Program) : List Designator :=
  program.units.flatMap fun part => Stmt.sourcesOf part.body

/-- All that has to be loaded can be loaded. -/
structure Analysis.LoadsAll (analysis : Analysis) (program : Program) : Prop where
  /-- What elements and members are looked up in. -/
  bases : ∀ part ∈ program.parts, part.LoadsBase analysis.notes analysis.table
  /-- What arrays are unpacked from. -/
  sources : ∀ source ∈ program.sources, source.Loads analysis.notes analysis.table

/-! ## Bodies -/

theorem Symbol.hasValue_of_isAssignable {symbol : Symbol} (assignable : symbol.isAssignable) :
    symbol.hasValue := by
  unfold isAssignable at assignable
  unfold hasValue
  split at assignable <;> simp_all

theorem Expr.IsNoted.exists_noted {expression : Expr} (noted : expression.IsNoted setting) :
    ∃ type, setting.notes.type? expression.id = some type := by
  cases expression with
  | literal _ _ => exact ⟨_, noted⟩
  | load _ _ =>
    obtain ⟨_, _, _, _, isTyped⟩ := noted
    exact ⟨_, isTyped⟩
  | call _ _ | neg _ _ =>
    obtain ⟨_, _, _, isTyped, _⟩ := noted
    exact ⟨_, isTyped⟩
  | newArray _ _ _ =>
    obtain ⟨_, _, isTyped, _⟩ := noted
    exact ⟨_, isTyped⟩
  | newObject _ _ =>
    obtain ⟨_, isTyped, _⟩ := noted
    exact ⟨_, isTyped⟩
  | arith _ _ _ _ =>
    obtain ⟨_, _, _, _, _, _, _, isTyped, _⟩ := noted
    exact ⟨_, isTyped⟩

namespace Site

/-- All that the rules promise is there. -/
structure Provides (site : Site) (setting : Setting) : Prop extends site.Sees setting where
  plain : setting.plain
  methods : ∀ id, setting.HasCode id → 0 ≤ (site.table.symbol id).address
  classes : ∀ type, setting.HasObjects type → (site.table.desc type).dispatch.isSome

variable {site : Site}

theorem Sees.isNamed (sees : site.Sees setting) (noted : setting.notes.symbol? node.id = some id) :
    site.IsNamed node := by
  rw [IsNamed, sees.notes, noted]
  rfl

theorem Sees.isTyped {type : TypeId} (sees : site.Sees setting)
    (noted : setting.notes.type? node.id = some type) :
    site.IsTyped node := by
  rw [IsTyped, sees.notes, noted]
  rfl

theorem Sees.canLoad {designator : Designator} (sees : site.Sees setting)
    (noted : setting.notes.symbol? designator.id = some id)
    (hasValue : (setting.table.symbol id).hasValue) :
    site.CanLoad designator := by
  rw [CanLoad, sees.symbolAt noted, sees.places.hasValue]
  exact hasValue

section

variable (provides : site.Provides setting)
include provides

theorem Provides.callee_placed (noted : callee.IsNoted setting)
    (defined : site.AccessDefined callee) (isNoted : setting.notes.symbol? callee.id = some id)
    (isMethod : (setting.table.symbol id).kind = .method) :
    0 ≤ (site.table.symbol id).address := by
  have found := provides.isFound noted defined
  rw [provides.symbolAt isNoted] at found
  exact provides.methods id ((found.finds (by rw [isMethod]; decide)).method isMethod)

theorem Provides.receiverDefined (noted : callee.IsNoted setting)
    (defined : site.AccessDefined callee) (isVirtual : site.IsVirtual callee) :
    site.ReceiverDefined callee := by
  rw [IsVirtual, provides.places.isVirtual] at isVirtual
  have level : (setting.table.symbol (site.symbolAt callee.node)).level ≠ 0 := by
    rw [Symbol.isVirtual, Bool.and_eq_true, decide_eq_true_iff, decide_eq_true_iff] at isVirtual
    rw [isVirtual.2]
    decide
  cases callee with
  | name _ _ => trivial
  | qualified node _ _ =>
    obtain ⟨id, isNoted, _, global, _⟩ := noted
    rw [Designator.node, provides.symbolAt isNoted] at level
    exact absurd (global provides.plain) level
  | element node base index =>
    have found := provides.isFound noted defined
    obtain ⟨_, _, array, id, _, isNoted, isElement⟩ := noted
    rw [Designator.node, provides.symbolAt isNoted] at isVirtual found
    simp only [Setting.IsElement] at isElement
    split at isElement
    next =>
      rw [Symbol.isVirtual, isElement.2.1] at isVirtual
      exact absurd isVirtual (by simp)
    next => exact absurd isElement.1 found.present
  | member node base _ =>
    obtain ⟨_, owner, id, isOwner, isNoted, isMember⟩ := noted
    rw [Designator.node, provides.symbolAt isNoted] at level
    refine defined.2.2 ?_
    rw [provides.places.kind, provides.symbolAt isOwner]
    intro isType
    simp only [Setting.IsMember] at isMember
    split at isMember
    next => exact level (isMember.2.1 provides.plain isType)
    next none =>
      exact (provides.valid.type_names _ (provides.valid.symbol_mem owner) isType).1 isMember.2

end

mutual

theorem accessDefined (provides : site.Provides setting) {designator : Designator}
    (noted : designator.IsNoted setting)
    (loads : ∀ part ∈ designator.parts, part.LoadsBase setting.notes setting.table) :
    site.AccessDefined designator := by
  match designator with
  | .name _ _ | .qualified _ _ _ =>
    obtain ⟨id, isNoted, _⟩ := noted
    exact provides.isNamed isNoted
  | .element _ base index =>
    obtain ⟨baseNoted, indexNoted, array, id, _, isNoted, _⟩ := noted
    obtain ⟨other, isOther, hasValue⟩ := loads _ mem_cons_self
    exact ⟨provides.isNamed isNoted,
      accessDefined provides baseNoted fun part inside =>
        loads part (mem_cons_of_mem _ (mem_append_left _ inside)),
      provides.canLoad isOther hasValue,
      exprDefined provides indexNoted fun part inside =>
        loads part (mem_cons_of_mem _ (mem_append_right _ inside))⟩
  | .member _ base _ =>
    obtain ⟨baseNoted, owner, id, isOwner, isNoted, _⟩ := noted
    obtain ⟨other, isOther, stands⟩ := loads _ mem_cons_self
    refine ⟨provides.isNamed isNoted, provides.isNamed isOwner, fun notType => ?_⟩
    rw [provides.places.kind, provides.symbolAt isOther] at notType
    exact ⟨accessDefined provides baseNoted fun part inside =>
      loads part (mem_cons_of_mem _ inside),
      provides.canLoad isOther (stands.resolve_left notType)⟩

theorem exprDefined (provides : site.Provides setting) {expression : Expr}
    (noted : expression.IsNoted setting)
    (loads : ∀ part ∈ expression.parts, part.LoadsBase setting.notes setting.table) :
    site.ExprDefined expression := by
  match expression with
  | .literal _ _ => trivial
  | .load _ source =>
    obtain ⟨sourceNoted, id, isNoted, hasValue, _⟩ := noted
    exact ⟨accessDefined provides sourceNoted fun part inside =>
      loads part (mem_cons_of_mem _ inside), provides.canLoad isNoted hasValue⟩
  | .call _ target =>
    exact callDefined provides noted.1 fun part inside => loads part (mem_cons_of_mem _ inside)
  | .newArray _ _ length =>
    obtain ⟨lengthNoted, type, isTyped, _⟩ := noted
    exact ⟨provides.isTyped isTyped, exprDefined provides lengthNoted fun part inside =>
      loads part (mem_cons_of_mem _ inside)⟩
  | .newObject _ _ =>
    obtain ⟨type, isTyped, _, hasObjects⟩ := noted
    refine ⟨provides.isTyped isTyped, ?_⟩
    rw [provides.typeAt isTyped]
    exact provides.classes type hasObjects
  | .neg _ operand =>
    obtain ⟨operandNoted, _⟩ := noted
    have defined : site.ExprDefined operand := exprDefined provides operandNoted
      fun part inside => loads part (mem_cons_of_mem _ inside)
    exact defined
  | .arith _ _ left right =>
    exact ⟨exprDefined provides noted.1 fun part inside =>
        loads part (mem_cons_of_mem _ (mem_append_left _ inside)),
      exprDefined provides noted.2.1 fun part inside =>
        loads part (mem_cons_of_mem _ (mem_append_right _ inside))⟩

theorem exprsDefined (provides : site.Provides setting) {expressions : List Expr}
    (noted : Expr.AreNoted setting expressions)
    (loads : ∀ part ∈ Expr.partsOf expressions, part.LoadsBase setting.notes setting.table) :
    site.ExprsDefined expressions := by
  match expressions with
  | [] => trivial
  | first :: rest =>
    exact ⟨exprDefined provides noted.1 fun part inside =>
        loads part (mem_append_left _ inside),
      exprsDefined provides noted.2 fun part inside => loads part (mem_append_right _ inside)⟩

theorem callDefined (provides : site.Provides setting) {target : Call}
    (noted : target.IsNoted setting)
    (loads : ∀ part ∈ target.parts, part.LoadsBase setting.notes setting.table) :
    site.CallDefined target := by
  match target with
  | .mk _ callee arguments =>
    obtain ⟨calleeNoted, argumentsNoted, id, isNoted, isCallee⟩ := noted
    have defined : site.AccessDefined callee := accessDefined provides calleeNoted
      fun part inside => loads part (mem_append_left _ inside)
    refine ⟨provides.isNamed isNoted, provides.receiverDefined calleeNoted defined,
      exprsDefined provides argumentsNoted fun part inside =>
        loads part (mem_append_right _ inside), fun _ => ?_⟩
    rw [provides.symbolAt isNoted]
    rcases isCallee with rfl | ⟨isMethod, _⟩
    · exact absurd (provides.symbolAt isNoted ▸ provides.isFound calleeNoted defined).present
        (not_not_intro rfl)
    · exact provides.callee_placed calleeNoted defined isNoted isMethod

end

theorem targetDefined (provides : site.Provides setting) {target : Designator}
    (noted : target.IsNoted setting) (isTarget : setting.IsTarget target)
    (loads : ∀ part ∈ target.parts, part.LoadsBase setting.notes setting.table) :
    site.TargetDefined target := by
  have defined := accessDefined provides noted loads
  refine ⟨defined, ?_⟩
  obtain ⟨id, isNoted, absent | assignable⟩ := isTarget
  · exact absurd absent (provides.symbolAt isNoted ▸ provides.isFound noted defined).present
  · rw [CanStore, provides.symbolAt isNoted, provides.places.isAssignable]
    exact assignable

theorem conditionDefined (provides : site.Provides setting) {condition : Condition}
    (noted : condition.IsNoted setting)
    (loads : ∀ part ∈ Condition.parts condition, part.LoadsBase setting.notes setting.table) :
    site.ConditionDefined condition := by
  intro term isTerm fact isFact
  have noted := noted term isTerm fact isFact
  have loads : ∀ part ∈ fact.parts, part.LoadsBase setting.notes setting.table :=
    fun part inside => loads part
      (mem_flatMap.mpr ⟨term, isTerm, mem_flatMap.mpr ⟨fact, isFact, inside⟩⟩)
  match fact with
  | .truth value => exact exprDefined provides noted loads
  | .relation _ left _ right =>
    exact ⟨exprDefined provides noted.1 fun part inside =>
        loads part (mem_append_left _ inside),
      exprDefined provides noted.2 fun part inside => loads part (mem_append_right _ inside)⟩

theorem actionDefined (provides : site.Provides setting) {action : Action}
    (noted : action.IsNoted setting)
    (loads : ∀ part ∈ action.parts, part.LoadsBase setting.notes setting.table)
    (sources : ∀ source ∈ action.sources, source.Loads setting.notes setting.table) :
    site.ActionDefined action := by
  match action with
  | .assign _ target value =>
    obtain ⟨targetNoted, isTarget, valueNoted⟩ := noted
    exact ⟨targetDefined provides targetNoted isTarget fun part inside =>
        loads part (mem_append_left _ inside),
      exprDefined provides valueNoted fun part inside =>
        loads part (mem_append_right _ inside)⟩
  | .increment _ target | .decrement _ target => exact targetDefined provides noted.1 noted.2 loads
  | .call _ target => exact callDefined provides noted loads
  | .unpack _ targets rest source =>
    obtain ⟨restNoted, isRest, sourceNoted, targetsNoted, _⟩ := noted
    have restDefined : site.TargetDefined rest := targetDefined provides restNoted isRest
      fun part inside =>
        loads part (mem_append_left _ (mem_append_left _ inside))
    obtain ⟨id, isNoted, hasValue⟩ := sources source mem_cons_self
    refine ⟨⟨restDefined.1, ?_⟩, ⟨accessDefined provides sourceNoted fun part inside =>
        loads part (mem_append_left _ (mem_append_right _ inside)),
      provides.canLoad isNoted hasValue⟩, fun target isTarget => ?_⟩
    · exact Symbol.hasValue_of_isAssignable restDefined.2
    · obtain ⟨targetNoted, isPlace⟩ := targetsNoted target isTarget
      exact targetDefined provides targetNoted isPlace fun part inside =>
        loads part (mem_append_right _ (mem_flatMap.mpr ⟨some target, isTarget, inside⟩))

mutual

theorem stmtDefined (provides : site.Provides setting) {inLoop : Bool} {statement : Stmt}
    (noted : statement.IsNoted setting inLoop)
    (loads : ∀ part ∈ statement.parts, part.LoadsBase setting.notes setting.table)
    (sources : ∀ source ∈ statement.sources, source.Loads setting.notes setting.table) :
    site.StmtDefined statement := by
  match statement with
  | .action step => exact actionDefined provides noted loads sources
  | .ifThen _ condition body =>
    exact ⟨conditionDefined provides noted.1 fun part inside =>
        loads part (mem_append_left _ inside),
      stmtDefined provides noted.2 (fun part inside => loads part (mem_append_right _ inside))
        sources⟩
  | .ifElse _ condition body alternative =>
    exact ⟨conditionDefined provides noted.1 fun part inside =>
        loads part (mem_append_left _ (mem_append_left _ inside)),
      stmtDefined provides noted.2.1
        (fun part inside => loads part (mem_append_left _ (mem_append_right _ inside)))
        fun source inside => sources source (mem_append_left _ inside),
      stmtDefined provides noted.2.2
        (fun part inside => loads part (mem_append_right _ inside))
        fun source inside => sources source (mem_append_right _ inside)⟩
  | .loop _ init condition update body =>
    obtain ⟨initNoted, conditionNoted, updateNoted, bodyNoted⟩ := noted
    simp only [Stmt.parts, Stmt.sources, mem_append, mem_flatMap] at loads sources
    refine ⟨fun step member => ?_, fun test member => ?_, fun step member => ?_, ?_⟩
    · exact actionDefined provides (initNoted step member)
        (fun part inside => loads part (.inl (.inl (.inl ⟨step, member, inside⟩))))
        fun source inside => sources source (.inl (.inl ⟨step, member, inside⟩))
    · obtain rfl : condition = some test := member
      exact conditionDefined provides (conditionNoted test rfl) fun part inside =>
        loads part (.inl (.inl (.inr inside)))
    · exact actionDefined provides (updateNoted step member)
        (fun part inside => loads part (.inl (.inr ⟨step, member, inside⟩)))
        fun source inside => sources source (.inl (.inr ⟨step, member, inside⟩))
    · exact stmtDefined provides bodyNoted (fun part inside => loads part (.inr inside))
        fun source inside => sources source (.inr inside)
  | .breakLoop _ => trivial
  | .continueLoop _ => trivial
  | .ret _ value =>
    intro result member
    obtain rfl : value = some result := member
    exact exprDefined provides (noted.1 result rfl) loads
  | .read _ target => exact targetDefined provides noted.1 noted.2 loads
  | .print _ value _ =>
    obtain ⟨type, isTyped⟩ := Expr.IsNoted.exists_noted noted
    exact ⟨provides.isTyped isTyped, exprDefined provides noted loads⟩
  | .block _ body => exact stmtsDefined provides noted loads sources

theorem stmtsDefined (provides : site.Provides setting) {inLoop : Bool} {statements : List Stmt}
    (noted : Stmt.AreNoted setting inLoop statements)
    (loads : ∀ part ∈ Stmt.partsOf statements, part.LoadsBase setting.notes setting.table)
    (sources : ∀ source ∈ Stmt.sourcesOf statements, source.Loads setting.notes setting.table) :
    site.StmtsDefined statements := by
  match statements with
  | [] => trivial
  | first :: rest =>
    exact ⟨stmtDefined provides noted.1
      (fun part inside => loads part (mem_append_left _ inside))
        fun source inside => sources source (mem_append_left _ inside),
      stmtsDefined provides noted.2 (fun part inside => loads part (mem_append_right _ inside))
        fun source inside => sources source (mem_append_right _ inside)⟩

end

end Site

/-! ## Programs -/

namespace Layout

theorem unitsDefined_of_split {units : List CodeUnit}
    (each : ∀ done part rest, units = done ++ part :: rest →
      (done.foldl (add analysis) layout).UnitDefined analysis part) :
    layout.UnitsDefined analysis units := by
  induction units generalizing layout with
  | nil => trivial
  | cons first rest ih =>
    refine ⟨each [] first rest rfl, ih fun done part later split => ?_⟩
    exact each (first :: done) part later (by rw [split]; rfl)

theorem Follows.placed {unit : CodeUnit} (follows : layout.Follows analysis done)
    (isDone : unit ∈ done) (owner : unit.owner? analysis.notes = some id) :
    0 ≤ (layout.table.symbol id).address := by
  have isOwner : id ∈ layout.regions.map Region.owner := by
    rw [follows.owners]
    exact mem_filterMap.mpr ⟨unit, isDone, owner⟩
  obtain ⟨region, member, rfl⟩ := mem_map.mp isOwner
  rw [follows.starts region member]
  exact Int.natCast_nonneg _

end Layout

theorem Program.mem_earlier {unit : DeclUnit} (split : program.units = earlier ++ part :: later)
    (late : program.split ≤ earlier.length) (member : unit ∈ program.units)
    (early : ∀ before behind, program.units = before ++ unit :: behind →
      before.length < program.split) :
    unit ∈ earlier := by
  rw [split] at member
  rcases mem_append.mp member with inEarlier | inLater
  · exact inEarlier
  · obtain ⟨before, behind, isLater⟩ := append_of_mem inLater
    have short := early (earlier ++ before) behind (by rw [split, isLater, append_assoc])
    rw [length_append] at short
    omega

namespace Analysis.IsSound

theorem provides (sound : analysis.IsSound program) (plain : program.IsPlain)
    (around : Option TypeId)
    (split : analysis.units program = done ++ .declared part :: rest)
    (isDone : done = analysis.builtins.all.map CodeUnit.builtin ++ earlier.map CodeUnit.declared)
    (owner : part.owner? analysis.notes = some id)
    (kind : (analysis.table.symbol id).kind = .method) :
    ((Layout.of analysis done).site analysis.notes id).Provides
      ((analysis.setting program).inside id (earlier ++ [part]) around) := by
  have whole := split.trans (append_cons ..)
  have table : _ = ((Layout.of analysis done).site analysis.notes id).table :=
    Layout.table_concat done (.declared part) owner
  have units : ∀ unit ∈ earlier ++ [part],
      CodeUnit.declared unit ∈ done ++ [CodeUnit.declared part] := by
    rw [isDone]
    exact fun unit member => mem_units member
  obtain ⟨sees, _⟩ := site_sees
    ((analysis.setting program).inside id (earlier ++ [part]) around) sound split kind rfl rfl
  refine ⟨sees, plain, fun callee hasCode => ?_, fun type ⟨unit, member, isClass⟩ => ?_⟩
  · rw [← table]
    rcases hasCode with builtin | ⟨unit, member, isOwner⟩
    · have member : CodeUnit.builtin callee ∈ done := by
        rw [isDone]
        exact mem_append_left _ (mem_map_of_mem builtin)
      exact (sound.follows whole).placed (mem_append_left _ member) rfl
    · exact (sound.follows whole).placed (units unit member) isOwner
  · rw [← table]
    obtain ⟨slot, place, _⟩ := (sound.reserves whole).exists_of_mem
      (mem_filterMap.mpr ⟨_, units unit member, isClass⟩)
    rw [place]
    rfl

theorem prologueDefined (sound : analysis.IsSound program) (plain : program.IsPlain)
    (split : analysis.units program = done ++ .declared part :: rest)
    (isDone : done = analysis.builtins.all.map CodeUnit.builtin ++ earlier.map CodeUnit.declared)
    (splitUnits : program.units = earlier ++ part :: later)
    (owner : part.owner? analysis.notes = some id)
    (kind : (analysis.table.symbol id).kind = .method) (isMain : analysis.main = some id) :
    analysis.PrologueDefined ((Layout.of analysis done).placed id) := by
  have late := sound.split_le_of_main splitUnits owner isMain
  have provides := sound.provides plain none split isDone owner kind
  refine ⟨fun type isClass _ method isMember => ?_, fun init isInit => ?_⟩
  · have same : ((Layout.of analysis done).placed id).methodsOf type =
        analysis.table.methodsOf type := provides.places.methodsOf type
    rw [same] at isMember
    obtain ⟨isMember, isMethod⟩ := mem_filter.mp isMember
    obtain ⟨has, level⟩ := sound.members type isClass method isMember
    rcases sound.code method has (of_decide_eq_true isMethod) with builtin | ⟨unit, isUnit, owned⟩
    · exact provides.methods method (.inl builtin)
    · refine provides.methods method (.inr ⟨unit, mem_append_left _ ?_, owned⟩)
      refine Program.mem_earlier splitUnits late isUnit fun before behind whole => ?_
      -- Behind the declarations, methods are global.
      by_contra notEarly
      have global := (sound.fits_of_owner whole owned).global (Nat.not_lt.mp notEarly)
      cases level.symm.trans global
  · rw [sound.staticInits] at isInit
    obtain ⟨unit, isUnit, found⟩ := mem_filterMap.mp isInit
    cases unit with
    | type decl => cases found
    | method decl => cases found
    | init block =>
      refine provides.methods init (.inr ⟨.init block, mem_append_left _ ?_, found⟩)
      refine Program.mem_earlier splitUnits late isUnit fun before behind whole => ?_
      by_contra notEarly
      have isMethod := Program.mem_methods_of_split whole (Nat.not_lt.mp notEarly)
      obtain ⟨_, _, same⟩ := mem_map.mp isMethod
      cases same

/-- All units of a program without violations have code, if all that has to be loaded can be
loaded. -/
theorem defined (sound : analysis.IsSound program) (plain : program.IsPlain)
    (loads : analysis.LoadsAll program) :
    Layout.Defined analysis (analysis.units program) := by
  refine ⟨Layout.unitsDefined_of_split fun done unit rest split => ?_, fun id isMain => ?_⟩
  · cases unit with
    | builtin id => trivial
    | declared part =>
      obtain ⟨earlier, later, splitUnits, isDone, _⟩ := split_units split
      have member : part ∈ program.units := by rw [splitUnits]; simp
      have fits := sound.fits earlier part later splitUnits
      have bases : ∀ inner ∈ part.parts, inner.LoadsBase analysis.notes analysis.table :=
        fun inner inside => loads.bases inner (mem_flatMap.mpr ⟨part, member, inside⟩)
      have sources : ∀ source ∈ Stmt.sourcesOf part.body,
          source.Loads analysis.notes analysis.table :=
        fun source inside => loads.sources source (mem_flatMap.mpr ⟨part, member, inside⟩)
      cases part with
      | type decl =>
        obtain ⟨type, isType, _⟩ := sound.types decl member
        exact Option.isSome_iff_exists.mpr ⟨type, isType⟩
      | init block =>
        obtain ⟨id, fits⟩ := fits trivial
        obtain ⟨around, _, noted⟩ := fits.noted
        have named : analysis.notes.symbol? block.node.id = some id := fits.owner
        refine ⟨Option.isSome_iff_exists.mpr ⟨id, named⟩, ?_⟩
        rw [named, Option.getD_some]
        exact Site.stmtsDefined
          (sound.provides plain around split isDone fits.owner fits.kind) noted
          bases sources
      | method decl =>
        obtain ⟨id, fits⟩ := fits trivial
        obtain ⟨around, _, noted⟩ := fits.noted
        have named : analysis.notes.symbol? decl.node.id = some id := fits.owner
        simp only [Layout.UnitDefined]
        rw [named, Option.getD_some]
        exact ⟨rfl, sound.prologueDefined plain split isDone splitUnits fits.owner fits.kind,
          Site.stmtsDefined (sound.provides plain around split isDone fits.owner fits.kind) noted
            bases sources⟩
  · obtain ⟨region, isRegion, rfl⟩ := sound.exists_region_of_method (sound.main id isMain).1
    rw [sound.followsAll.starts region isRegion]
    exact Int.natCast_nonneg _

end Analysis.IsSound

/-- If all that has to be loaded can be loaded, generation never lacks anything. -/
theorem generate_lacksNothing {checking generating : Options} {fault : Fault} {result : Analysis}
    (distinct : program.nodes.Nodup) (plain : program.IsPlain)
    (accepted : (analyze checking program).errorCount = 0)
    (loads : (analyze checking program).LoadsAll program)
    (failed : generate generating (analyze checking program) program = (.error fault, result)) :
    fault.isMissing = false :=
  (generate_error accepted (congrArg Prod.fst failed)).2
    ((analyze_isSound accepted distinct).defined plain loads)

theorem exists_fault {options : Options} (holds : Fault → Bool)
    (fails : (match (generate options analysis program).1 with
      | .ok _ => false
      | .error fault => holds fault) = true) :
    ∃ fault, generate options analysis program =
      (.error fault, (generate options analysis program).2) ∧ holds fault := by
  generalize generate options analysis program = outcome at fails ⊢
  obtain ⟨fault | image, result⟩ := outcome
  · exact ⟨fault, rfl, fails⟩
  · cases fails

/-- The code is longer than it may be, but nothing is missing. -/
theorem generate_lacksNothing_stepping :
    stepping.nodes.Nodup ∧ stepping.IsPlain ∧ (analyze {} stepping).errorCount = 0 ∧
      (analyze {} stepping).LoadsAll stepping ∧
      ∃ fault result, generate { codeLimit := 50 } (analyze {} stepping) stepping =
        (.error fault, result) ∧ fault.isMissing = false := by
  obtain ⟨distinct, accepted⟩ := stepping_isAccepted
  have loads : (analyze {} stepping).LoadsAll stepping := ⟨by decide +kernel, by decide +kernel⟩
  obtain ⟨fault, failed, _⟩ : ∃ fault, generate { codeLimit := 50 } (analyze {} stepping) stepping =
      (.error fault, _) ∧ true := exists_fault (fun _ => true) (by decide +kernel)
  exact ⟨distinct, stepping_isPlain, accepted, loads, fault, _, failed,
    generate_lacksNothing distinct stepping_isPlain accepted loads failed⟩

open Supply

/-- A program that assigns to a field of what is not an object but a method. -/
def fieldOfMethod : Program :=
  plant do
    let int ← typeRef none "int"
    let result ← typeRef none "C"
    let made ← typeRef none "C"
    let type ← type "C" none [] [] [← vars int [("x", false)]] []
    let method ← Supply.method false (some result) false "m" [] []
      [← ret (some (← newObject made))]
    let assign ← assign (← member (← name "m") "x") (← literal (.int 1))
    let main ← Supply.method false none false "main" [] [] [.action assign]
    Supply.program "P" [] [.type type] [method, main]

/-- A field is looked up in a method, which has no value, and there is no violation. -/
theorem generate_lacks_fieldOfMethod :
    fieldOfMethod.nodes.Nodup ∧ fieldOfMethod.IsPlain ∧
      (analyze {} fieldOfMethod).errorCount = 0 ∧
      ∃ fault result, generate {} (analyze {} fieldOfMethod) fieldOfMethod =
        (.error fault, result) ∧ fault.isMissing := by
  obtain ⟨fault, failed, missing⟩ : ∃ fault, generate {} (analyze {} fieldOfMethod) fieldOfMethod =
      (.error fault, _) ∧ fault.isMissing := exists_fault Fault.isMissing (by decide +kernel)
  refine ⟨by decide +kernel, ?_, by decide +kernel, fault, _, failed, missing⟩
  simp only [Program.IsPlain, IsQualified]
  decide +kernel

end MicroJava
