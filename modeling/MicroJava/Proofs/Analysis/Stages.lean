import MicroJava.Proofs.Analysis.Members

/-!
# The stages of an analysis

The declarations of a program are checked one after the other, first those of its namespaces
and then its own.
-/

namespace MicroJava

/-- What comes later keeps the classes that are closed. -/
structure Checker.Follows (before after : Checker) : Prop where
  grows : before.table.Grows after.table
  descs : ∀ type, before.table.HasType type → after.table.desc type = before.table.desc type
  tells : before.Tells after

namespace Checker.Follows

variable {before after : Checker} {first second third : Checker}

theorem refl (checker : Checker) : checker.Follows checker :=
  ⟨.refl _, fun _ _ => rfl, .refl _⟩

theorem trans (follows : first.Follows second) (next : second.Follows third) :
    first.Follows third where
  grows := follows.grows.trans next.grows
  descs type has :=
    (next.descs type (follows.grows.hasType has)).trans (follows.descs type has)
  tells := follows.tells.trans next.tells

theorem of_proceeds (proceeds : before.Proceeds none after) : before.Follows after :=
  ⟨proceeds.grows, proceeds.descs, proceeds.tells⟩

end Checker.Follows

namespace Check

variable {before after : Checker} {start : Table} {space : Option String}

/-! ## Declarations outside of classes -/

variable {decl : ClassDecl} {decls : List Decl} {last : Checker} {methods : List MethodDecl}
    {options : Options} {program : Program}

theorem checkClass_follows (ran : Ran (checkClass decl) before () after)
    (between : IsBetween start space before) :
    before.Follows after := by
  obtain ⟨type, _, inside, last, _, begins, _, packs, isOpen, _, more, rfl⟩ :=
    checkClass_ran ran between.settled between.guarded between.depth between.noOwner
      Rules.all_inner
  have starts := begins.tallies.succeeds
  refine ⟨starts.grows.trans (packs.grows.trans (Table.updateType_grows isOpen.has rfl)),
    fun other has => ?_, starts.tells.trans (packs.tells.trans ⟨more, rfl⟩)⟩
  have different : other ≠ type := fun same => begins.fresh (same ▸ has)
  have hasInside := starts.grows.hasType has
  exact (Table.desc_updateType_of_ne isOpen.has (packs.grows.hasType hasInside) different _).trans
    ((packs.descs other hasInside fun same => different (Option.some.inj same)).trans
      (begins.descs other has))

theorem Task.check_isBetween {task : Task} (ran : Ran task.check before () after)
    (member : task ∈ Task.ofUnit decls methods) (between : IsBetween start space before) :
    IsBetween start space after ∧ before.Follows after := by
  rcases List.mem_append.mp member with member | member
  · obtain ⟨decl, _, rfl⟩ := List.mem_map.mp member
    cases decl with
    | consts decl =>
      have proceeds := (checkConsts_proceeds ran between Rules.all_constant).1.1
      exact ⟨between.proceeds proceeds, .of_proceeds proceeds⟩
    | vars decl =>
      have proceeds := (checkVars_proceeds ran between).1
      exact ⟨between.proceeds proceeds, .of_proceeds proceeds⟩
    | type decl =>
      have declRan : Ran (checkDecl (.type decl)) before () after := ran
      exact ⟨(checkDecl_isBetween InSpace declRan between Rules.all_inner Rules.all_constant).1,
        checkClass_follows ran between⟩
  · obtain ⟨method, _, rfl⟩ := List.mem_map.mp member
    have proceeds := (checkMethod_proceeds ran between.isRegular between.noOwner
      Rules.all_inner).1
    exact ⟨between.proceeds proceeds, .of_proceeds proceeds⟩

theorem checkMembers_stages {name : String} {type : TypeId} {theirs : List SymbolId}
    (ran : Ran (checkMembers name decl) before () after) (isOpen : before.IsOpen type theirs)
    (owner : before.owner = some ⟨type, 2⟩) (named : (before.table.desc type).name = name) :
    ∀ stage ∈ stages Task.check (Task.ofClass name decl) before,
      stage.1 ∈ Task.ofClass name decl ∧ stage.2.place = before.place ∧
        stage.2.IsOpen type theirs ∧ (stage.1.check stage.2).2.Tells after := by
  rw [checkMembers_eq] at ran
  obtain ⟨_, _, each⟩ := ran.forM_stages
    (motive := fun checker => before.Packs type checker ∧ checker.IsOpen type theirs) Checker.Tells
    (fun task member early late taskRan kept => by
      obtain ⟨packs, isOpenLate, _⟩ := Task.check_isOpen taskRan (Task.isMember_of_mem member)
        kept.2 ((congrArg Place.owner kept.1.place).trans owner)
        ((congrArg TypeDesc.name (kept.1.grows.bare_desc _ isOpen.has)).trans named)
        Rules.all_inner
      exact ⟨⟨kept.1.trans packs, isOpenLate⟩, packs.tells⟩)
    .refl .trans ⟨.refl isOpen, isOpen⟩
  intro stage member
  obtain ⟨isTask, ⟨packs, isOpenStage⟩, tells⟩ := each stage member
  exact ⟨isTask, packs.place, isOpenStage, tells⟩

/-! ## Whole programs -/

/-- The declarations outside of classes, each with the state in which its turn comes. -/
def unitStages (decls : List Decl) (methods : List MethodDecl) (before : Checker) :
    List (Task × Checker) :=
  stages Task.check (Task.ofUnit decls methods) before

/-- The declarations of a namespace. -/
def spaceStages (space : Namespace) (before : Checker) : List (Task × Checker) :=
  unitStages space.decls space.methods { before with space := some space.name.name }

/-- The state in which the declarations of a program start. -/
def startOf (options : Options) (program : Program) : Checker :=
  let seeded := (seedUniverse { options := options }).2
  let named := (seed .program program.name.name .none seeded).2
  { named with scopes := named.scopes.push }

/-- The declarations of a program outside of classes, each with the state in which its turn
comes. -/
def outerStages (options : Options) (program : Program) : List (Task × Checker) :=
  let start := startOf options program
  (stages checkSpace program.spaces start).flatMap (fun stage => spaceStages stage.1 stage.2) ++
    unitStages program.decls program.methods (program.spaces.forM checkSpace start).2

/-- A stage outside of classes, after which a state comes. -/
structure IsOuter (start : Table) (last : Checker) (stage : Task × Checker) : Prop where
  task : ∃ decls methods, stage.1 ∈ Task.ofUnit decls methods
  between : ∃ space, IsBetween start space stage.2
  follows : (stage.1.check stage.2).2.Follows last

theorem IsOuter.later {stage : Task × Checker} (isOuter : IsOuter start last stage)
    (follows : last.Follows after) :
    IsOuter start after stage :=
  ⟨isOuter.task, isOuter.between, isOuter.follows.trans follows⟩

theorem checkUnit_stages (ran : Ran (checkUnit decls methods) before () after)
    (between : IsBetween start space before) :
    IsBetween start space after ∧ before.Follows after ∧
      ∀ stage ∈ unitStages decls methods before, IsOuter start after stage := by
  rw [checkUnit_eq] at ran
  obtain ⟨betweenLast, follows, each⟩ := ran.forM_stages
    (motive := IsBetween start space) Checker.Follows
    (fun task member early late taskRan between => task.check_isBetween taskRan member between)
    .refl .trans between
  refine ⟨betweenLast, follows, fun stage member => ?_⟩
  obtain ⟨isTask, betweenStage, follows⟩ := each stage member
  exact ⟨⟨decls, methods, isTask⟩, ⟨space, betweenStage⟩, follows⟩

theorem checkSpace_stages {space : Namespace} (ran : Ran (checkSpace space) before () after)
    (between : IsBetween start none before) :
    IsBetween start none after ∧ before.Follows after ∧
      ∀ stage ∈ spaceStages space before, IsOuter start after stage := by
  obtain ⟨_, _, enterRan, ran⟩ := ran.bind
  obtain ⟨_, last, unitRan, leaveRan⟩ := ran.bind
  obtain rfl := enterRan.modify
  obtain rfl := leaveRan.modify
  obtain ⟨betweenLast, follows, each⟩ := checkUnit_stages unitRan (between.setSpace _)
  have leaves : last.Follows { last with space := none } := ⟨.refl _, fun _ _ => rfl, .refl _⟩
  exact ⟨betweenLast.setSpace none, ⟨follows.grows, follows.descs, follows.tells⟩,
    fun stage member => (each stage member).later leaves⟩

/-- The declarations of a program are checked, first those of its namespaces, and after them
only its own symbol changes. -/
structure Unfolds (options : Options) (program : Program) (spaced last after : Checker) : Prop where
  spaces : Ran (program.spaces.forM checkSpace) (startOf options program) () spaced
  unit : Ran (checkUnit program.decls program.methods) spaced () last
  fresh : (startOf options program).classes = #[]
  started : IsBetween (startOf options program).table none (startOf options program)
  between : IsBetween (startOf options program).table none spaced
  follows : last.Follows after
  classes : after.classes = last.classes

theorem checkProgram_unfolds {result : SymbolId × Option SymbolId}
    (ran : Ran (checkProgram program) { options := options } result after) :
    ∃ spaced last, Unfolds options program spaced last after := by
  obtain ⟨_, s₁, seedRan, ran⟩ := ran.bind
  obtain ⟨id, s₂, nameRan, ran⟩ := ran.bind
  obtain ⟨_, s₃, openRan, ran⟩ := ran.bind
  obtain ⟨_, spaced, spacesRan, ran⟩ := ran.bind
  obtain ⟨_, last, unitRan, ran⟩ := ran.bind
  obtain ⟨_, told, mainRan, ran⟩ := ran.bind
  obtain ⟨_, _, closeRan, ran⟩ := ran.bind
  obtain ⟨_, _, updateRan, ran⟩ := ran.bind
  obtain ⟨_, final, popRan, ran⟩ := ran.bind
  obtain ⟨_, rfl⟩ := ran.pure
  cases closeRan
  obtain ⟨started, isStart⟩ := start_isBetween seedRan nameRan openRan
  obtain rfl : startOf options program = s₃ := by
    rw [startOf, congrArg Prod.snd seedRan]
    dsimp only
    rw [congrArg Prod.snd nameRan, onScopes_ran openRan]
  obtain ⟨between, _⟩ := spacesRan.forM_stages
    (motive := IsBetween (startOf options program).table none) (fun _ _ => True)
    (fun _ _ _ _ spaceRan between => ⟨(checkSpace_stages spaceRan between).1, trivial⟩)
    (fun _ => trivial) (fun _ _ => trivial) started
  obtain ⟨betweenLast, _⟩ := checkUnit_stages unitRan between
  have tells : last.Proceeds none told := (checkMain_ran mainRan).1.visits.proceeds
  have has := tells.grows.hasSymbol (betweenLast.grows.hasSymbol isStart.has)
  have ended : final = { told with
      scopes := told.scopes.pop.pop
      table := told.table.updateSymbol id fun symbol =>
        { symbol with locals := told.scopes.current } } := by
    rw [onScopes_ran popRan, updateSymbol_ran updateRan]
  refine ⟨spaced, last, spacesRan, unitRan, isStart.classes, started, between, ?_, ?_⟩
  · rw [ended]
    exact (Checker.Follows.of_proceeds tells).trans
      ⟨(Table.updateSymbol_grows has rfl), fun _ _ => rfl, .refl _⟩
  · rw [ended]
    exact tells.classes

theorem Unfolds.stages {spaced : Checker} (unfolds : Unfolds options program spaced last after) :
    ∀ stage ∈ outerStages options program,
      IsOuter (startOf options program).table after stage := by
  obtain ⟨_, spacesFollow, spaces⟩ := unfolds.spaces.forM_stages
    (motive := IsBetween (startOf options program).table none) Checker.Follows
    (fun _ _ _ _ spaceRan between =>
      have checked := checkSpace_stages spaceRan between
      ⟨checked.1, checked.2.1⟩) .refl .trans unfolds.started
  obtain ⟨_, unitFollows, unit⟩ := checkUnit_stages unfolds.unit unfolds.between
  intro stage member
  rcases List.mem_append.mp member with member | member
  · obtain ⟨⟨space, early⟩, isSpace, member⟩ := List.mem_flatMap.mp member
    obtain ⟨_, betweenSpace, follows⟩ := spaces _ isSpace
    obtain ⟨_, _, each⟩ := checkSpace_stages (ran_self _ early) betweenSpace
    exact (each stage member).later (follows.trans (unitFollows.trans unfolds.follows))
  · rw [congrArg Prod.snd unfolds.spaces] at member
    exact (unit stage member).later unfolds.follows

end Check

namespace Analysis

/-- An analysis accepts a program if it ends without violations. -/
theorem exists_unfolds (options : Options) (program : Program) :
    ∃ spaced last final, Check.Unfolds options program spaced last final ∧
      (analyze options program).IsFrom final := by
  obtain ⟨⟨result, final⟩, ran⟩ :
      ∃ result, (Check.checkProgram program).run { options := options } = result := ⟨_, rfl⟩
  obtain ⟨spaced, last, unfolds⟩ := Check.checkProgram_unfolds ran
  rw [analyze, ran]
  exact ⟨spaced, last, final, unfolds, rfl, rfl, isClean_of_errorCount rfl, rfl, rfl, rfl, rfl⟩

end Analysis
end MicroJava
