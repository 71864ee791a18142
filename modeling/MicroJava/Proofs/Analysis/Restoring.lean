import MicroJava.Proofs.Analysis.Stages

/-!
# Scopes before and after a declaration

When the check of a method, a static initializer or a class is over, as many frames are open
as before, the surroundings are the same, and names lead where they led, but for those that
were declared or overridden.
-/

namespace MicroJava
namespace Check

variable {before after : Checker}

namespace Task

/-- The unit of a declaration, without those in the body of a class. -/
def unit? : Task → Option DeclUnit
  | staticInit _ _ init => some (.init init)
  | method decl => some (.method decl)
  | type decl => some (.type decl)
  | consts _ | vars _ _ | staticVars _ _ => none

/-- The names that the unit of a declaration may bind, each with the number of its frame. -/
def bindings (before : Checker) : Task → List (Nat × String)
  | method decl =>
      match before.owner, decl.isStatic with
      | some owner, true => [(1, dotted (before.table.desc owner.type).name decl.name.name)]
      | _, _ => [(before.scopes.depth - 1, before.qualifiedName decl.name.name)]
  | type decl =>
      let name := before.qualifiedName decl.name.name
      (before.scopes.depth - 1, name) :: (decl.statics name).map fun global => (1, global.name)
  | consts _ | vars _ _ | staticVars _ _ | staticInit _ _ _ => []

/-- A method takes the place of one that its class inherits. -/
structure Replaces (task : Task) (before after : Checker) (number : Nat) (name : String)
    (inherited : SymbolId) : Prop where
  overrides : ∃ decl context, task = method decl ∧ decl.isStatic = false ∧
    name = decl.name.name ∧ before.owner = some context ∧ number = context.frame ∧
    before.table.Inherits context.type inherited
  kind : (before.table.symbol inherited).kind = .method
  redirected : ∃ id, after.scopes.findAt? number name = some id ∧ ¬ before.table.HasSymbol id ∧
    (after.table.symbol id).kind = .method

/-- The scopes are as they were, but for the names that a task may bind. -/
structure Restores (task : Task) (before after : Checker) : Prop where
  /-- As many frames are open. -/
  depth : after.scopes.depth = before.scopes.depth
  /-- The same class is around. -/
  owner : after.owner = before.owner
  /-- The same method is around. -/
  method : after.method = before.method
  /-- The same namespace is around. -/
  space : after.space = before.space
  /-- As many loops are around. -/
  loopDepth : after.loopDepth = before.loopDepth
  /-- Names lead where they led, unless a method is overridden. -/
  kept : ∀ number name id, before.scopes.findAt? number name = some id →
    after.scopes.findAt? number name = some id ∨ task.Replaces before after number name id
  /-- Other names are those of the task. -/
  added : ∀ number name, (after.scopes.findAt? number name).isSome →
    (before.scopes.findAt? number name).isSome ∨ (number, name) ∈ task.bindings before

/-- The declarations of a task, each with the state in which its turn comes. -/
def calls : Task → Checker → List (Task × Checker)
  | type decl, before =>
      let opened := openClass decl before
      (type decl, before) :: stages check (ofClass opened.1.1 decl) opened.2
  | task, before => [(task, before)]

theorem unit?_calls (task : Task) (before : Checker) :
    (task.calls before).flatMap (fun call => call.1.unit?.toList) = task.units := by
  cases task with
  | type decl =>
    have members (name : String) : (ofClass name decl).flatMap (fun task => task.unit?.toList) =
        decl.memberUnits := by
      rw [← units_ofClass name]
      refine List.flatMap_congr fun task member => ?_
      have isMember := isMember_of_mem member
      cases task with
      | type => cases isMember
      | _ => rfl
    have staged (name : String) (early : Checker) :
        (stages check (ofClass name decl) early).flatMap (fun call => call.1.unit?.toList) =
          (ofClass name decl).flatMap fun task => task.unit?.toList := flatMap_stages fun _ => rfl
    rw [calls, List.flatMap_cons, staged, members]
    rfl
  | _ => rfl

theorem units_ofUnit (decls : List Decl) (methods : List MethodDecl) :
    (ofUnit decls methods).flatMap units = unitsOf decls methods := by
  have each : (fun decl => (ofDecl decl).units) = Decl.units := funext fun decl => by
    cases decl <;> rfl
  rw [ofUnit, List.flatMap_append, List.flatMap_map, List.flatMap_map, each, unitsOf,
    List.map_eq_flatMap]
  rfl

variable {decl : MethodDecl} {name : String} {space : Option String} {start : Table} {task : Task}

theorem Restores.of_place (place : after.place = before.place)
    (outside : before.place.isInside = false)
    (kept : ∀ number name id, before.scopes.findAt? number name = some id →
      after.scopes.findAt? number name = some id ∨ task.Replaces before after number name id)
    (added : ∀ number name, (after.scopes.findAt? number name).isSome →
      (before.scopes.findAt? number name).isSome ∨ (number, name) ∈ task.bindings before) :
    task.Restores before after where
  depth := congrArg Place.depth place
  owner := congrArg Place.owner place
  method := by
    have none {checker : Checker} (outside : checker.place.isInside = false) :
        checker.method = none :=
      Option.isNone_iff_eq_none.mp (Option.isSome_eq_false_iff.mp outside)
    rw [none outside, none ((congrArg Place.isInside place).trans outside)]
  space := congrArg Place.space place
  loopDepth := congrArg Place.loopDepth place
  kept := kept
  added := added

theorem mem_bindings_of_global {number : Nat} (regular : before.IsRegular)
    (member : (number, name) ∈ (before.methodGlobals decl).map fun global => (1, global.name)) :
    (number, name) ∈ (method decl).bindings before := by
  have depth := regular.depth
  rw [Checker.methodGlobals] at member
  rw [bindings]
  cases isOwner : before.owner with
  | none =>
    rw [isOwner] at depth
    simpa [isOwner, MethodDecl.globals, depth] using member
  | some owner =>
    simp only [isOwner, MethodDecl.statics] at member
    cases isStatic : decl.isStatic with
    | true => simpa [isStatic, MethodDecl.globals] using member
    | false => simp [isStatic] at member

theorem notStatic_of_receiver {type : Option TypeId} (hasReceiver : (decl.receiver? type).isSome) :
    decl.isStatic = false := by
  by_contra isStatic
  rw [Bool.not_eq_false] at isStatic
  simp [MethodDecl.receiver?, isStatic] at hasReceiver

theorem mem_bindings_of_receiver (regular : before.IsRegular)
    (hasReceiver : (decl.receiver? (before.owner.map ClassContext.type)).isSome) :
    (2, decl.name.name) ∈ (method decl).bindings before := by
  obtain ⟨context, isOwner⟩ := Option.isSome_iff_exists.mp (owner_of_receiver hasReceiver)
  have depth := regular.depth
  rw [isOwner] at depth
  rw [bindings, isOwner, notStatic_of_receiver hasReceiver, depth,
    Checker.qualifiedName_of_owner isOwner]
  exact List.mem_singleton_self _

theorem method_restores (ran : Ran (checkMethod decl) before () after)
    (regular : before.IsRegular) (outside : before.place.isInside = false)
    (pending : ∀ context, before.owner = some context → context.frame = 2 ∧
      ∀ id ∈ (before.table.desc context.type).pending,
        (before.table.symbol id).kind = .method ∧ before.table.Inherits context.type id) :
    (method decl).Restores before after := by
  obtain ⟨types, id, first, entered, handles⟩ :=
    checkMethod_handles ran regular (fun _ => trivial) Rules.all_inner
  obtain ⟨result, enrols⟩ := handles.enrols
  have gains := handles.publishes.gains
  have treats := handles.treats
  have depth := regular.depth
  have scopes := handles.visits.scopes
  have scopesLate := treats.completes.scopes
  refine .of_place (treats.completes.place.trans treats.retains.place) outside ?_ ?_
  · intro number name old found
    cases enrols with
    | unbound _ _ _ same => exact .inl (by rw [scopesLate, same, scopes, found])
    | bound introduces =>
      obtain ⟨free, finds⟩ := introduces.findAt?
      rw [← scopes] at found
      rw [scopesLate, finds, if_neg]
      · exact .inl found
      · rintro ⟨rfl, rfl⟩
        rw [free] at found
        cases found
    | overriding overrides hasReceiver =>
      obtain ⟨was, finds⟩ := overrides.findAt?
      by_cases same : number = first.scopes.depth - 1 ∧ decl.name.name = name
      · obtain ⟨rfl, rfl⟩ := same
        rw [← scopes, was] at found
        cases found
        obtain ⟨context, isOwner, mayOverride, _⟩ := overrides.owner
        rw [handles.visits.owner] at isOwner
        obtain ⟨isFrame, inherits⟩ := pending context isOwner
        rw [handles.visits.table.desc_eq (regular.owner context isOwner).1] at mayOverride
        obtain ⟨isMethod, inherits⟩ := inherits _ mayOverride
        refine .inr ⟨⟨decl, context, rfl, notStatic_of_receiver hasReceiver, rfl, isOwner, ?_,
          inherits⟩, isMethod, id, ?_, treats.fresh,
          (treats.completes.grows.symbol_kind treats.has).trans treats.kind⟩
        · rw [isFrame, scopes, depth, isOwner]
          rfl
        · rw [scopesLate, finds, if_pos ⟨rfl, rfl⟩]
      · rw [scopesLate, finds, if_neg same, scopes]
        exact .inl found
  · intro number name found
    obtain ⟨new, found⟩ := Option.isSome_iff_exists.mp found
    rcases Nat.lt_or_ge number 2 with inside | inner
    · exact (gains.added number inside name new found).imp (Option.isSome_iff_exists.mpr ⟨_, ·⟩)
        (mem_bindings_of_global regular)
    · rw [scopesLate] at found
      cases enrols with
      | unbound _ _ _ same =>
        rw [same, scopes] at found
        exact .inl (Option.isSome_iff_exists.mpr ⟨new, found⟩)
      | bound introduces depthFirst isOwn =>
        rw [introduces.findAt?.2] at found
        split at found
        next same =>
          obtain ⟨isNumber, rfl⟩ := same
          have hasReceiver : (decl.receiver? (before.owner.map ClassContext.type)).isSome := by
            by_contra none
            rw [Bool.not_eq_true] at none
            rw [none, Bool.toNat_false] at depthFirst
            omega
          have hasOwner := owner_of_receiver hasReceiver
          rw [hasReceiver, Bool.toNat_true] at depthFirst
          rw [hasOwner, Bool.toNat_true, ← scopes] at depth
          obtain rfl : number = 2 := by omega
          exact .inr (isOwn hasReceiver ▸ mem_bindings_of_receiver regular hasReceiver)
        next =>
          rw [scopes] at found
          exact .inl (Option.isSome_iff_exists.mpr ⟨new, found⟩)
      | overriding overrides =>
        obtain ⟨was, finds⟩ := overrides.findAt?
        rw [finds] at found
        refine .inl (Option.isSome_iff_exists.mpr ?_)
        rw [← scopes]
        split at found
        next same => exact ⟨_, by rw [same.1, ← same.2, was]⟩
        next => exact ⟨new, found⟩

theorem staticInit_restores {owner : String} {index : Nat} {init : StaticInit}
    (ran : Ran (checkStaticInit owner index init) before () after) (regular : before.IsRegular)
    (outside : before.place.isInside = false) :
    (staticInit owner index init).Restores before after := by
  obtain ⟨proceeds, scopes, _⟩ :=
    @checkStaticInit_treats _ _ .all _ _ _ ran regular
  exact .of_place proceeds.place outside (fun _ _ _ found => .inl (scopes ▸ found))
    fun _ _ found => .inl (scopes ▸ found)

theorem type_restores {decl : ClassDecl} (ran : Ran (checkClass decl) before () after)
    (between : IsBetween start space before) :
    (type decl).Restores before after := by
  have declRan : Ran (checkDecl (.type decl)) before () after := ran
  obtain ⟨betweenLast, enlists⟩ := checkDecl_isBetween InSpace declRan between Rules.all_inner
    Rules.all_constant
  have gains := enlists.publishes.gains
  have inside {checker : Checker} {number : Nat} {name : String} {id : SymbolId}
      (depth : checker.scopes.depth = 2) (found : checker.scopes.findAt? number name = some id) :
      number < 2 := by
    by_contra outside
    rw [Scopes.findAt?, Scopes.frameAt?, depth, if_neg outside] at found
    cases found
  refine .of_place (betweenLast.place.trans between.place.symm)
    (congrArg Place.isInside between.place)
    (fun number name id found =>
      .inl (gains.kept number (inside between.depth found) name id found))
    fun number name found => ?_
  obtain ⟨id, found⟩ := Option.isSome_iff_exists.mp found
  refine (gains.added number (inside betweenLast.depth found) name id found).imp
    (Option.isSome_iff_exists.mpr ⟨id, ·⟩) fun member => ?_
  rw [bindings, between.depth, between.named]
  exact member

theorem member_restores {decl : ClassDecl} {type : TypeId} {theirs : List SymbolId}
    (ran : Ran (checkMembers name decl) before () after) (isOpen : before.IsOpen type theirs)
    (owner : before.owner = some ⟨type, 2⟩) (outside : before.place.isInside = false)
    (named : (before.table.desc type).name = name) :
    ∀ stage ∈ stages check (ofClass name decl) before, stage.1.unit?.isSome →
      stage.1.Restores stage.2 (stage.1.check stage.2).2 := by
  rintro ⟨task, early⟩ isStage isUnit
  obtain ⟨member, place, isOpenEarly, _⟩ := checkMembers_stages ran isOpen owner named _ isStage
  have ownerEarly := (congrArg Place.owner place).trans owner
  have regular := isOpenEarly.isRegular ownerEarly rfl
  have outsideEarly := (congrArg Place.isInside place).trans outside
  have taskRan := ran_self task.check early
  have isMember := isMember_of_mem member
  cases task with
  | method decl =>
    refine method_restores taskRan regular outsideEarly fun context isOwner => ?_
    obtain rfl := Option.some.inj (ownerEarly.symm.trans isOwner)
    exact ⟨rfl, fun id pending => (isOpenEarly.pending id pending).2⟩
  | staticInit => exact staticInit_restores taskRan regular outsideEarly
  | type => cases isMember
  | consts | vars | staticVars => cases isUnit

theorem calls_restore (between : IsBetween start space before) :
    ∀ call ∈ task.calls before, call.1.unit?.isSome →
      call.1.Restores call.2 (call.1.check call.2).2 := by
  have outside : before.place.isInside = false := congrArg Place.isInside between.place
  have taskRan := ran_self task.check before
  intro call isCall isUnit
  cases task with
  | type decl =>
    rcases List.mem_cons.mp isCall with rfl | isCall
    · exact type_restores taskRan between
    · obtain ⟨type, theirs, inside, last, openRan, begins, membersRan, _⟩ :=
        checkClass_ran taskRan between.settled between.guarded between.depth between.noOwner
          Rules.all_inner
      rw [show openClass decl before = _ from openRan] at isCall
      exact member_restores membersRan begins.isOpen begins.owner
        ((congrArg Place.isInside begins.place).trans outside) begins.named call isCall isUnit
  | method decl =>
    obtain rfl := List.mem_singleton.mp isCall
    exact method_restores taskRan between.isRegular outside fun context isOwner => by
      cases between.noOwner.symm.trans isOwner
  | staticInit =>
    obtain rfl := List.mem_singleton.mp isCall
    exact staticInit_restores taskRan between.isRegular outside
  | consts | vars | staticVars =>
    obtain rfl := List.mem_singleton.mp isCall
    cases isUnit

end Task
end Check

namespace Analysis

/-- The declarations of a program, those in the bodies of its classes among them, each with the
state in which its turn comes. -/
def allCalls (options : Options) (program : Program) : List (Check.Task × Checker) :=
  (Check.outerStages options program).flatMap fun stage => stage.1.calls stage.2

theorem unit?_allCalls (options : Options) (program : Program) :
    (allCalls options program).filterMap (fun call => call.1.unit?) = program.units := by
  have each (decls : List Decl) (methods : List MethodDecl) (before : Checker) :
      (Check.unitStages decls methods before).flatMap (fun stage =>
        (stage.1.calls stage.2).flatMap fun call => call.1.unit?.toList) =
          unitsOf decls methods := by
    rw [← Check.Task.units_ofUnit]
    exact Check.flatMap_stages fun stage => stage.1.unit?_calls stage.2
  rw [List.filterMap_eq_flatMap_toList, allCalls, List.flatMap_assoc, Check.outerStages,
    List.flatMap_append, List.flatMap_assoc, each]
  exact congrArg (· ++ _) (Check.flatMap_stages fun stage => each _ _ _)

/-- Whatever is reported about a program, after each of its methods, static initializers and
classes the scopes are as before, but for the names of these and the methods that are overridden. -/
theorem analyze_restoresScopes (options : Options) (program : Program) :
    (allCalls options program).filterMap (fun call => call.1.unit?) = program.units ∧
      ∀ call ∈ allCalls options program, call.1.unit?.isSome →
        call.1.Restores call.2 (call.1.check call.2).2 := by
  refine ⟨unit?_allCalls options program, fun call member => ?_⟩
  obtain ⟨_, _, _, unfolds, _⟩ := exists_unfolds options program
  obtain ⟨⟨task, early⟩, isStage, member⟩ := List.mem_flatMap.mp member
  obtain ⟨_, between⟩ := (unfolds.stages _ isStage).between
  exact Check.Task.calls_restore between call member

end Analysis
end MicroJava
