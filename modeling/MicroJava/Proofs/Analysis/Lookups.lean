import MicroJava.Proofs.Analysis.Stages

/-!
# Members of open and of closed classes

While the body of a class is checked, its members are looked up in its frame; later they are
searched in the list of its members.  Both lead to the same symbol.
-/

namespace MicroJava

open List

variable {before after : Checker} {type : TypeId} {name : String}

theorem Frame.IsListed.find?_eq {table : Table} {frame : Frame} (listed : frame.IsListed table)
    (name : String) :
    frame.find? name = frame.order.toList.find? fun id => (table.symbol id).name = name := by
  cases found : frame.order.toList.find? fun id => (table.symbol id).name = name with
  | some id =>
    have named := find?_some found
    exact (listed.names name id).mpr ⟨mem_of_find?_eq_some found, by simpa using named⟩
  | none =>
    refine Option.eq_none_iff_forall_ne_some.mpr fun id bound => ?_
    obtain ⟨member, named⟩ := (listed.names name id).mp bound
    exact absurd named (by simpa using find?_eq_none.mp found id member)

theorem Checker.Follows.member?_eq (follows : before.Follows after)
    (has : before.table.HasType type)
    (members : ∀ id ∈ (before.table.desc type).members, before.table.HasSymbol id) :
    after.table.member? type name = before.table.member? type name := by
  rw [Table.member?, Table.member?, follows.descs type has, ← head?_filter,
    ← head?_filter]
  refine congrArg List.head? (filter_congr fun id member => ?_)
  rw [follows.grows.symbol_name (members id member)]

namespace Check

variable {decl : ClassDecl}

/-- Check a class up to the end of its members.  The result is its type. -/
def bodyOf (decl : ClassDecl) : Check TypeId := do
  let (name, type, _) ← openClass decl
  checkMembers name decl
  return type

/-- A class is looked into in the same way before and after it is closed. -/
structure KeepsLookups (final : Table) (decl : ClassDecl) (before : Checker) : Prop where
  /-- At the end of its body the class is open, and its members are looked up in its frame. -/
  opened : ∃ context, (bodyOf decl before).2.owner = some context ∧
    context.type = (bodyOf decl before).1 ∧ ∀ name,
      (bodyOf decl before).2.scopes.findAt? context.frame name =
        (checkClass decl before).2.table.member? (bodyOf decl before).1 name
  /-- The members of the class stay what they are. -/
  closed : ∀ name, final.member? (bodyOf decl before).1 name =
    (checkClass decl before).2.table.member? (bodyOf decl before).1 name

theorem checkClass_keepsLookups {start : Table} {space : Option String} {last : Checker}
    (between : IsBetween start space before)
    (follows : (checkClass decl before).2.Follows last) :
    KeepsLookups last.table decl before ∧
      (checkClass decl before).2.classes = before.classes.push (bodyOf decl before).1 := by
  obtain ⟨type, _, inside, ended, openRan, begins, membersRan, packs, isOpen, _, more, closed⟩ :=
    checkClass_ran (ran_self (checkClass decl) before) between.settled between.guarded
      between.depth between.noOwner Rules.all_inner
  have body : bodyOf decl before = (type, ended) :=
    openRan.andThen (membersRan.andThen (show Ran (pure type) ended type ended from rfl))
  obtain ⟨frame, rest, frames, length, listed, _⟩ := isOpen.frames
  have current : ended.scopes.current = frame.order.toList := by rw [Scopes.current, frames]
  have found (name : String) : ended.scopes.findAt? 2 name = frame.find? name :=
    length ▸ Scopes.findAt?_of_frames [] frames name
  rw [closed] at follows ⊢
  have desc := Table.desc_updateType_self isOpen.has fun desc => { desc with
    members := ended.scopes.current
    fieldCount := (ended.table.fieldsOf ended.scopes.current).length
    pending := [] }
  have closes : ended.table.Grows (ended.table.updateType type fun desc => { desc with
      members := ended.scopes.current
      fieldCount := (ended.table.fieldsOf ended.scopes.current).length
      pending := [] }) := Table.updateType_grows isOpen.has rfl
  refine ⟨⟨⟨⟨type, 2⟩, ?_, ?_, fun name => ?_⟩, fun name => ?_⟩, ?_⟩
  · rw [body]
    exact (congrArg Place.owner packs.place).trans begins.owner
  · rw [body]
  · rw [body, closed, Table.member?, desc, current]
    exact (found name).trans (listed.find?_eq name)
  · rw [body, closed]
    refine follows.member?_eq (closes.hasType isOpen.has) fun id member => ?_
    rw [desc] at member
    exact closes.hasSymbol (listed.members id (current ▸ member)).1
  · rw [body]
    exact packs.classes.trans begins.classes

/-! ## All classes of a program -/

/-- The class that is checked at a stage, if any. -/
def classAt (stage : Task × Checker) : List (ClassDecl × Checker) :=
  match stage.1 with
  | .type decl => [(decl, stage.2)]
  | _ => []

/-- The types of the classes that are checked at a stage. -/
def typesAt (stage : Task × Checker) : List TypeId :=
  (classAt stage).map fun entry => (bodyOf entry.1 entry.2).1

variable {start : Table} {space : Option String} {decls : List Decl} {methods : List MethodDecl}

theorem Task.check_classes {task : Task} (ran : Ran task.check before () after)
    (member : task ∈ Task.ofUnit decls methods) (between : IsBetween start space before) :
    after.classes.toList = before.classes.toList ++ typesAt (task, before) := by
  have kept (proceeds : before.Proceeds none after) : after.classes.toList =
      before.classes.toList ++ [] := by rw [proceeds.classes, append_nil]
  rcases mem_append.mp member with member | member
  · obtain ⟨decl, _, rfl⟩ := mem_map.mp member
    cases decl with
    | consts decl => exact kept (checkConsts_proceeds ran between Rules.all_constant).1.1
    | vars decl => exact kept (checkVars_proceeds ran between).1
    | type decl =>
      have listed := (checkClass_keepsLookups between (.refl (checkClass decl before).2)).2
      rw [show checkClass decl before = ((), after) from ran] at listed
      rw [listed, Array.toList_push]
      rfl
  · obtain ⟨method, _, rfl⟩ := mem_map.mp member
    exact kept (checkMethod_proceeds ran between.isRegular between.noOwner
      Rules.all_inner).1

theorem checkUnit_classes (ran : Ran (checkUnit decls methods) before () after)
    (between : IsBetween start space before) :
    after.classes.toList =
      before.classes.toList ++ (unitStages decls methods before).flatMap typesAt := by
  rw [checkUnit_eq] at ran
  exact ran.forM_collects (motive := IsBetween start space)
    (fun checker => checker.classes.toList) typesAt (fun task member _ _ taskRan between =>
      ⟨(task.check_isBetween taskRan member between).1, task.check_classes taskRan member between⟩)
    between

theorem checkSpace_classes {space : Namespace} (ran : Ran (checkSpace space) before () after)
    (between : IsBetween start none before) :
    after.classes.toList =
      before.classes.toList ++ (spaceStages space before).flatMap typesAt := by
  obtain ⟨_, _, enterRan, ran⟩ := ran.bind
  obtain ⟨_, last, unitRan, leaveRan⟩ := ran.bind
  obtain rfl := enterRan.modify
  obtain rfl := leaveRan.modify
  exact checkUnit_classes unitRan (between.setSpace _)

theorem Unfolds.classes_eq {options : Options} {program : Program} {spaced last : Checker}
    (unfolds : Unfolds options program spaced last after) :
    after.classes.toList = (outerStages options program).flatMap typesAt := by
  have spaces := unfolds.spaces.forM_collects
    (motive := IsBetween (startOf options program).table none)
    (fun checker => checker.classes.toList)
    (fun stage => (spaceStages stage.1 stage.2).flatMap typesAt)
    (fun _ _ _ _ spaceRan between =>
      ⟨(checkSpace_stages spaceRan between).1, checkSpace_classes spaceRan between⟩)
    unfolds.started
  rw [unfolds.classes, checkUnit_classes unfolds.unit unfolds.between, spaces, unfolds.fresh,
    outerStages, flatMap_append, flatMap_assoc, congrArg Prod.snd unfolds.spaces]
  rfl

end Check

namespace Analysis

/-- The classes of a program, each with the state in which its turn comes. -/
def classStages (options : Options) (program : Program) : List (ClassDecl × Checker) :=
  (Check.outerStages options program).flatMap Check.classAt

/-- Whatever is reported about a program, in each of its classes the members are found by the same
names while its body is open and after it is closed. -/
theorem analyze_keepsLookups (options : Options) (program : Program) :
    (classStages options program).map (fun stage => (Check.bodyOf stage.1 stage.2).1) =
        (analyze options program).classes ∧
      ∀ stage ∈ classStages options program,
        Check.KeepsLookups (analyze options program).table stage.1 stage.2 := by
  obtain ⟨spaced, last, final, unfolds, table, classes, _⟩ := exists_unfolds options program
  rw [table, classes]
  refine ⟨?_, fun stage member => ?_⟩
  · rw [classStages, map_flatMap]
    exact unfolds.classes_eq.symm
  · obtain ⟨⟨task, early⟩, isStage, member⟩ := mem_flatMap.mp member
    obtain ⟨_, ⟨space, between⟩, follows⟩ := unfolds.stages _ isStage
    cases task with
    | type decl =>
      obtain rfl := mem_singleton.mp member
      exact (Check.checkClass_keepsLookups between follows).1
    | _ => cases member

end Analysis
end MicroJava
