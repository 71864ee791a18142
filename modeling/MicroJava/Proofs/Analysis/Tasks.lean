import MicroJava.Proofs.Analysis.Records

/-!
# Declarations at their places

A program is checked one declaration after the other: constants, variables, methods and
classes, and within a class its members.
-/

namespace MicroJava
namespace Check

open List

variable {before after : Checker} {name : String} {decl : ClassDecl}

/-! ## Declarations at their places -/

/-- A declaration at its place. -/
inductive Task
  | consts (decl : ConstDecl)
  | vars (kind : SymbolKind) (decl : VarDecl)
  | staticVars (owner : String) (decl : VarDecl)
  | staticInit (owner : String) (index : Nat) (init : StaticInit)
  | method (decl : MethodDecl)
  | type (decl : ClassDecl)

namespace Task

/-- Check a declaration. -/
def check : Task → Check Unit
  | consts decl => checkConsts decl
  | vars kind decl => checkVars kind decl
  | staticVars owner decl => checkStaticVars owner decl
  | staticInit owner index init => checkStaticInit owner index init
  | method decl => checkMethod decl
  | type decl => checkClass decl

/-- The units of a declaration. -/
def units : Task → List DeclUnit
  | staticInit _ _ init => [.init init]
  | method decl => [.method decl]
  | type decl => decl.units
  | consts _ | vars _ _ | staticVars _ _ => []

/-- What a member of a class of the given name binds in the frame of the program. -/
def statics (name : String) : Task → List Global
  | staticVars owner decl => decl.globals (dotted owner)
  | method decl => decl.statics name
  | consts _ | vars _ _ | staticInit _ _ _ | type _ => []

/-- A member of a class of the given name. -/
def IsMember (name : String) : Task → Prop
  | vars kind _ => kind = .field
  | staticVars owner _ => owner = name
  | staticInit owner _ _ => owner = name
  | method _ => True
  | consts _ | type _ => False

/-- The names that a member declares in its class and inside. -/
def innerNames : Task → List String
  | vars _ decl => decl.items.map (·.name.name)
  | method decl => decl.name.name :: decl.localNames
  | consts _ | staticVars _ _ | staticInit _ _ _ | type _ => []

/-- A declaration of the program or of a namespace. -/
def ofDecl : Decl → Task
  | .consts decl => consts decl
  | .vars decl => vars .var decl
  | .type decl => type decl

/-- Declarations and methods that stand side by side. -/
def ofUnit (decls : List Decl) (methods : List MethodDecl) : List Task :=
  decls.map ofDecl ++ methods.map method

/-- The members of a class. -/
def ofClass (name : String) (decl : ClassDecl) : List Task :=
  decl.staticVars.map (staticVars name) ++
    (decl.staticInits.zipIdx.map fun (init, index) => staticInit name index init) ++
    decl.fields.map (vars .field) ++ decl.methods.map method

theorem isMember_of_mem {task : Task} (member : task ∈ ofClass name decl) : task.IsMember name := by
  simp only [ofClass, mem_append, mem_map] at member
  rcases member with ((⟨_, _, rfl⟩ | ⟨_, _, rfl⟩) | ⟨_, _, rfl⟩) | ⟨_, _, rfl⟩
  · rfl
  · rfl
  · rfl
  · trivial

theorem innerNames_subset {task : Task} (member : task ∈ ofClass name decl) :
    task.innerNames ⊆ decl.innerNames := by
  simp only [ofClass, mem_append, mem_map] at member
  rcases member with ((⟨_, _, rfl⟩ | ⟨_, _, rfl⟩) | ⟨vars, isField, rfl⟩) | ⟨method, isMethod, rfl⟩
  · exact nil_subset _
  · exact nil_subset _
  · exact fun _ inside => mem_append_left _ (mem_flatMap.mpr ⟨vars, isField, inside⟩)
  · exact fun _ inside => mem_append_right _ (mem_flatMap.mpr ⟨method, isMethod, inside⟩)

theorem units_ofClass (name : String) (decl : ClassDecl) :
    (ofClass name decl).flatMap units = decl.memberUnits := by
  have inits : decl.staticInits.zipIdx.flatMap (fun entry => [DeclUnit.init entry.1]) =
      decl.staticInits.map .init := by
    rw [← map_eq_flatMap]
    nth_rewrite 2 [← zipIdx_map_fst 0 decl.staticInits]
    rw [map_map]
    rfl
  simp only [ofClass, flatMap_append, flatMap_map, units, inits, flatMap_nothing,
    nil_append, append_nil, ClassDecl.memberUnits, ← map_eq_flatMap]

theorem statics_ofClass (name : String) (decl : ClassDecl) :
    (ofClass name decl).flatMap (statics name) = decl.statics name := by
  simp only [ofClass, flatMap_append, flatMap_map, statics, flatMap_nothing,
    append_nil, ClassDecl.statics]

end Task

theorem checkUnit_eq (decls : List Decl) (methods : List MethodDecl) :
    checkUnit decls methods = (Task.ofUnit decls methods).forM Task.check := by
  have each : checkDecl = fun decl => (Task.ofDecl decl).check := funext fun decl => by
    cases decl <;> rfl
  simp only [checkUnit, Task.ofUnit, forM_eq_forM, forM_append, forM_map, each]
  rfl

theorem checkMembers_eq (name : String) (decl : ClassDecl) :
    checkMembers name decl = (Task.ofClass name decl).forM Task.check := by
  simp only [checkMembers, Task.ofClass, forM_eq_forM, forM_append, forM_map,
    bind_assoc]
  rfl

/-! ## Loops -/

/-- The items of a loop, each with the state before its step. -/
def stages {α : Type} (act : α → Check PUnit) : List α → Checker → List (α × Checker)
  | [], _ => []
  | item :: rest, before => (item, before) :: stages act rest (act item before).2

variable {motive : Checker → Prop} {α β : Type} {act : α → Check PUnit} {items : List α}

theorem map_fst_stages (act : α → Check PUnit) (items : List α) (before : Checker) :
    (stages act items before).map Prod.fst = items := by
  induction items generalizing before with
  | nil => rfl
  | cons item rest ih => rw [stages, map_cons, ih]

theorem flatMap_stages {list : α × Checker → List β} {names : α → List β}
    (same : ∀ stage, list stage = names stage.1) :
    (stages act items before).flatMap list = items.flatMap names := by
  rw [funext same, ← map_fst_stages act items before, flatMap_map, map_fst_stages]

/-- What each step preserves holds at each stage, and what each step does is done from each stage
on to the end. -/
theorem Ran.forM_stages (ran : Ran (items.forM act) before () after)
    (related : Checker → Checker → Prop)
    (step : ∀ item ∈ items, ∀ early late, Ran (act item) early () late → motive early →
      motive late ∧ related early late) (refl : ∀ checker, related checker checker)
    (trans : ∀ {first second third}, related first second → related second third →
      related first third) (start : motive before) :
    motive after ∧ related before after ∧ ∀ stage ∈ stages act items before,
      stage.1 ∈ items ∧ motive stage.2 ∧ related (act stage.1 stage.2).2 after := by
  induction items generalizing before with
  | nil =>
    obtain rfl := ran.forM_nil
    exact ⟨start, refl _, forall_mem_nil _⟩
  | cons item rest ih =>
    obtain ⟨between, itemRan, restRan⟩ := ran.forM_cons
    obtain ⟨kept, steps⟩ := step item mem_cons_self _ _ itemRan start
    obtain ⟨ends, follows, later⟩ := ih restRan
      (fun other member => step other (mem_cons_of_mem _ member)) kept
    rw [stages, show act item before = ((), between) from itemRan]
    refine ⟨ends, trans steps follows, forall_mem_cons.mpr
      ⟨⟨mem_cons_self, start, ?_⟩, fun stage member => ?_⟩⟩
    · rw [show act item before = ((), between) from itemRan]
      exact follows
    · obtain ⟨isItem, rest⟩ := later stage member
      exact ⟨mem_cons_of_mem _ isItem, rest⟩

theorem Ran.forM_collects (ran : Ran (items.forM act) before () after) (read : Checker → List β)
    (adds : α × Checker → List β)
    (step : ∀ item ∈ items, ∀ early late, Ran (act item) early () late → motive early →
      motive late ∧ read late = read early ++ adds (item, early)) (start : motive before) :
    read after = read before ++ (stages act items before).flatMap adds := by
  induction items generalizing before with
  | nil =>
    obtain rfl := ran.forM_nil
    exact (append_nil _).symm
  | cons item rest ih =>
    obtain ⟨between, itemRan, restRan⟩ := ran.forM_cons
    obtain ⟨kept, added⟩ := step item mem_cons_self _ _ itemRan start
    rw [stages, show act item before = ((), between) from itemRan, flatMap_cons,
      ← append_assoc, ← added]
    exact ih restRan (fun other member => step other (mem_cons_of_mem _ member)) kept

end Check
end MicroJava
