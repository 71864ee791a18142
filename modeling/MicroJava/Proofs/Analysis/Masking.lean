import MicroJava.Proofs.Analysis.Stages

/-!
# Names that hide types

In a program without violations a declared name does not lead to a type where it is declared,
as far as the frames go.  A class or a method may still declare a name that its namespace has
for a type.
-/

namespace MicroJava

open List

/-- The reference to a type that consists of a name only. -/
def Ident.asType (ident : Ident) : TypeRef := ⟨none, ident, ident.span⟩

namespace Checker

variable {checker : Checker} {name : String} {ident : Ident}

/-- Looking up a reference to a type reports nothing. -/
def NamesType (checker : Checker) (ref : TypeRef) : Prop :=
  (Check.resolveType ref false checker).2.diagnostics = checker.diagnostics

/-- A name is no type in the frames, nor is the name under which it is bound outside of classes and
methods. -/
structure Avoids (checker : Checker) (name : String) : Prop where
  bare : checker.isTypeName name = false
  qualified : checker.owner = none → checker.method = none →
    checker.isTypeName (checker.qualifiedName name) = false

theorem namesType_iff (ref : TypeRef) :
    checker.NamesType ref ↔ (checker.findTypeRef ref).isAbsent = false ∧
      (checker.table.symbol (checker.findTypeRef ref)).kind = .type := by
  have resolved : Check.resolveType ref false checker =
      if (checker.findTypeRef ref).isAbsent ||
        (checker.table.symbol (checker.findTypeRef ref)).kind != .type then
        (.none, { checker with diagnostics :=
          checker.diagnostics.push (.error (.unknownType ref.text) ref.span) })
      else ((checker.table.symbol (checker.findTypeRef ref)).type, checker) := by
    change (if _ then _ else _ : Check TypeId) checker = _
    split_ifs with unknown never
    · rfl
    · cases never
    · rfl
  rw [NamesType, resolved]
  split
  next unknown =>
    refine iff_of_false (fun same => ?_) fun known => ?_
    · simpa using congrArg Array.size same
    · simp [known.1, known.2] at unknown
  next known => simpa using known

theorem isTypeName_eq_true_iff :
    checker.isTypeName name = true ↔ (checker.scopes.find name).isAbsent = false ∧
      (checker.table.symbol (checker.scopes.find name)).kind = .type := by
  simp [isTypeName]

theorem Avoids.namesType_iff (avoids : checker.Avoids ident.name) :
    checker.NamesType ident.asType ↔
      (checker.owner.isSome ∨ checker.method.isSome) ∧ checker.scopes.find ident.name = .absent ∧
        ∃ space, checker.space = some space ∧ checker.isTypeName (qualify space ident.name) := by
  rw [Checker.namesType_iff]
  by_cases absent : checker.scopes.find ident.name = .absent
  · cases space : checker.space with
    | none =>
      have found : checker.findTypeRef ident.asType = .absent := by
        simp [findTypeRef, Ident.asType, TypeRef.text, absent, space]
      simp [found, SymbolId.isAbsent]
    | some around =>
      have found : checker.findTypeRef ident.asType =
          checker.scopes.find (qualify around ident.name) := by
        simp [findTypeRef, Ident.asType, TypeRef.text, absent, space, SymbolId.isAbsent]
      rw [found, ← isTypeName_eq_true_iff]
      refine ⟨fun isType => ⟨?_, absent, around, rfl, isType⟩, ?_⟩
      · by_contra outside
        simp only [not_or, Option.not_isSome_iff_eq_none] at outside
        have apart := avoids.qualified outside.1 outside.2
        rw [qualifiedName, space, outside.1, outside.2] at apart
        exact Bool.false_ne_true (apart.symm.trans isType)
      · rintro ⟨_, _, _, same, isType⟩
        rwa [← Option.some.inj same] at isType
  · have found : checker.findTypeRef ident.asType = checker.scopes.find ident.name := by
      simp [findTypeRef, Ident.asType, TypeRef.text, absent, SymbolId.isAbsent]
    rw [found, ← isTypeName_eq_true_iff]
    exact iff_of_false (fun isType => Bool.false_ne_true (avoids.bare.symm.trans isType))
      fun named => absent named.2.1

end Checker

namespace Check

variable {before after : Checker} {outer : Bool} {kind : SymbolKind} {name : String} {type : TypeId}
  {span : Span} {id : SymbolId}

theorem free_of_insertIn {scopes : Scopes} {table : Table}
    (inserted : (scopes.insertIn outer table kind name type).1 = .fresh id) :
    (if outer then scopes.findAt? (scopes.depth - 2) name else scopes.findLocal? name) = none := by
  have free {frame : Frame} {level : Nat}
      (declared : (frame.declare table level kind name type).1 = .fresh id) :
      frame.find? name = none :=
    (Frame.declare_fresh (Prod.ext declared rfl)).2.1.free
  match scopes, outer, inserted with
  | ⟨[]⟩, false, inserted | ⟨[]⟩, true, inserted => cases inserted
  | ⟨frame :: _⟩, false, inserted => exact free inserted
  | ⟨[frame]⟩, true, inserted => exact free inserted
  | ⟨inner :: frame :: rest⟩, true, inserted =>
    have inside : rest.length < rest.length + 2 := Nat.lt_add_of_pos_right (by decide)
    simpa [Scopes.findAt?, Scopes.frameAt?, Scopes.depth, inside] using free inserted

theorem declareIn_unmasked (ran : Ran (declareIn outer kind name type span) before id after)
    (clean : after.IsClean) :
    before.isTypeName (bareName name) = false ∧ before.isTypeName name = false := by
  replace ran := ran.get_bind
  split_ifs at ran with masks
  · exact absurd clean (not_isClean_fail ran)
  obtain ⟨binding, bound, bindRan, ran⟩ := ran.bind
  cases binding with
  | taken =>
    exact absurd clean (not_isClean_fail ran)
  | fresh =>
    have free := free_of_insertIn (congrArg Prod.fst bindRan)
    rw [Checker.masksType, free] at masks
    simpa using masks

/-! ## Points of declarations -/

/-- A declared name and the state in which it is bound. -/
structure Point where
  /-- The name as it is written. -/
  ident : Ident
  /-- What is known just before it is bound. -/
  state : Checker

/-- The points of variables that are declared one after the other. -/
def varPoints (declareItem : VarItem → TypeId → Check PUnit) (decl : VarDecl) (before : Checker) :
    List Point :=
  let base := resolveType decl.type false before
  (stages (fun item => itemType base.1 item >>= declareItem item) decl.items base.2).map
    fun stage => ⟨stage.1.name, (itemType base.1 stage.1 stage.2).2⟩

/-- Bind a variable or a field. -/
def declareVar (kind : SymbolKind) (item : VarItem) (type : TypeId) : Check Unit := do
  let name := (← get).qualifiedName item.name.name
  discard (declare kind name type item.span)

/-- Bind a static variable. -/
def declareStaticVar (owner : String) (item : VarItem) (type : TypeId) : Check Unit :=
  discard (declareStatic .var (dotted owner item.name.name) type item.span)

/-- Look up the types of the result and of the parameters of a method. -/
def signature (method : MethodDecl) : Check (TypeId × List TypeId) := do
  let result ← resolveResult method
  let types ← method.params.mapM fun param => resolveType param.type param.isArray
  return (result, types)

/-- Enter a method and open its frame. -/
def enterMethod (method : MethodDecl) (result : TypeId) (types : List TypeId) :
    Check (SymbolId × Option TypeId × Option SymbolId) := do
  let owner := (← get).owner.map ClassContext.type
  let receiver := if method.isStatic then none else owner
  let (declared, overridden) ← declareMethod method result types
  let id ← orUnbound declared method.name.name result (if receiver.isSome then 1 else 0)
  noteSymbol method.node.id id
  let context : MethodContext := { symbol := id, result := result, isStatic := receiver.isNone }
  onScopes Scopes.push
  modify fun checker => { checker with method := some context }
  return (id, receiver, overridden)

/-- Bind the receiver of a method. -/
def declareThis (method : MethodDecl) (receiver : Option TypeId) : Check Unit :=
  receiver.forM fun type => discard (declare .var "this" type method.node.span)

/-- Bind a parameter. -/
def declareParam (entry : Param × TypeId) : Check Unit :=
  discard (declare .var entry.1.name.name entry.2 entry.1.span)

/-- The points of a method, its parameters and its locals. -/
def methodPoints (method : MethodDecl) (before : Checker) : List Point :=
  let ((result, types), resolved) := signature method before
  let ((id, receiver, overridden), inside) := enterMethod method result types resolved
  let opened := (declareThis method receiver inside).2
  let filled := (checkParams id receiver method types overridden inside).2
  ⟨method.name, resolved⟩ ::
    ((stages declareParam (method.params.zip types) opened).map fun stage =>
      ⟨stage.1.1.name, stage.2⟩) ++
    (stages (checkVars .var) method.locals filled).flatMap fun stage =>
      varPoints (declareVar .var) stage.1 stage.2

namespace Task

/-- The points of a declaration, but for the members of a class. -/
def ownPoints : Task → Checker → List Point
  | consts decl, before =>
      let type := resolveType decl.type false before
      (stages (checkConst type.1) decl.items type.2).map fun stage => ⟨stage.1.name, stage.2⟩
  | vars kind decl, before => varPoints (declareVar kind) decl before
  | staticVars owner decl, before => varPoints (declareStaticVar owner) decl before
  | method decl, before => methodPoints decl before
  | staticInit _ _ _, _ | .type _, _ => []

/-- The points of a declaration, those of the members of a class among them. -/
def points : Task → Checker → List Point
  | .type decl, before =>
      let opened := openClass decl before
      (stages Task.check (ofClass opened.1.1 decl) opened.2).flatMap fun stage =>
        stage.1.ownPoints stage.2
  | task, before => task.ownPoints before

end Task

/-! ## Declared names -/

/-- The names of the variables of a declaration. -/
def varNames (decl : VarDecl) : List Ident := decl.items.map VarItem.name

namespace Task

/-- The names that a declaration declares, but for those of a class. -/
def ownNames : Task → List Ident
  | consts decl => decl.items.map ConstItem.name
  | vars _ decl | staticVars _ decl => varNames decl
  | method decl => decl.name :: decl.params.map Param.name ++ decl.locals.flatMap varNames
  | staticInit _ _ _ | .type _ => []

/-- The names that a declaration declares, those of the members of a class among them. -/
def names : Task → List Ident
  | .type decl => (ofClass decl.name.name decl).flatMap ownNames
  | task => task.ownNames

end Task

theorem map_ident_varPoints (declareItem : VarItem → TypeId → Check PUnit) (decl : VarDecl)
    (before : Checker) :
    (varPoints declareItem decl before).map Point.ident = varNames decl := by
  rw [varPoints, map_map, varNames]
  nth_rewrite 2 [← map_fst_stages _ decl.items _]
  rw [map_map]
  rfl

variable {decl : VarDecl} {motive : Checker → Prop} {task : Task} {α : Type} {items : List α}

theorem length_of_mapM {β : Type} {act : α → Check β} {results : List β}
    (ran : Ran (items.mapM act) before results after) :
    results.length = items.length := by
  induction items generalizing before results after with
  | nil =>
    obtain ⟨rfl, _⟩ := ran.pure
    rfl
  | cons item rest ih =>
    rw [mapM_cons] at ran
    obtain ⟨_, _, _, ran⟩ := ran.bind
    obtain ⟨_, _, restRan, ran⟩ := ran.bind
    rw [ran.pure.1, length_cons, ih restRan, length_cons]

theorem map_ident_methodPoints (method : MethodDecl) (before : Checker) :
    (methodPoints method before).map Point.ident = (Task.method method).ownNames := by
  have looked := ran_self (signature method) before
  rw [methodPoints]
  generalize signature method before = resolved at looked
  obtain ⟨⟨result, types⟩, resolved⟩ := resolved
  obtain ⟨_, _, _, looked⟩ := looked.bind
  obtain ⟨_, _, typesRan, looked⟩ := looked.bind
  obtain ⟨same, _⟩ := looked.pure
  cases same
  dsimp only
  generalize enterMethod method result types resolved = entered
  obtain ⟨⟨id, receiver, overridden⟩, inside⟩ := entered
  dsimp only
  rw [map_append, map_cons, map_map, map_flatMap, flatMap_stages fun stage =>
    map_ident_varPoints (declareVar .var) stage.1 stage.2]
  have params := congrArg (List.map fun entry : Param × TypeId => entry.1.name)
    (map_fst_stages declareParam (method.params.zip types) (declareThis method receiver inside).2)
  have zipped := congrArg (List.map Param.name)
    (map_fst_zip (Nat.le_of_eq (length_of_mapM typesRan).symm))
  rw [map_map] at params zipped
  exact congrArg (method.name :: · ++ _) (params.trans zipped)

theorem Task.map_ident_ownPoints (task : Task) (before : Checker) :
    (task.ownPoints before).map Point.ident = task.ownNames := by
  cases task with
  | consts decl =>
    rw [ownPoints, map_map, ownNames]
    nth_rewrite 2 [← map_fst_stages _ decl.items _]
    rw [map_map]
    rfl
  | vars => exact map_ident_varPoints ..
  | staticVars => exact map_ident_varPoints ..
  | method => exact map_ident_methodPoints ..
  | staticInit | type => rfl

theorem Task.map_ident_points (task : Task) (before : Checker) :
    (task.points before).map Point.ident = task.names := by
  have own := task.map_ident_ownPoints before
  cases task with
  | type decl =>
    rw [points, map_flatMap, flatMap_stages fun stage => stage.1.map_ident_ownPoints stage.2,
      names]
    simp only [ofClass, flatMap_append, flatMap_map, ownNames]
  | _ => exact own

/-! ## Points without violations -/

variable {ident : Ident}

theorem declare_avoids (ran : Ran (declare kind (before.qualifiedName name) type span) before id
      after) (clean : after.IsClean) (plain : ¬ IsQualified name) :
    before.Avoids name := by
  obtain ⟨bare, whole⟩ := declareIn_unmasked ran clean
  have same : bareName (before.qualifiedName name) = name := by
    rw [Checker.qualifiedName]
    split
    · exact bareName_qualify _ plain
    · exact bareName_of_plain plain
  exact ⟨same ▸ bare, fun _ _ => whole⟩

theorem declareIn_avoids {bound : String}
    (ran : Ran (declareIn outer kind bound type span) before id after) (clean : after.IsClean)
    (bare : bareName bound = name) (inside : before.owner.isSome ∨ before.method.isSome) :
    before.Avoids name := by
  refine ⟨bare ▸ (declareIn_unmasked ran clean).1, fun noOwner noMethod => ?_⟩
  simp [noOwner, noMethod] at inside

theorem checkConst_avoids {item : ConstItem} (ran : Ran (checkConst type item) before () after)
    (clean : after.IsClean) (plain : ¬ IsQualified item.name.name) :
    before.Avoids item.name.name := by
  replace ran := ran.table_bind
  obtain ⟨_, told, fitRan, ran⟩ := ran.bind
  obtain ⟨more, rfl⟩ := quiet.requireFit.reports fitRan
  replace ran := ran.get_bind
  obtain ⟨id, declared, declareRan, ran⟩ := ran.bind
  have cleanDeclared := Ran.isClean ran (blind.ite blind.pure blind.updateSymbol) clean
  have avoids := declare_avoids declareRan cleanDeclared plain
  exact ⟨avoids.bare, avoids.qualified⟩

/-- The names of points that are written as a program would write them lead to no type. -/
def AreAvoided (points : List Point) : Prop :=
  ∀ point ∈ points, ¬ IsQualified point.ident.name → point.state.Avoids point.ident.name

theorem Ran.forM_clean (act : α → Check PUnit) (ran : Ran (items.forM act) before () after)
    (isBlind : ∀ item, IsBlind (act item)) (clean : after.IsClean)
    (step : ∀ item early, motive early → motive (act item early).2) (start : motive before) :
    ∀ stage ∈ stages act items before, motive stage.2 ∧ (act stage.1 stage.2).2.IsClean := by
  obtain ⟨_, _, each⟩ := ran.forM_stages (motive := motive) Checker.Tells
    (fun item _ early late itemRan holds => by
      rw [← show (act item early).2 = late from congrArg Prod.snd itemRan]
      exact ⟨step item early holds, (isBlind item).tells early⟩) .refl .trans start
  exact fun stage member => ⟨(each stage member).2.1, (each stage member).2.2.isClean clean⟩

theorem varPoints_avoided (declareItem : VarItem → TypeId → Check PUnit)
    (ran : Ran (resolveType decl.type false >>= fun base =>
      decl.items.forM fun item => itemType base item >>= declareItem item) before () after)
    (clean : after.IsClean) (isBlind : ∀ item type, IsBlind (declareItem item type))
    (isAside : ∀ item type, IsAside (declareItem item type))
    (keeps : ∀ early late : Checker, late.aside = early.aside → motive early → motive late)
    (avoids : ∀ item type early late, Ran (declareItem item type) early () late → late.IsClean →
      motive early → ¬ IsQualified item.name.name → early.Avoids item.name.name)
    (start : motive before) :
    AreAvoided (varPoints declareItem decl before) := by
  obtain ⟨base, resolved, baseRan, ran⟩ := ran.bind
  have startItems := keeps _ _ (asideOnly.resolveType.aside_eq baseRan) start
  have each := ran.forM_clean _ (motive := motive)
    (fun item => blind.bind blind.itemType fun _ => isBlind item _) clean (fun item early =>
      keeps _ _ ((asideOnly.bind asideOnly.itemType fun _ => isAside item _) early)) startItems
  rw [AreAvoided, varPoints,
    show resolveType decl.type false before = (base, resolved) from baseRan,
    forall_mem_map]
  intro ⟨item, early⟩ isStage plain
  obtain ⟨holds, cleanLate⟩ := each _ isStage
  obtain ⟨type, typed, typeRan, itemRan⟩ :=
    (ran_self (itemType base item >>= declareItem item) early).bind
  have typedEq : (itemType base item early).2 = typed := congrArg Prod.snd typeRan
  dsimp only at plain ⊢
  rw [typedEq]
  exact avoids item type typed _ itemRan cleanLate
    (keeps _ _ (asideOnly.itemType.aside_eq typeRan) holds) plain

theorem checkVars_avoided (ran : Ran (checkVars kind decl) before () after)
    (clean : after.IsClean) :
    AreAvoided (varPoints (declareVar kind) decl before) := by
  refine varPoints_avoided (motive := fun _ => True) (declareVar kind) ran clean
    (fun _ _ => blind.read fun _ => blind.discard blind.declareIn)
    (fun _ _ => asideOnly.read fun _ => asideOnly.discard asideOnly.declareIn)
    (fun _ _ _ _ => trivial) (fun item type early late itemRan cleanLate _ plain => ?_) trivial
  replace itemRan := itemRan.get_bind
  obtain ⟨id, itemRan⟩ := itemRan.discard
  exact declare_avoids itemRan cleanLate plain

theorem checkStaticVars_avoided {owner : String}
    (ran : Ran (checkStaticVars owner decl) before () after) (clean : after.IsClean)
    (inside : before.owner.isSome) :
    AreAvoided (varPoints (declareStaticVar owner) decl before) := by
  refine varPoints_avoided (motive := fun checker => checker.owner.isSome)
    (declareStaticVar owner) ran clean
    (fun _ _ => blind.discard blind.declareIn) (fun _ _ => asideOnly.discard asideOnly.declareIn)
    (fun early late same inside => Checker.owner_of_aside same ▸ inside)
    (fun item type early late itemRan cleanLate inside plain => ?_) inside
  obtain ⟨id, itemRan⟩ := itemRan.discard
  exact declareIn_avoids itemRan cleanLate (bareName_dotted owner plain) (.inl inside)

/-! ## Methods without violations -/

variable {method : MethodDecl} {result : TypeId} {types : List TypeId}

/-- What a method may override is a method. -/
def OverridesMethods (checker : Checker) : Prop :=
  ∀ context, checker.owner = some context →
    ∀ id ∈ (checker.table.desc context.type).pending, (checker.table.symbol id).kind = .method

theorem OverridesMethods.visits (overrides : OverridesMethods before) (regular : before.IsRegular)
    (visits : before.Visits [] after) :
    OverridesMethods after := by
  intro context isOwner id member
  rw [visits.owner] at isOwner
  obtain ⟨has, symbols, _⟩ := regular.owner context isOwner
  rw [visits.table.desc_eq has] at member
  rw [visits.table.symbol_eq (symbols id member)]
  exact overrides context isOwner id member

theorem isTypeName_of_findLocal? (found : before.scopes.findLocal? name = some id)
    (other : (before.table.symbol id).kind ≠ .type) :
    before.isTypeName name = false := by
  have same : before.scopes.find name = id := by
    obtain ⟨frame, frames, found⟩ := Option.bind_eq_some_iff.mp found
    obtain ⟨rest, isFrames⟩ := head?_eq_some_iff.mp frames
    rw [Scopes.find, Scopes.find?, isFrames, findSome?_cons, found, Option.getD_some]
  rw [Checker.isTypeName, same]
  simp [other]

theorem declareMethod_avoids {declared : SymbolId × Option SymbolId}
    (ran : Ran (declareMethod method result types) before declared after) (clean : after.IsClean)
    (overrides : OverridesMethods before) (plain : ¬ IsQualified method.name.name) :
    before.Avoids method.name.name := by
  replace ran := ran.get_bind
  split at ran
  next owner isOwner =>
    have inside : before.owner.isSome ∨ before.method.isSome := .inl (by rw [isOwner]; rfl)
    split_ifs at ran
    · obtain ⟨id, late, declareRan, ran⟩ := ran.bind
      obtain ⟨_, rfl⟩ := ran.pure
      exact declareIn_avoids declareRan clean (bareName_dotted _ plain) inside
    · obtain ⟨pending, _, pendingRan, ran⟩ := ran.bind
      obtain ⟨rfl, found⟩ := pendingOverride?_ran pendingRan
      cases pending with
      | none =>
        obtain ⟨id, late, declareRan, ran⟩ := ran.bind
        obtain ⟨_, rfl⟩ := ran.pure
        exact declareIn_avoids declareRan clean (bareName_of_plain plain) inside
      | some entry =>
        obtain ⟨isFound, context, isContext, same, member⟩ := found entry.1 entry.2 rfl
        have isMethod := overrides context isContext entry.1 (same ▸ member)
        refine ⟨isTypeName_of_findLocal? isFound (isMethod ▸ nofun), fun noOwner _ => ?_⟩
        cases isOwner.symm.trans noOwner
  next =>
    obtain ⟨id, late, declareRan, ran⟩ := ran.bind
    obtain ⟨_, rfl⟩ := ran.pure
    exact declare_avoids declareRan clean plain

theorem signature_visits (ran : Ran (signature method) before (result, types) after)
    (valid : before.table.IsValid) :
    before.Visits [] after := by
  obtain ⟨_, s₁, resultRan, ran⟩ := ran.bind
  obtain ⟨_, s₂, typesRan, ran⟩ := ran.bind
  obtain ⟨_, rfl⟩ := ran.pure
  have visits := (resolveResult_visits resultRan valid).1
  exact visits.trans (paramTypes_visits typesRan (visits.table.valid valid)).1

theorem checkMethod_parts (ran : Ran (checkMethod method) before () after) (clean : after.IsClean) :
    ∃ result types resolved declared named id receiver overridden inside filled last,
      Ran (signature method) before (result, types) resolved ∧
      Ran (declareMethod method result types) resolved (declared, overridden) named ∧
      named.IsClean ∧
      Ran (enterMethod method result types) resolved (id, receiver, overridden) inside ∧
      inside.method.isSome ∧
      Ran (checkParams id receiver method types overridden) inside () filled ∧
      filled.IsClean ∧
      Ran (method.locals.forM (checkVars .var)) filled () last ∧ last.IsClean := by
  obtain ⟨result, s₁, resultRan, ran⟩ := ran.bind
  obtain ⟨types, s₂, typesRan, ran⟩ := ran.bind
  replace ran := ran.get_bind
  obtain ⟨⟨declared, overridden⟩, s₃, declareRan, ran⟩ := ran.bind
  have cleanNamed := Ran.isClean ran (.bind blind.orUnbound fun _ => .bind .change fun _ =>
    .bind (isBlind_insideMethod isBlind_checkBody) fun _ => blind.updateSymbol) clean
  obtain ⟨id, s₄, orRan, ran⟩ := ran.bind
  obtain ⟨_, s₅, noteRan, ran⟩ := ran.bind
  obtain ⟨⟨_, locals⟩, s₆, insideRan, ran⟩ := ran.bind
  have cleanInside := Ran.isClean ran blind.updateSymbol clean
  replace insideRan := insideRan.get_bind
  obtain ⟨_, s₇, pushRan, insideRan⟩ := insideRan.bind
  obtain ⟨_, s₈, contextRan, insideRan⟩ := insideRan.bind
  obtain ⟨_, s₉, bodyRan, insideRan⟩ := insideRan.bind
  have cleanBody := Ran.isClean insideRan
    (.bind isBlind_closeFrame fun _ => .bind .change fun _ => .pure) cleanInside
  obtain ⟨_, filled, paramsRan, bodyRan⟩ := bodyRan.bind
  obtain ⟨_, last, localsRan, bodyRan⟩ := bodyRan.bind
  have cleanLast := Ran.isClean bodyRan
    (.bind (walksOver_checkStmts _).blind fun _ => .read fun _ => blind.require) cleanBody
  have cleanFilled := Ran.isClean localsRan (blind.forM fun _ => blind.checkVars) cleanLast
  refine ⟨result, types, s₂, declared, s₃, id, _, overridden, s₈, filled, last,
    resultRan.andThen (typesRan.andThen rfl), declareRan, cleanNamed, ?_, ?_, paramsRan,
    cleanFilled, localsRan, cleanLast⟩
  · exact Ran.andThen (show Ran get s₂ s₂ s₂ from rfl) (declareRan.andThen (orRan.andThen
      (noteRan.andThen (pushRan.andThen (contextRan.andThen rfl)))))
  · rw [contextRan.modify]
    rfl

theorem params_avoided {receiver : Option TypeId} {overridden : Option SymbolId}
    (ran : Ran (checkParams id receiver method types overridden) before () after)
    (clean : after.IsClean) (inside : before.method.isSome) :
    AreAvoided ((stages declareParam (method.params.zip types)
      (declareThis method receiver before).2).map fun stage => ⟨stage.1.1.name, stage.2⟩) := by
  obtain ⟨_, opened, thisRan, ran⟩ := ran.bind
  obtain ⟨_, bound, paramsRan, ran⟩ := ran.bind
  have cleanBound := Ran.isClean ran (.read fun _ => .bind blind.updateSymbol fun _ =>
    blind.option_forM fun _ => blind.copySlots) clean
  have kept {early late : Checker} (same : late.aside = early.aside)
      (inside : early.method.isSome) : late.method.isSome := by
    have methods : late.aside.method = early.aside.method := congrArg Checker.method same
    exact (congrArg Option.isSome methods).trans inside
  have insideOpened : opened.method.isSome := kept (IsAside.aside_eq (asideOnly.option_forM fun _ =>
    asideOnly.discard asideOnly.declareIn) thisRan) inside
  have each := Ran.forM_clean declareParam paramsRan
    (motive := fun checker => checker.method.isSome)
    (fun _ => blind.discard blind.declareIn) cleanBound
    (fun _ early => kept ((asideOnly.discard asideOnly.declareIn) early)) insideOpened
  rw [show declareThis method receiver before = ((), opened) from thisRan]
  refine forall_mem_map.mpr fun ⟨entry, early⟩ isStage plain => ?_
  obtain ⟨insideEarly, cleanLate⟩ := each _ isStage
  obtain ⟨id, declareRan⟩ := (ran_self (declareParam entry) early).discard
  exact declareIn_avoids declareRan cleanLate (bareName_of_plain plain) (.inr insideEarly)

theorem checkMethod_avoided (ran : Ran (checkMethod method) before () after) (clean : after.IsClean)
    (regular : before.IsRegular) (overrides : OverridesMethods before) :
    AreAvoided (methodPoints method before) := by
  obtain ⟨result, types, resolved, declared, named, id, receiver, overridden, inside, filled, last,
    signatureRan, declareRan, cleanNamed, enterRan, isInside, paramsRan, cleanFilled, localsRan,
    cleanLast⟩ := checkMethod_parts ran clean
  have points : methodPoints method before = ⟨method.name, resolved⟩ ::
      ((stages declareParam (method.params.zip types)
        (declareThis method receiver inside).2).map fun stage => ⟨stage.1.1.name, stage.2⟩) ++
      (stages (checkVars .var) method.locals filled).flatMap fun stage =>
        varPoints (declareVar .var) stage.1 stage.2 := by
    rw [methodPoints, show signature method before = _ from signatureRan]
    dsimp only
    rw [show enterMethod method result types resolved = _ from enterRan]
    dsimp only
    rw [show checkParams id receiver method types overridden inside = _ from paramsRan]
  have visits := signature_visits signatureRan regular.valid
  have params := params_avoided paramsRan cleanFilled isInside
  have locals := localsRan.forM_clean _ (motive := fun _ => True) (fun _ => blind.checkVars)
    cleanLast (fun _ _ _ => trivial) trivial
  rw [points, AreAvoided, cons_append, forall_mem_cons, forall_mem_append]
  refine ⟨declareMethod_avoids declareRan cleanNamed (overrides.visits regular visits), params,
    fun point member => ?_⟩
  obtain ⟨⟨decl, early⟩, isStage, member⟩ := mem_flatMap.mp member
  exact checkVars_avoided (ran_self (checkVars .var decl) early) (locals _ isStage).2 point member

/-! ## Programs without violations -/

theorem Task.ownPoints_avoided (clean : (task.check before).2.IsClean)
    (regular : before.IsRegular) (overrides : OverridesMethods before)
    (inside : ∀ owner decl, task = .staticVars owner decl → before.owner.isSome) :
    AreAvoided (task.ownPoints before) := by
  have ran := ran_self task.check before
  cases task with
  | consts decl =>
    obtain ⟨type, resolved, typeRan, ran⟩ := ran.bind
    have each := ran.forM_clean _ (motive := fun _ => True) (fun _ => blind.checkConst) clean
      (fun _ _ _ => trivial) trivial
    rw [AreAvoided, ownPoints, show resolveType decl.type false before = _ from typeRan]
    refine forall_mem_map.mpr fun ⟨item, early⟩ isStage plain => ?_
    exact checkConst_avoids (ran_self (checkConst type item) early) (each _ isStage).2 plain
  | vars kind decl => exact checkVars_avoided ran clean
  | staticVars owner decl => exact checkStaticVars_avoided ran clean (inside owner decl rfl)
  | method decl => exact checkMethod_avoided ran clean regular overrides
  | staticInit | type => exact fun _ => (not_mem_nil · |>.elim)

theorem memberPoints_avoided {decl : ClassDecl} {theirs : List SymbolId}
    (ran : Ran (checkMembers name decl) before () after) (clean : after.IsClean)
    (isOpen : before.IsOpen type theirs) (owner : before.owner = some ⟨type, 2⟩)
    (named : (before.table.desc type).name = name) :
    AreAvoided ((stages Task.check (Task.ofClass name decl) before).flatMap fun stage =>
      stage.1.ownPoints stage.2) := by
  intro point member
  obtain ⟨⟨task, early⟩, isStage, member⟩ := mem_flatMap.mp member
  obtain ⟨_, place, isOpenEarly, tells⟩ := checkMembers_stages ran isOpen owner named _ isStage
  have ownerEarly : early.owner = some ⟨type, 2⟩ := (congrArg Place.owner place).trans owner
  refine task.ownPoints_avoided (tells.isClean clean) (isOpenEarly.isRegular ownerEarly rfl)
    (fun context isOwner id pending => ?_) (fun _ _ _ => ?_) point member
  · obtain rfl := Option.some.inj (ownerEarly.symm.trans isOwner)
    exact (isOpenEarly.pending id pending).2.1
  · rw [ownerEarly]
    rfl

theorem Task.points_avoided {decls : List Decl} {methods : List MethodDecl} {start : Table}
    {space : Option String} (clean : (task.check before).2.IsClean)
    (member : task ∈ ofUnit decls methods) (between : IsBetween start space before) :
    AreAvoided (task.points before) := by
  have outside : OverridesMethods before := fun context isOwner => by
    cases between.noOwner.symm.trans isOwner
  have noStatics : ∀ owner decl, task = .staticVars owner decl → before.owner.isSome := by
    rintro owner decl rfl
    obtain member | member := mem_append.mp member
    · obtain ⟨other, _, same⟩ := mem_map.mp member
      cases other <;> cases same
    · obtain ⟨_, _, same⟩ := mem_map.mp member
      cases same
  have own := task.ownPoints_avoided clean between.isRegular outside noStatics
  cases task with
  | type decl =>
    obtain ⟨type, theirs, inside, last, openRan, begins, membersRan, _, _, _, more, closed⟩ :=
      checkClass_ran (ran_self (checkClass decl) before) between.settled between.guarded
        between.depth between.noOwner Rules.all_inner
    have cleanLast : last.IsClean := by
      refine Checker.Tells.isClean ⟨more, ?_⟩ clean
      exact congrArg Checker.diagnostics closed
    rw [points, show openClass decl before = _ from openRan]
    exact memberPoints_avoided membersRan cleanLast begins.isOpen begins.owner begins.named
  | _ => exact own

end Check

/-- The names that a program declares, but for those of its classes. -/
def Program.declaredNames (program : Program) : List Ident :=
  program.spaces.flatMap (fun space =>
    (Check.Task.ofUnit space.decls space.methods).flatMap Check.Task.names) ++
    (Check.Task.ofUnit program.decls program.methods).flatMap Check.Task.names

namespace Analysis

/-- The points at which the names of a program are bound. -/
def points (options : Options) (program : Program) : List Check.Point :=
  (Check.outerStages options program).flatMap fun stage => stage.1.points stage.2

theorem map_ident_points (options : Options) (program : Program) :
    (points options program).map Check.Point.ident = program.declaredNames := by
  have each (tasks : List Check.Task) (before : Checker) :
      (Check.stages Check.Task.check tasks before).flatMap
        (fun stage => (stage.1.points stage.2).map Check.Point.ident) =
      tasks.flatMap Check.Task.names :=
    Check.flatMap_stages fun stage => stage.1.map_ident_points stage.2
  rw [points, map_flatMap, Check.outerStages, flatMap_append, flatMap_assoc]
  exact congrArg₂ _ (Check.flatMap_stages fun stage => each _ _) (each _ _)

/-- In a program without violations a name leads to a type where it is declared only if it stands
in a class or a method of a namespace, no frame binds it, and the namespace has a type of this
name. -/
theorem namesType_points_iff (options : Options) (program : Program)
    (accepted : (analyze options program).errorCount = 0) :
    (points options program).map Check.Point.ident = program.declaredNames ∧
      ∀ point ∈ points options program, ¬ IsQualified point.ident.name →
        (point.state.NamesType point.ident.asType ↔
          (point.state.owner.isSome ∨ point.state.method.isSome) ∧
            point.state.scopes.find point.ident.name = .absent ∧
            ∃ space, point.state.space = some space ∧
              point.state.isTypeName (qualify space point.ident.name)) := by
  refine ⟨map_ident_points options program, fun point member plain => ?_⟩
  obtain ⟨spaced, last, final, unfolds, _, _, clean, _⟩ := exists_unfolds options program
  obtain ⟨⟨task, early⟩, isStage, member⟩ := mem_flatMap.mp member
  obtain ⟨⟨decls, methods, isTask⟩, ⟨space, between⟩, follows⟩ := unfolds.stages _ isStage
  have avoided := task.points_avoided (follows.tells.isClean (clean accepted)) isTask between
  exact (avoided point member plain).namesType_iff

/-- A namespace with a class and a method, whose variable has a name that is left open. -/
def sheltering (name : String) : Program :=
  Supply.plant do
    let int ← Supply.typeRef none "int"
    let type ← Supply.type "T" none [] [] [] []
    let method ← Supply.method false none false "m" [] [← Supply.vars int [(name, false)]] []
    let main ← Supply.method false none false "main" [] [] []
    Supply.program "P" [← Supply.space "N" [.type type] [method]] [] [main]

theorem namesType_points_iff_sheltering :
    (analyze {} (sheltering "x")).errorCount = 0 ∧
      (points {} (sheltering "x")).map Check.Point.ident = (sheltering "x").declaredNames ∧
      ∀ point ∈ points {} (sheltering "x"), ¬ point.state.NamesType point.ident.asType := by
  have accepted : (analyze {} (sheltering "x")).errorCount = 0 := by decide +kernel
  obtain ⟨listed, each⟩ := namesType_points_iff {} (sheltering "x") accepted
  have plain : ∀ point ∈ points {} (sheltering "x"), ¬ IsQualified point.ident.name := by
    simp only [IsQualified]
    decide +kernel
  have free : ∀ point ∈ points {} (sheltering "x"), point.state.space.all fun space =>
      !point.state.isTypeName (qualify space point.ident.name) := by decide +kernel
  refine ⟨accepted, listed, fun point member namesType => ?_⟩
  obtain ⟨_, _, space, isSpace, isType⟩ := (each point member (plain point member)).mp namesType
  have apart := free point member
  simp [isSpace, isType] at apart

/-- A variable of a method may have the name of a class beside the method, which still is a type
where the variable is declared. -/
theorem exists_namesType_sheltering :
    (analyze {} (sheltering "T")).errorCount = 0 ∧
      ∃ point ∈ points {} (sheltering "T"), ¬ IsQualified point.ident.name ∧
        point.state.NamesType point.ident.asType := by
  refine ⟨by decide +kernel, ?_⟩
  simp only [IsQualified, Checker.namesType_iff]
  decide +kernel

end Analysis
end MicroJava
