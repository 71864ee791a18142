import Mathlib.Data.List.Flatten
import Mathlib.Data.List.ReduceOption
import MicroJava.Proofs.Analysis.Names

/-!
# Names of the program

The frame of the program lists what is declared in it: what stands in the program and in its
namespaces, and the static members of classes beside their classes.
-/

namespace MicroJava

open List

variable {bindings further : List (Nat × String)} {first second third : Scopes}
  {space : Option String} {names more : List Global} {outer : Bool} {kind : SymbolKind}
  {name : String} {type : TypeId} {span : Span} {id : SymbolId} {before after : Checker}

/-- A declaration in the frame of the program. -/
structure Global where
  kind : SymbolKind
  name : String
  span : Span

/-- The name of a declaration of the program or of a namespace. -/
def qualifiedIn (space : Option String) (name : String) : String :=
  space.elim name fun space => qualify space name

/-- Variables, bound to names that are made of their own. -/
def VarDecl.globals (named : String → String) (decl : VarDecl) : List Global :=
  decl.items.flatMap fun item => [⟨.var, named item.name.name, item.span⟩]

/-- A method, bound to a name that is made of its own. -/
def MethodDecl.globals (named : String → String) (method : MethodDecl) : List Global :=
  [⟨.method, named method.name.name, method.node.span⟩]

/-- A method of a class of the given name is bound beside the class if it is static. -/
def MethodDecl.statics (owner : String) (method : MethodDecl) : List Global :=
  if method.isStatic then method.globals (dotted owner) else []

/-- The static members of a class of the given name. -/
def ClassDecl.statics (name : String) (decl : ClassDecl) : List Global :=
  decl.staticVars.flatMap (VarDecl.globals (dotted name)) ++
    decl.methods.flatMap (MethodDecl.statics name)

/-- What a declaration binds in the frame of the program. -/
def Decl.globals (space : Option String) : Decl → List Global
  | .consts decl =>
      decl.items.flatMap fun item => [⟨.const, qualifiedIn space item.name.name, item.span⟩]
  | .vars decl => decl.globals (qualifiedIn space)
  | .type decl =>
      let name := qualifiedIn space decl.name.name
      ⟨.type, name, decl.node.span⟩ :: decl.statics name

/-- The constants of a declaration, and their values. -/
def Decl.constants (space : Option String) : Decl → List (String × Int32)
  | .consts decl => decl.items.map fun item => (qualifiedIn space item.name.name, item.value.word)
  | _ => []

/-- All constants of the program. -/
def Program.constants (program : Program) : List (String × Int32) :=
  (program.spaces.flatMap fun space =>
    space.decls.flatMap (Decl.constants (some space.name.name))) ++
    program.decls.flatMap (Decl.constants none)

/-- What declarations and methods bind that stand side by side. -/
def globalsOf (space : Option String) (decls : List Decl) (methods : List MethodDecl) :
    List Global :=
  decls.flatMap (Decl.globals space) ++ methods.flatMap (MethodDecl.globals (qualifiedIn space))

/-- All that is declared in the frame of the program, in the order of the declarations. -/
def Program.globals (program : Program) : List Global :=
  (program.spaces.flatMap fun space =>
    globalsOf (some space.name.name) space.decls space.methods) ++
    globalsOf none program.decls program.methods

theorem Program.constants_sublist (program : Program) :
    (program.constants.map Prod.fst).Sublist (program.globals.map Global.name) := by
  have each (space : Option String) (decls : List Decl) (methods : List MethodDecl) :
      ((decls.flatMap (Decl.constants space)).map Prod.fst).Sublist
        ((globalsOf space decls methods).map Global.name) := by
    rw [globalsOf, map_append, map_flatMap, map_flatMap]
    refine (List.Sublist.flatMap_right decls fun decl _ => ?_).trans (sublist_append_left _ _)
    cases decl with
    | consts decl =>
      rw [Decl.constants, Decl.globals, ← map_eq_flatMap, map_map, map_map]
      exact .refl _
    | vars => exact nil_sublist _
    | type => exact nil_sublist _
  rw [Program.constants, Program.globals, map_append, map_append]
  refine List.Sublist.append ?_ (each none program.decls program.methods)
  rw [map_flatMap, map_flatMap]
  exact List.Sublist.flatMap_right _ fun space _ => each _ space.decls space.methods

theorem flatMap_nothing {α β : Type} (items : List α) :
    (items.flatMap fun _ => ([] : List β)) = [] :=
  flatMap_eq_nil_iff.mpr fun _ _ => rfl

/-- What became of a declaration: it has a symbol, or it was rejected. -/
def Global.Became (table : Table) (told : List Diagnostic) (global : Global) :
    Option SymbolId → Prop
  | some id => table.HasSymbol id ∧ (table.symbol id).kind = global.kind ∧
      (table.symbol id).name = global.name
  | none => ∃ diagnostic ∈ told, diagnostic.Rejects global.name global.span

/-! ## The frame of the program -/

/-- The symbols of the frame of the program. -/
def Scopes.globals (scopes : Scopes) : List SymbolId :=
  Scopes.current ⟨scopes.frames.drop (scopes.depth - 2)⟩

/-- The frame of the program and the one around it. -/
def Scopes.outermost (scopes : Scopes) : List Frame := scopes.frames.drop (scopes.depth - 2)

namespace Scopes

theorem outermost_pop {scopes : Scopes} (deep : 3 ≤ scopes.depth) :
    scopes.pop.outermost = scopes.outermost := by
  obtain ⟨_ | ⟨frame, rest⟩⟩ := scopes
  · cases deep
  · have drop : (frame :: rest).length - 2 = rest.length - 2 + 1 :=
      Nat.succ_sub (Nat.le_of_succ_le_succ deep)
    rw [Scopes.outermost, Scopes.outermost, depth, depth, drop]
    rfl

theorem findAt?_outermost (scopes : Scopes) {number : Nat} (inside : number < 2) (name : String) :
    scopes.findAt? number name = scopes.outermost.reverse[number]?.bind (·.find? name) := by
  rw [findAt?_eq, Scopes.outermost, reverse_drop, getElem?_take, depth]
  split
  · rfl
  · rw [getElem?_eq_none (by rw [length_reverse]; omega)]

/-- Names are bound in the outermost frames, and what was bound there is kept. -/
structure Gains (count : Nat) (bindings : List (Nat × String)) (before after : Scopes) :
    Prop where
  kept : ∀ number < count, ∀ name id, before.findAt? number name = some id →
    after.findAt? number name = some id
  added : ∀ number < count, ∀ name id, after.findAt? number name = some id →
    before.findAt? number name = some id ∨ (number, name) ∈ bindings

namespace Gains

variable {count : Nat} {before after : Scopes}

theorem of_findAt?
    (same : ∀ number < count, ∀ name, after.findAt? number name = before.findAt? number name) :
    before.Gains count bindings after :=
  ⟨fun number inside name _ found => (same number inside name).trans found,
    fun number inside name _ found => .inl ((same number inside name).symm.trans found)⟩

theorem trans (gains : first.Gains count bindings second)
    (next : second.Gains count further third) :
    first.Gains count (bindings ++ further) third where
  kept number inside name id found :=
    next.kept number inside name id (gains.kept number inside name id found)
  added number inside name id found := by
    rcases next.added number inside name id found with found | isNew
    · exact (gains.added number inside name id found).imp_right (mem_append_left _)
    · exact .inr (mem_append_right _ isNew)

end Gains
end Scopes

/-- Names are free in the frame of the program, and then each of them is bound there once. -/
structure Scopes.BindsOnce (names : List String) (before after : Scopes) : Prop where
  apart : names.Nodup
  free : ∀ name ∈ names, before.findAt? 1 name = none
  bound : ∀ name ∈ names, (after.findAt? 1 name).isSome

theorem Scopes.BindsOnce.trans {names more : List String} (binds : first.BindsOnce names second)
    (next : second.BindsOnce more third) (gains : first.Gains 2 bindings second)
    (later : second.Gains 2 further third) :
    first.BindsOnce (names ++ more) third where
  apart := by
    refine nodup_append.mpr ⟨binds.apart, next.apart, ?_⟩
    rintro name early _ late rfl
    have bound := binds.bound name early
    rw [next.free name late] at bound
    cases bound
  free := by
    refine forall_mem_append.mpr ⟨binds.free, fun name late => ?_⟩
    by_contra found
    obtain ⟨id, found⟩ := Option.ne_none_iff_exists'.mp found
    have kept := gains.kept 1 Nat.one_lt_two name id found
    rw [next.free name late] at kept
    cases kept
  bound := by
    refine forall_mem_append.mpr ⟨fun name early => ?_, next.bound⟩
    obtain ⟨id, found⟩ := Option.isSome_iff_exists.mp (binds.bound name early)
    rw [later.kept 1 Nat.one_lt_two name id found]
    rfl

theorem Scopes.bindsOnce_nil (before after : Scopes) : before.BindsOnce [] after :=
  ⟨.nil, nofun, nofun⟩

namespace Checker

/-- What a method binds in the frame of the program, where it stands. -/
def methodGlobals (checker : Checker) (method : MethodDecl) : List Global :=
  match checker.owner with
  | some owner => method.statics (checker.table.desc owner.type).name
  | none => method.globals checker.qualifiedName

section

variable (declares : before.Declares outer kind name type id after)
include declares

theorem Declares.globals (deep : outer.toNat + 2 ≤ before.scopes.depth) :
    after.scopes.globals = before.scopes.globals ++
      if before.scopes.depth = outer.toNat + 2 then [id] else [] := by
  obtain ⟨inner, frame, rest, frame', frames, frames', length, takes⟩ := declares.takes
  replace length : inner.length = outer.toNat := by cases outer <;> exact length
  have depth : before.scopes.depth = inner.length + (rest.length + 1) := by
    rw [Scopes.depth, frames, length_append, length_cons]
  obtain ⟨count, isCount⟩ : ∃ count, rest.length = count + 1 := ⟨rest.length - 1, by omega⟩
  have drop : before.scopes.depth - 2 = inner.length + count := by omega
  simp only [Scopes.globals, declares.depth, drop, frames, frames', drop_length_add_append]
  cases count with
  | zero =>
    rw [if_pos (by omega)]
    exact (congrArg Array.toList takes.order).trans Array.toList_push
  | succ count => rw [if_neg (by omega), append_nil, drop_succ_cons, drop_succ_cons]

theorem Declares.gains (deep : outer.toNat + 2 ≤ before.scopes.depth) (span : Span) :
    before.scopes.Gains 2 ((if before.scopes.depth = outer.toNat + 2 then
      [(⟨kind, name, span⟩ : Global)] else []).map fun global => (1, global.name))
        after.scopes := by
  obtain ⟨free, finds⟩ := declares.findAt?
  constructor
  · intro number inside other old found
    rw [finds, if_neg, found]
    rintro ⟨rfl, rfl⟩
    rw [free] at found
    cases found
  · intro number inside other new found
    rw [finds] at found
    split at found
    next same =>
      obtain ⟨isNumber, rfl⟩ := same
      rw [if_pos (by omega)]
      exact .inr (by simp; omega)
    next => exact .inl found

theorem Declares.bindsOnce (isGlobal : before.scopes.depth = outer.toNat + 2) :
    before.scopes.BindsOnce [name] after.scopes := by
  obtain ⟨free, finds⟩ := declares.findAt?
  rw [show before.scopes.depth - 1 - outer.toNat = 1 by omega] at free finds
  refine ⟨nodup_singleton name, forall_mem_singleton.mpr free,
    forall_mem_singleton.mpr ?_⟩
  rw [finds, if_pos ⟨rfl, rfl⟩]
  rfl

end

theorem became_mono {global : Global} {found : Option SymbolId}
    (grows : before.table.Grows after.table) (tells : before.Tells after)
    (became : global.Became before.table before.diagnostics.toList found) :
    global.Became after.table after.diagnostics.toList found := by
  cases found with
  | none => exact Rejects.mono became tells
  | some id =>
    obtain ⟨has, kind, name⟩ := became
    exact ⟨grows.hasSymbol has, (grows.symbol_kind has).trans kind,
      (grows.symbol_name has).trans name⟩

/-- Names are declared in the frame of the program, one after the other. -/
structure Publishes (names : List Global) (before after : Checker) : Prop where
  grows : before.table.Grows after.table
  tells : before.Tells after
  listed : ∃ found, List.Forall₂ (Global.Became after.table after.diagnostics.toList) names found ∧
    after.scopes.globals = before.scopes.globals ++ found.reduceOption
  gains : before.scopes.Gains 2 (names.map fun global => (1, global.name)) after.scopes
  once : after.IsClean → before.scopes.BindsOnce (names.map Global.name) after.scopes

namespace Publishes

theorem of_outer (grows : before.table.Grows after.table) (tells : before.Tells after)
    (outer : after.scopes.outermost = before.scopes.outermost) :
    before.Publishes [] after :=
  ⟨grows, tells,
    ⟨[], .nil, (congrArg (Scopes.current ⟨·⟩) outer).trans (append_nil _).symm⟩,
    .of_findAt? fun number inside name => by
      rw [Scopes.findAt?_outermost _ inside, outer, Scopes.findAt?_outermost _ inside],
    fun _ => Scopes.bindsOnce_nil _ _⟩

theorem trans {first second third : Checker} (publishes : first.Publishes names second)
    (next : second.Publishes more third) :
    first.Publishes (names ++ more) third := by
  obtain ⟨found, became, globals⟩ := publishes.listed
  obtain ⟨others, becameLater, globalsLater⟩ := next.listed
  refine ⟨publishes.grows.trans next.grows, publishes.tells.trans next.tells, ⟨found ++ others,
    rel_append (became.imp fun _ _ => became_mono next.grows next.tells) becameLater, ?_⟩, ?_,
    fun clean => ?_⟩
  · rw [globalsLater, globals, reduceOption_append, append_assoc]
  · rw [map_append]
    exact publishes.gains.trans next.gains
  · rw [map_append]
    exact (publishes.once (next.tells.isClean clean)).trans (next.once clean) publishes.gains
      next.gains

theorem then_outer {between : Checker} (publishes : before.Publishes names between)
    (grows : between.table.Grows after.table) (tells : between.Tells after)
    (outer : after.scopes.outermost = between.scopes.outermost) :
    before.Publishes names after :=
  append_nil names ▸ publishes.trans (of_outer grows tells outer)

end Publishes

theorem Visits.publishes {nodes : List NodeId} (visits : before.Visits nodes after) :
    before.Publishes [] after :=
  .of_outer visits.table.grows visits.tells (by rw [visits.scopes])

end Checker

namespace Check

theorem declareIn_publishes (ran : Ran (declareIn outer kind name type span) before id after)
    (deep : outer.toNat + 2 ≤ before.scopes.depth) :
    before.Publishes
      (if before.scopes.depth = outer.toNat + 2 then [⟨kind, name, span⟩] else []) after := by
  rcases declareIn_ran ran fun _ => by omega with ⟨_, reports, rejects⟩ | declares
  · have visits := reports.visits
    split
    · exact ⟨visits.table.grows, visits.tells, ⟨[none], .cons rejects .nil,
        by rw [visits.scopes]; exact (append_nil _).symm⟩,
        .of_findAt? fun _ _ _ => by rw [visits.scopes], fun clean =>
          absurd clean rejects.not_isClean⟩
    · exact visits.publishes
  · refine ⟨declares.grows, declares.tells, ?_, declares.gains deep span, fun _ => ?_⟩
    · rw [declares.globals deep]
      split
      · exact ⟨[some id],
          .cons ⟨declares.hasSymbol, declares.symbol_kind, declares.symbol_name⟩ .nil, rfl⟩
      · exact ⟨[], .nil, rfl⟩
    · split
      next isGlobal => exact declares.bindsOnce isGlobal
      next => exact Scopes.bindsOnce_nil _ _

end Check
end MicroJava
