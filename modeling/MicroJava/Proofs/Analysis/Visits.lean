import MicroJava.Proofs.Analysis.Reports
import MicroJava.Proofs.Symbol.Growth
import MicroJava.Proofs.Tree.Nodes

/-!
# What the check of a body leaves behind

The check of a body writes annotations under the nodes it visits, enters array elements and
array types, and may report.  Everything else it leaves as it was: `Checker.Visits` says so.
-/

namespace MicroJava

variable {before after first second third : Checker} {nodes : List NodeId} {result : TypeId}
  {span : Span} {node : NodeId} {target : Designator}

/-! ## Visits -/

namespace Annotations

/-- Two sets of annotations say the same about a node. -/
def AgreesAt (notes other : Annotations) (node : NodeId) : Prop :=
  notes.symbol? node = other.symbol? node ∧ notes.type? node = other.type? node

theorem AgreesAt.trans {notes other further : Annotations} (agrees : notes.AgreesAt other node)
    (next : other.AgreesAt further node) :
    notes.AgreesAt further node :=
  ⟨agrees.1.trans next.1, agrees.2.trans next.2⟩

theorem symbol?_setSymbol (notes : Annotations) (node other : NodeId) (id : SymbolId) :
    (notes.setSymbol node id).symbol? other =
      if node = other then some id else notes.symbol? other := by
  simp only [symbol?, setSymbol, Std.TreeMap.getElem?_insert, Nat.compare_eq_eq]

theorem type?_setType (notes : Annotations) (node other : NodeId) (id : TypeId) :
    (notes.setType node id).type? other = if node = other then some id else notes.type? other := by
  simp only [type?, setType, Std.TreeMap.getElem?_insert, Nat.compare_eq_eq]

end Annotations

namespace Checker

/-- A state without what the check of a body changes. -/
def core (checker : Checker) : Checker :=
  { checker with
    table := .initial
    notes := {}
    diagnostics := #[]
    method := checker.method.map fun method => { method with returns := false } }

/-- What the check of a part of a body may change, if the part has the given nodes. -/
structure Visits (nodes : List NodeId) (before after : Checker) : Prop where
  core : after.core = before.core
  tells : before.Tells after
  notes : ∀ node ∉ nodes, after.notes.AgreesAt before.notes node
  table : before.table.Widens after.table

theorem Reports.visits (reports : before.Reports after) : before.Visits [] after := by
  obtain ⟨more, rfl⟩ := reports
  exact ⟨rfl, ⟨more, rfl⟩, fun _ _ => ⟨rfl, rfl⟩, .refl _⟩

namespace Visits

theorem refl (checker : Checker) : checker.Visits [] checker := (Reports.refl checker).visits

theorem trans {further : List NodeId} (visits : first.Visits nodes second)
    (next : second.Visits further third) :
    first.Visits (nodes ++ further) third where
  core := next.core.trans visits.core
  tells := visits.tells.trans next.tells
  notes := fun node outside => by
    rw [List.mem_append, not_or] at outside
    exact (next.notes node outside.2).trans (visits.notes node outside.1)
  table := visits.table.trans next.table

theorem mono {more : List NodeId} (visits : before.Visits nodes after) (subset : nodes ⊆ more) :
    before.Visits more after :=
  { visits with
    notes := fun node outside => visits.notes node fun member => outside (subset member) }

theorem after_reports (reports : first.Reports second) (visits : second.Visits nodes third) :
    first.Visits nodes third :=
  reports.visits.trans visits

theorem then_reports (visits : first.Visits nodes second) (reports : second.Reports third) :
    first.Visits nodes third := by
  have both := visits.trans reports.visits
  rwa [List.append_nil] at both

variable (visits : before.Visits nodes after)
include visits

theorem scopes : after.scopes = before.scopes :=
  (congrArg Checker.scopes visits.core :)

theorem owner : after.owner = before.owner :=
  (congrArg Checker.owner visits.core :)

theorem space : after.space = before.space :=
  (congrArg Checker.space visits.core :)

theorem builtins : after.builtins = before.builtins :=
  (congrArg Checker.builtins visits.core :)

theorem classes : after.classes = before.classes :=
  (congrArg Checker.classes visits.core :)

theorem staticInits : after.staticInits = before.staticInits :=
  (congrArg Checker.staticInits visits.core :)

theorem loopDepth : after.loopDepth = before.loopDepth :=
  (congrArg Checker.loopDepth visits.core :)

theorem method_isSome : after.method.isSome = before.method.isSome := by
  have same : after.core.method.isSome = before.core.method.isSome := by rw [visits.core]
  simpa only [Checker.core, Option.isSome_map] using same

theorem method_some {method : MethodContext} (isMethod : before.method = some method) :
    ∃ later, after.method = some later ∧ later.result = method.result ∧
      later.isStatic = method.isStatic := by
  have same : after.core.method = before.core.method := by rw [visits.core]
  simp only [Checker.core, isMethod, Option.map_some] at same
  obtain ⟨later, isLater, fields⟩ := Option.map_eq_some_iff.mp same
  obtain ⟨_, result, isStatic, _⟩ := MethodContext.mk.inj fields
  exact ⟨later, isLater, result, isStatic⟩

end Visits
end Checker

namespace Check

/-! ## Designators and expressions -/

theorem noteSymbol_visits {id : SymbolId} (ran : Ran (noteSymbol node id) before () after) :
    before.Visits [node] after ∧ after.notes.symbol? node = some id := by
  cases ran
  refine ⟨⟨rfl, .refl _, fun other outside => ⟨?_, rfl⟩, .refl _⟩, ?_⟩
  · rw [List.mem_singleton] at outside
    exact (Annotations.symbol?_setSymbol _ _ _ _).trans (if_neg (Ne.symm outside))
  · exact (Annotations.symbol?_setSymbol _ _ _ _).trans (if_pos rfl)

theorem noteType_visits {id : TypeId} (ran : Ran (noteType node id) before () after) :
    before.Visits [node] after ∧ after.notes.type? node = some id := by
  cases ran
  refine ⟨⟨rfl, .refl _, fun other outside => ⟨rfl, ?_⟩, .refl _⟩, ?_⟩
  · rw [List.mem_singleton] at outside
    exact (Annotations.type?_setType _ _ _ _).trans (if_neg (Ne.symm outside))
  · exact (Annotations.type?_setType _ _ _ _).trans (if_pos rfl)

theorem settle_visits {designator : Designator} {found result : SymbolId}
    (ran : Ran (settle designator found) before result after) :
    before.Visits [designator.id] after ∧ result = found ∧
      after.notes.symbol? designator.id = some found ∧ after.table = before.table := by
  obtain ⟨_, noted, noteRan, ran⟩ := ran.bind
  obtain ⟨_, told, informRan, ran⟩ := ran.bind
  obtain ⟨rfl, rfl⟩ := ran.pure
  obtain ⟨visits, holds⟩ := noteSymbol_visits noteRan
  have reports := quiet.informUse.reports informRan
  refine ⟨visits.then_reports reports, rfl, ?_, ?_⟩
  · obtain ⟨_, rfl⟩ := reports
    exact holds
  · obtain ⟨_, rfl⟩ := reports
    cases noteRan
    rfl

theorem record_visits {node : Node} {type : TypeId}
    (ran : Ran (record node type) before result after) :
    before.Visits [node.id] after ∧ result = type ∧ after.notes.type? node.id = some type ∧
      after.table = before.table := by
  obtain ⟨_, noted, noteRan, ran⟩ := ran.bind
  obtain ⟨rfl, rfl⟩ := ran.pure
  obtain ⟨visits, holds⟩ := noteType_visits noteRan
  refine ⟨visits, rfl, holds, ?_⟩
  cases noteRan
  rfl

theorem onTable_visits {α : Type} {act : Table → α × Table} {result : α}
    (ran : Ran (onTable act) before result after)
    (widens : before.table.Widens (act before.table).2) :
    before.Visits [] after ∧ result = (act before.table).1 ∧
      after.table = (act before.table).2 := by
  cases ran
  exact ⟨⟨rfl, .of_eq rfl, fun _ _ => ⟨rfl, rfl⟩, widens⟩, rfl, rfl⟩

theorem elementOf_visits {base : Designator} {array result : SymbolId}
    (ran : Ran (elementOf base array span) before result after) :
    before.Visits [] after := by
  replace ran := ran.table_bind
  dsimp only at ran
  split at ran
  · exact (onTable_visits ran (Table.addElement_widens _ _)).1
  · obtain ⟨_, told, fitRan, ran⟩ := ran.bind
    obtain ⟨rfl, rfl⟩ := ran.pure
    exact (quiet.requireFit.reports fitRan).visits

theorem resolveType_visits {ref : TypeRef} {isArray : Bool}
    (ran : Ran (resolveType ref isArray) before result after) (valid : before.table.IsValid) :
    before.Visits [] after ∧ after.table.HasType result ∧
      (result = .none ∧ .error (.unknownType ref.text) ref.span ∈ after.diagnostics ∨
        result.IsProper) := by
  replace ran := ran.get_bind
  dsimp only at ran
  split_ifs at ran with missing array
  · obtain ⟨_, told, reportRan, ran⟩ := ran.bind
    obtain ⟨rfl, rfl⟩ := ran.pure
    have visits := (quiet.report.reports reportRan).visits
    cases reportRan
    exact ⟨visits, valid.hasType_basic (by decide), .inl ⟨rfl, Array.mem_push_self⟩⟩
  all_goals
    rw [Bool.or_eq_true, not_or, bne_iff_ne, not_not] at missing
    set id := before.findTypeRef ref
    have proper := valid.type_names _ (valid.symbol_mem id) missing.2
  · obtain ⟨visits, rfl, same⟩ := onTable_visits ran
      (Table.arrayOf_widens fun _ => ⟨valid.hasType_symbol id, proper⟩)
    obtain ⟨has, arrayProper⟩ := Table.isProper_arrayOf valid proper
    rw [same]
    exact ⟨visits, has, .inr arrayProper⟩
  · obtain ⟨rfl, rfl⟩ := ran.pure
    exact ⟨.refl before, valid.hasType_symbol id, .inr proper⟩

theorem arrayOf_visits {element : TypeId} (ran : Ran (arrayOf element) before result after)
    (valid : before.table.IsValid) (used : before.table.HasType element)
    (proper : element = .none ∨ element.IsProper) :
    before.Visits [] after ∧ after.table.HasType result ∧
      (result = .none ∨ result.IsProper) ∧ (element ≠ .none → result ≠ .none) := by
  unfold arrayOf at ran
  split_ifs at ran with missing
  · obtain ⟨rfl, rfl⟩ := ran.pure
    exact ⟨.refl before, valid.hasType_basic (by decide), .inl rfl,
      fun present => absurd missing present⟩
  · have proper := proper.resolve_left missing
    obtain ⟨visits, rfl, same⟩ := onTable_visits ran
      (Table.arrayOf_widens fun _ => ⟨used, proper⟩)
    obtain ⟨has, arrayProper⟩ := Table.isProper_arrayOf valid proper
    rw [same]
    exact ⟨visits, has, .inr arrayProper, fun _ => arrayProper.1⟩

theorem markReturn_visits (ran : Ran markReturn before () after) : before.Visits [] after := by
  cases ran
  refine ⟨?_, .of_eq rfl, fun _ _ => ⟨rfl, rfl⟩, .refl _⟩
  simp only [Checker.core, Option.map_map]
  rfl

end Check
end MicroJava
