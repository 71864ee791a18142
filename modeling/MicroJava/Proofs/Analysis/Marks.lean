import MicroJava.Proofs.Analysis.Noted

/-!
# Annotations of nodes

Every node of a program is for one annotation: a symbol or a type.  `Annotations.Gains` says
which annotations are there after a step that were not there before.
-/

namespace MicroJava

open List

/-! ## Marks -/

/-- An annotation that a node may have. -/
inductive Mark
  | symbol (node : NodeId)
  | type (node : NodeId)
deriving DecidableEq

/-- The node of an annotation. -/
def Mark.node : Mark → NodeId
  | symbol node => node
  | type node => node

/-- The annotation of a designator or an expression. -/
def Part.mark : Part → Mark
  | designator place => .symbol place.id
  | expression value => .type value.id

/-- The annotation of a unit itself. -/
def DeclUnit.mark : DeclUnit → Mark
  | type decl => .type decl.node.id
  | init block => .symbol block.node.id
  | method decl => .symbol decl.node.id

/-- The annotations of a unit and of what it consists of. -/
def DeclUnit.marks (part : DeclUnit) : List Mark := part.mark :: part.parts.map Part.mark

theorem Part.node_mark (part : Part) : part.mark.node = part.id := by cases part <;> rfl

theorem DeclUnit.node_mark (part : DeclUnit) : part.mark.node = part.node.id := by
  cases part <;> rfl

theorem Part.map_node (parts : List Part) :
    (parts.map mark).map Mark.node = parts.map Part.id := by
  rw [map_map]
  exact map_congr_left fun part _ => part.node_mark

theorem DeclUnit.map_node (part : DeclUnit) : part.marks.map Mark.node = part.nodes := by
  rw [marks, map_cons, node_mark, Part.map_node]
  rfl

theorem DeclUnit.flatMap_node (units : List DeclUnit) :
    (units.flatMap marks).map Mark.node = units.flatMap nodes := by
  rw [map_flatMap]
  exact congrArg (units.flatMap ·) (funext map_node)

namespace Annotations

/-- An annotation is there. -/
def Has (notes : Annotations) : Mark → Prop
  | .symbol node => (notes.symbol? node).isSome
  | .type node => (notes.type? node).isSome

/-- An annotation is the same, or missing in both. -/
def SameAt (notes other : Annotations) : Mark → Prop
  | .symbol node => notes.symbol? node = other.symbol? node
  | .type node => notes.type? node = other.type? node

variable {first second third : Annotations} {marks more : List Mark} {mark : Mark}

theorem SameAt.trans (same : third.SameAt second mark) (next : second.SameAt first mark) :
    third.SameAt first mark := by
  cases mark <;> exact Eq.trans same next

theorem SameAt.has (same : second.SameAt first mark) (has : first.Has mark) :
    second.Has mark := by
  cases mark with
  | symbol node | type node => exact (congrArg Option.isSome same).trans has

/-- Annotations are given, and all others stay. -/
structure Gains (marks : List Mark) (early late : Annotations) : Prop where
  kept : ∀ mark, mark ∉ marks → late.SameAt early mark
  has : ∀ mark ∈ marks, late.Has mark

namespace Gains

theorem of_eq (same : second = first) : first.Gains [] second where
  kept mark _ := by cases mark <;> rw [same] <;> rfl
  has := nofun

variable (gains : first.Gains marks second)
include gains

theorem stays (has : first.Has mark) : second.Has mark := by
  by_cases given : mark ∈ marks
  · exact gains.has mark given
  · exact (gains.kept mark given).has has

theorem trans (next : second.Gains more third) :
    first.Gains (marks ++ more) third where
  kept mark outside := by
    rw [mem_append, not_or] at outside
    exact (next.kept mark outside.2).trans (gains.kept mark outside.1)
  has := forall_mem_append.mpr ⟨fun mark given => next.stays (gains.has mark given), next.has⟩

theorem agreesAt {node : NodeId} (outside : node ∉ marks.map Mark.node) :
    second.AgreesAt first node := by
  have apart : ∀ mark, mark.node = node → mark ∉ marks := fun mark isNode given =>
    outside (isNode ▸ mem_map_of_mem given)
  exact ⟨gains.kept (.symbol node) (apart _ rfl), gains.kept (.type node) (apart _ rfl)⟩

theorem congr (same : ∀ mark, mark ∈ more ↔ mark ∈ marks) :
    first.Gains more second where
  kept mark outside := gains.kept mark fun given => outside ((same mark).mpr given)
  has mark given := gains.has mark ((same mark).mp given)

end Gains

theorem gains_setSymbol (notes : Annotations) (node : NodeId) (id : SymbolId) :
    notes.Gains [.symbol node] (notes.setSymbol node id) where
  kept mark outside := by
    cases mark with
    | symbol other =>
      refine (symbol?_setSymbol _ _ _ _).trans (if_neg fun same => outside ?_)
      exact mem_singleton.mpr (congrArg Mark.symbol same.symm)
    | type other => rfl
  has mark given := by
    obtain rfl := mem_singleton.mp given
    exact congrArg Option.isSome ((symbol?_setSymbol _ _ _ _).trans (if_pos rfl))

theorem gains_setType (notes : Annotations) (node : NodeId) (id : TypeId) :
    notes.Gains [.type node] (notes.setType node id) where
  kept mark outside := by
    cases mark with
    | symbol other => rfl
    | type other =>
      refine (type?_setType _ _ _ _).trans (if_neg fun same => outside ?_)
      exact mem_singleton.mpr (congrArg Mark.type same.symm)
  has mark given := by
    obtain rfl := mem_singleton.mp given
    exact congrArg Option.isSome ((type?_setType _ _ _ _).trans (if_pos rfl))

end Annotations

end MicroJava
