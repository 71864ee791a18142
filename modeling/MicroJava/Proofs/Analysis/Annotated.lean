import MicroJava.Proofs.Analysis.Members

/-!
# Annotations of any program

Whatever is reported about a program, every node of it is annotated, and nothing else is:
designators, methods and static initializers with symbols, expressions and classes with types.
-/

namespace MicroJava

open List

variable {mark : Mark} {node : NodeId}

namespace Annotations

/-- A node has a symbol and no type. -/
def HasSymbolOnly (notes : Annotations) (node : NodeId) : Prop :=
  (notes.symbol? node).isSome ∧ notes.type? node = none

/-- A node has a type and no symbol. -/
def HasTypeOnly (notes : Annotations) (node : NodeId) : Prop :=
  (notes.type? node).isSome ∧ notes.symbol? node = none

end Annotations

/-- Whether an annotation is a symbol. -/
def Mark.isSymbol : Mark → Bool
  | symbol _ => true
  | type _ => false

theorem Mark.eq_symbol (isSymbol : mark.isSymbol = true) : mark = .symbol mark.node := by
  cases mark with
  | symbol => rfl
  | type => cases isSymbol

theorem Mark.eq_type (isType : (!mark.isSymbol) = true) : mark = .type mark.node := by
  cases mark with
  | symbol => cases isType
  | type => rfl

theorem size_eq_length {ν : Type} {map : Std.TreeMap Nat ν} {keys : List Nat}
    (distinct : keys.Nodup) (same : ∀ key, map[key]?.isSome ↔ key ∈ keys) :
    map.size = keys.length := by
  rw [← Std.TreeMap.length_keys]
  refine ((perm_ext_iff_of_nodup Std.TreeMap.nodup_keys distinct).mpr fun key => ?_).length_eq
  rw [Std.TreeMap.mem_keys, Std.TreeMap.mem_iff_isSome_getElem?, same]

namespace Annotations.Gains

variable {notes : Annotations} {marks : List Mark} (gains : Gains marks {} notes)
include gains

theorem not_has (outside : mark ∉ marks) : ¬ notes.Has mark := by
  have same := gains.kept mark outside
  cases mark <;> exact fun has => Bool.false_ne_true ((congrArg Option.isSome same).symm.trans has)

variable (distinct : (marks.map Mark.node).Nodup)
include distinct

theorem hasSymbolOnly (given : .symbol node ∈ marks) : notes.HasSymbolOnly node := by
  have absent : ¬ notes.Has (.type node) := gains.not_has fun also =>
    Mark.noConfusion (inj_on_of_nodup_map distinct given also rfl)
  exact ⟨gains.has _ given, Option.not_isSome_iff_eq_none.mp absent⟩

theorem hasTypeOnly (given : .type node ∈ marks) : notes.HasTypeOnly node := by
  have absent : ¬ notes.Has (.symbol node) := gains.not_has fun also =>
    Mark.noConfusion (inj_on_of_nodup_map distinct given also rfl)
  exact ⟨gains.has _ given, Option.not_isSome_iff_eq_none.mp absent⟩

theorem size_eq : notes.size = marks.length := by
  have part : ∀ keep : Mark → Bool, ((marks.filter keep).map Mark.node).Nodup := fun keep =>
    distinct.sublist (filter_sublist.map _)
  have symbols : notes.symbols.size = (marks.filter Mark.isSymbol).length := by
    rw [← length_map Mark.node]
    refine size_eq_length (part _) fun node => ⟨fun has => ?_, fun given => ?_⟩
    · have given : .symbol node ∈ marks := by_contra fun outside => gains.not_has outside has
      exact mem_map.mpr ⟨_, mem_filter.mpr ⟨given, rfl⟩, rfl⟩
    · obtain ⟨mark, kept, rfl⟩ := mem_map.mp given
      obtain ⟨given, isSymbol⟩ := mem_filter.mp kept
      exact gains.has _ (Mark.eq_symbol isSymbol ▸ given)
  have types : notes.types.size = (marks.filter (!Mark.isSymbol ·)).length := by
    rw [← length_map Mark.node]
    refine size_eq_length (part _) fun node => ⟨fun has => ?_, fun given => ?_⟩
    · have given : .type node ∈ marks := by_contra fun outside => gains.not_has outside has
      exact mem_map.mpr ⟨_, mem_filter.mpr ⟨given, rfl⟩, rfl⟩
    · obtain ⟨mark, kept, rfl⟩ := mem_map.mp given
      obtain ⟨given, isType⟩ := mem_filter.mp kept
      exact gains.has _ (Mark.eq_type isType ▸ given)
  rw [size, symbols, types, ← length_eq_length_filter_add]

end Annotations.Gains

namespace Analysis

/-- Every node of a program has the annotation it is for, and nothing else is annotated. -/
structure Annotates (analysis : Analysis) (program : Program) : Prop where
  /-- Designators have symbols. -/
  designators : ∀ designator, .designator designator ∈ program.parts →
    analysis.notes.HasSymbolOnly designator.id
  /-- Expressions have types. -/
  expressions : ∀ value, .expression value ∈ program.parts → analysis.notes.HasTypeOnly value.id
  /-- Classes have types. -/
  classes : ∀ decl, .type decl ∈ program.units → analysis.notes.HasTypeOnly decl.node.id
  /-- Methods and static initializers have symbols, which are methods. -/
  code : ∀ part ∈ program.units, part.IsCode →
    analysis.notes.HasSymbolOnly part.node.id ∧ ∃ id, part.owner? analysis.notes = some id ∧
      id ≠ .absent ∧ analysis.table.HasSymbol id ∧ (analysis.table.symbol id).kind = .method
  /-- No two of them have the same symbol. -/
  distinct : (program.units.filterMap (DeclUnit.owner? analysis.notes)).Nodup
  /-- Nothing else is annotated. -/
  size : analysis.notes.size = program.nodes.length

/-- Whatever is reported about a program, all of its nodes are annotated. -/
theorem analyze_annotates (options : Options) (program : Program) (distinct : program.nodes.Nodup) :
    (analyze options program).Annotates program := by
  obtain ⟨last, final, isLast, table, _, _, notes, _⟩ := exists_isLast options program
  obtain ⟨first, enlists, starts⟩ := isLast.enlists
  have unnoted : first.notes = {} := congrArg Prod.fst starts.kept
  have gains := enlists.notes
  rw [unnoted, ← isLast.notes, ← notes] at gains
  have apart : ((program.units.flatMap DeclUnit.marks).map Mark.node).Nodup := by
    rw [DeclUnit.flatMap_node]
    exact distinct
  have given : ∀ part ∈ program.units, ∀ mark ∈ part.marks,
      mark ∈ program.units.flatMap DeclUnit.marks :=
    fun part isUnit mark isMark => mem_flatMap.mpr ⟨part, isUnit, isMark⟩
  have givenPart : ∀ item ∈ program.parts, item.mark ∈ program.units.flatMap DeclUnit.marks :=
    fun item isPart => by
      obtain ⟨part, isUnit, isPart⟩ := mem_flatMap.mp isPart
      exact given part isUnit _ (mem_cons_of_mem _ (mem_map_of_mem isPart))
  exact {
    designators := fun designator isPart => gains.hasSymbolOnly apart (givenPart _ isPart)
    expressions := fun value isPart => gains.hasTypeOnly apart (givenPart _ isPart)
    classes := fun decl isUnit => gains.hasTypeOnly apart (given _ isUnit _ mem_cons_self)
    code := fun part isUnit isCode => by
      obtain ⟨_, id, _, holds⟩ := enlists.exists_holds distinct isUnit isCode
      refine ⟨gains.hasSymbolOnly apart
        (isCode.mark ▸ given part isUnit _ mem_cons_self), id, ?_, ?_, ?_, ?_⟩
      · rw [notes, isLast.notes, holds.owner]
      · rintro rfl
        have kind := holds.kind
        rw [isLast.settled.valid.kind_absent] at kind
        cases kind
      · exact table ▸ isLast.carries.hasSymbol holds.has
      · rw [table, isLast.carries.symbol_kind holds.has, holds.kind]
    distinct := by
      rw [notes, isLast.notes]
      exact (enlists.accounts distinct).owners.distinct
    size := by
      rw [gains.size_eq apart, ← length_map Mark.node, DeclUnit.flatMap_node]
      rfl }

open Supply

/-- A program with names that are bound twice, or not at all, and values that do not fit. -/
def troubled : Program :=
  plant do
    let int ← typeRef none "int"
    let missing ← typeRef none "Missing"
    let init ← staticInit
      [.action (← assign (← member (← name "ghost") "size")
        (← literal (.int 1))), ← breakLoop]
    let method ← Supply.method false (some int) false "visit"
      [← param int "at" false, ← param missing "at" false] []
      [.action (← callAction (← element (← name "at")
        (← literal (.char 120))) [← newObject missing])]
    let again ← Supply.method false none false "visit" [] [] []
    let type ← type "Trouble" (some missing) [] [init]
      [← vars int [("visit", false), ("visit", true)]] [method, again]
    Supply.program "Troubled" [] [.type type] []

theorem analyze_annotates_troubled :
    troubled.nodes.Nodup ∧ 5 < (analyze {} troubled).errorCount ∧
      (analyze {} troubled).Annotates troubled := by
  have distinct : troubled.nodes.Nodup := by decide +kernel
  exact ⟨distinct, by decide +kernel, analyze_annotates {} troubled distinct⟩

end Analysis
end MicroJava
