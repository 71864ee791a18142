import MicroJava.Proofs.Analysis.Members

/-!
# Addresses of any program

Whatever is reported about a program, its global variables have the global slots in the order
of their declaration, and the parameters and locals of a method have the slots of a frame in
the order of theirs.
-/

namespace MicroJava.Analysis

/-- A parameter is rejected. -/
def Rejects (analysis : Analysis) (formal : Formal) : Prop :=
  ∃ diagnostic ∈ analysis.diagnostics, diagnostic.Rejects formal.name formal.span

/-- A unit with code has the slots of a frame. -/
structure Seats (analysis : Analysis) (around : Option TypeId) (part : DeclUnit)
    (id : SymbolId) : Prop where
  owner : part.owner? analysis.notes = some id
  kind : (analysis.table.symbol id).kind = .method
  slots : analysis.table.AreSlots (analysis.table.symbol id).locals
  params : (analysis.table.symbol id).paramCount ≤ (analysis.table.symbol id).locals.length
  accepts : ∃ formals, part.Takes around formals ∧ analysis.table.Accepts analysis.Rejects formals
    ((analysis.table.symbol id).locals.take (analysis.table.symbol id).paramCount)

/-- All variables of a program have slots. -/
structure Allocates (analysis : Analysis) (program : Program) : Prop where
  /-- Global variables have the global slots in the order of their declaration. -/
  globals : analysis.table.globals.map (fun id => (analysis.table.symbol id).address) =
    (List.range analysis.table.globalCount).map Int.ofNat
  /-- The units of a class have frames, and receivers of its type. -/
  members : program.nodes.Nodup → ∀ decl, .type decl ∈ program.units →
    ∃ type, analysis.notes.type? decl.node.id = some type ∧
      ∀ part ∈ decl.memberUnits, ∃ id, analysis.Seats (some type) part id
  /-- All other units with code have frames without receivers. -/
  others : program.nodes.Nodup → ∀ part ∈ program.units, part.IsCode →
    (∀ decl, .type decl ∈ program.units → part ∉ decl.memberUnits) →
    ∃ id, analysis.Seats none part id
  /-- If nothing is reported, the receiver of a method has the first slot. -/
  receivers : program.nodes.Nodup → analysis.errorCount = 0 →
    ∀ decl, .type decl ∈ program.units → ∀ method ∈ decl.methods, method.isStatic = false →
    ∃ type id this, analysis.notes.type? decl.node.id = some type ∧
      analysis.notes.symbol? method.node.id = some id ∧
      (analysis.table.symbol id).locals.head? = some this ∧
      0 < (analysis.table.symbol id).paramCount ∧
      (analysis.table.symbol this).name = "this" ∧ (analysis.table.symbol this).type = type
  /-- The slots of a method are those that any other method would hand down to it. -/
  copies : program.nodes.Nodup → ∀ part ∈ program.units, ∀ other ∈ program.units,
    ∀ id inherited, part.owner? analysis.notes = some id →
    other.owner? analysis.notes = some inherited →
    ∀ checker : Checker, checker.table = analysis.table →
      (Check.copySlots id inherited).run checker = ((), checker)

namespace Seats

variable
  {analysis : Analysis}
  {decl : MethodDecl}
  {type : TypeId}
  {id : SymbolId}

theorem exists_receiver (seats : analysis.Seats (some type) (.method decl) id)
    (accepted : ∀ formal, ¬ analysis.Rejects formal) (isInstance : decl.isStatic = false) :
    ∃ this, (analysis.table.symbol id).locals.head? = some this ∧
      0 < (analysis.table.symbol id).paramCount ∧
      (analysis.table.symbol this).name = "this" ∧ (analysis.table.symbol this).type = type := by
  obtain ⟨_, ⟨types, _, rfl⟩, accepts⟩ := seats.accepts
  have receiver : decl.receiver? (some type) = some type := by
    rw [MethodDecl.receiver?, isInstance, if_neg Bool.false_ne_true]
  have named := accepts.forall₂ accepted
  rw [receiver, MethodDecl.formals, Option.toList_some, List.map_singleton, List.singleton_append]
    at named
  obtain ⟨this, rest, isThis, _, taken⟩ := List.forall₂_cons_left_iff.mp named
  obtain ⟨more, isLocals⟩ := taken ▸ List.take_prefix _ _
  refine ⟨this, ?_, ?_, isThis⟩
  · rw [← isLocals]
    rfl
  · refine Nat.pos_of_ne_zero fun zero => ?_
    rw [zero, List.take_zero] at taken
    cases taken

end Seats

variable {options : Options} {program : Program} {part : DeclUnit}

theorem not_rejects (accepted : (analyze options program).errorCount = 0) (formal : Formal) :
    ¬ (analyze options program).Rejects formal := by
  obtain ⟨last, final, _, _, _, clean, _, diagnostics, _⟩ := exists_isLast options program
  rw [Rejects, diagnostics]
  exact fun rejected => Checker.Rejects.not_isClean rejected (clean accepted)

theorem exists_seats (options : Options) (distinct : program.nodes.Nodup)
    (isUnit : part ∈ program.units) (isCode : part.IsCode) :
    ∃ around id, (analyze options program).Seats around part id ∧
      (∀ decl, .type decl ∈ program.units → part ∈ decl.memberUnits →
        (analyze options program).notes.type? decl.node.id = around) ∧
      ((∀ decl, .type decl ∈ program.units → part ∉ decl.memberUnits) → around = none) := by
  obtain ⟨last, final, isLast, table, _, _, notes, diagnostics, _⟩ := exists_isLast options program
  obtain ⟨first, enlists, _⟩ := isLast.enlists
  obtain ⟨place, id, stands, held⟩ := enlists.exists_holds distinct isUnit isCode
  obtain ⟨holds, slots, params⟩ := isLast.holds distinct isUnit held
  obtain ⟨formals, takes, accepts⟩ := holds.accepts
  rw [← table] at slots params
  refine ⟨_, id, ⟨notes ▸ holds.owner, table ▸ holds.kind, slots, params, formals, takes, ?_⟩,
    fun decl isClass isMember => ?_, fun outside => ?_⟩
  · rw [table]
    refine Table.Accepts.mono accepts (.refl _) fun formal rejected => ?_
    rw [Rejects, diagnostics]
    exact rejected
  · obtain ⟨context, isOwner, noted⟩ := stands.member decl isClass isMember
    rw [notes, isLast.notes, noted, isOwner, Option.map_some]
  · rw [stands.other outside, Option.map_none]

/-- Whatever is reported about a program, all of its variables have slots. -/
theorem analyze_allocates (options : Options) (program : Program) :
    (analyze options program).Allocates program := by
  obtain ⟨last, final, isLast, table, _, _, notes, _⟩ := exists_isLast options program
  obtain ⟨first, enlists, _⟩ := isLast.enlists
  have members : program.nodes.Nodup → ∀ decl, .type decl ∈ program.units →
      ∃ type, (analyze options program).notes.type? decl.node.id = some type ∧
        ∀ part ∈ decl.memberUnits, ∃ id, (analyze options program).Seats (some type) part id := by
    intro distinct decl isClass
    obtain ⟨type, noted⟩ := enlists.exists_type isClass
    rw [← isLast.notes, ← notes] at noted
    refine ⟨type, noted, fun part isMember => ?_⟩
    obtain ⟨around, id, seats, inside, _⟩ := exists_seats options distinct
      (enlists.bodies decl isClass isMember) (ClassDecl.isCode_of_mem isMember)
    rw [← inside decl isClass isMember, noted] at seats
    exact ⟨id, seats⟩
  exact {
    globals := by
      rw [table]
      exact (isLast.settled.orderly.toIsPlaced.of_bare isLast.carries.toGrows isLast.size
        isLast.globalCount).numbered
    members := members
    others := fun distinct part isUnit isCode outside => by
      obtain ⟨around, id, seats, _, global⟩ := exists_seats options distinct isUnit isCode
      exact ⟨id, global outside ▸ seats⟩
    receivers := fun distinct accepted decl isClass method isMethod isInstance => by
      obtain ⟨type, noted, units⟩ := members distinct decl isClass
      obtain ⟨id, seats⟩ := units (.method method)
        (List.mem_append_right _ (List.mem_map_of_mem isMethod))
      obtain ⟨this, isThis⟩ := seats.exists_receiver (not_rejects accepted) isInstance
      exact ⟨type, id, this, noted, seats.owner, isThis⟩
    copies := fun distinct part isUnit other isOther id inherited owner otherOwner
      checker same => by
      have slots : ∀ part ∈ program.units, ∀ id,
          part.owner? (analyze options program).notes = some id →
          checker.table.AreSlots (checker.table.symbol id).locals := by
        intro part isUnit id owner
        obtain ⟨_, own, seats, _⟩ :=
          exists_seats options distinct isUnit (DeclUnit.isCode_of_owner? owner)
        obtain rfl := Option.some.inj (owner.symm.trans seats.owner)
        rw [same]
        exact seats.slots
      have ran : Check.Ran (Check.copySlots id inherited) checker () _ := rfl
      have unchanged := Check.copySlots_ran ran (slots part isUnit id owner)
        (slots other isOther inherited otherOwner)
      exact Prod.ext rfl unchanged.symm }

theorem analyze_allocates_narrowing :
    narrowing.nodes.Nodup ∧ (analyze {} narrowing).errorCount = 0 ∧
      (analyze {} narrowing).Allocates narrowing := by
  exact ⟨by decide +kernel, by decide +kernel, analyze_allocates {} narrowing⟩

end MicroJava.Analysis
