import MicroJava.Proofs.Layout.Addresses

/-!
# What the operands of a body refer to

The code of a body that keeps the rules opens no frames.  Its jumps lead to boundaries between
its instructions, its calls to methods with an address, and its slots belong to variables and
receivers.
-/

namespace MicroJava

open List Instruction

variable {code first second : List Instruction} {limit start : Nat} {targets : Nat → Prop}
  {node : Node} {id : SymbolId} {source rest designator : Designator}

/-! ## Boundaries -/

namespace Instruction

/-- An offset at which a sequence can be cut. -/
def IsBoundary (start : Nat) (code : List Instruction) (offset : Nat) : Prop :=
  ∃ early late, code = early ++ late ∧ offset = start + totalSize early

theorem IsBoundary.mem_starts {offset : Nat} {tail : List Instruction}
    (boundary : IsBoundary start code offset) (follows : tail ≠ []) :
    offset ∈ starts start (code ++ tail) := by
  obtain ⟨early, late, rfl, rfl⟩ := boundary
  rw [append_assoc, starts_append, mem_append]
  refine .inr ?_
  cases behind : late ++ tail with
  | nil => exact absurd (append_eq_nil_iff.mp behind).2 follows
  | cons instr rest => exact mem_cons_self

/-- Some targets include all boundaries of a sequence. -/
def Includes (targets : Nat → Prop) (start : Nat) (code : List Instruction) : Prop :=
  ∀ offset, IsBoundary start code offset → targets offset

namespace Includes

theorem here (inside : Includes targets start code) : targets start :=
  inside start ⟨[], code, rfl, rfl⟩

theorem stop {stop : Nat} (inside : Includes targets start code)
    (isStop : stop = start + totalSize code) :
    targets stop :=
  inside stop ⟨code, [], (append_nil _).symm, isStop⟩

theorem left (inside : Includes targets start (first ++ second)) :
    Includes targets start first := by
  rintro offset ⟨early, late, rfl, isOffset⟩
  exact inside offset ⟨early, late ++ second, append_assoc _ _ _, isOffset⟩

theorem right {middle : Nat} (inside : Includes targets start (first ++ second))
    (isMiddle : middle = start + totalSize first) :
    Includes targets middle second := by
  rintro offset ⟨early, late, rfl, rfl⟩
  refine inside _ ⟨first ++ early, late, (append_assoc _ _ _).symm, ?_⟩
  rw [isMiddle, totalSize_append, Nat.add_assoc]

end Includes
end Instruction

/-! ## Symbols of designators with code -/

/-- The slot of a global variable. -/
def Setting.IsGlobalSlot (setting : Setting) (slot : Nat) : Prop :=
  ∃ id, setting.Finds id ∧ (setting.table.symbol id).isGlobal ∧
    slot = (setting.table.symbol id).address.toNat

namespace Site

/-- A site has the annotations and the symbols of a setting. -/
structure Sees (site : Site) (setting : Setting) : Prop where
  notes : site.notes = setting.notes
  places : setting.table.Places site.table
  valid : setting.table.IsValid

variable {site : Site} {setting : Setting}

namespace Sees

variable (sees : site.Sees setting)
include sees

theorem symbolAt (noted : setting.notes.symbol? node.id = some id) :
    site.symbolAt node = id := by
  rw [Site.symbolAt, sees.notes, noted, Option.getD_some]

theorem typeAt {type : TypeId} (noted : setting.notes.type? node.id = some type) :
    site.typeAt node = type := by
  rw [Site.typeAt, sees.notes, noted, Option.getD_some]

theorem isFound {designator : Designator} (noted : designator.IsNoted setting)
    (defined : site.AccessDefined designator) :
    setting.IsFound (site.symbolAt designator.node) := by
  match designator with
  | .name _ _ | .qualified _ _ _ =>
    obtain ⟨id, isNoted, finds, _⟩ := noted
    rw [Designator.node, sees.symbolAt isNoted]
    exact .inl finds
  | .element node base index =>
    obtain ⟨baseNoted, _, array, id, isArray, isNoted, isElement⟩ := noted
    obtain ⟨_, baseDefined, canLoad, _⟩ := defined
    have found := isFound baseNoted baseDefined
    rw [CanLoad, sees.places.hasValue] at canLoad
    have proper := found.isProper canLoad
    rw [sees.symbolAt isArray] at proper
    rw [Designator.node, sees.symbolAt isNoted]
    exact isElement.isFound sees.valid proper
  | .member node base _ =>
    obtain ⟨baseNoted, owner, id, isOwner, isNoted, isMember⟩ := noted
    obtain ⟨_, _, baseDefined⟩ := defined
    rw [sees.places.kind, sees.symbolAt isOwner] at baseDefined
    have typed : (setting.table.symbol owner).type ≠ .none := by
      by_cases isType : (setting.table.symbol owner).kind = .type
      · exact (sees.valid.type_names _ (sees.valid.symbol_mem owner) isType).1
      · obtain ⟨defined, canLoad⟩ := baseDefined isType
        have found := isFound baseNoted defined
        rw [CanLoad, sees.places.hasValue] at canLoad
        have proper := found.isProper canLoad
        rw [sees.symbolAt isOwner] at proper
        exact proper.1
    rw [Designator.node, sees.symbolAt isNoted]
    exact .inl (isMember.finds typed)

end Sees

/-! ## Operands -/

/-- A slot of the frame: of a parameter or local, of the receiver, or of a receiver that is
parked. -/
def IsSlot (site : Site) (setting : Setting) (limit slot : Nat) : Prop :=
  (∃ id ∈ setting.locals, slot = (setting.table.symbol id).address.toNat) ∨
    (slot = 0 ∧ (setting.plain → setting.receiver)) ∨
    (site.frameBase ≤ slot ∧ slot < site.frameBase + limit)

/-- The address of a method; a call of what is absent has the address zero. -/
def IsCallee (site : Site) (setting : Setting) (target : Nat) : Prop :=
  ∃ id, (id = .absent ∨ (setting.table.symbol id).kind = .method) ∧
    0 ≤ (site.table.symbol id).address ∧ target = (site.table.symbol id).address.toNat

/-- An instruction that a body may have, with so many receivers parked at most and jumps to some
targets only. -/
def Permits (site : Site) (setting : Setting) (limit : Nat)
    (targets : Nat → Prop) : Instruction → Prop
  | .load slot => site.IsSlot setting limit slot
  | .store slot => site.IsSlot setting limit slot
  | .inc slot _ => site.IsSlot setting limit slot
  | .getStatic slot => setting.IsGlobalSlot slot
  | .putStatic slot => setting.IsGlobalSlot slot
  | .jump _ target => targets target
  | .call target => site.IsCallee setting target
  | .enter _ _ => False
  | _ => True

/-- A body may have all instructions of a sequence. -/
def Admits (site : Site) (setting : Setting) (limit : Nat) (targets : Nat → Prop)
    (code : List Instruction) : Prop :=
  ∀ instr ∈ code, site.Permits setting limit targets instr

section

@[simp] theorem admits_nil : site.Admits setting limit targets [] := fun _ member => nomatch member

@[simp] theorem admits_cons (instr : Instruction) (rest : List Instruction) :
    site.Admits setting limit targets (instr :: rest) ↔
      site.Permits setting limit targets instr ∧ site.Admits setting limit targets rest :=
  forall_mem_cons

@[simp] theorem admits_append (first second : List Instruction) :
    site.Admits setting limit targets (first ++ second) ↔
      site.Admits setting limit targets first ∧ site.Admits setting limit targets second :=
  forall_mem_append

end

section Sees

variable (sees : site.Sees setting)
include sees

/-! ## Designators and expressions -/

theorem isSlot_of_var (finds : setting.Finds id) (isVar : (setting.table.symbol id).kind = .var)
    (inner : (setting.table.symbol id).isGlobal = false) :
    site.IsSlot setting limit (site.table.symbol id).address.toNat := by
  have notMethod : (setting.table.symbol id).kind ≠ .method := by rw [isVar]; decide
  rw [sees.places.other id notMethod]
  rcases finds.var isVar with global | member
  · rw [Symbol.isGlobal, isVar, global] at inner
    exact absurd inner (by decide)
  · exact .inl ⟨id, member, rfl⟩

theorem isGlobalSlot (finds : setting.Finds id) (isGlobal : (setting.table.symbol id).isGlobal) :
    setting.IsGlobalSlot (site.table.symbol id).address.toNat := by
  have notMethod : (setting.table.symbol id).kind ≠ .method := fun isMethod => by
    rw [Symbol.isGlobal, isMethod] at isGlobal
    exact absurd isGlobal (by simp)
  rw [sees.places.other id notMethod]
  exact ⟨id, finds, isGlobal, rfl⟩

theorem loadCode_admitted (found : setting.IsFound id) :
    site.Admits setting limit targets (site.loadCode id) := by
  have kind := sees.places.kind id
  simp only [loadCode]
  cases isKind : (site.table.symbol id).kind with
  | var =>
    rw [isKind] at kind
    have finds := found.finds (by rw [← kind]; decide)
    simp only [sees.places.isGlobal]
    cases isGlobal : (setting.table.symbol id).isGlobal with
    | true => simpa [Permits] using isGlobalSlot sees finds isGlobal
    | false => simpa [Permits] using isSlot_of_var sees finds kind.symm isGlobal
  | _ => simp [Permits]

theorem storeCode_admitted (found : setting.IsFound id) :
    site.Admits setting limit targets (site.storeCode id) := by
  have kind := sees.places.kind id
  simp only [storeCode]
  cases isKind : (site.table.symbol id).kind with
  | var =>
    rw [isKind] at kind
    have finds := found.finds (by rw [← kind]; decide)
    simp only [sees.places.isGlobal]
    cases isGlobal : (setting.table.symbol id).isGlobal with
    | true => simpa [Permits] using isGlobalSlot sees finds isGlobal
    | false => simpa [Permits] using isSlot_of_var sees finds kind.symm isGlobal
  | _ => simp [Permits]

omit sees in
theorem newObjectCode_admitted (type : TypeId) :
    site.Admits setting limit targets (site.newObjectCode type) := by
  simp only [newObjectCode]
  split <;> simp [Permits]

theorem stepCode_admitted {target : Designator} (up : Bool)
    (found : setting.IsFound (site.symbolAt target.node))
    (access : site.Admits setting limit targets (site.accessCode 0 target)) :
    site.Admits setting limit targets (site.stepCode target up) := by
  rw [stepCode, admits_append]
  refine ⟨access, ?_⟩
  split
  next isLocal =>
    obtain ⟨isVar, inner⟩ := by
      simpa only [Bool.and_eq_true, decide_eq_true_eq, Bool.not_eq_true'] using isLocal
    rw [sees.places.kind] at isVar
    rw [sees.places.isGlobal] at inner
    rw [admits_cons]
    exact ⟨isSlot_of_var sees (found.finds (by rw [isVar]; decide)) isVar inner, admits_nil⟩
  next =>
    have keep : site.Admits setting limit targets
        (keepCode (site.table.symbol (site.symbolAt target.node)).kind) := by
      unfold keepCode
      split <;> simp [Permits]
    simp only [admits_append, admits_cons]
    exact ⟨⟨⟨keep, loadCode_admitted sees found⟩, trivial, trivial, admits_nil⟩,
      storeCode_admitted sees found⟩

end Sees

end Site
end MicroJava
