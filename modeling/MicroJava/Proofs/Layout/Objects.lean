import MicroJava.Proofs.Layout.Slots

/-!
# Uses of objects

Wherever the code of a body creates an object, it is the code of a new object of some class:
the place of the dispatch table of the class is stored in the first word right away.
-/

namespace MicroJava

open List Instruction

variable {designator : Designator} {instr : Instruction} {early late : List Instruction}
  {code : List Instruction}

namespace Instruction

/-- An instruction creates an object, or reads or writes a word of one. -/
@[simp] def usesObject : Instruction → Bool
  | new _ => true
  | getField _ => true
  | putField _ => true
  | _ => false

/-- The word of an object that an instruction reads or writes. -/
def field? : Instruction → Option Nat
  | getField field => some field
  | putField field => some field
  | _ => none

theorem usesObject_of_field? {field : Nat} (isField : instr.field? = some field) :
    instr.usesObject := by
  cases instr <;> first | rfl | cases isField

end Instruction

namespace Site

/-- After this code, an instruction reads or writes what a designator leads to. -/
inductive Accesses (site : Site) (designator : Designator) (instr : Instruction) :
    List Instruction → Prop
  | load
      (parked : Nat)
      (reads : site.loadCode (site.symbolAt designator.node) = [instr]) :
      site.Accesses designator instr (site.accessCode parked designator)
  | again
      (reads : site.loadCode (site.symbolAt designator.node) = [instr]) :
      site.Accesses designator instr (site.accessCode 0 designator ++
        keepCode (site.table.symbol (site.symbolAt designator.node)).kind)
  | store
      {value : List Instruction}
      (supplies : site.Supplies designator value)
      (writes : site.storeCode (site.symbolAt designator.node) = [instr]) :
      site.Accesses designator instr (site.accessCode 0 designator ++ value)

/-- What an instruction that stands between others uses an object for. -/
inductive Explains (site : Site) (parts : List Part) :
    List Instruction → Instruction → List Instruction → Prop
  | access
      {designator : Designator}
      {front code late : List Instruction}
      {instr : Instruction}
      (isPart : .designator designator ∈ parts)
      (accesses : site.Accesses designator instr code) :
      site.Explains parts (front ++ code) instr late
  | call
      {early late : List Instruction}
      {name : List Int32} :
      site.Explains parts early (.getField 0) (.invokeVirtual name :: late)
  | create
      {node : Node}
      {ref : TypeRef}
      {early rest late : List Instruction}
      {size : Nat}
      (isPart : .expression (.newObject node ref) ∈ parts)
      (code : site.newObjectCode (site.typeAt node) = .new size :: rest) :
      site.Explains parts early (.new size) (rest ++ late)
  | place
      {node : Node}
      {ref : TypeRef}
      {front rest late : List Instruction}
      (isPart : .expression (.newObject node ref) ∈ parts)
      (code : site.newObjectCode (site.typeAt node) = rest ++ [.putField 0]) :
      site.Explains parts (front ++ rest) (.putField 0) late

/-- All instructions of a sequence that use objects are explained. -/
def Accounts (site : Site) (parts : List Part) (code : List Instruction) : Prop :=
  ∀ early instr late, code = early ++ instr :: late → instr.usesObject →
    site.Explains parts early instr late

variable {site : Site} {parts : List Part}

theorem newObjectCode_cases (site : Site) (type : TypeId) :
    site.newObjectCode type = [] ∨ ∃ size place,
      site.newObjectCode type = [.new size, .plain .dup, .const place, .putField 0] := by
  simp only [newObjectCode]
  split
  · exact .inl rfl
  · exact .inr ⟨_, _, rfl⟩

theorem length_loadCode_le (site : Site) (id : SymbolId) : (site.loadCode id).length ≤ 1 := by
  simp only [loadCode]
  split <;> (try split) <;> simp

theorem length_storeCode_le (site : Site) (id : SymbolId) : (site.storeCode id).length ≤ 1 := by
  simp only [storeCode]
  split <;> (try split) <;> simp

theorem Accesses.isField (accesses : site.Accesses designator instr code)
    (uses : instr.usesObject) :
    (site.table.symbol (site.symbolAt designator.node)).kind = .field ∧
      instr.field? =
        some (site.table.symbol (site.symbolAt designator.node)).address.toNat := by
  have reading : ∀ id, site.loadCode id = [instr] → (site.table.symbol id).kind = .field ∧
      instr.field? = some (site.table.symbol id).address.toNat := fun id reads => by
    simp only [loadCode] at reads
    split at reads <;> (try split at reads) <;> cases reads <;>
      first | exact ⟨‹_›, rfl⟩ | cases uses
  have writing : ∀ id, site.storeCode id = [instr] → (site.table.symbol id).kind = .field ∧
      instr.field? = some (site.table.symbol id).address.toNat := fun id writes => by
    simp only [storeCode] at writes
    split at writes <;> (try split at writes) <;> cases writes <;>
      first | exact ⟨‹_›, rfl⟩ | cases uses
  cases accesses with
  | load _ reads => exact reading _ reads
  | again reads => exact reading _ reads
  | store _ writes => exact writing _ writes

theorem Accesses.explains (accesses : site.Accesses designator instr code)
    (isPart : .designator designator ∈ parts) (late : List Instruction) :
    site.Explains parts code instr late :=
  show site.Explains parts ([] ++ code) instr late from .access isPart accesses

theorem Explains.extend (explains : site.Explains parts early instr late)
    (before after : List Instruction) :
    site.Explains parts (before ++ early) instr (late ++ after) := by
  cases explains with
  | access isPart accesses =>
    rw [← append_assoc]
    exact .access isPart accesses
  | call => exact .call
  | create isPart code =>
    rw [append_assoc]
    exact .create isPart code
  | place isPart code =>
    rw [← append_assoc]
    exact .place isPart code

theorem Explains.exists_of_new {size : Nat}
    (explains : site.Explains parts early (.new size) late) :
    ∃ node ref rest, .expression (.newObject node ref) ∈ parts ∧
      .new size :: late = site.newObjectCode (site.typeAt node) ++ rest := by
  cases explains with
  | access _ accesses => cases (accesses.isField rfl).2
  | create isPart code => exact ⟨_, _, _, isPart, by rw [code, cons_append]⟩

namespace Accounts

variable {first second : List Instruction}

theorem nil : site.Accounts parts [] := by
  intro early instr late split
  cases early <;> cases split

theorem append (accounts : site.Accounts parts first) (later : site.Accounts parts second) :
    site.Accounts parts (first ++ second) := by
  intro early instr late split uses
  rcases split_append split with ⟨middle, inside, rfl⟩ | ⟨middle, rfl, inside⟩
  · exact (accounts early _ middle inside uses).extend [] second
  · rw [← append_nil late]
    exact (later middle instr late inside uses).extend first []

theorem of_forall (none : ∀ instr ∈ first, instr.usesObject = false) :
    site.Accounts parts first := by
  rintro early instr late rfl uses
  rw [none instr (mem_append_right _ mem_cons_self)] at uses
  cases uses

theorem concat (accounts : site.Accounts parts first) (short : second.length ≤ 1)
    (explains : ∀ instr, second = [instr] → site.Explains parts first instr []) :
    site.Accounts parts (first ++ second) := by
  match second, short with
  | [], _ => rwa [append_nil]
  | [last], _ =>
    intro early instr late split uses
    rcases split_append split with ⟨middle, inside, rfl⟩ | ⟨middle, rfl, inside⟩
    · exact (accounts early _ middle inside uses).extend [] [last]
    · obtain ⟨rfl, same⟩ := singleton_eq_append_iff.mp inside |>.resolve_right (by simp)
      obtain ⟨rfl, rfl⟩ := List.cons.inj same
      rw [append_nil]
      exact explains _ rfl

theorem load {parked : Nat} (accounts : site.Accounts parts (site.accessCode parked designator))
    (isPart : .designator designator ∈ parts) :
    site.Accounts parts (site.accessCode parked designator ++
      site.loadCode (site.symbolAt designator.node)) :=
  accounts.concat (length_loadCode_le _ _) fun _ reads =>
    Accesses.explains (.load parked reads) isPart []

theorem store {value : List Instruction}
    (accounts : site.Accounts parts (site.accessCode 0 designator ++ value))
    (supplies : site.Supplies designator value) (isPart : .designator designator ∈ parts) :
    site.Accounts parts (site.accessCode 0 designator ++ value ++
      site.storeCode (site.symbolAt designator.node)) :=
  accounts.concat (length_storeCode_le _ _) fun _ writes =>
    Accesses.explains (.store supplies writes) isPart []

theorem lookup (slot : Nat) (name : List Int32) :
    site.Accounts parts [.load slot, .getField 0, .invokeVirtual name] := by
  intro early instr late split uses
  rcases early with _ | ⟨_, _ | ⟨_, _ | _⟩⟩
  · cases split
    cases uses
  · cases split
    exact .call
  · cases split
    cases uses
  · simp at split

theorem newObject {node : Node} {ref : TypeRef}
    (isPart : .expression (.newObject node ref) ∈ parts) :
    site.Accounts parts (site.newObjectCode (site.typeAt node)) := by
  rcases newObjectCode_cases site (site.typeAt node) with empty | ⟨size, place, shape⟩
  · rw [empty]
    exact .nil
  · intro early instr late split uses
    rw [shape] at split
    match early with
    | [] =>
      obtain ⟨rfl, rfl⟩ := List.cons.inj split
      exact .create isPart shape
    | [_] | [_, _] =>
      cases split
      cases uses
    | [_, _, _] =>
      cases split
      exact show site.Explains parts ([] ++ [.new size, .plain .dup, .const place]) _ [] from
        .place isPart shape
    | _ :: _ :: _ :: _ :: _ => simp at split

end Accounts

/-- All uses of objects in the code of a body are explained. -/
theorem Builds.accounts {reach : Reach} {jumps : Nat × Nat → Prop} {writes : Prop}
    {parked start depth stop : Nat} {marks : List (Nat × Nat)}
    (builds : site.Builds reach jumps writes parked start code depth stop marks)
    (known : ∀ part, reach.known part → part ∈ parts) :
    site.Accounts parts code := by
  induction builds with
  | straight _ _ inert _ =>
    refine .of_forall fun instr member => ?_
    have isInert := all_eq_true.mp inert instr member
    cases instr <;> first | rfl | cases isInert
  | append _ _ _ before behind => exact before.append behind
  | close _ _ _ builds => exact builds
  | load leads _ _ access => exact access.load (known _ leads.isKnown)
  | store leads _ supplies _ supply => exact supply.store supplies (known _ leads.isKnown)
  | @step _ _ target up leads _ _ access =>
    have isPart := known _ leads.isKnown
    simp only [stepCode]
    split
    · exact access.append (.of_forall (by simp))
    · have kept : site.Accounts parts (site.accessCode 0 target ++
          keepCode (site.table.symbol (site.symbolAt target.node)).kind) := by
        refine access.append ?_
        unfold keepCode
        split <;> exact .of_forall (by simp)
      have reads := kept.concat (length_loadCode_le site (site.symbolAt target.node)) fun _ reads =>
        Accesses.explains (.again reads) isPart []
      have stepped := reads.append (.of_forall (by simp :
        ∀ instr ∈ [Instruction.const 1, .plain (if up then .add else .sub)], _))
      rw [append_assoc, append_assoc] at stepped
      rw [← append_assoc]
      refine Accounts.store ?_ (.step _) isPart
      rwa [append_assoc]
  | newObject isKnown _ => exact .newObject (known _ isKnown)
  | invoke _ _ _ _ _ receiver values =>
    exact ((receiver.append (.of_forall (by simp))).append values).append (.lookup _ _)
  | _ => exact .of_forall (by simp)

end Site

end MicroJava
