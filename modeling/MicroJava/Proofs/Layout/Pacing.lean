import MicroJava.Proofs.Layout.Building

/-!
# Depths in direct code

The code that a body is compiled to keeps the operand stack in order.  Statements, actions and
conditions find an empty stack and leave it empty.
-/

namespace MicroJava

variable {start : Nat} {designator : Designator} {id : SymbolId}

open Instruction

namespace Site

/-- At an offset of the bytes, the code of a call ends, which calls a method by its name.  The
callee is among what is known. -/
def Invokes (site : Site) (bytes : Code) (known : Part → Prop) (offset : Nat)
    (id : SymbolId) : Prop :=
  ∃ start parked span callee arguments front name,
    known (.designator callee) ∧ site.symbolAt callee.node = id ∧
    site.callCode parked (.mk span callee arguments) = front ++ [.invokeVirtual name] ∧
    bytes.Holds start (front ++ [.invokeVirtual name]) ∧ offset = start + totalSize front

/-- What the depths of a body are read with fits what the body is compiled with. -/
structure Suits (site : Site) (setting : Setting) (gauge : Gauge) : Prop extends
    site.Sees setting where
  plain : setting.plain
  same : setting.table.Places gauge.table
  addresses : ∀ id, (setting.table.symbol id).kind = .method →
    0 ≤ (site.table.symbol id).address →
      (gauge.table.symbol id).address = (site.table.symbol id).address
  result : gauge.result = if setting.result = .none then 0 else 1

variable {site : Site} {setting : Setting} {gauge : Gauge} {jumps : Nat × Nat → Prop}

theorem loadCode_paces (base : Nat) (value : (site.table.symbol id).hasValue) :
    gauge.Paces jumps start (site.loadCode id)
      (base + (site.table.symbol id).kind.need) (base + 1) [] := by
  simp only [loadCode]
  rw [Symbol.hasValue] at value
  cases isKind : (site.table.symbol id).kind with
  | const => exact .straight base 0 1 rfl
  | var =>
    simp only
    split <;> exact .straight base 0 1 rfl
  | field => exact .straight base 1 1 rfl
  | element =>
    refine .straight base 2 1 ?_
    simp only [Gen.loadElement]
    split <;> rfl
  | type | program | method => rw [isKind] at value; cases value

theorem storeCode_paces (base : Nat) (assignable : (site.table.symbol id).isAssignable) :
    gauge.Paces jumps start (site.storeCode id)
      (base + ((site.table.symbol id).kind.need + 1)) base [] := by
  simp only [storeCode]
  rw [Symbol.isAssignable] at assignable
  cases isKind : (site.table.symbol id).kind with
  | var =>
    simp only
    split <;> exact .straight base 1 0 rfl
  | field => exact .straight base 2 0 rfl
  | element =>
    refine .straight base 3 0 ?_
    simp only [Gen.storeElement]
    split <;> rfl
  | const | type | program | method => rw [isKind] at assignable; cases assignable

theorem newObjectCode_paces {type : TypeId} (base : Nat)
    (hasTable : (site.table.desc type).dispatch.isSome) :
    gauge.Paces jumps start (site.newObjectCode type) base (base + 1) [] := by
  obtain ⟨dispatch, isDispatch⟩ := Option.isSome_iff_exists.mp hasTable
  simp only [newObjectCode, isDispatch]
  exact .straight base 0 1 rfl

theorem keepCode_paces (kind : SymbolKind) (start : Nat) :
    gauge.Paces jumps start (keepCode kind) kind.need (kind.need + kind.need) [] := by
  cases kind with
  | field => exact .straight 0 1 2 rfl
  | element => exact .straight 0 2 4 rfl
  | _ => exact .nil

theorem stepCode_paces {target : Designator} (up : Bool) (canStore : site.CanStore target)
    (access : gauge.Paces jumps start (site.accessCode 0 target) 0
      (site.table.symbol (site.symbolAt target.node)).kind.need []) :
    gauge.Paces jumps start (site.stepCode target up) 0 0 [] := by
  have canLoad : (site.table.symbol (site.symbolAt target.node)).hasValue :=
    Gen.hasValue_of_isAssignable canStore
  rw [stepCode]
  generalize isNeed : (site.table.symbol (site.symbolAt target.node)).kind.need = need at access
  refine access.append ?_ rfl
  split
  next isLocal =>
    obtain ⟨isVar, _⟩ := by
      simpa only [Bool.and_eq_true, decide_eq_true_eq, Bool.not_eq_true'] using isLocal
    rw [isVar] at isNeed
    rw [← isNeed]
    exact .straight 0 0 0 rfl
  next =>
    have keep : ∀ start, gauge.Paces jumps start
        (keepCode (site.table.symbol (site.symbolAt target.node)).kind) need (need + need) [] :=
      fun start => isNeed ▸ keepCode_paces _ start
    have load : ∀ start, gauge.Paces jumps start (site.loadCode (site.symbolAt target.node))
        (need + need) (need + 1) [] := fun start => by
      rw [← isNeed]
      exact loadCode_paces _ canLoad
    have change : ∀ start, gauge.Paces jumps start
        [.const 1, .plain (if up then .add else .sub)] (need + 1) (need + 1) [] :=
      fun _ => .straight need 1 1 (by cases up <;> rfl)
    have store : ∀ start, gauge.Paces jumps start (site.storeCode (site.symbolAt target.node))
        (need + 1) 0 [] := fun start => by
      rw [← isNeed, ← Nat.zero_add (_ + 1)]
      exact storeCode_paces 0 canStore
    exact (((keep _).append (load _) rfl).append (change _) rfl).append (store _) rfl

section Suits

variable (suits : site.Suits setting gauge) (jumps : Nat × Nat → Prop)
include suits

theorem call_paces (start base : Nat) (kind : (setting.table.symbol id).kind = .method)
    (placed : 0 ≤ (site.table.symbol id).address) :
    gauge.Paces jumps start [.call (site.table.symbol id).address.toNat]
      (base + (setting.table.symbol id).paramCount)
      (base + (setting.table.symbol id).callEffect.2) [] := by
  have effect : gauge.HasEffect start (setting.table.symbol id).callEffect
      (.call (site.table.symbol id).address.toNat) := by
    refine ⟨id, by rw [suits.same.kind, kind], ?_, ?_⟩
    · rw [suits.addresses id kind placed, Int.toNat_of_nonneg placed]
    · rw [Symbol.callEffect, Symbol.callEffect, suits.same.paramCount, suits.same.type]
  have allows : gauge.Allows jumps start _ _ _ :=
    .of_effect effect (Nat.le_add_left _ base) rfl nofun
  rw [Nat.add_sub_cancel] at allows
  exact .single allows

theorem invoke_paces (start base : Nat) (invokes : gauge.invokes start id)
    (isVirtual : (site.table.symbol id).isVirtual) :
    gauge.Paces jumps start [.invokeVirtual (nameWords (site.table.symbol id).name)]
      (base + ((setting.table.symbol id).paramCount + 1))
      (base + (setting.table.symbol id).callEffect.2) [] := by
  have effect : gauge.HasEffect start ((setting.table.symbol id).paramCount + 1,
      (setting.table.symbol id).callEffect.2)
      (.invokeVirtual (nameWords (site.table.symbol id).name)) := by
    refine ⟨id, invokes, ?_, ?_, ?_⟩
    · rwa [suits.same.isVirtual, ← suits.places.isVirtual]
    · rw [suits.same.name, suits.places.name]
    · simp only [Symbol.callEffect, suits.same.paramCount, suits.same.type]
  have allows : gauge.Allows jumps start _ _ _ :=
    .of_effect effect (Nat.le_add_left _ base) rfl nofun
  rw [Nat.add_sub_cancel] at allows
  exact .single allows

end Suits

/-- The code of a body that stands in the bytes has depths. -/
theorem Builds.paces {reach : Reach} {writes : Prop} {parked depth stop : Nat} {bytes : Code}
    {code : List Instruction} {known : List (Nat × Nat)} (suits : site.Suits reach.setting gauge)
    (present : ∀ place, reach.known (.designator place) → site.symbolAt place.node ≠ .absent)
    (invokes : ∀ offset id, site.Invokes bytes reach.known offset id → gauge.invokes offset id)
    (builds : site.Builds reach jumps writes parked start code depth stop known)
    (holds : bytes.Holds start code) :
    gauge.Paces jumps start code depth stop known := by
  induction builds with
  | straight early late _ runs => exact .straight _ early late runs
  | append _ _ isMiddle before behind =>
    rw [Code.holds_append, ← isMiddle] at holds
    exact (before holds.1).append (behind holds.2) isMiddle
  | close _ closed isKnown builds => exact ((builds holds).ends.close closed).weaken isKnown
  | branch compares leads => exact .branch compares leads
  | leap leads => exact .leap leads
  | leave isResult => exact .leave (isResult.trans suits.result.symm)
  | receiver _ => exact .straight _ 0 1 rfl
  | load leads canLoad _ access =>
    rw [Code.holds_append] at holds
    rw [leads.fits suits.plain] at access
    exact (access holds.1).append (loadCode_paces _ canLoad) rfl
  | store leads canStore _ _ supply =>
    rw [Code.holds_append] at holds
    rw [leads.fits suits.plain, ← Nat.zero_add (_ + 1)] at supply
    exact (supply holds.1).append (storeCode_paces 0 canStore) rfl
  | step up leads canStore _ access =>
    rw [stepCode, Code.holds_append] at holds
    rw [leads.fits suits.plain] at access
    exact stepCode_paces up canStore (access holds.1)
  | newObject _ hasTable => exact newObjectCode_paces _ hasTable
  | @call jumps _ _ start base count _ callee isDirect calls placed =>
    have present := present _ calls.isKnown
    obtain ⟨kind, arity⟩ := calls.isMethod.resolve_left present
    rw [Site.IsVirtual] at isDirect
    rw [Setting.HasArity, ← suits.places.isVirtual, if_neg isDirect] at arity
    have call := call_paces suits jumps start base kind placed
    rwa [arity, ← calls.results present] at call
  | @invoke jumps _ parked start base _ callee arguments isVirtual calls _ _ _ receiver values =>
    have present := present _ calls.isKnown
    obtain ⟨kind, arity⟩ := calls.isMethod.resolve_left present
    rw [Site.IsVirtual] at isVirtual
    rw [Setting.HasArity, ← suits.places.isVirtual, if_pos isVirtual] at arity
    have invoke := fun start invokes => invoke_paces suits jumps start base invokes isVirtual
    have depth : base + ((reach.setting.table.symbol (site.symbolAt callee.node)).paramCount + 1) =
        base + 1 + arguments.length + 1 := by omega
    rw [depth, ← calls.results present] at invoke
    have fetch : ∀ start, gauge.Paces jumps start
        [.load (site.frameBase + parked), .getField 0] (base + 1 + arguments.length)
        (base + 1 + arguments.length + 1) [] := fun _ => .straight _ 0 1 rfl
    -- The call is the last instruction, behind all that prepares it.
    have split : ∀ front name, front ++ [.load (site.frameBase + parked), .getField 0,
        .invokeVirtual name] = front ++ [.load (site.frameBase + parked), .getField 0] ++
          [Instruction.invokeVirtual name] :=
      fun _ _ => (List.append_assoc _ [_, _] [_]).symm
    rw [split] at holds ⊢
    have named := invokes _ _ ⟨start, parked, {}, callee, arguments, _, _, calls.isKnown, rfl,
      by rw [callCode, if_pos isVirtual, split], holds, rfl⟩
    simp only [Code.holds_append] at holds
    have front := ((receiver holds.1.1.1.1).append (.straight base 1 1 rfl) rfl).append
      (values holds.1.1.2) rfl
    exact (front.append (fetch _) rfl).append (invoke _ named) rfl

end Site
end MicroJava
