import MicroJava.Proofs.Layout.Depth
import MicroJava.Proofs.Layout.Operands

/-!
# How the code of a body is built

The code of a body that keeps the rules is put together in a few ways: it reads and writes
what designators lead to, creates objects, calls methods, and jumps within the body.
-/

namespace MicroJava

open List Instruction

variable {body count other target start parked base exit next : Nat} {targets : Nat → Prop}
  {source rest designator : Designator} {inside : List Nat} {statement : Stmt}
  {jumps : Nat × Nat → Prop} {writes : Prop}

/-- How many words an access needs below the value that is read or written. -/
def SymbolKind.need : SymbolKind → Nat
  | field => 1
  | element => 2
  | _ => 0

namespace Part

/-- All of some parts are known. -/
def All (known : Part → Prop) (parts : List Part) : Prop := ∀ part ∈ parts, known part

namespace All

variable {known : Part → Prop} {part : Part} {first second : List Part}

theorem tail (all : All known (part :: first)) : All known first :=
  (forall_mem_cons.mp all).2

theorem left (all : All known (first ++ second)) : All known first :=
  (forall_mem_append.mp all).1

theorem right (all : All known (first ++ second)) : All known second :=
  (forall_mem_append.mp all).2

theorem each {α : Type} {items : List α} {parts : α → List Part} {item : α}
    (all : All known (items.flatMap parts)) (member : item ∈ items) :
    All known (parts item) :=
  fun part inside => all part (mem_flatMap.mpr ⟨item, member, inside⟩)

end All
end Part

/-- An instruction that uses neither slots nor objects, calls nothing and jumps nowhere. -/
def Instruction.isInert : Instruction → Bool
  | plain _ => true
  | const _ => true
  | newArray _ => true
  | trap _ => true
  | _ => false

namespace Site

/-- How many words the access to a designator leaves on the stack. -/
def accessWidth (site : Site) : Designator → Nat
  | .name node _ => if (site.table.symbol (site.symbolAt node)).kind = .field then 1 else 0
  | .qualified _ _ _ => 0
  | .element _ _ _ => 2
  | .member _ base _ =>
      if (site.table.symbol (site.symbolAt base.node)).kind = .type then 0 else 1

/-- The code of a value that is stored where a designator leads to. -/
inductive Supplies (site : Site) (designator : Designator) : List Instruction → Prop
  | value (expression : Expr) : site.Supplies designator (site.exprCode 0 expression)
  | read (op : Opcode) : site.Supplies designator [.plain op]
  | element (source : Designator) (position : Nat) :
      site.Supplies designator (site.valueCode source ++
        [.const (Int32.ofInt position), .plain (Gen.loadElement (site.elementAt source))])
  | step (op : Opcode) :
      site.Supplies designator
        (keepCode (site.table.symbol (site.symbolAt designator.node)).kind ++
          site.loadCode (site.symbolAt designator.node) ++ [.const 1, .plain op])

/-- What the code of a body may refer to. -/
structure Reach where
  setting : Setting
  known : Part → Prop
  limit : Nat

/-- A designator leads to a symbol, and its access leaves what reading or writing needs. -/
structure Leads (site : Site) (reach : Reach) (designator : Designator) : Prop where
  isKnown : reach.known (.designator designator)
  found : reach.setting.IsFound (site.symbolAt designator.node)
  fits : reach.setting.plain → site.accessWidth designator =
    (site.table.symbol (site.symbolAt designator.node)).kind.need

/-- A call of a method with so many arguments and words of a result; of what is absent nothing is
known. -/
structure Calls (site : Site) (reach : Reach) (callee : Designator) (count result : Nat) :
    Prop where
  isKnown : reach.known (.designator callee)
  isMethod : site.symbolAt callee.node = .absent ∨
    (reach.setting.table.symbol (site.symbolAt callee.node)).kind = .method ∧
      reach.setting.HasArity (site.symbolAt callee.node) count
  results : site.symbolAt callee.node ≠ .absent →
    result = (reach.setting.table.symbol (site.symbolAt callee.node)).callEffect.2

/-- How the code of a body is put together, with so many receivers parked.  Slots are written
only where `writes` says so, but for those of receivers.  Jumps lead to offsets of the sequence or
are among `jumps`, and some depths of the sequence are known. -/
inductive Builds (site : Site) (reach : Reach) : (Nat × Nat → Prop) → Prop → Nat → Nat →
    List Instruction → Nat → Nat → List (Nat × Nat) → Prop
  | straight
      {jumps : Nat × Nat → Prop}
      {writes : Prop}
      {parked start base : Nat}
      {code : List Instruction}
      (early late : Nat)
      (inert : code.all isInert)
      (runs : Gauge.descend early code = some late) :
      site.Builds reach jumps writes parked start code (base + early) (base + late) []
  | append
      {jumps : Nat × Nat → Prop}
      {writes : Prop}
      {parked start middle depth between stop : Nat}
      {first second : List Instruction}
      {known further : List (Nat × Nat)}
      (before : site.Builds reach jumps writes parked start first depth between known)
      (behind : site.Builds reach jumps writes parked middle second between stop further)
      (isMiddle : middle = start + totalSize first) :
      site.Builds reach jumps writes parked start (first ++ second) depth stop (known ++ further)
  | close
      {jumps inner : Nat × Nat → Prop}
      {writes : Prop}
      {parked start depth stop : Nat}
      {code : List Instruction}
      {known fewer : List (Nat × Nat)}
      (builds : site.Builds reach inner writes parked start code depth stop known)
      (closed : ∀ mark, inner mark →
        mark ∈ (start, depth) :: (start + totalSize code, stop) :: known ∨ jumps mark)
      (isKnown : fewer ⊆ (start, depth) :: (start + totalSize code, stop) :: known) :
      site.Builds reach jumps writes parked start code depth stop fewer
  | branch
      {jumps : Nat × Nat → Prop}
      {writes : Prop}
      {parked start depth target : Nat}
      {op : Opcode}
      (compares : op ≠ .jmp)
      (leads : jumps (target, depth)) :
      site.Builds reach jumps writes parked start [.jump op target] (depth + 2) depth []
  | leap
      {jumps : Nat × Nat → Prop}
      {writes : Prop}
      {parked start depth stop target : Nat}
      (leads : jumps (target, depth)) :
      site.Builds reach jumps writes parked start [.jump .jmp target] depth stop []
  | leave
      {jumps : Nat × Nat → Prop}
      {writes : Prop}
      {parked start depth stop : Nat}
      (isResult : depth = if reach.setting.result = .none then 0 else 1) :
      site.Builds reach jumps writes parked start [.plain .exit, .plain .ret] depth stop []
  | receiver
      {jumps : Nat × Nat → Prop}
      {writes : Prop}
      {parked start base : Nat}
      (supplied : reach.setting.plain → reach.setting.receiver) :
      site.Builds reach jumps writes parked start [.load 0] base (base + 1) []
  | load
      {jumps : Nat × Nat → Prop}
      {writes : Prop}
      {parked start base : Nat}
      {designator : Designator}
      (leads : site.Leads reach designator)
      (canLoad : site.CanLoad designator)
      (access : site.Builds reach jumps writes parked start (site.accessCode parked designator)
        base (base + site.accessWidth designator) []) :
      site.Builds reach jumps writes parked start
        (site.accessCode parked designator ++ site.loadCode (site.symbolAt designator.node))
        base (base + 1) []
  | store
      {jumps : Nat × Nat → Prop}
      {start : Nat}
      {designator : Designator}
      {value : List Instruction}
      (leads : site.Leads reach designator)
      (canStore : site.CanStore designator)
      (supplies : site.Supplies designator value)
      (supply : site.Builds reach jumps True 0 start (site.accessCode 0 designator ++ value) 0
        (site.accessWidth designator + 1) []) :
      site.Builds reach jumps True 0 start
        (site.accessCode 0 designator ++ value ++ site.storeCode (site.symbolAt designator.node))
        0 0 []
  | step
      {jumps : Nat × Nat → Prop}
      {start : Nat}
      {designator : Designator}
      (up : Bool)
      (leads : site.Leads reach designator)
      (canStore : site.CanStore designator)
      (access : site.Builds reach jumps True 0 start (site.accessCode 0 designator) 0
        (site.accessWidth designator) []) :
      site.Builds reach jumps True 0 start (site.stepCode designator up) 0 0 []
  | newObject
      {jumps : Nat × Nat → Prop}
      {writes : Prop}
      {parked start base : Nat}
      {node : Node}
      {ref : TypeRef}
      (isKnown : reach.known (.expression (.newObject node ref)))
      (hasTable : (site.table.desc (site.typeAt node)).dispatch.isSome) :
      site.Builds reach jumps writes parked start (site.newObjectCode (site.typeAt node))
        base (base + 1) []
  | call
      {jumps : Nat × Nat → Prop}
      {writes : Prop}
      {parked start base count result : Nat}
      {callee : Designator}
      (isDirect : ¬ site.IsVirtual callee)
      (calls : site.Calls reach callee count result)
      (placed : 0 ≤ (site.table.symbol (site.symbolAt callee.node)).address) :
      site.Builds reach jumps writes parked start
        [.call (site.table.symbol (site.symbolAt callee.node)).address.toNat]
        (base + count) (base + result) []
  | invoke
      {jumps : Nat × Nat → Prop}
      {writes : Prop}
      {parked start base result : Nat}
      {callee : Designator}
      {arguments : List Expr}
      (isVirtual : site.IsVirtual callee)
      (calls : site.Calls reach callee arguments.length result)
      (room : parked < reach.limit)
      (receiver : site.Builds reach jumps False parked start (site.receiverCode parked callee)
        base (base + 1) [])
      (values : site.Builds reach jumps False (parked + 1)
        (start + totalSize (site.receiverCode parked callee ++
          [.plain .dup, .store (site.frameBase + parked)]))
        (site.exprsCode (parked + 1) arguments) (base + 1) (base + 1 + arguments.length) []) :
      site.Builds reach jumps writes parked start
        (site.receiverCode parked callee ++ [.plain .dup, .store (site.frameBase + parked)] ++
          site.exprsCode (parked + 1) arguments ++
          [.load (site.frameBase + parked), .getField 0,
            .invokeVirtual (nameWords (site.table.symbol (site.symbolAt callee.node)).name)])
        base (base + result) []

variable {site : Site} {reach : Reach}

namespace Builds

variable {depth stop : Nat} {code : List Instruction} {known fewer : List (Nat × Nat)}

theorem nil : site.Builds reach jumps writes parked start [] base base [] := .straight 0 0 rfl rfl

section

variable (builds : site.Builds reach jumps writes parked start code depth stop known)
include builds

theorem ends :
    site.Builds reach jumps writes parked start code depth stop
      ((start, depth) :: (start + totalSize code, stop) :: known) :=
  builds.close (fun _ => .inr) (List.Subset.refl _)

theorem weaken (isKnown : fewer ⊆ known) :
    site.Builds reach jumps writes parked start code depth stop fewer :=
  builds.close (fun _ => .inr) fun _ member => .tail _ (.tail _ (isKnown member))

theorem known_mem (inside : Includes targets start code) : ∀ mark ∈ known, targets mark.1 := by
  induction builds with
  | append _ _ isMiddle before behind =>
    exact forall_mem_append.mpr ⟨before inside.left, behind (inside.right isMiddle)⟩
  | close _ _ isKnown ih =>
    intro mark member
    rcases mem_cons.mp (isKnown member) with rfl | member
    · exact inside.here
    · rcases mem_cons.mp member with rfl | member
      · exact inside.stop rfl
      · exact ih inside mark member
  | _ => exact forall_mem_nil _

end

theorem admits (sees : site.Sees reach.setting)
    (builds : site.Builds reach jumps writes parked start code depth stop known)
    (inside : Includes targets start code) (leads : ∀ mark, jumps mark → targets mark.1) :
    site.Admits reach.setting reach.limit targets code := by
  induction builds with
  | straight _ _ inert _ =>
    intro instr member
    have isInert := all_eq_true.mp inert instr member
    cases instr <;> trivial
  | append _ _ isMiddle before behind =>
    exact (admits_append _ _).mpr ⟨before inside.left leads, behind (inside.right isMiddle) leads⟩
  | close builds closed _ ih =>
    refine ih inside fun mark isInner => ?_
    rcases closed mark isInner with member | outer
    · exact builds.ends.known_mem inside mark member
    · exact leads mark outer
  | branch _ isTarget | leap isTarget => exact (admits_cons _ _).mpr ⟨leads _ isTarget, admits_nil⟩
  | leave _ => simp [Permits]
  | receiver supplied => exact (admits_cons _ _).mpr ⟨.inr (.inl ⟨rfl, supplied⟩), admits_nil⟩
  | load goes _ _ access =>
    exact (admits_append _ _).mpr ⟨access inside.left leads, loadCode_admitted sees goes.found⟩
  | store goes _ _ _ supply =>
    exact (admits_append _ _).mpr ⟨supply inside.left leads, storeCode_admitted sees goes.found⟩
  | step up goes _ _ access =>
    exact stepCode_admitted sees up goes.found (access inside.left leads)
  | newObject _ _ => exact newObjectCode_admitted _
  | call _ calls placed =>
    exact (admits_cons _ _).mpr ⟨⟨_, calls.isMethod.imp_right And.left, placed, rfl⟩, admits_nil⟩
  | @invoke _ _ parked _ _ _ _ _ _ _ room _ _ receiver values =>
    have parkedSlot : site.IsSlot reach.setting reach.limit (site.frameBase + parked) :=
      .inr (.inr ⟨Nat.le_add_right _ _, Nat.add_lt_add_left room _⟩)
    simp only [admits_append, admits_cons]
    exact ⟨⟨⟨receiver inside.left.left.left leads, trivial, parkedSlot, admits_nil⟩,
      values (inside.left.right rfl) leads⟩, parkedSlot, trivial, trivial, admits_nil⟩

end Builds

theorem Sees.accessWidth_eq {setting : Setting} (sees : site.Sees setting) (plain : setting.plain)
    (noted : designator.IsNoted setting) (defined : site.AccessDefined designator)
    (other : (site.table.symbol (site.symbolAt designator.node)).kind ≠ .method) :
    site.accessWidth designator =
      (site.table.symbol (site.symbolAt designator.node)).kind.need := by
  have present := (sees.isFound noted defined).present
  rw [sees.places.kind] at other ⊢
  cases designator with
  | name node _ =>
    obtain ⟨id, isNoted, finds, _⟩ := noted
    have named := finds.named
    rw [accessWidth, sees.places.kind]
    simp only [Designator.node, sees.symbolAt isNoted] at other ⊢
    cases isKind : (setting.table.symbol id).kind <;> simp_all [SymbolKind.need]
  | qualified node _ _ =>
    obtain ⟨id, isNoted, finds, global, _⟩ := noted
    have named := finds.named
    have field := finds.field
    have global := global plain
    simp only [Designator.node, sees.symbolAt isNoted] at other ⊢
    cases isKind : (setting.table.symbol id).kind <;> simp_all [SymbolKind.need, accessWidth]
  | element node base index =>
    obtain ⟨_, _, array, id, _, isNoted, isElement⟩ := noted
    simp only [Designator.node, sees.symbolAt isNoted] at present ⊢
    simp only [Setting.IsElement] at isElement
    split at isElement
    · rw [isElement.2.1]
      rfl
    · exact absurd isElement.1 present
  | member node base _ =>
    obtain ⟨_, owner, id, isOwner, isNoted, isMember⟩ := noted
    rw [accessWidth, sees.places.kind, sees.symbolAt isOwner]
    simp only [Designator.node, sees.symbolAt isNoted] at present other ⊢
    simp only [Setting.IsMember] at isMember
    split at isMember
    · obtain ⟨finds, global, belongs, _⟩ := isMember
      split
      next isType =>
        have named := finds.named
        have field := finds.field
        have global := global plain isType
        cases isKind : (setting.table.symbol id).kind <;> simp_all [SymbolKind.need]
      next notType =>
        rw [(belongs notType).kind.resolve_right other]
        rfl
    · exact absurd isMember.1 present

section Sees

variable (sees : site.Sees reach.setting)
include sees

theorem leads_of_noted (noted : designator.IsNoted reach.setting)
    (defined : site.AccessDefined designator)
    (other : (site.table.symbol (site.symbolAt designator.node)).kind ≠ .method)
    (known : Part.All reach.known designator.parts) :
    site.Leads reach designator where
  isKnown := known _ designator.mem_parts
  found := sees.isFound noted defined
  fits plain := sees.accessWidth_eq plain noted defined other

/-! ## Designators and expressions -/

set_option linter.unusedSectionVars false in
mutual

theorem accessCode_built {designator : Designator} {jumps : Nat × Nat → Prop} {writes : Prop}
    {parked start base : Nat} (noted : designator.IsNoted reach.setting)
    (defined : site.AccessDefined designator)
    (room : site.accessPeak parked designator ≤ reach.limit)
    (known : Part.All reach.known designator.parts) :
    site.Builds reach jumps writes parked start (site.accessCode parked designator) base
      (base + site.accessWidth designator) [] := by
  match designator with
  | .name node _ =>
    obtain ⟨id, isNoted, _, receiver, _⟩ := noted
    rw [accessCode, accessWidth, sees.symbolAt isNoted, sees.places.kind]
    split
    next isField => exact .receiver fun plain => receiver plain (.inl isField)
    next => exact .nil
  | .qualified _ _ _ => exact .nil
  | .element node array index =>
    obtain ⟨arrayNoted, indexNoted, _⟩ := noted
    obtain ⟨_, arrayDefined, canLoad, indexDefined⟩ := defined
    rw [accessPeak, Nat.max_le] at room
    exact (readCode_built arrayNoted arrayDefined canLoad room.1 known.tail.left).append
      (exprCode_built indexNoted indexDefined room.2 known.tail.right) rfl
  | .member node object _ =>
    obtain ⟨_, _, objectDefined⟩ := defined
    rw [accessCode, accessWidth]
    split
    next => exact .nil
    next notType =>
      obtain ⟨defined, canLoad⟩ := objectDefined notType
      rw [accessPeak, if_neg notType] at room
      exact readCode_built noted.1 defined canLoad room known.tail

theorem readCode_built {designator : Designator} {jumps : Nat × Nat → Prop} {writes : Prop}
    {parked start base : Nat} (noted : designator.IsNoted reach.setting)
    (defined : site.AccessDefined designator) (canLoad : site.CanLoad designator)
    (room : site.accessPeak parked designator ≤ reach.limit)
    (known : Part.All reach.known designator.parts) :
    site.Builds reach jumps writes parked start
      (site.accessCode parked designator ++ site.loadCode (site.symbolAt designator.node)) base
      (base + 1) [] := by
  refine .load (leads_of_noted sees noted defined (fun isMethod => ?_) known) canLoad
    (accessCode_built noted defined room known)
  rw [CanLoad, Symbol.hasValue, isMethod] at canLoad
  cases canLoad

theorem exprCode_built {expression : Expr} {jumps : Nat × Nat → Prop} {writes : Prop}
    {parked start base : Nat} (noted : expression.IsNoted reach.setting)
    (defined : site.ExprDefined expression)
    (room : site.exprPeak parked expression ≤ reach.limit)
    (known : Part.All reach.known expression.parts) :
    site.Builds reach jumps writes parked start (site.exprCode parked expression) base (base + 1)
      [] := by
  match expression with
  | .literal _ value => exact .straight 0 1 rfl rfl
  | .load _ source => exact readCode_built noted.1 defined.1 defined.2 room known.tail
  | .call _ target =>
    obtain ⟨targetNoted, id, isNoted, _, isTyped⟩ := noted
    refine callCode_built targetNoted defined room known.tail fun present => ?_
    have same : site.symbolAt target.callee.node = id := sees.symbolAt isNoted
    rw [same] at present ⊢
    rw [Symbol.callEffect, if_neg (isTyped.resolve_left present)]
  | .newArray node _ length =>
    exact (exprCode_built noted.1 defined.2 room known.tail).append (.straight 1 1 rfl rfl) rfl
  | .newObject node _ => exact .newObject (known _ mem_cons_self) defined.2
  | .neg _ operand =>
    exact (exprCode_built noted.1 defined room known.tail).append (.straight 1 1 rfl rfl) rfl
  | .arith _ operator left right =>
    rw [exprPeak, Nat.max_le] at room
    refine ((exprCode_built noted.1 defined.1 room.1 known.tail.left).append
      (exprCode_built noted.2.1 defined.2 room.2 known.tail.right) rfl).append
      (.straight 2 1 rfl ?_) rfl
    cases operator <;> rfl

theorem exprsCode_built {expressions : List Expr} {jumps : Nat × Nat → Prop} {writes : Prop}
    {parked start base : Nat} (noted : Expr.AreNoted reach.setting expressions)
    (defined : site.ExprsDefined expressions)
    (room : site.exprsPeak parked expressions ≤ reach.limit)
    (known : Part.All reach.known (Expr.partsOf expressions)) :
    site.Builds reach jumps writes parked start (site.exprsCode parked expressions) base
      (base + expressions.length) [] := by
  match expressions with
  | [] => exact .nil
  | first :: rest =>
    rw [exprsPeak, Nat.max_le] at room
    rw [length_cons, Nat.add_comm rest.length, ← Nat.add_assoc]
    exact (exprCode_built noted.1 defined.1 room.1 known.left).append
      (exprsCode_built noted.2 defined.2 room.2 known.right) rfl

theorem callCode_built {target : Call} {jumps : Nat × Nat → Prop} {writes : Prop}
    {parked start base result : Nat} (noted : target.IsNoted reach.setting)
    (defined : site.CallDefined target) (room : site.callPeak parked target ≤ reach.limit)
    (known : Part.All reach.known target.parts)
    (results : site.symbolAt target.callee.node ≠ .absent →
      result = (reach.setting.table.symbol (site.symbolAt target.callee.node)).callEffect.2) :
    site.Builds reach jumps writes parked start (site.callCode parked target) base
      (base + result) [] := by
  match target with
  | .mk _ callee arguments =>
    obtain ⟨calleeNoted, argumentsNoted, id, isNoted, isMethod⟩ := noted
    obtain ⟨_, receiverDefined, argumentsDefined, placed⟩ := defined
    rw [← sees.symbolAt isNoted] at isMethod
    have calls : site.Calls reach callee arguments.length result :=
      ⟨known.left _ callee.mem_parts, isMethod, results⟩
    simp only [callPeak] at room
    simp only [callCode]
    split
    next isVirtual =>
      rw [if_pos isVirtual, Nat.max_le, Nat.max_le] at room
      exact .invoke isVirtual calls room.2.1
        (receiverCode_built calleeNoted isVirtual (receiverDefined isVirtual) room.1 known.left)
        (exprsCode_built argumentsNoted argumentsDefined room.2.2 known.right)
    next notVirtual =>
      rw [if_neg notVirtual] at room
      exact (exprsCode_built argumentsNoted argumentsDefined room known.right).append
        (.call notVirtual calls (placed notVirtual)) rfl

theorem receiverCode_built {callee : Designator} {jumps : Nat × Nat → Prop} {writes : Prop}
    {parked start base : Nat} (noted : callee.IsNoted reach.setting)
    (isVirtual : site.IsVirtual callee) (defined : site.ReceiverDefined callee)
    (room : site.receiverPeak parked callee ≤ reach.limit)
    (known : Part.All reach.known callee.parts) :
    site.Builds reach jumps writes parked start (site.receiverCode parked callee) base (base + 1)
      [] := by
  match callee with
  | .member _ object _ => exact readCode_built noted.1 defined.1 defined.2 room known.tail
  | .name _ _ =>
    obtain ⟨id, isNoted, _, receiver, _⟩ := noted
    rw [Site.IsVirtual, Designator.node, sees.symbolAt isNoted, sees.places.isVirtual] at isVirtual
    exact .receiver fun plain => receiver plain (.inr isVirtual)
  | .qualified _ _ _ => cases defined
  | .element _ _ _ => cases defined

end

/-! ## Conditions -/

theorem factCode_built {fact : Fact} (noted : fact.IsNoted reach.setting)
    (defined : site.FactDefined fact) (room : site.factPeak fact ≤ reach.limit)
    (known : Part.All reach.known fact.parts) (leads : jumps (target, 0)) :
    site.Builds reach jumps True 0 start (site.factCode target fact) 0 0 [] := by
  cases fact with
  | truth value =>
    have zero : ∀ start, site.Builds reach jumps True 0 start [.const 0] 1 2 [] :=
      fun _ => .straight 0 1 rfl rfl
    exact (exprCode_built sees noted defined room known).append
      ((zero _).append (.branch (by decide) leads) rfl) rfl
  | relation _ left op right =>
    rw [factPeak, Nat.max_le] at room
    refine ((exprCode_built sees noted.1 defined.1 room.1 known.left).append
      (exprCode_built sees noted.2 defined.2 room.2 known.right) rfl).append
      (.branch ?_ leads) rfl
    cases op <;> decide

theorem termCode_built {term : Term} (noted : ∀ fact ∈ term, fact.IsNoted reach.setting)
    (defined : ∀ fact ∈ term, site.FactDefined fact) (room : site.termPeak term ≤ reach.limit)
    (known : Part.All reach.known (term.flatMap Fact.parts)) (leads : jumps (target, 0)) :
    site.Builds reach jumps True 0 start (site.termCode target term) 0 0 [] := by
  induction term generalizing start with
  | nil => exact .nil
  | cons fact rest ih =>
    rw [forall_mem_cons] at noted defined
    rw [termPeak, Nat.max_le] at room
    rw [termCode, flatMap_cons]
    exact (factCode_built sees noted.1 defined.1 room.1 known.left leads).append
      (ih noted.2 defined.2 room.2 known.right) rfl

theorem conditionCode_built {condition : Condition} {jumps : Nat × Nat → Prop} {start : Nat}
    (noted : condition.IsNoted reach.setting) (defined : site.ConditionDefined condition)
    (room : site.conditionPeak condition ≤ reach.limit)
    (known : Part.All reach.known (Condition.parts condition)) (toBody : jumps (body, 0))
    (toOther : jumps (other, 0)) :
    site.Builds reach jumps True 0 start (site.conditionCode start body other condition) 0 0
      [] := by
  match condition with
  | [] => exact .nil
  | [term] =>
    rw [conditionPeak, Nat.max_le] at room
    exact termCode_built sees (noted term mem_cons_self) (defined term mem_cons_self)
      room.1 known.left toOther
  | term :: next :: rest =>
    rw [conditionPeak, Nat.max_le] at room
    simp only [conditionCode]
    generalize isFurther : start + site.termSize term + 3 = further
    -- The first term may lead to the next one.
    let inner : Nat × Nat → Prop := fun mark => mark = (further, 0) ∨ jumps mark
    have first : site.Builds reach inner True 0 start (site.termCode further term) 0 0 [] :=
      termCode_built sees (noted term mem_cons_self) (defined term mem_cons_self) room.1
        known.left (.inl rfl)
    have later : site.Builds reach inner True 0 further
        (site.conditionCode further body other (next :: rest)) 0 0 [] :=
      conditionCode_built (fun term member => noted term (mem_cons_of_mem _ member))
        (fun term member => defined term (mem_cons_of_mem _ member)) room.2 known.right
        (.inr toBody) (.inr toOther)
    have skip : ∀ start, site.Builds reach inner True 0 start [.jump .jmp body] 0 0 [] :=
      fun _ => .leap (.inr toBody)
    have whole := first.append ((skip _).append later.ends
      (by rw [totalSize_termCode, ← isFurther]; rfl)) rfl
    refine whole.close (fun mark leads => ?_) (nil_subset _)
    rcases leads with rfl | leads
    · exact .inl (.tail _ (.tail _ mem_cons_self))
    · exact .inr leads

theorem testCode_built {test : Option Condition}
    (noted : ∀ condition, test = some condition → condition.IsNoted reach.setting)
    (defined : ∀ condition ∈ test, site.ConditionDefined condition)
    (room : site.testPeak test ≤ reach.limit)
    (known : Part.All reach.known (test.elim [] Condition.parts)) (toBody : jumps (body, 0))
    (toOther : jumps (other, 0)) :
    site.Builds reach jumps True 0 start (site.testCode start body other test) 0 0 [] := by
  cases test with
  | none => exact .nil
  | some condition =>
    exact conditionCode_built sees (noted condition rfl) (defined condition rfl) room known toBody
      toOther

/-! ## Actions -/

theorem target_leads (noted : designator.IsNoted reach.setting)
    (defined : site.TargetDefined designator) (known : Part.All reach.known designator.parts) :
    site.Leads reach designator := by
  refine leads_of_noted sees noted defined.1 (fun isMethod => ?_) known
  have canStore := defined.2
  rw [CanStore, Symbol.isAssignable, isMethod] at canStore
  cases canStore

theorem targetCode_built {value : List Instruction} (noted : designator.IsNoted reach.setting)
    (defined : site.TargetDefined designator)
    (room : site.accessPeak 0 designator ≤ reach.limit)
    (known : Part.All reach.known designator.parts) (supplies : site.Supplies designator value)
    (supply : ∀ start base, site.Builds reach jumps True 0 start value base (base + 1) []) :
    site.Builds reach jumps True 0 start
      (site.accessCode 0 designator ++ value ++ site.storeCode (site.symbolAt designator.node))
      0 0 [] := by
  have access : site.Builds reach jumps True 0 start (site.accessCode 0 designator) 0
      (0 + site.accessWidth designator) [] := accessCode_built sees noted defined.1 room known
  rw [Nat.zero_add] at access
  exact .store (target_leads sees noted defined known) defined.2 supplies
    (access.append (supply _ _) rfl)

theorem stepCode_built {target : Designator} (up : Bool) (noted : target.IsNoted reach.setting)
    (defined : site.TargetDefined target) (room : site.accessPeak 0 target ≤ reach.limit)
    (known : Part.All reach.known target.parts) :
    site.Builds reach jumps True 0 start (site.stepCode target up) 0 0 [] := by
  refine .step up (target_leads sees noted defined known) defined.2 ?_
  rw [← Nat.zero_add (site.accessWidth target)]
  exact accessCode_built sees noted defined.1 room known

/-- Values are read anywhere, above any words. -/
def Reads (site : Site) (reach : Reach) (code : List Instruction) : Prop :=
  ∀ {jumps start base}, site.Builds reach jumps True 0 start code base (base + 1) []

theorem fillsCode_built {fills : List (Option Designator × Nat)}
    (noted : ∀ target position, (some target, position) ∈ fills → target.IsNoted reach.setting)
    (defined : ∀ target position, (some target, position) ∈ fills → site.TargetDefined target)
    (room : site.fillsPeak source fills ≤ reach.limit)
    (known : ∀ target position, (some target, position) ∈ fills →
      Part.All reach.known target.parts)
    (value : site.Reads reach (site.valueCode source)) :
    site.Builds reach jumps True 0 start (fills.flatMap (site.fillCode source)) 0 0 [] := by
  induction fills generalizing start with
  | nil => exact .nil
  | cons fill rest ih =>
    obtain ⟨target, position⟩ := fill
    have later : ∀ start, site.fillsPeak source rest ≤ reach.limit → site.Builds reach jumps True 0
        start (rest.flatMap (site.fillCode source)) 0 0 [] := fun _ room =>
      ih (fun target position member => noted target position (.tail _ member))
        (fun target position member => defined target position (.tail _ member)) room
        (fun target position member => known target position (.tail _ member))
    rw [flatMap_cons]
    cases target with
    | none => exact later start room
    | some target =>
      rw [fillsPeak, Nat.max_le, Nat.max_le] at room
      have fills : site.Builds reach jumps True 0 start
        (site.fillCode source (some target, position))
          0 0 [] := by
        rw [fillCode, append_assoc (site.accessCode 0 target)]
        refine targetCode_built sees (noted target position (.head _))
          (defined target position (.head _)) room.1.1 (known target position (.head _))
          (.element source position) fun _ _ => value.append (.straight 1 1 rfl ?_) rfl
        unfold Gen.loadElement
        split <;> rfl
      exact fills.append (later _ room.2) rfl

section

variable (restValue : site.Reads reach (site.valueCode rest))
include restValue

omit sees in
theorem guardCode_built (sourceValue : site.Reads reach (site.valueCode source)) :
    site.Builds reach jumps True 0 start (site.guardCode start count rest source) 0 0 [] := by
  simp only [guardCode]
  generalize isBeyond : start + totalSize (site.guardOperands count rest source) + 5 = beyond
  let inner : Nat × Nat → Prop := fun mark => mark = (beyond, 0) ∨ jumps mark
  have total : ∀ start, site.Builds reach inner True 0 start
      [.plain .arrayLength, .const (Int32.ofInt count), .plain .add] 1 1 [] :=
    fun _ => .straight 1 1 rfl rfl
  have length : ∀ start, site.Builds reach inner True 0 start [.plain .arrayLength] 2 2 [] :=
    fun _ => .straight 1 1 rfl rfl
  have operands : site.Builds reach inner True 0 start (site.guardOperands count rest source) 0 2
      [] :=
    ((restValue.append (total _) rfl).append sourceValue rfl).append (length _) rfl
  have pass : ∀ start, site.Builds reach inner True 0 start [.jump .jle beyond] 2 0 [] :=
    fun _ => .branch (by decide) (.inl rfl)
  have stop : ∀ start, site.Builds reach inner True 0 start [.trap 2] 0 0 [] :=
    fun _ => .straight 0 0 rfl rfl
  refine (operands.append ((pass _).append (stop _) rfl) rfl).close (fun mark leads => ?_)
    (nil_subset _)
  rcases leads with rfl | leads
  · refine .inl (mem_cons_of_mem _ ?_)
    rw [← isBeyond, totalSize_append]
    exact mem_cons_self
  · exact .inr leads

omit sees in
theorem copyElement_built (sourceValue : site.Reads reach (site.valueCode source)) :
    site.Builds reach jumps True 0 start (site.copyElement rest source) 2 2 [] := by
  have both : ∀ start, site.Builds reach jumps True 0 start [.plain .dup2] 2 4 [] :=
    fun _ => .straight 2 4 rfl rfl
  have pick : ∀ start, site.Builds reach jumps True 0 start [.plain .dupX1, .plain .pop,
      .plain (Gen.loadElement (site.elementAt source))] 5 4 [] := fun _ => by
    refine .straight 2 1 rfl ?_
    unfold Gen.loadElement
    split <;> rfl
  have fill : ∀ start, site.Builds reach jumps True 0 start [.plain .dupX2, .plain .pop,
      .plain (Gen.storeElement (site.elementAt rest))] 5 2 [] := fun _ => by
    refine .straight 3 0 rfl ?_
    unfold Gen.storeElement
    split <;> rfl
  exact ((((both start).append sourceValue rfl).append (pick _) rfl).append restValue rfl).append
    (fill _) rfl

omit sees in
theorem restCode_built (sourceValue : site.Reads reach (site.valueCode source)) :
    site.Builds reach jumps True 0 start (site.restCode start count rest source) 0 0 [] := by
  obtain ⟨test, isTest⟩ : ∃ test, test = start +
      totalSize [.const 0, .const (Int32.ofInt count), .const 0] := ⟨_, rfl⟩
  obtain ⟨next, isNext⟩ : ∃ next, next = test + totalSize (site.valueCode rest) + 7 := ⟨_, rfl⟩
  obtain ⟨copy, isCopy⟩ : ∃ copy, copy = next + totalSize stepIndices + 3 := ⟨_, rfl⟩
  obtain ⟨beyond, isBeyond⟩ :
    ∃ beyond, beyond = copy + totalSize (site.copyElement rest source) + 3 := ⟨_, rfl⟩
  rw [site.restCode_eq start count rest source isTest isNext isCopy isBeyond]
  let inner : Nat × Nat → Prop := fun mark =>
    mark ∈ [(test, 3), (next, 2), (copy, 2), (beyond, 2)] ∨ jumps mark
  have indices : site.Builds reach inner True 0 start
      [.const 0, .const (Int32.ofInt count), .const 0] 0 3 [] := .straight 0 3 rfl rfl
  have length : ∀ start, site.Builds reach inner True 0 start [.plain .arrayLength] 4 4 [] :=
    fun _ => .straight 1 1 rfl rfl
  have leaves : ∀ start, site.Builds reach inner True 0 start [.jump .jge beyond] 4 2 [] :=
    fun _ => .branch (by decide) (.inl (by simp))
  have enters : ∀ start, site.Builds reach inner True 0 start [.jump .jmp copy] 2 2 [] :=
    fun _ => .leap (.inl (by simp))
  have decides : ∀ start, site.Builds reach inner True 0 start
      [.plain .arrayLength, .jump .jge beyond, .jump .jmp copy] 4 2 [] :=
    fun _ => (length _).append ((leaves _).append (enters _) rfl) rfl
  have steps : site.Builds reach inner True 0 next stepIndices 2 3 [] := .straight 2 3 rfl rfl
  have repeats : ∀ start, site.Builds reach inner True 0 start [.jump .jmp test] 3 2 [] :=
    fun _ => .leap (.inl (by simp))
  have copies : site.Builds reach inner True 0 copy (site.copyElement rest source) 2 2 [] :=
    copyElement_built restValue sourceValue
  have continues : ∀ start, site.Builds reach inner True 0 start [.jump .jmp next] 2 2 [] :=
    fun _ => .leap (.inl (by simp))
  have drops : site.Builds reach inner True 0 beyond [.plain .pop, .plain .pop] 2 0 [] :=
    .straight 2 0 rfl rfl
  have reads : site.Builds reach inner True 0 test (site.valueCode rest) 3 4 [] := restValue
  refine (indices.append (reads.ends.append ((decides _).append (steps.ends.append
    ((repeats _).append (copies.ends.append ((continues _).append drops.ends isBeyond) rfl) isCopy)
    rfl) isNext) rfl) isTest).close (fun mark leads => leads.imp_left fun inside => ?_)
    (nil_subset _)
  simp only [mem_cons, not_mem_nil, or_false] at inside
  rcases inside with rfl | rfl | rfl | rfl <;> simp

end

theorem actionCode_built {action : Action} (noted : action.IsNoted reach.setting)
    (defined : site.ActionDefined action) (room : site.actionPeak action ≤ reach.limit)
    (known : Part.All reach.known action.parts) :
    site.Builds reach jumps True 0 start (site.actionCode start action) 0 0 [] := by
  cases action with
  | assign _ target value =>
    rw [actionPeak, Nat.max_le] at room
    exact targetCode_built sees noted.1 defined.1 room.1 known.left (.value _) fun _ _ =>
      exprCode_built sees noted.2.2 defined.2 room.2 known.right
  | increment _ target => exact stepCode_built sees true noted.1 defined room known
  | decrement _ target => exact stepCode_built sees false noted.1 defined room known
  | call _ target =>
    simp only [actionCode, sees.places.type]
    refine (callCode_built sees noted defined room known fun _ => rfl).append ?_ rfl
    rw [Symbol.callEffect]
    split
    · exact .nil
    · exact .straight 1 0 rfl rfl
  | unpack _ positions rest source =>
    obtain ⟨restNoted, _, sourceNoted, each, _⟩ := noted
    obtain ⟨restDefined, sourceDefined, eachDefined⟩ := defined
    rw [actionPeak, unpackPeak, Nat.max_le, Nat.max_le] at room
    have restValue : site.Reads reach (site.valueCode rest) :=
      readCode_built sees restNoted restDefined.1 restDefined.2 room.1.1 known.left.left
    have sourceValue : site.Reads reach (site.valueCode source) :=
      readCode_built sees sourceNoted sourceDefined.1 sourceDefined.2 room.1.2 known.left.right
    have listed : ∀ target position, (some target, position) ∈ positions.zipIdx.reverse →
        some target ∈ positions := fun target position member =>
      (mem_zipIdx' (mem_reverse.mp member)).2 ▸ getElem_mem _
    have fills : ∀ start, site.Builds reach jumps True 0 start (site.fillsCode positions source) 0 0
        [] := fun _ =>
      fillsCode_built sees (fun target position member => (each target (listed _ _ member)).1)
        (fun target position member => eachDefined target (listed _ _ member)) room.2
        (fun target position member => known.right.each (listed _ _ member)) sourceValue
    exact ((guardCode_built restValue sourceValue).append (fills _) rfl).append
      (restCode_built restValue sourceValue) rfl

end Sees

/-! ## Statements -/

/-- The offsets between actions that follow each other, with both ends. -/
def actionsBounds (site : Site) (start : Nat) : List Action → List Nat
  | [] => [start]
  | action :: rest =>
      start :: site.actionsBounds (start + totalSize (site.actionCode start action)) rest

mutual

/-- Where a statement at an offset starts and ends, and where the statements and actions that
it consists of do. -/
def stmtBounds (site : Site) (start : Nat) (statement : Stmt) : List Nat :=
  start :: (start + site.stmtSize statement) ::
    match statement with
    | .ifThen _ test body => stmtBounds site (start + site.testSize (some test)) body
    | .ifElse _ test body alternative =>
        stmtBounds site (start + site.testSize (some test)) body ++
          stmtBounds site
            (start + site.testSize (some test) + site.stmtSize body + 3) alternative
    | .loop _ init test update body =>
        let next := start + site.actionsSize init + site.testSize test + 3
        site.actionsBounds start init ++ site.actionsBounds next update ++
          stmtBounds site (next + site.actionsSize update + 3) body
    | .block _ body => stmtsBounds site start body
    | _ => []

/-- Where statements that follow each other start and end. -/
def stmtsBounds (site : Site) (start : Nat) (statements : List Stmt) : List Nat :=
  match statements with
  | [] => [start]
  | first :: rest =>
      stmtBounds site start first ++ stmtsBounds site (start + site.stmtSize first) rest

end

/-- Offsets at which the stack is empty. -/
def atZero (offsets : List Nat) : List (Nat × Nat) := offsets.map fun offset => (offset, 0)

theorem mem_atZero {offset : Nat} {offsets : List Nat} (member : offset ∈ offsets) :
    (offset, 0) ∈ atZero offsets :=
  mem_map_of_mem member

theorem actionsCode_built (sees : site.Sees reach.setting) {actions : List Action}
    (noted : ∀ action ∈ actions, action.IsNoted reach.setting)
    (defined : ∀ action ∈ actions, site.ActionDefined action)
    (room : site.actionsPeak actions ≤ reach.limit)
    (known : Part.All reach.known (actions.flatMap Action.parts)) :
    site.Builds reach jumps True 0 start (site.actionsCode start actions) 0 0
      (atZero (site.actionsBounds start actions)) := by
  induction actions generalizing start with
  | nil => exact Builds.nil.ends.weaken (by simp [atZero, actionsBounds])
  | cons action rest ih =>
    rw [forall_mem_cons] at noted defined
    rw [actionsPeak, Nat.max_le] at room
    exact ((actionCode_built sees noted.1 defined.1 room.1 known.left).ends.append
      (ih noted.2 defined.2 room.2 known.right) rfl).weaken (by simp [atZero, actionsBounds])

theorem bounds_built (targets : List Nat)
    (builds : site.Builds reach (fun mark => mark ∈ atZero targets ∨ jumps mark) True 0 start
      (site.stmtCode start exit next statement) 0 0 (atZero inside))
    (known : targets ⊆ start :: (start + site.stmtSize statement) :: inside) :
    site.Builds reach jumps True 0 start (site.stmtCode start exit next statement) 0 0
      (atZero (start :: (start + site.stmtSize statement) :: inside)) := by
  rw [← totalSize_stmtCode site start exit next] at known ⊢
  exact builds.close (fun _ leads => leads.imp_left (map_subset _ known ·))
    (List.Subset.refl _)

theorem ends_built
    (builds : site.Builds reach jumps True 0 start (site.stmtCode start exit next statement) 0 0
      (atZero inside)) :
    site.Builds reach jumps True 0 start (site.stmtCode start exit next statement) 0 0
      (atZero (start :: (start + site.stmtSize statement) :: inside)) := by
  rw [← totalSize_stmtCode site start exit next]
  exact builds.ends

theorem head_mem_stmtBounds (site : Site) (start : Nat) (statement : Stmt) :
    start ∈ site.stmtBounds start statement := by
  cases statement <;> exact mem_cons_self

theorem head_mem_actionsBounds (site : Site) (start : Nat) (actions : List Action) :
    start ∈ site.actionsBounds start actions := by
  cases actions <;> exact mem_cons_self

theorem last_mem_actionsBounds (site : Site) (start : Nat) (actions : List Action) :
    start + site.actionsSize actions ∈ site.actionsBounds start actions := by
  induction actions generalizing start with
  | nil => exact mem_cons_self
  | cons action rest ih =>
    have size : site.actionsSize (action :: rest) =
        totalSize (site.actionCode start action) + site.actionsSize rest := by
      rw [← totalSize_actionsCode site start, actionsCode, totalSize_append, totalSize_actionsCode]
    rw [size, ← Nat.add_assoc]
    exact mem_cons_of_mem _ (ih _)

mutual

/-- A statement finds and leaves an empty stack.  It jumps within itself, and out of it only
where it stands in a loop. -/
theorem stmtCode_built (sees : site.Sees reach.setting) {jumps : Nat × Nat → Prop}
    {statement : Stmt} {start exit next : Nat} {inLoop : Bool}
    (noted : statement.IsNoted reach.setting inLoop) (defined : site.StmtDefined statement)
    (room : site.stmtPeak statement ≤ reach.limit)
    (known : Part.All reach.known statement.parts)
    (leaves : inLoop → jumps (exit, 0) ∧ jumps (next, 0)) :
    site.Builds reach jumps True 0 start (site.stmtCode start exit next statement) 0 0
      (atZero (site.stmtBounds start statement)) := by
  match statement with
  | .action step => exact ends_built (actionCode_built sees noted defined room known)
  | .ifThen span test body =>
    rw [stmtPeak, Nat.max_le] at room
    obtain ⟨bodyStart, isBody⟩ : ∃ offset, offset = start + site.testSize (some test) := ⟨_, rfl⟩
    obtain ⟨beyond, isBeyond⟩ : ∃ offset, offset = bodyStart + site.stmtSize body := ⟨_, rfl⟩
    let inner : Nat × Nat → Prop := fun mark => mark ∈ atZero [bodyStart, beyond] ∨ jumps mark
    have leads : ∀ offset ∈ [bodyStart, beyond], inner (offset, 0) :=
      fun offset member => .inl (mem_atZero member)
    have tests : site.Builds reach inner True 0 start _ 0 0 [] := conditionCode_built sees noted.1
      defined.1 room.1 known.left (leads bodyStart (by simp)) (leads beyond (by simp))
    have runs : site.Builds reach inner True 0 bodyStart _ 0 0 _ := stmtCode_built sees noted.2
      defined.2 room.2 known.right fun isLoop => ⟨.inr (leaves isLoop).1, .inr (leaves isLoop).2⟩
    have whole := tests.append runs (by rw [totalSize_conditionCode, isBody])
    rw [← site.stmtCode_ifThen start exit next span test body isBody isBeyond] at whole
    rw [stmtBounds, ← isBody]
    refine bounds_built [bodyStart, beyond] whole ?_
    rw [stmtSize_ifThen, ← Nat.add_assoc, ← isBody, ← isBeyond]
    have head := head_mem_stmtBounds site bodyStart body
    simp [head]
  | .ifElse span test body alternative =>
    rw [stmtPeak, Nat.max_le, Nat.max_le] at room
    obtain ⟨bodyStart, isBody⟩ : ∃ offset, offset = start + site.testSize (some test) := ⟨_, rfl⟩
    obtain ⟨otherStart, isOther⟩ :
      ∃ offset, offset = bodyStart + site.stmtSize body + 3 := ⟨_, rfl⟩
    obtain ⟨beyond, isBeyond⟩ :
      ∃ offset, offset = otherStart + site.stmtSize alternative := ⟨_, rfl⟩
    let inner : Nat × Nat → Prop := fun mark =>
      mark ∈ atZero [bodyStart, otherStart, beyond] ∨ jumps mark
    have leads : ∀ offset ∈ [bodyStart, otherStart, beyond], inner (offset, 0) :=
      fun offset member => .inl (mem_atZero member)
    have leaves : inLoop → inner (exit, 0) ∧ inner (next, 0) :=
      fun isLoop => ⟨.inr (leaves isLoop).1, .inr (leaves isLoop).2⟩
    have tests : site.Builds reach inner True 0 start _ 0 0 [] := conditionCode_built sees noted.1
      defined.1 room.1.1 known.left.left (leads bodyStart (by simp)) (leads otherStart (by simp))
    have runs : site.Builds reach inner True 0 bodyStart _ 0 0 _ :=
      stmtCode_built sees noted.2.1 defined.2.1 room.1.2 known.left.right leaves
    have skips : ∀ start, site.Builds reach inner True 0 start [.jump .jmp beyond] 0 0 [] :=
      fun _ => .leap (leads beyond (by simp))
    have others : site.Builds reach inner True 0 otherStart _ 0 0 _ :=
      stmtCode_built sees noted.2.2 defined.2.2 room.2 known.right leaves
    have whole : site.Builds reach inner True 0 start
        (site.stmtCode start exit next (.ifElse span test body alternative)) 0 0
        (atZero (site.stmtBounds bodyStart body ++ site.stmtBounds otherStart alternative)) := by
      rw [site.stmtCode_ifElse start exit next span test body alternative isBody isOther isBeyond]
      exact (tests.append (runs.append ((skips _).append others
        (by rw [totalSize_stmtCode, isOther]; rfl)) rfl)
        (by rw [totalSize_conditionCode, isBody])).weaken (by simp [atZero])
    rw [stmtBounds, ← isBody, ← isOther]
    refine bounds_built [bodyStart, otherStart, beyond] whole ?_
    have size : start + site.stmtSize (.ifElse span test body alternative) = beyond := by
      rw [stmtSize_ifElse]
      omega
    have bodyHead := head_mem_stmtBounds site bodyStart body
    have otherHead := head_mem_stmtBounds site otherStart alternative
    rw [size]
    simp [bodyHead, otherHead]
  | .loop span init test update body =>
    rw [stmtPeak, Nat.max_le, Nat.max_le, Nat.max_le] at room
    obtain ⟨testStart, isTest⟩ : ∃ offset, offset = start + site.actionsSize init := ⟨_, rfl⟩
    obtain ⟨nextStart, isNext⟩ :
      ∃ offset, offset = testStart + site.testSize test + 3 := ⟨_, rfl⟩
    obtain ⟨bodyStart, isBody⟩ :
      ∃ offset, offset = nextStart + site.actionsSize update + 3 := ⟨_, rfl⟩
    obtain ⟨beyond, isBeyond⟩ : ∃ offset, offset = bodyStart + site.stmtSize body + 3 := ⟨_, rfl⟩
    let inner : Nat × Nat → Prop := fun mark =>
      mark ∈ atZero [testStart, nextStart, bodyStart, beyond] ∨ jumps mark
    have leads : ∀ offset ∈ [testStart, nextStart, bodyStart, beyond], inner (offset, 0) :=
      fun offset member => .inl (mem_atZero member)
    have starts : site.Builds reach inner True 0 start _ 0 0 _ :=
      actionsCode_built sees noted.1 defined.1 room.1.1.1 known.left.left.left
    have tests : site.Builds reach inner True 0 testStart _ 0 0 [] :=
      testCode_built sees noted.2.1 defined.2.1 room.1.1.2 known.left.left.right
        (leads bodyStart (by simp)) (leads beyond (by simp))
    have updates : site.Builds reach inner True 0 nextStart _ 0 0 _ :=
      actionsCode_built sees noted.2.2.1 defined.2.2.1 room.1.2 known.left.right
    have runs : site.Builds reach inner True 0 bodyStart
        (site.stmtCode bodyStart beyond nextStart body) 0 0 _ :=
      stmtCode_built sees noted.2.2.2 defined.2.2.2 room.2 known.right
        fun _ => ⟨leads beyond (by simp), leads nextStart (by simp)⟩
    have skips : ∀ target ∈ [testStart, nextStart, bodyStart, beyond], ∀ start,
        site.Builds reach inner True 0 start [.jump .jmp target] 0 0 [] :=
      fun target member _ => .leap (leads target member)
    have enters := skips bodyStart (by simp)
    have repeats := skips testStart (by simp)
    have continues := skips nextStart (by simp)
    have whole : site.Builds reach inner True 0 start
        (site.stmtCode start exit next (.loop span init test update body)) 0 0
        (atZero (site.actionsBounds start init ++ site.actionsBounds nextStart update ++
          site.stmtBounds bodyStart body)) := by
      rw [site.stmtCode_loop start exit next span init test update body isTest isNext isBody
        isBeyond]
      exact (starts.append (tests.append ((enters _).append (updates.append
        ((repeats _).append (runs.append (continues _) rfl)
          (by rw [totalSize_actionsCode, isBody]; rfl)) rfl)
        (by rw [totalSize_testCode, isNext]; rfl)) rfl)
        (by rw [totalSize_actionsCode, isTest])).weaken (by simp [atZero])
    simp only [stmtBounds, ← isTest, ← isNext, ← isBody]
    refine bounds_built [testStart, nextStart, bodyStart, beyond] whole ?_
    have size : start + site.stmtSize (.loop span init test update body) = beyond := by
      rw [stmtSize_loop]
      omega
    have last := last_mem_actionsBounds site start init
    have updateHead := head_mem_actionsBounds site nextStart update
    have bodyHead := head_mem_stmtBounds site bodyStart body
    rw [← isTest] at last
    rw [size]
    simp [last, updateHead, bodyHead]
  | .breakLoop _ => exact ends_built (.leap (leaves noted).1)
  | .continueLoop _ => exact ends_built (.leap (leaves noted).2)
  | .ret _ none =>
    refine ends_built (.leave ?_)
    rw [if_pos]
    by_contra typed
    exact absurd (noted.2.mpr typed) nofun
  | .ret _ (some value) =>
    have isResult : 1 = if reach.setting.result = .none then 0 else 1 := by
      rw [if_neg (noted.2.mp rfl)]
    exact ends_built ((exprCode_built sees (noted.1 value rfl) (defined value rfl) room
      known).append (.leave isResult) rfl)
  | .read _ target =>
    refine ends_built (targetCode_built sees noted.1 defined room known (.read _) fun _ _ =>
      .straight 0 1 rfl ?_)
    split <;> rfl
  | .print _ value width =>
    refine ends_built ((exprCode_built sees noted defined.2 room known).append
      (.straight 1 0 rfl ?_) rfl)
    rw [printCode]
    split <;> split <;> rfl
  | .block span body =>
    have whole : site.Builds reach jumps True 0 start
        (site.stmtCode start exit next (.block span body)) 0 0
        (atZero (site.stmtsBounds start body)) :=
      stmtsCode_built sees noted defined room known leaves
    exact ends_built whole

theorem stmtsCode_built (sees : site.Sees reach.setting) {jumps : Nat × Nat → Prop}
    {statements : List Stmt} {start exit next : Nat} {inLoop : Bool}
    (noted : Stmt.AreNoted reach.setting inLoop statements)
    (defined : site.StmtsDefined statements) (room : site.stmtsPeak statements ≤ reach.limit)
    (known : Part.All reach.known (Stmt.partsOf statements))
    (leaves : inLoop → jumps (exit, 0) ∧ jumps (next, 0)) :
    site.Builds reach jumps True 0 start (site.stmtsCode start exit next statements) 0 0
      (atZero (site.stmtsBounds start statements)) := by
  match statements with
  | [] => exact Builds.nil.ends.weaken (by simp [atZero, stmtsBounds])
  | first :: rest =>
    rw [stmtsPeak, Nat.max_le] at room
    rw [stmtsCode_cons, stmtsBounds, atZero, map_append]
    exact (stmtCode_built sees noted.1 defined.1 room.1 known.left leaves).append
      (stmtsCode_built sees noted.2 defined.2 room.2 known.right leaves)
      (by rw [totalSize_stmtCode])

end

end Site
end MicroJava
