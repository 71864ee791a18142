import MicroJava.Proofs.Layout.Emission

/-!
# The code of designators and expressions

A run of the generator on a designator or an expression that succeeds emits its direct code.
-/

namespace MicroJava

open List

variable {notes : Annotations} {instr : Instruction} {code more : List Instruction}
    {parked peak : Nat} {node : Node} {site : Site} {α : Type}

namespace Gen

open Run

variable {before after : Generator} {id : SymbolId}

/-! ## Single steps -/

theorem emit_ok {act : Emit α} {result : α} (ran : emit act before = .ok result after) :
    ∃ emitter, act before.emitter = .ok result emitter ∧
      after = { before with emitter := emitter } := by
  unfold emit at ran
  cases run : act before.emitter with
  | ok value emitter =>
    simp only [run, EStateM.Result.ok.injEq] at ran
    obtain ⟨rfl, rfl⟩ := ran
    exact ⟨emitter, rfl, rfl⟩
  | error fault emitter => simp [run] at ran

theorem emit_emits {act : Emit Unit} (writes : ∀ emitter, act before.emitter = .ok () emitter →
      before.emitter.Writes emitter instr) (ran : emit act before = .ok () after) :
    before.Emits after [instr] 0 := by
  obtain ⟨emitter, acted, rfl⟩ := emit_ok ran
  exact .of_writes (writes emitter acted)

theorem offset_ok {start : Nat} (ran : offset before = .ok start after) :
    start = before.size ∧ before = after := by
  obtain ⟨emitter, acted, rfl⟩ := emit_ok ran
  obtain ⟨rfl, rfl⟩ := Emit.offset_ok acted
  exact ⟨rfl, rfl⟩

theorem symbol_ok {found : Symbol} (ran : symbol id before = .ok found after) :
    found = before.table.symbol id ∧ before = after := by
  cases ran
  exact ⟨rfl, rfl⟩

theorem get_ok {found : Generator} (ran : (get : Gen Generator) before = .ok found after) :
    before = found ∧ before = after := by
  cases ran
  exact ⟨rfl, rfl⟩

theorem symbolAt_ok (ran : symbolAt notes node before = .ok id after) :
    id = (before.site notes).symbolAt node ∧ before = after := by
  simp only [symbolAt, Annotations.symbol] at ran
  cases found : notes.symbol? node.id with
  | none =>
    simp only [found] at ran
    cases ran
  | some other =>
    simp only [found] at ran
    obtain ⟨rfl, rfl⟩ := pure_ok ran
    exact ⟨by simp [Site.symbolAt, Generator.site, found], rfl⟩

theorem typeAt_ok {type : TypeId} (ran : typeAt notes node before = .ok type after) :
    type = (before.site notes).typeAt node ∧ before = after := by
  simp only [typeAt, Annotations.type] at ran
  cases found : notes.type? node.id with
  | none =>
    simp only [found] at ran
    cases ran
  | some other =>
    simp only [found] at ran
    obtain ⟨rfl, rfl⟩ := pure_ok ran
    exact ⟨by simp [Site.typeAt, Generator.site, found], rfl⟩

theorem codeAddress_ok {address : Nat} (ran : codeAddress id before = .ok address after) :
    0 ≤ (before.table.symbol id).address ∧
      address = (before.table.symbol id).address.toNat ∧ before = after := by
  obtain ⟨method, _, read, ran⟩ := bind_ok ran
  obtain ⟨rfl, rfl⟩ := symbol_ok read
  split at ran
  next => cases ran
  next placed =>
    obtain ⟨rfl, rfl⟩ := pure_ok ran
    exact ⟨by omega, rfl, rfl⟩

end Gen

/-! ## Straight steps -/

namespace Site

variable {β : Type} {higher : Nat} {act : Gen α} {next : α → Gen β} {value : α} {last : β}

/-- At a site, with so many receivers parked, a step of the generator that succeeds has one
result and emits one sequence of instructions. -/
def Emits (site : Site) (parked : Nat) (act : Gen α) (result : α) (code : List Instruction)
    (peak : Nat) : Prop :=
  ∀ before after found, before.site site.notes = site → before.parked = parked →
    act before = .ok found after → found = result ∧ before.Emits after code peak

namespace Emits

theorem bind (first : site.Emits parked act value code peak)
    (second : site.Emits parked (next value) last more higher) :
    site.Emits parked (act >>= next) last (code ++ more) (max peak higher) := by
  intro before after found here isParked ran
  obtain ⟨_, between, firstRan, nextRan⟩ := Run.bind_ok ran
  obtain ⟨rfl, emitted⟩ := first before between _ here isParked firstRan
  obtain ⟨rfl, later⟩ := second between after _ ((emitted.site _).trans here)
    (emitted.parked.trans isParked) nextRan
  exact ⟨rfl, emitted.trans later⟩

theorem andThen {next : Gen β} (first : site.Emits parked act value code peak)
    (second : site.Emits parked next last more higher) :
    site.Emits parked (act >>= fun _ => next) last (code ++ more) (max peak higher) :=
  first.bind second

theorem after (first : site.Emits parked act value code 0)
    (second : site.Emits parked (next value) last more higher) :
    site.Emits parked (act >>= next) last (code ++ more) higher :=
  Nat.zero_max higher ▸ first.bind second

theorem read (first : site.Emits parked act value [] 0)
    (second : site.Emits parked (next value) last more higher) :
    site.Emits parked (act >>= next) last more higher :=
  first.after second

theorem before (first : site.Emits parked act value code peak)
    (second : site.Emits parked (next value) last more 0) :
    site.Emits parked (act >>= next) last (code ++ more) peak :=
  Nat.max_zero peak ▸ first.bind second

theorem result (value : α) : site.Emits parked (pure value) value [] 0 := by
  intro before after found _ _ ran
  obtain ⟨rfl, rfl⟩ := Run.pure_ok ran
  exact ⟨rfl, .refl _⟩

theorem giving (emits : site.Emits parked act value code peak) (last : β) :
    site.Emits parked (act >>= fun _ => pure last) last code peak := by
  have all : site.Emits parked (act >>= fun _ => pure last) last (code ++ []) peak :=
    emits.before (result last)
  rwa [append_nil] at all

theorem fault {fault : Fault} : site.Emits parked (throw fault) value code peak := by
  intro _ _ _ _ _ ran
  cases ran

theorem of_read (reads : ∀ before after found, before.site site.notes = site →
      act before = .ok found after → found = value ∧ before = after) :
    site.Emits parked act value [] 0 := by
  intro before after found here _ ran
  obtain ⟨rfl, rfl⟩ := reads before after found here ran
  exact ⟨rfl, .refl _⟩

theorem of_get {next : Generator → Gen β}
    (each : ∀ generator : Generator, generator.site site.notes = site →
      site.Emits parked (next generator) last code peak) :
    site.Emits parked (get >>= next) last code peak :=
  fun before after found here isParked ran => each before here before after found here isParked ran

theorem forM {act : α → Gen Unit} {code : α → List Instruction}
    (each : ∀ item, site.Emits parked (act item) () (code item) 0) (items : List α) :
    site.Emits parked (items.forM act) () (items.flatMap code) 0 := by
  induction items with
  | nil => exact .result ()
  | cons item rest ih => exact (each item).after ih

theorem of_writes {act : Emit Unit}
    (writes : ∀ {before after : Emitter}, act before = .ok () after →
      before.Writes after instr) :
    site.Emits parked (Gen.emit act) () [instr] 0 :=
  fun _ _ _ _ _ ran => ⟨rfl, Gen.emit_emits (fun _ acted => writes acted) ran⟩

theorem run {before after : Generator} (emits : site.Emits parked act value code peak)
    (here : before.site notes = site) (isParked : before.parked = parked)
    (ran : act before = .ok value after) :
    before.Emits after code peak := by
  subst here
  exact (emits before after value rfl isParked ran).2

end Emits
end Site

namespace Gen

open Run
open Site (Emits)

theorem emits_op {op : Opcode} (isPlain : op.isPlain) :
    site.Emits parked (Gen.op op) () [.plain op] 0 :=
  .of_writes (Emit.op_writes isPlain)

theorem emits_const (value : Int) :
    site.Emits parked (const value) () [.const (Int32.ofInt value)] 0 :=
  .of_writes Emit.const_writes

theorem emits_loadReceiver : site.Emits parked (emit (Emit.loadLocal 0)) () [.load 0] 0 :=
  .of_writes fun ran => (Emit.loadLocal_writes ran).2

theorem emits_symbolAt (node : Node) :
    site.Emits parked (symbolAt site.notes node) (site.symbolAt node) [] 0 :=
  .of_read fun _ _ _ here ran => here ▸ symbolAt_ok ran

theorem emits_typeAt (node : Node) :
    site.Emits parked (typeAt site.notes node) (site.typeAt node) [] 0 :=
  .of_read fun _ _ _ here ran => here ▸ typeAt_ok ran

theorem emits_symbol (id : SymbolId) :
    site.Emits parked (symbol id) (site.table.symbol id) [] 0 :=
  .of_read fun _ _ _ here ran => here ▸ symbol_ok ran

theorem emits_codeAddress (id : SymbolId) :
    site.Emits parked (codeAddress id) (site.table.symbol id).address.toNat [] 0 :=
  .of_read fun _ _ _ here ran => here ▸ (codeAddress_ok ran).2

theorem emits_namesType (designator : Designator) :
    site.Emits parked (namesType site.notes designator)
      ((site.table.symbol (site.symbolAt designator.node)).kind = .type) [] 0 :=
  (emits_symbolAt _).read ((emits_symbol _).read (.result _))

/-! ## Loading and storing -/

theorem isPlain_loadElement (type : TypeId) : (loadElement type).isPlain := by
  unfold loadElement
  split <;> rfl

theorem isPlain_storeElement (type : TypeId) : (storeElement type).isPlain := by
  unfold storeElement
  split <;> rfl

theorem isPlain_ofArith (operator : ArithOp) : (Opcode.ofArith operator).isPlain := by
  cases operator <;> rfl

theorem emits_load (id : SymbolId) : site.Emits parked (load id) () (site.loadCode id) 0 := by
  refine (emits_symbol id).read ?_
  dsimp only [Site.loadCode]
  cases (site.table.symbol id).kind
  case const => exact emits_const _
  case var =>
    dsimp only
    split
    · exact .of_writes fun ran => (Emit.getStatic_writes ran).2
    · exact .of_writes fun ran => (Emit.loadLocal_writes ran).2
  case field => exact .of_writes fun ran => (Emit.getField_writes ran).2
  case element => exact emits_op (isPlain_loadElement _)
  all_goals exact .fault

theorem emits_store (id : SymbolId) : site.Emits parked (store id) () (site.storeCode id) 0 := by
  refine (emits_symbol id).read ?_
  dsimp only [Site.storeCode]
  cases (site.table.symbol id).kind
  case var =>
    dsimp only
    split
    · exact .of_writes fun ran => (Emit.putStatic_writes ran).2
    · exact .of_writes fun ran => (Emit.storeLocal_writes ran).2
  case field => exact .of_writes fun ran => (Emit.putField_writes ran).2
  case element => exact emits_op (isPlain_storeElement _)
  all_goals exact .fault

theorem emits_new (size : Nat) :
    site.Emits parked (emit (Emit.newObject size)) () [.new size] 0 :=
  .of_writes Emit.newObject_writes

theorem emits_newObject (type : TypeId) :
    site.Emits parked (newObject type) () (site.newObjectCode type) 0 := by
  refine .of_get fun generator here => ?_
  have table : generator.table = site.table := congrArg Site.table here
  simp only [Site.newObjectCode, table]
  cases (site.table.desc type).dispatch with
  | none => exact .fault
  | some slot =>
    refine (emits_new _).after ((emits_op rfl).after ((emits_const slot).after ?_))
    exact .of_writes fun ran => (Emit.putField_writes ran).2

/-! ## Parked receivers -/

theorem emits_parked {value : α} (push : Nat → Gen Unit) (next : Gen α)
    (inside : site.Emits (parked + 1) (push (site.frameBase + parked)) () code peak)
    (further : site.Emits parked next value more 0) :
    site.Emits parked (do let slot ← park; push slot; unpark; next) value (code ++ more)
      (max (parked + 1) peak) := by
  intro before after found here isParked ran
  subst isParked
  obtain ⟨slot, held, parkRan, ran⟩ := bind_ok ran
  obtain ⟨_, pushed, pushRan, ran⟩ := bind_ok ran
  obtain ⟨_, back, unparkRan, nextRan⟩ := bind_ok ran
  cases parkRan
  cases unparkRan
  have base : before.frameBase = site.frameBase := congrArg Site.frameBase here
  rw [← base] at inside
  have emits := (inside _ pushed _ (by exact here) rfl pushRan).2
  have taken : before.Emits { pushed with parked := pushed.parked - 1 } code
      (max (before.parked + 1) peak) :=
    { lays :=
        { emits.lays with
          parked := by simp [emits.parked]
          parkedMost := by simp [emits.lays.parkedMost, Nat.max_assoc] }
      fixups := emits.fixups }
  obtain ⟨rfl, later⟩ := further _ after _ ((taken.site _).trans here) taken.parked nextRan
  have all := taken.trans later
  rw [Nat.max_zero] at all
  exact ⟨rfl, all⟩

/-! ## Designators, expressions and calls -/

mutual

theorem emits_access (site : Site) (parked : Nat) (designator : Designator) :
    site.Emits parked (access site.notes designator) (site.symbolAt designator.node)
      (site.accessCode parked designator) (site.accessPeak parked designator) := by
  unfold access Site.accessCode Site.accessPeak
  refine (emits_symbolAt _).read ?_
  match designator with
  | .name _ _ =>
    refine (emits_symbol _).read ?_
    dsimp only [Designator.node]
    split
    · exact emits_loadReceiver.giving _
    · exact .result _
  | .qualified _ _ _ => exact .result _
  | .element _ base index =>
    dsimp only
    rw [append_assoc]
    exact (emits_access site parked base).bind
      ((emits_load _).after ((emits_expr site parked index).giving _))
  | .member _ base _ =>
    refine (emits_namesType base).read ?_
    simp only [decide_eq_true_eq]
    split
    · exact .result _
    · exact (emits_access site parked base).before ((emits_load _).giving _)

theorem emits_expr (site : Site) (parked : Nat) (expression : Expr) :
    site.Emits parked (expr site.notes expression) () (site.exprCode parked expression)
      (site.exprPeak parked expression) := by
  unfold expr Site.exprCode Site.exprPeak
  match expression with
  | .literal _ value => exact .of_writes Emit.const_writes
  | .load _ source => exact (emits_access site parked source).before (emits_load _)
  | .call _ target => exact (emits_call site parked target).giving ()
  | .newArray node _ length =>
    refine (emits_typeAt node).read ((emits_expr site parked length).before ?_)
    refine .of_get fun generator here => ?_
    have table : generator.table = site.table := congrArg Site.table here
    rw [table]
    exact .of_writes Emit.newArray_writes
  | .newObject node _ => exact (emits_typeAt node).read (emits_newObject _)
  | .neg _ operand => exact (emits_expr site parked operand).before (emits_op rfl)
  | .arith _ operator left right =>
    dsimp only
    rw [append_assoc]
    exact (emits_expr site parked left).bind
      ((emits_expr site parked right).before (emits_op (isPlain_ofArith operator)))

theorem emits_exprs (site : Site) (parked : Nat) (expressions : List Expr) :
    site.Emits parked (exprs site.notes expressions) () (site.exprsCode parked expressions)
      (site.exprsPeak parked expressions) := by
  unfold exprs Site.exprsCode Site.exprsPeak
  match expressions with
  | [] => exact .result _
  | first :: rest => exact (emits_expr site parked first).bind (emits_exprs site parked rest)

theorem emits_call (site : Site) (parked : Nat) (target : Call) :
    site.Emits parked (call site.notes target)
      (site.table.symbol (site.symbolAt target.callee.node)).type
      (site.callCode parked target) (site.callPeak parked target) := by
  match target with
  | .mk node callee arguments =>
    rw [call, Site.callCode, Site.callPeak]
    refine (emits_symbolAt _).read ((emits_symbol _).read ?_)
    split
    next isVirtual =>
      rw [append_assoc, append_assoc]
      refine (emits_receiver site parked callee).bind ?_
      have all := emits_parked (fun slot => do
          op .dup; emit (Emit.storeLocal slot); exprs site.notes arguments
          emit (Emit.loadLocal slot))
        (do
          emit (Emit.getField 0)
          emit (Emit.invokeVirtual (site.table.symbol (site.symbolAt callee.node)).name)
          return (site.table.symbol (site.symbolAt callee.node)).type)
        ((emits_op rfl).after ((Emits.of_writes fun ran => (Emit.storeLocal_writes ran).2).after
          ((emits_exprs site (parked + 1) arguments).before
            (.of_writes fun ran => (Emit.loadLocal_writes ran).2))))
        ((Emits.of_writes fun ran => (Emit.getField_writes ran).2).after
          ((Emits.of_writes Emit.invokeVirtual_writes).giving _))
      simp only [bind_assoc, append_assoc, cons_append, nil_append,
        Int.toNat_natCast] at all
      exact all
    next isDirect =>
      refine (emits_exprs site parked arguments).before ?_
      exact (emits_codeAddress _).read
        ((Emits.of_writes Emit.call_writes).giving _)

theorem emits_receiver (site : Site) (parked : Nat) (callee : Designator) :
    site.Emits parked (receiver site.notes callee) () (site.receiverCode parked callee)
      (site.receiverPeak parked callee) := by
  unfold receiver Site.receiverCode Site.receiverPeak
  match callee with
  | .member _ base _ => exact (emits_access site parked base).before (emits_load _)
  | .name _ _ => exact emits_loadReceiver
  | .qualified _ _ _ | .element _ _ _ => exact .fault

end

theorem emits_value (site : Site) (designator : Designator) :
    site.Emits 0 (value site.notes designator) () (site.valueCode designator)
      (site.accessPeak 0 designator) :=
  (emits_access site 0 designator).before (emits_load _)

end Gen
end MicroJava
