import MicroJava.Proofs.Layout.Stack
import MicroJava.Proofs.Semantics.Correctness

/-!
# Where statements stand

The code of a body splits into the code of its statements, one behind the other, and the code
of a statement into that of its parts and the jumps between them.
-/

namespace MicroJava

open Instruction Site

/-- What is said about actions and conditions, at the offsets where their code starts and ends. -/
structure Reading where
  action : (start stop : Nat) → Action → Prop
  test : (start stop body other : Nat) → Condition → Prop

/-! ## Laid out statements -/

/-- Actions stand one behind the other. -/
def Action.AreLaid (code : Code) (site : Site) (reading : Reading) :
    (start stop : Nat) → List Action → Prop
  | start, stop, [] => start = stop
  | start, stop, action :: rest =>
      ∃ middle, code.Occupies start middle (site.actionCode start action) ∧
        reading.action start middle action ∧ Action.AreLaid code site reading middle stop rest

/-- The parts of a loop stand one behind the other: condition, update and body.  The condition
leads to the body or past the loop, the body to the update and the update to the condition. -/
structure Site.LoopIsLaid (site : Site) (code : Code) (reading : Reading) (init : List Action)
    (test : Option Condition) (update : List Action) (body : (start stop : Nat) → Prop)
    (start : Nat)
    (offsets : LoopOffsets) : Prop where
  order : start ≤ offsets.test ∧ offsets.test < offsets.next ∧ offsets.next < offsets.body ∧
    offsets.body < offsets.beyond
  init : Action.AreLaid code site reading start offsets.test init
  test : ∃ stop,
    code.Occupies offsets.test stop
      (site.testCode offsets.test offsets.body offsets.beyond test) ∧
    (∀ condition, test = some condition →
      reading.test offsets.test stop offsets.body offsets.beyond condition) ∧
    code.Occupies stop offsets.next [.jump .jmp offsets.body]
  update : ∃ stop, Action.AreLaid code site reading offsets.next stop update ∧
    code.Occupies stop offsets.body [.jump .jmp offsets.test]
  body : ∃ stop, body offsets.body stop ∧
    code.Occupies stop offsets.beyond [.jump .jmp offsets.next]

mutual

/-- A statement stands between two offsets, in the body of a loop with the given offsets or in
none. -/
def Stmt.IsLaid (code : Code) (site : Site) (reading : Reading) (loop : Option LoopOffsets)
    (start stop : Nat)
    (statement : Stmt) : Prop :=
  match statement with
  | .action step =>
      code.Occupies start stop (site.actionCode start step) ∧ reading.action start stop step
  | .ifThen _ test body =>
      ∃ bodyStart, code.Occupies start bodyStart (site.conditionCode start bodyStart stop test) ∧
        reading.test start bodyStart bodyStart stop test ∧
        body.IsLaid code site reading loop bodyStart stop
  | .ifElse _ test body alternative =>
      ∃ bodyStart bodyStop otherStart,
        code.Occupies start bodyStart (site.conditionCode start bodyStart otherStart test) ∧
        reading.test start bodyStart bodyStart otherStart test ∧
        body.IsLaid code site reading loop bodyStart bodyStop ∧
        code.Occupies bodyStop otherStart [.jump .jmp stop] ∧
        alternative.IsLaid code site reading loop otherStart stop
  | .loop _ init test update body =>
      ∃ offsets, offsets.beyond = stop ∧
        site.LoopIsLaid code reading init test update
          (fun start stop => body.IsLaid code site reading (some offsets) start stop) start offsets
  | .breakLoop _ =>
      ∃ offsets, loop = some offsets ∧ code.Occupies start stop [.jump .jmp offsets.beyond]
  | .continueLoop _ =>
      ∃ offsets, loop = some offsets ∧ code.Occupies start stop [.jump .jmp offsets.next]
  | .block _ body => Stmt.AreLaid code site reading loop start stop body
  | .ret _ _ | .read _ _ | .print _ _ _ =>
      code.Occupies start stop (site.stmtCode start 0 0 statement)

/-- Statements stand one behind the other. -/
def Stmt.AreLaid (code : Code) (site : Site) (reading : Reading) (loop : Option LoopOffsets)
    (start stop : Nat)
    (statements : List Stmt) : Prop :=
  match statements with
  | [] => start = stop
  | first :: rest =>
      ∃ middle, first.IsLaid code site reading loop start middle ∧
        Stmt.AreLaid code site reading loop middle stop rest

end

/-! ## The code of statements is laid out -/

/-- A reading says what holds of the code of actions and conditions. -/
structure Reading.Suits (reading : Reading) (code : Code) (site : Site)
    (setting : Setting) : Prop where
  action : ∀ {start stop : Nat} {action : Action}, action.IsNoted setting →
    code.Occupies start stop (site.actionCode start action) → reading.action start stop action
  test : ∀ {start stop body other : Nat} {condition : Condition},
    code.Occupies start stop (site.conditionCode start body other condition) → body ≤ other →
    (stop = body ∨ stop < body ∧ code.Spells stop (.jump .jmp body)) →
      reading.test start stop body other condition

section Laid

variable {code : Code} {site : Site} {reading : Reading} {setting : Setting}

theorem Action.areLaid {start : Nat} {actions : List Action}
    (suits : reading.Suits code site setting) (noted : ∀ action ∈ actions, action.IsNoted setting)
    (holds : code.Holds start (site.actionsCode start actions)) :
    Action.AreLaid code site reading start (start + site.actionsSize actions) actions := by
  rw [← totalSize_actionsCode site start]
  induction actions generalizing start with
  | nil => exact rfl
  | cons action rest hypothesis =>
    rw [actionsCode, Code.holds_append] at holds
    have occupies : code.Occupies start _ (site.actionCode start action) := ⟨holds.1, rfl⟩
    refine ⟨_, occupies, suits.action (noted action List.mem_cons_self) occupies, ?_⟩
    rw [actionsCode, totalSize_append, ← Nat.add_assoc]
    exact hypothesis (fun other member => noted other (List.mem_cons_of_mem _ member)) holds.2

mutual

theorem Stmt.isLaid {inLoop : Bool} {exit next : Nat} {loop : Option LoopOffsets} {statement : Stmt}
    (suits : reading.Suits code site setting) (start : Nat)
    (inner : inLoop → ∃ offsets, loop = some offsets ∧ offsets.beyond = exit ∧
      offsets.next = next)
    (noted : statement.IsNoted setting inLoop)
    (holds : code.Holds start (site.stmtCode start exit next statement)) :
    statement.IsLaid code site reading loop start (start + site.stmtSize statement) := by
  match statement with
  | .action step =>
    have occupies : code.Occupies start (start + site.stmtSize (.action step))
        (site.actionCode start step) :=
      ⟨holds, by rw [← totalSize_stmtCode site start 0 0, stmtCode]⟩
    exact ⟨occupies, suits.action noted occupies⟩
  | .ifThen span test body =>
    rw [stmtCode_ifThen site start exit next span test body rfl rfl, Code.holds_append,
      totalSize_conditionCode] at holds
    rw [stmtSize_ifThen, ← Nat.add_assoc]
    have occupies : code.Occupies start (start + site.testSize (some test)) _ :=
      ⟨holds.1, by rw [totalSize_conditionCode]⟩
    exact ⟨_, occupies, suits.test occupies (Nat.le_add_right _ _) (.inl rfl),
      isLaid suits _ inner noted.2 holds.2⟩
  | .ifElse span test body alternative =>
    rw [stmtCode_ifElse site start exit next span test body alternative rfl rfl rfl,
      Code.holds_append, Code.holds_append, Code.holds_cons, totalSize_conditionCode,
      totalSize_stmtCode] at holds
    obtain ⟨holdsTest, holdsBody, leaves, holdsOther⟩ := holds
    rw [stmtSize_ifElse, ← Nat.add_assoc, ← Nat.add_assoc, ← Nat.add_assoc]
    have occupies : code.Occupies start (start + site.testSize (some test)) _ :=
      ⟨holdsTest, by rw [totalSize_conditionCode]⟩
    refine ⟨_, _, _, occupies, suits.test occupies (by omega) (.inl rfl),
      isLaid suits _ inner noted.2.1 holdsBody, ⟨⟨leaves, trivial⟩, rfl⟩,
      isLaid suits _ inner noted.2.2 holdsOther⟩
  | .loop span init test update body =>
    obtain ⟨testStart, isTest⟩ : ∃ offset, offset = start + site.actionsSize init := ⟨_, rfl⟩
    obtain ⟨nextStart, isNext⟩ : ∃ offset, offset = testStart + site.testSize test + 3 := ⟨_, rfl⟩
    obtain ⟨bodyStart, isBody⟩ : ∃ offset, offset = nextStart + site.actionsSize update + 3 :=
      ⟨_, rfl⟩
    obtain ⟨beyond, isBeyond⟩ : ∃ offset, offset = bodyStart + site.stmtSize body + 3 := ⟨_, rfl⟩
    rw [stmtCode_loop site start exit next span init test update body isTest isNext isBody isBeyond,
      Code.holds_append, Code.holds_append, Code.holds_cons, Code.holds_append, Code.holds_cons,
      Code.holds_append, totalSize_actionsCode, totalSize_testCode, totalSize_actionsCode,
      totalSize_stmtCode, size_jump, size_jump, ← isTest, ← isNext, ← isBody] at holds
    obtain ⟨holdsInit, holdsTest, enters, holdsUpdate, returns, holdsBody, continues, _⟩ := holds
    have occupies : code.Occupies testStart (testStart + site.testSize test)
        (site.testCode testStart bodyStart beyond test) :=
      ⟨holdsTest, by rw [totalSize_testCode]⟩
    have early : testStart + site.testSize test < bodyStart := by omega
    have late : bodyStart ≤ beyond := by omega
    refine ⟨⟨testStart, nextStart, bodyStart, beyond⟩, ?_, ?_⟩
    · rw [stmtSize_loop]
      dsimp only
      omega
    · exact {
        order := by dsimp only; omega
        init := isTest ▸ Action.areLaid suits noted.1 holdsInit
        test := by
          refine ⟨_, occupies, ?_, ⟨enters, trivial⟩, isNext⟩
          rintro condition rfl
          exact suits.test occupies late (.inr ⟨early, enters⟩)
        update := ⟨_, Action.areLaid suits noted.2.2.1 holdsUpdate, ⟨returns, trivial⟩, isBody⟩
        body := ⟨_, isLaid suits _ (fun _ => ⟨_, rfl, rfl, rfl⟩) noted.2.2.2 holdsBody,
          ⟨continues, trivial⟩, isBeyond⟩ }
  | .breakLoop _ | .continueLoop _ =>
    obtain ⟨offsets, isLoop, rfl, rfl⟩ := inner noted
    exact ⟨offsets, isLoop, holds, rfl⟩
  | .ret _ none => exact ⟨holds, rfl⟩
  | .ret _ (some value) => exact ⟨holds, rfl⟩
  | .read _ target => exact ⟨holds, rfl⟩
  | .print _ value width => exact ⟨holds, rfl⟩
  | .block _ body => exact areLaid suits _ inner noted holds

theorem Stmt.areLaid {inLoop : Bool} {exit next : Nat} {loop : Option LoopOffsets}
    {statements : List Stmt} (suits : reading.Suits code site setting) (start : Nat)
    (inner : inLoop → ∃ offsets, loop = some offsets ∧ offsets.beyond = exit ∧
      offsets.next = next)
    (noted : Stmt.AreNoted setting inLoop statements)
    (holds : code.Holds start (site.stmtsCode start exit next statements)) :
    Stmt.AreLaid code site reading loop start (start + site.stmtsSize statements) statements := by
  match statements with
  | [] => exact rfl
  | first :: rest =>
    rw [stmtsCode_cons, Code.holds_append, totalSize_stmtCode] at holds
    rw [stmtsSize_cons, ← Nat.add_assoc]
    exact ⟨_, isLaid suits _ inner noted.1 holds.1, areLaid suits _ inner noted.2 holds.2⟩

end

end Laid

/-! ## The code of programs is laid out -/

/-- The statements of every method and static initializer stand between the opening of the frame
and the end of the method. -/
def Image.IsLaid (image : Image) (program : Program) (analysis : Analysis)
    (reading : SymbolId → Site → Reading) : Prop :=
  ∀ part ∈ program.units, ∀ method, part.owner? analysis.notes = some method →
    ∃ site entry params size start stop,
      site.IsOf analysis method ∧
      (analysis.table.symbol method).address = ((entry : Nat) : Int) ∧
      image.code.Occupies entry start (.enter params size :: analysis.preamble method) ∧
      Stmt.AreLaid image.code site (reading method site) none start stop part.body ∧
      image.code.Holds stop (endCode (analysis.table.symbol method).type)

theorem generate_isLaid {options : Options} {program : Program} {image : Image} {result : Analysis}
    {reading : SymbolId → Site → Reading} (distinct : program.nodes.Nodup)
    (accepted : (analyze options program).errorCount = 0)
    (generated : generate options (analyze options program) program = (.ok image, result))
    (suits : ∀ region body, (analyze options program).IsSound program →
      (analyze options program).Compiles program region body →
        (reading region.owner body.site).Suits image.code body.site body.setting) :
    image.IsLaid program result reading := by
  obtain ⟨realizes, rfl, defined, sound⟩ := generate_implements distinct accepted generated
  generalize analyze options program = analysis at *
  intro part isPart method owner
  obtain ⟨region, isRegion, rfl, body, compiles, isBody⟩ :=
    sound.exists_compiles defined isPart owner
  have follows := sound.followsAll
  have holds := realizes.holds region isRegion
  obtain ⟨_, holdsBody, holdsEnd⟩ := compiles.holds_parts holds
  refine ⟨body.site, region.start, _, _, body.start,
    body.start + body.site.stmtsSize body.statements, compiles.isOf sound,
    follows.starts region isRegion, compiles.occupies sound holds, ?_, ?_⟩
  · rw [← isBody]
    exact Stmt.areLaid (suits region body sound compiles) body.start (absurd · Bool.false_ne_true)
      compiles.noted holdsBody
  · rwa [follows.places.type]

end MicroJava
