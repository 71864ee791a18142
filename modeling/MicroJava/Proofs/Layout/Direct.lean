import MicroJava.Generation.Program
import MicroJava.Proofs.Machine.Sequence

/-!
# Direct code

The functions of this module give the code of every construct as a sequence of instructions
with all targets filled in.  The generator emits jumps before it knows where they lead and
patches them later, but what it emits is exactly this code.
-/

namespace MicroJava

open List

/-- What the code of a method body depends on. -/
structure Site where
  notes : Annotations
  table : Table
  frameBase : Nat

namespace Site

open Instruction

/-- The symbol recorded for a node. -/
def symbolAt (site : Site) (node : Node) : SymbolId :=
  (site.notes.symbol? node.id).getD .absent

/-- The type recorded for a node. -/
def typeAt (site : Site) (node : Node) : TypeId :=
  (site.notes.type? node.id).getD .none

/-! ## Designators and expressions -/

/-- Read a symbol whose object or array and index are on the stack. -/
def loadCode (site : Site) (id : SymbolId) : List Instruction :=
  let symbol := site.table.symbol id
  match symbol.kind with
  | .const => [.const (Int32.ofInt symbol.address)]
  | .var =>
      if symbol.isGlobal then [.getStatic symbol.address.toNat] else [.load symbol.address.toNat]
  | .field => [.getField symbol.address.toNat]
  | .element => [.plain (Gen.loadElement symbol.type)]
  | _ => []

/-- Write a symbol whose object or array and index, and then the value, are on the stack. -/
def storeCode (site : Site) (id : SymbolId) : List Instruction :=
  let symbol := site.table.symbol id
  match symbol.kind with
  | .var =>
      if symbol.isGlobal then [.putStatic symbol.address.toNat]
      else [.store symbol.address.toNat]
  | .field => [.putField symbol.address.toNat]
  | .element => [.plain (Gen.storeElement symbol.type)]
  | _ => []

/-- Push a new object of a class. -/
def newObjectCode (site : Site) (type : TypeId) : List Instruction :=
  let desc := site.table.desc type
  match desc.dispatch with
  | none => []
  | some dispatch =>
      [.new ((desc.fieldCount + 1) * 4), .plain .dup, .const (Int32.ofInt dispatch), .putField 0]

/-- The words of a name, one for each character. -/
def nameWords (name : String) : List Int32 := name.toList.map fun c => Int32.ofNat c.toNat

mutual

/-- Push what an access to a designator needs, with so many receivers parked. -/
def accessCode (site : Site) (parked : Nat) (designator : Designator) : List Instruction :=
  match designator with
  | .name node _ =>
      if (site.table.symbol (site.symbolAt node)).kind = .field then [.load 0] else []
  | .qualified _ _ _ => []
  | .element _ base index =>
      accessCode site parked base ++ site.loadCode (site.symbolAt base.node) ++
        exprCode site parked index
  | .member _ base _ =>
      if (site.table.symbol (site.symbolAt base.node)).kind = .type then []
      else accessCode site parked base ++ site.loadCode (site.symbolAt base.node)

/-- Push the value of an expression. -/
def exprCode (site : Site) (parked : Nat) (expression : Expr) : List Instruction :=
  match expression with
  | .literal _ value => [.const value.word]
  | .load _ source => accessCode site parked source ++ site.loadCode (site.symbolAt source.node)
  | .call _ target => callCode site parked target
  | .newArray node _ length =>
      exprCode site parked length ++
        [.newArray (if site.table.element (site.typeAt node) != .char then 1 else 0)]
  | .newObject node _ => site.newObjectCode (site.typeAt node)
  | .neg _ operand => exprCode site parked operand ++ [.plain .neg]
  | .arith _ operator left right =>
      exprCode site parked left ++ exprCode site parked right ++
        [.plain (Opcode.ofArith operator)]

/-- Push the values of expressions, from left to right. -/
def exprsCode (site : Site) (parked : Nat) (expressions : List Expr) : List Instruction :=
  match expressions with
  | [] => []
  | first :: rest => exprCode site parked first ++ exprsCode site parked rest

/-- Call a method. -/
def callCode (site : Site) (parked : Nat) (target : Call) : List Instruction :=
  match target with
  | .mk _ callee arguments =>
      let method := site.table.symbol (site.symbolAt callee.node)
      if method.isVirtual then
        receiverCode site parked callee ++
          [.plain .dup, .store (site.frameBase + parked)] ++
          exprsCode site (parked + 1) arguments ++
          [.load (site.frameBase + parked), .getField 0, .invokeVirtual (nameWords method.name)]
      else
        exprsCode site parked arguments ++ [.call method.address.toNat]

/-- Push the object that an instance method is called on. -/
def receiverCode (site : Site) (parked : Nat) (callee : Designator) : List Instruction :=
  match callee with
  | .member _ base _ => accessCode site parked base ++ site.loadCode (site.symbolAt base.node)
  | .name _ _ => [.load 0]
  | _ => []

end

/-- Push the value of a designator. -/
def valueCode (site : Site) (designator : Designator) : List Instruction :=
  site.accessCode 0 designator ++ site.loadCode (site.symbolAt designator.node)

mutual

/-- The most receivers that are parked at once by the access to a designator. -/
def accessPeak (site : Site) (parked : Nat) (designator : Designator) : Nat :=
  match designator with
  | .name _ _ => 0
  | .qualified _ _ _ => 0
  | .element _ base index => max (accessPeak site parked base) (exprPeak site parked index)
  | .member _ base _ =>
      if (site.table.symbol (site.symbolAt base.node)).kind = .type then 0
      else accessPeak site parked base

/-- The most receivers that are parked at once by an expression. -/
def exprPeak (site : Site) (parked : Nat) (expression : Expr) : Nat :=
  match expression with
  | .literal _ _ => 0
  | .load _ source => accessPeak site parked source
  | .call _ target => callPeak site parked target
  | .newArray _ _ length => exprPeak site parked length
  | .newObject _ _ => 0
  | .neg _ operand => exprPeak site parked operand
  | .arith _ _ left right => max (exprPeak site parked left) (exprPeak site parked right)

/-- The most receivers that are parked at once by expressions. -/
def exprsPeak (site : Site) (parked : Nat) (expressions : List Expr) : Nat :=
  match expressions with
  | [] => 0
  | first :: rest => max (exprPeak site parked first) (exprsPeak site parked rest)

/-- The most receivers that are parked at once by a call. -/
def callPeak (site : Site) (parked : Nat) (target : Call) : Nat :=
  match target with
  | .mk _ callee arguments =>
      if (site.table.symbol (site.symbolAt callee.node)).isVirtual then
        max (receiverPeak site parked callee)
          (max (parked + 1) (exprsPeak site (parked + 1) arguments))
      else
        exprsPeak site parked arguments

/-- The most receivers that are parked at once by the receiver of a call. -/
def receiverPeak (site : Site) (parked : Nat) (callee : Designator) : Nat :=
  match callee with
  | .member _ base _ => accessPeak site parked base
  | _ => 0

end

/-! ## Conditions -/

/-- Jump to a target if a fact does not hold. -/
def factCode (site : Site) (target : Nat) (fact : Fact) : List Instruction :=
  match fact with
  | .truth value => site.exprCode 0 value ++ [.const 0, .jump .jeq target]
  | .relation _ left op right =>
      site.exprCode 0 left ++ site.exprCode 0 right ++
        [.jump (Opcode.jumpIf op.inverse) target]

/-- Jump to a target if a term does not hold. -/
def termCode (site : Site) (target : Nat) (term : Term) : List Instruction :=
  term.flatMap (site.factCode target)

/-- The number of bytes of a term. -/
def termSize (site : Site) (term : Term) : Nat := totalSize (site.termCode 0 term)

/-- Go on to the body if some term holds and to `other` if none does; after the last term,
the body follows or is jumped to. -/
def conditionCode (site : Site) (start body other : Nat) : Condition → List Instruction
  | [] => []
  | [term] => site.termCode other term
  | term :: next :: rest =>
      let further := start + site.termSize term + 3
      site.termCode further term ++ .jump .jmp body ::
        site.conditionCode further body other (next :: rest)

/-- The code of a condition that may be left out. -/
def testCode (site : Site) (start body other : Nat) (test : Option Condition) :
    List Instruction :=
  match test with
  | none => []
  | some condition => site.conditionCode start body other condition

/-- The number of bytes of a condition that may be left out. -/
def testSize (site : Site) (test : Option Condition) : Nat :=
  totalSize (site.testCode 0 0 0 test)

/-- The most receivers that are parked at once by a fact. -/
def factPeak (site : Site) (fact : Fact) : Nat :=
  match fact with
  | .truth value => site.exprPeak 0 value
  | .relation _ left _ right => max (site.exprPeak 0 left) (site.exprPeak 0 right)

/-- The most receivers that are parked at once by a term. -/
def termPeak (site : Site) : Term → Nat
  | [] => 0
  | fact :: rest => max (site.factPeak fact) (site.termPeak rest)

/-- The most receivers that are parked at once by a condition. -/
def conditionPeak (site : Site) : Condition → Nat
  | [] => 0
  | term :: rest => max (site.termPeak term) (site.conditionPeak rest)

/-- The most receivers that are parked at once by a condition that may be left out. -/
def testPeak (site : Site) (test : Option Condition) : Nat :=
  match test with
  | none => 0
  | some condition => site.conditionPeak condition

/-! ## Actions -/

/-- Keep what an access needs for a second access. -/
def keepCode (kind : SymbolKind) : List Instruction :=
  match kind with
  | .field => [.plain .dup]
  | .element => [.plain .dup2]
  | _ => []

/-- Add or subtract one. -/
def stepCode (site : Site) (target : Designator) (up : Bool) : List Instruction :=
  let id := site.symbolAt target.node
  let symbol := site.table.symbol id
  site.accessCode 0 target ++
    (if symbol.kind = .var && !symbol.isGlobal then
      [.inc symbol.address.toNat (if up then 1 else -1)]
    else
      keepCode symbol.kind ++ site.loadCode id ++
        [.const 1, .plain (if up then .add else .sub)] ++ site.storeCode id)

/-- The element type of an array designator. -/
def elementAt (site : Site) (array : Designator) : TypeId :=
  site.table.element (site.table.symbol (site.symbolAt array.node)).type

/-- Fill the target at a position of an unpacking. -/
def fillCode (site : Site) (source : Designator)
    (target : Option Designator × Nat) : List Instruction :=
  match target with
  | (none, _) => []
  | (some target, position) =>
      site.accessCode 0 target ++ site.valueCode source ++
        [.const (Int32.ofInt position), .plain (Gen.loadElement (site.elementAt source))] ++
        site.storeCode (site.symbolAt target.node)

/-- Compute the number of elements that an unpacking needs and the number it has. -/
def guardOperands (site : Site) (count : Nat)
    (rest source : Designator) : List Instruction :=
  site.valueCode rest ++ [.plain .arrayLength, .const (Int32.ofInt count), .plain .add] ++
    site.valueCode source ++ [.plain .arrayLength]

/-- Stop unless an unpacking has enough elements. -/
def guardCode (site : Site) (start count : Nat)
    (rest source : Designator) : List Instruction :=
  let operands := site.guardOperands count rest source
  operands ++ [.jump .jle (start + totalSize operands + 5), .trap 2]

/-- Step both indices of the copying loop of an unpacking. -/
def stepIndices : List Instruction :=
  [.const 1, .plain .add, .plain .dupX1, .plain .pop, .const 1, .plain .add, .plain .dupX1]

/-- Copy one element in the copying loop of an unpacking. -/
def copyElement (site : Site) (rest source : Designator) : List Instruction :=
  [.plain .dup2] ++ site.valueCode source ++
    [.plain .dupX1, .plain .pop, .plain (Gen.loadElement (site.elementAt source))] ++
    site.valueCode rest ++
    [.plain .dupX2, .plain .pop, .plain (Gen.storeElement (site.elementAt rest))]

/-- Copy what follows the positions of an unpacking into the rest. -/
def restCode (site : Site) (start count : Nat)
    (rest source : Designator) : List Instruction :=
  let indices : List Instruction := [.const 0, .const (Int32.ofInt count), .const 0]
  let test := start + totalSize indices
  let length := site.valueCode rest ++ [.plain .arrayLength]
  let next := test + totalSize length + 6
  let copy := next + totalSize stepIndices + 3
  let beyond := copy + totalSize (site.copyElement rest source) + 3
  indices ++ length ++ [.jump .jge beyond, .jump .jmp copy] ++
    stepIndices ++ [.jump .jmp test] ++
    site.copyElement rest source ++ [.jump .jmp next] ++
    [.plain .pop, .plain .pop]

/-- Fill the targets of an unpacking, from the last to the first. -/
def fillsCode (site : Site) (targets : List (Option Designator))
    (source : Designator) : List Instruction :=
  targets.zipIdx.reverse.flatMap (site.fillCode source)

/-- Unpack an array. -/
def unpackCode (site : Site) (start : Nat) (targets : List (Option Designator))
    (rest source : Designator) : List Instruction :=
  let head := site.guardCode start targets.length rest source ++ site.fillsCode targets source
  head ++ site.restCode (start + totalSize head) targets.length rest source

/-- The code of an action. -/
def actionCode (site : Site) (start : Nat) (action : Action) : List Instruction :=
  match action with
  | .assign _ target value =>
      site.accessCode 0 target ++ site.exprCode 0 value ++
        site.storeCode (site.symbolAt target.node)
  | .increment _ target => site.stepCode target true
  | .decrement _ target => site.stepCode target false
  | .call _ target =>
      site.callCode 0 target ++
        (if (site.table.symbol (site.symbolAt target.callee.node)).type = .none then []
        else [.plain .pop])
  | .unpack _ targets rest source => site.unpackCode start targets rest source

/-- The code of actions that follow each other. -/
def actionsCode (site : Site) (start : Nat) : List Action → List Instruction
  | [] => []
  | action :: rest =>
      site.actionCode start action ++
        site.actionsCode (start + totalSize (site.actionCode start action)) rest

/-- The most receivers that are parked at once by the positions of an unpacking. -/
def fillsPeak (site : Site) (source : Designator) : List (Option Designator × Nat) → Nat
  | [] => 0
  | (none, _) :: rest => site.fillsPeak source rest
  | (some target, _) :: rest =>
      max (max (site.accessPeak 0 target) (site.accessPeak 0 source)) (site.fillsPeak source rest)

/-- The most receivers that are parked at once by an unpacking. -/
def unpackPeak (site : Site) (targets : List (Option Designator))
    (rest source : Designator) : Nat :=
  max (max (site.accessPeak 0 rest) (site.accessPeak 0 source))
    (site.fillsPeak source targets.zipIdx.reverse)

/-- The most receivers that are parked at once by an action. -/
def actionPeak (site : Site) (action : Action) : Nat :=
  match action with
  | .assign _ target value => max (site.accessPeak 0 target) (site.exprPeak 0 value)
  | .increment _ target => site.accessPeak 0 target
  | .decrement _ target => site.accessPeak 0 target
  | .call _ target => site.callPeak 0 target
  | .unpack _ targets rest source => site.unpackPeak targets rest source

/-- The most receivers that are parked at once by actions. -/
def actionsPeak (site : Site) : List Action → Nat
  | [] => 0
  | action :: rest => max (site.actionPeak action) (site.actionsPeak rest)

/-! ## Statements -/

/-- Where the parts of a loop start, and where it ends. -/
structure LoopOffsets where
  test : Nat
  next : Nat
  body : Nat
  beyond : Nat

/-- The offsets of a loop whose body has so many bytes. -/
def loopOffsets (site : Site) (start : Nat) (init : List Action) (test : Option Condition)
    (update : List Action)
    (bodySize : Nat) : LoopOffsets :=
  let testStart := start + totalSize (site.actionsCode start init)
  let nextStart := testStart + site.testSize test + 3
  let bodyStart := nextStart + totalSize (site.actionsCode nextStart update) + 3
  { test := testStart, next := nextStart, body := bodyStart, beyond := bodyStart + bodySize + 3 }

/-- Print a value that is on the stack. -/
def printCode (type : TypeId) (width : Option Int32) : List Instruction :=
  [.const (width.getD (if type = .int then 5 else 1)),
    .plain (if type = .char then .bprint else .print)]

mutual

/-- The code of a statement at an offset.  Leaving the innermost loop leads to `exit`, and
going on with it to `next`. -/
def stmtCode (site : Site) (start exit next : Nat) (statement : Stmt) : List Instruction :=
  match statement with
  | .action step => site.actionCode start step
  | .ifThen _ test body =>
      let bodyStart := start + site.testSize (some test)
      let bodyCode := stmtCode site bodyStart exit next body
      site.conditionCode start bodyStart (bodyStart + totalSize bodyCode) test ++ bodyCode
  | .ifElse _ test body alternative =>
      let bodyStart := start + site.testSize (some test)
      let bodyCode := stmtCode site bodyStart exit next body
      let otherStart := bodyStart + totalSize bodyCode + 3
      let otherCode := stmtCode site otherStart exit next alternative
      site.conditionCode start bodyStart otherStart test ++ bodyCode ++
        [.jump .jmp (otherStart + totalSize otherCode)] ++ otherCode
  | .loop _ init test update body =>
      let offsets := site.loopOffsets start init test update
        (totalSize (stmtCode site 0 0 0 body))
      site.actionsCode start init ++
        site.testCode offsets.test offsets.body offsets.beyond test ++
        [.jump .jmp offsets.body] ++
        site.actionsCode offsets.next update ++
        [.jump .jmp offsets.test] ++
        stmtCode site offsets.body offsets.beyond offsets.next body ++
        [.jump .jmp offsets.next]
  | .breakLoop _ => [.jump .jmp exit]
  | .continueLoop _ => [.jump .jmp next]
  | .ret _ none => [.plain .exit, .plain .ret]
  | .ret _ (some value) => site.exprCode 0 value ++ [.plain .exit, .plain .ret]
  | .read _ target =>
      let id := site.symbolAt target.node
      site.accessCode 0 target ++
        [.plain (if (site.table.symbol id).type = .char then .bread else .read)] ++
        site.storeCode id
  | .print _ value width => site.exprCode 0 value ++ printCode (site.typeAt value.node) width
  | .block _ body => stmtsCode site start exit next body

/-- The code of statements that follow each other. -/
def stmtsCode (site : Site) (start exit next : Nat) (statements : List Stmt) :
    List Instruction :=
  match statements with
  | [] => []
  | first :: rest =>
      let firstCode := stmtCode site start exit next first
      firstCode ++ stmtsCode site (start + totalSize firstCode) exit next rest

end

mutual

/-- The most receivers that are parked at once by a statement. -/
def stmtPeak (site : Site) (statement : Stmt) : Nat :=
  match statement with
  | .action step => site.actionPeak step
  | .ifThen _ test body => max (site.conditionPeak test) (stmtPeak site body)
  | .ifElse _ test body alternative =>
      max (max (site.conditionPeak test) (stmtPeak site body)) (stmtPeak site alternative)
  | .loop _ init test update body =>
      max (max (max (site.actionsPeak init) (site.testPeak test)) (site.actionsPeak update))
        (stmtPeak site body)
  | .breakLoop _ => 0
  | .continueLoop _ => 0
  | .ret _ none => 0
  | .ret _ (some value) => site.exprPeak 0 value
  | .read _ target => site.accessPeak 0 target
  | .print _ value _ => site.exprPeak 0 value
  | .block _ body => stmtsPeak site body

/-- The most receivers that are parked at once by statements. -/
def stmtsPeak (site : Site) (statements : List Stmt) : Nat :=
  match statements with
  | [] => 0
  | first :: rest => max (stmtPeak site first) (stmtsPeak site rest)

end

/-! ## Sizes do not depend on targets -/

theorem totalSize_factCode (site : Site) (target : Nat) (fact : Fact) :
    totalSize (site.factCode target fact) = totalSize (site.factCode 0 fact) := by
  cases fact <;> simp [factCode, Instruction.size]

theorem totalSize_termCode (site : Site) (target : Nat) (term : Term) :
    totalSize (site.termCode target term) = site.termSize term := by
  induction term with
  | nil => rfl
  | cons fact rest ih =>
    have first := totalSize_factCode site target fact
    simp only [termSize, termCode] at ih
    simp only [termSize, termCode, flatMap_cons, totalSize_append, first, ih]

theorem totalSize_conditionCode (site : Site) (start body other : Nat) (condition : Condition) :
    totalSize (site.conditionCode start body other condition) =
      site.testSize (some condition) := by
  simp only [testSize, testCode]
  suffices independent : ∀ start' body' other', totalSize (site.conditionCode start body other
      condition) = totalSize (site.conditionCode start' body' other' condition) from
    independent 0 0 0
  induction condition generalizing start with
  | nil => simp [conditionCode]
  | cons term rest ih =>
    intro start' body' other'
    cases rest with
    | nil => simp only [conditionCode, totalSize_termCode]
    | cons next rest =>
      simp only [conditionCode, totalSize_append, totalSize_cons, totalSize_termCode,
        Instruction.size]
      rw [ih]

theorem testSize_cons_cons (site : Site) (term next : Term) (rest : List Term) :
    site.testSize (some (term :: next :: rest)) =
      site.termSize term + 3 + site.testSize (some (next :: rest)) := by
  rw [testSize, testCode, conditionCode, totalSize_append, totalSize_cons, totalSize_termCode,
    totalSize_conditionCode, Instruction.size_jump, Nat.add_assoc]

theorem totalSize_testCode (site : Site) (start body other : Nat) (test : Option Condition) :
    totalSize (site.testCode start body other test) = site.testSize test := by
  cases test with
  | none => rfl
  | some condition => exact totalSize_conditionCode site start body other condition

/-- The number of bytes of actions. -/
def actionsSize (site : Site) (actions : List Action) : Nat :=
  totalSize (site.actionsCode 0 actions)

/-- The number of bytes of a statement. -/
def stmtSize (site : Site) (statement : Stmt) : Nat := totalSize (site.stmtCode 0 0 0 statement)

/-- The number of bytes of statements. -/
def stmtsSize (site : Site) (statements : List Stmt) : Nat :=
  totalSize (site.stmtsCode 0 0 0 statements)

theorem totalSize_actionCode (site : Site) (start : Nat) (action : Action) :
    totalSize (site.actionCode start action) = totalSize (site.actionCode 0 action) := by
  cases action with
  | unpack span targets rest source =>
    simp [actionCode, unpackCode, guardCode, restCode, Instruction.size]
  | _ => rfl

theorem totalSize_actionsCode (site : Site) (start : Nat) (actions : List Action) :
    totalSize (site.actionsCode start actions) = site.actionsSize actions := by
  rw [actionsSize]
  induction actions generalizing start with
  | nil => rfl
  | cons action rest ih =>
    have first := totalSize_actionCode site start action
    simp only [actionsCode, totalSize_append, first]
    rw [ih, ← ih (0 + _)]

mutual

theorem totalSize_stmtCode (site : Site) (start exit next : Nat) (statement : Stmt) :
    totalSize (site.stmtCode start exit next statement) = site.stmtSize statement := by
  match statement with
  | .action step => exact totalSize_actionCode site start step
  | .ifThen _ test body =>
    have inner := fun start exit next => totalSize_stmtCode site start exit next body
    rw [stmtSize]
    simp only [stmtCode, totalSize_append, totalSize_conditionCode, inner]
  | .ifElse _ test body alternative =>
    have inner := fun start exit next => totalSize_stmtCode site start exit next body
    have other := fun start exit next => totalSize_stmtCode site start exit next alternative
    rw [stmtSize]
    simp only [stmtCode, totalSize_append, totalSize_conditionCode, inner, other,
      totalSize_cons, Instruction.size]
  | .loop _ init test update body =>
    have inner := fun start exit next => totalSize_stmtCode site start exit next body
    rw [stmtSize]
    simp only [stmtCode, totalSize_append, totalSize_testCode, totalSize_actionsCode,
      inner, totalSize_cons, Instruction.size]
  | .breakLoop _ => rfl
  | .continueLoop _ => rfl
  | .ret _ none => rfl
  | .ret _ (some value) => rfl
  | .read _ target => rfl
  | .print _ value width => rfl
  | .block _ body => exact totalSize_stmtsCode site start exit next body

theorem totalSize_stmtsCode (site : Site) (start exit next : Nat) (statements : List Stmt) :
    totalSize (site.stmtsCode start exit next statements) = site.stmtsSize statements := by
  match statements with
  | [] => rfl
  | first :: rest =>
    have inner := fun start exit next => totalSize_stmtCode site start exit next first
    have later := fun start exit next => totalSize_stmtsCode site start exit next rest
    rw [stmtsSize]
    simp only [stmtsCode, totalSize_append, inner, later]

end

theorem stmtsCode_cons (site : Site) (start exit next : Nat) (first : Stmt) (rest : List Stmt) :
    site.stmtsCode start exit next (first :: rest) =
      site.stmtCode start exit next first ++
        site.stmtsCode (start + site.stmtSize first) exit next rest := by
  rw [stmtsCode, totalSize_stmtCode]

theorem stmtsSize_cons (site : Site) (first : Stmt) (rest : List Stmt) :
    site.stmtsSize (first :: rest) = site.stmtSize first + site.stmtsSize rest := by
  rw [stmtsSize, stmtsCode_cons, totalSize_append, totalSize_stmtCode, totalSize_stmtsCode]

theorem stmtSize_ifThen (site : Site) (span : Span) (test : Condition) (body : Stmt) :
    site.stmtSize (.ifThen span test body) = site.testSize (some test) + site.stmtSize body := by
  rw [stmtSize, stmtCode]
  simp only [totalSize_append, totalSize_conditionCode, totalSize_stmtCode]

theorem stmtSize_ifElse (site : Site) (span : Span) (test : Condition) (body other : Stmt) :
    site.stmtSize (.ifElse span test body other) =
      site.testSize (some test) + site.stmtSize body + 3 + site.stmtSize other := by
  rw [stmtSize, stmtCode]
  simp only [totalSize_append, totalSize_conditionCode, totalSize_stmtCode, totalSize_cons,
    size_jump, totalSize_nil, Nat.add_zero]

theorem stmtSize_loop (site : Site) (span : Span) (init : List Action) (test : Option Condition)
    (update : List Action) (body : Stmt) :
    site.stmtSize (.loop span init test update body) =
      site.actionsSize init + site.testSize test + 3 + site.actionsSize update + 3 +
        site.stmtSize body + 3 := by
  rw [stmtSize, stmtCode]
  simp only [totalSize_append, totalSize_testCode, totalSize_actionsCode, totalSize_stmtCode,
    totalSize_cons, size_jump, totalSize_nil, Nat.add_zero]

/-! ## Parts and their offsets -/

variable {beyond bodyStart : Nat}

theorem restCode_eq (site : Site) (start count : Nat) (rest source : Designator)
    {test next copy : Nat}
    (isTest : test = start + totalSize [.const 0, .const (Int32.ofInt count), .const 0])
    (isNext : next = test + totalSize (site.valueCode rest) + 7)
    (isCopy : copy = next + totalSize stepIndices + 3)
    (isBeyond : beyond = copy + totalSize (site.copyElement rest source) + 3) :
    site.restCode start count rest source =
      [.const 0, .const (Int32.ofInt count), .const 0] ++ (site.valueCode rest ++
        ([.plain .arrayLength, .jump .jge beyond, .jump .jmp copy] ++ (stepIndices ++
          (.jump .jmp test :: (site.copyElement rest source ++
            [.jump .jmp next, .plain .pop, .plain .pop]))))) := by
  have sameNext : test + totalSize (site.valueCode rest ++ [.plain .arrayLength]) + 6 = next := by
    rw [isNext, totalSize_append, totalSize_cons, size_plain, totalSize_nil]
    omega
  simp only [restCode, ← isTest, sameNext, ← isCopy, ← isBeyond, append_assoc,
    cons_append, nil_append]

theorem stmtCode_ifThen (site : Site) (start exit next : Nat) (span : Span) (test : Condition)
    (body : Stmt) (isBody : bodyStart = start + site.testSize (some test))
    (isBeyond : beyond = bodyStart + site.stmtSize body) :
    site.stmtCode start exit next (.ifThen span test body) =
      site.conditionCode start bodyStart beyond test ++ site.stmtCode bodyStart exit next body := by
  simp only [stmtCode, totalSize_stmtCode, ← isBody, ← isBeyond]

theorem stmtCode_ifElse (site : Site) (start exit next : Nat) (span : Span) (test : Condition)
    (body alternative : Stmt) {otherStart : Nat}
    (isBody : bodyStart = start + site.testSize (some test))
    (isOther : otherStart = bodyStart + site.stmtSize body + 3)
    (isBeyond : beyond = otherStart + site.stmtSize alternative) :
    site.stmtCode start exit next (.ifElse span test body alternative) =
      site.conditionCode start bodyStart otherStart test ++
        (site.stmtCode bodyStart exit next body ++
          .jump .jmp beyond :: site.stmtCode otherStart exit next alternative) := by
  simp only [stmtCode, totalSize_stmtCode, ← isBody, ← isOther, ← isBeyond, append_assoc,
    cons_append, nil_append]

theorem stmtCode_loop (site : Site) (start exit next : Nat) (span : Span) (init : List Action)
    (test : Option Condition) (update : List Action) (body : Stmt) {testStart nextStart : Nat}
    (isTest : testStart = start + site.actionsSize init)
    (isNext : nextStart = testStart + site.testSize test + 3)
    (isBody : bodyStart = nextStart + site.actionsSize update + 3)
    (isBeyond : beyond = bodyStart + site.stmtSize body + 3) :
    site.stmtCode start exit next (.loop span init test update body) =
      site.actionsCode start init ++ (site.testCode testStart bodyStart beyond test ++
        .jump .jmp bodyStart :: (site.actionsCode nextStart update ++
          .jump .jmp testStart :: (site.stmtCode bodyStart beyond nextStart body ++
            [.jump .jmp nextStart]))) := by
  simp only [stmtCode, loopOffsets, totalSize_stmtCode, totalSize_actionsCode, ← isTest, ← isNext,
    ← isBody, ← isBeyond, append_assoc, cons_append, nil_append]

end Site
end MicroJava
