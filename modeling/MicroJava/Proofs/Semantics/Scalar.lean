import MicroJava.Analysis.Program
import MicroJava.Proofs.Machine.Execution

/-!
# The meaning of scalar statements

`Stmt.run` says what statements over integers, characters and truth values do: arithmetic is
on words of 32 bits, a division by zero ends the whole run, and loops run for a given number
of rounds at most.
-/

namespace MicroJava

/-- The values of variables. -/
abbrev Store := SymbolId → Int32

/-- The values of variables after an assignment. -/
def Store.set (store : Store) (id : SymbolId) (value : Int32) : Store :=
  fun other => if other = id then value else store other

/-- Why a run has no result. -/
inductive Halt
  | divisionByZero
  | exhausted
  | undefined
deriving DecidableEq, Repr, Inhabited

/-! ## Operators -/

/-- The result of an arithmetic operator. -/
def ArithOp.apply : ArithOp → Int32 → Int32 → Except Halt Int32
  | add, left, right => .ok (left + right)
  | sub, left, right => .ok (left - right)
  | mul, left, right => .ok (left * right)
  | div, left, right => if right = 0 then .error .divisionByZero else .ok (left / right)
  | rem, left, right => if right = 0 then .error .divisionByZero else .ok (left % right)

/-- Whether a comparison holds. -/
def RelOp.holds : RelOp → Int32 → Int32 → Bool
  | eq, left, right => left = right
  | ne, left, right => left ≠ right
  | gt, left, right => right < left
  | ge, left, right => right ≤ left
  | lt, left, right => left < right
  | le, left, right => left ≤ right

/-! ## Variables and constants -/

/-- A type whose values are words. -/
def TypeId.isScalar (type : TypeId) : Bool := type = int || type = char || type = bool

namespace Analysis

variable (analysis : Analysis)

/-- The symbol that a designator stands for. -/
def symbolOf (designator : Designator) : SymbolId :=
  (analysis.notes.symbol? designator.id).getD .absent

/-- A name, of a namespace or of a class perhaps, for which nothing has to be evaluated. -/
def isName : Designator → Bool
  | .name _ _ => true
  | .qualified _ _ _ => true
  | .element _ _ _ => false
  | .member _ base _ => (analysis.table.symbol (analysis.symbolOf base)).kind = .type

/-- A designator is the name of something scalar of a kind. -/
def names (kind : SymbolKind) (designator : Designator) : Bool :=
  analysis.isName designator &&
    (analysis.table.symbol (analysis.symbolOf designator)).kind = kind &&
    (analysis.table.symbol (analysis.symbolOf designator)).type.isScalar

/-- Give a variable a value. -/
def assign (store : Store) (target : Designator) (value : Int32) : Except Halt Store :=
  if analysis.names .var target then
    .ok (store.set (analysis.symbolOf target) value)
  else
    .error .undefined

end Analysis

/-- What the names of a program stand for, and the values of its constants. -/
structure Meaning extends Analysis where
  constant : SymbolId → Option Int32

/-- The value of a constant or variable. -/
def Meaning.valueOf (meaning : Meaning) (store : Store) (designator : Designator) :
    Except Halt Int32 :=
  if meaning.names .const designator then
    match meaning.constant (meaning.symbolOf designator) with
    | some value => .ok value
    | none => .error .undefined
  else if meaning.names .var designator then
    .ok (store (meaning.symbolOf designator))
  else
    .error .undefined

/-! ## Expressions and conditions -/

section

variable (meaning : Meaning)

/-- The value of an expression. -/
def Expr.eval (store : Store) : Expr → Except Halt Int32
  | literal _ value => .ok value.word
  | load _ source => meaning.valueOf store source
  | neg _ operand => do return -(← operand.eval store)
  | arith _ op left right => do
      let left ← left.eval store
      let right ← right.eval store
      op.apply left right
  | _ => .error .undefined

/-- The type of an expression. -/
def Expr.scalarType : Expr → TypeId
  | literal _ value => value.type
  | load _ source => (meaning.table.symbol (meaning.symbolOf source)).type
  | _ => .int

/-- Whether a fact holds. -/
def Fact.eval (store : Store) : Fact → Except Halt Bool
  | truth value => do return (← value.eval meaning store) ≠ 0
  | relation _ left op right => do
      let left ← left.eval meaning store
      let right ← right.eval meaning store
      return op.holds left right

/-- Whether all facts of a term hold. -/
def Term.eval (store : Store) : Term → Except Halt Bool
  | [] => .ok true
  | fact :: rest => do if ← fact.eval meaning store then Term.eval store rest else return false

/-- Whether some term of a condition holds. -/
def Condition.eval (store : Store) : Condition → Except Halt Bool
  | [] => .ok false
  | term :: rest => do
      if ← Term.eval meaning store term then return true else Condition.eval store rest

/-- Whether a loop goes on; without a condition it always does. -/
def Condition.test (store : Store) : Option Condition → Except Halt Bool
  | none => .ok true
  | some condition => condition.eval meaning store

/-! ## Statements -/

/-- The values of variables after an action. -/
def Action.run (store : Store) : Action → Except Halt Store
  | assign _ target value => do
      let value ← value.eval meaning store
      meaning.assign store target value
  | increment _ target => do
      let value ← meaning.valueOf store target
      meaning.assign store target (value + 1)
  | decrement _ target => do
      let value ← meaning.valueOf store target
      meaning.assign store target (value - 1)
  | _ => .error .undefined

/-- The values of variables after some actions. -/
def Action.runAll (store : Store) : List Action → Except Halt Store
  | [] => .ok store
  | action :: rest => do
      let store ← action.run meaning store
      Action.runAll store rest

end

/-- How a statement ends. -/
inductive Outcome
  | normal
  | broken
  | continued
  | returned (value : Option Int32)
deriving DecidableEq, Repr, Inhabited

/-- The result of a run. -/
structure Run where
  store : Store
  printed : List Printed := []
  outcome : Outcome := .normal

namespace Run

/-- The result of a run after something was printed. -/
def after (run : Run) (printed : List Printed) : Run :=
  { run with printed := printed ++ run.printed }

/-- Go on after a run that ended normally. -/
def andThen (run : Run) (rest : Store → Except Halt Run) : Except Halt Run :=
  match run.outcome with
  | .normal => do return (← rest run.store).after run.printed
  | _ => .ok run

/-- Go on after the body of a loop. -/
def andRepeat (run : Run) (rest : Store → Except Halt Run) : Except Halt Run :=
  match run.outcome with
  | .broken => .ok { run with outcome := .normal }
  | .returned _ => .ok run
  | _ => do return (← rest run.store).after run.printed

end Run

section

variable (meaning : Meaning)

/-- Repeat a body while a condition holds, for so many rounds at most. -/
def iterate (test : Option Condition) (update : List Action)
    (body : Store → Except Halt Run) : Nat → Store → Except Halt Run
  | 0, _ => .error .exhausted
  | rounds + 1, store => do
      if ← Condition.test meaning store test then
        let run ← body store
        run.andRepeat fun store => do
          let store ← Action.runAll meaning store update
          iterate test update body rounds store
      else
        return { store := store }

mutual

/-- Run a statement, with so many rounds for each loop at most. -/
def Stmt.run (rounds : Nat) (statement : Stmt) (store : Store) : Except Halt Run :=
  match statement with
  | .action step => do return { store := ← step.run meaning store }
  | .ifThen _ condition body => do
      if ← condition.eval meaning store then body.run rounds store else return { store := store }
  | .ifElse _ condition body alternative => do
      if ← condition.eval meaning store then body.run rounds store
      else alternative.run rounds store
  | .loop _ init test update body => do
      let store ← Action.runAll meaning store init
      iterate meaning test update (fun store => body.run rounds store) rounds store
  | .breakLoop _ => .ok { store := store, outcome := .broken }
  | .continueLoop _ => .ok { store := store, outcome := .continued }
  | .ret _ none => .ok { store := store, outcome := .returned none }
  | .ret _ (some value) => do
      let value ← value.eval meaning store
      return { store := store, outcome := .returned (some value) }
  | .read _ _ => .error .undefined
  | .print _ value width => do
      let type := value.scalarType meaning
      let value ← value.eval meaning store
      let width := width.getD (if type = .int then 5 else 1)
      return { store := store, printed := [⟨value, width, type = .char⟩] }
  | .block _ body => Stmt.runAll rounds body store

/-- Run statements one after the other. -/
def Stmt.runAll (rounds : Nat) (statements : List Stmt) (store : Store) : Except Halt Run :=
  match statements with
  | [] => .ok { store := store }
  | first :: rest => do
      let run ← first.run rounds store
      run.andThen fun store => Stmt.runAll rounds rest store

end

/-! ## Scalar statements -/

/-- An expression over scalar variables and constants. -/
def Expr.isScalar : Expr → Bool
  | literal _ _ => true
  | load _ source => meaning.names .const source || meaning.names .var source
  | neg _ operand => operand.isScalar
  | arith _ _ left right => left.isScalar && right.isScalar
  | _ => false

/-- A fact about scalars. -/
def Fact.isScalar : Fact → Bool
  | truth value => value.isScalar meaning
  | relation _ left _ right => left.isScalar meaning && right.isScalar meaning

/-- A condition on scalars, with some term. -/
def Condition.isScalar (condition : Condition) : Bool :=
  !condition.isEmpty && condition.all fun term => term.all fun fact => fact.isScalar meaning

/-- An action on scalar variables. -/
def Action.isScalar : Action → Bool
  | assign _ target value => meaning.names .var target && value.isScalar meaning
  | increment _ target => meaning.names .var target
  | decrement _ target => meaning.names .var target
  | _ => false

mutual

/-- A statement that consists of scalar actions, prints, branches, loops and jumps. -/
def Stmt.isScalar (statement : Stmt) : Bool :=
  match statement with
  | .action step => step.isScalar meaning
  | .ifThen _ condition body => condition.isScalar meaning && body.isScalar
  | .ifElse _ condition body alternative =>
      condition.isScalar meaning && body.isScalar && alternative.isScalar
  | .loop _ init test update body =>
      init.all (·.isScalar meaning) && test.all (·.isScalar meaning) &&
        update.all (·.isScalar meaning) && body.isScalar
  | .breakLoop _ => true
  | .continueLoop _ => true
  | .ret _ value => value.all (·.isScalar meaning)
  | .read _ _ => false
  | .print _ value _ => value.isScalar meaning
  | .block _ body => Stmt.areScalar body

/-- Statements that are all scalar. -/
def Stmt.areScalar (statements : List Stmt) : Bool :=
  match statements with
  | [] => true
  | first :: rest => first.isScalar && Stmt.areScalar rest

end

end

end MicroJava
