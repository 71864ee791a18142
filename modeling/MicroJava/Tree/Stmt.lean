import MicroJava.Tree.Expr

/-!
# Conditions and statements

A condition is a disjunction of terms, and a term is a conjunction of facts.
The statements that may also stand in the header of a `for` are actions:
assignments, steps, calls and array unpacking.
-/

namespace MicroJava

/-- A factor of a condition. -/
inductive Fact
  /-- A boolean expression. -/
  | truth (value : Expr)
  /-- A comparison of two expressions. -/
  | relation (span : Span) (left : Expr) (op : RelOp) (right : Expr)

/-- Where a fact starts. -/
def Fact.span : Fact → Span
  | truth value => value.span
  | relation span _ _ _ => span

/-- A conjunction of facts. -/
abbrev Term := List Fact

/-- A disjunction of terms. -/
abbrev Condition := List Term

/-- A statement that stands on a designator. -/
inductive Action
  /-- Assignment, `target = value`. -/
  | assign (span : Span) (target : Designator) (value : Expr)
  /-- Step up, `target++`. -/
  | increment (span : Span) (target : Designator)
  /-- Step down, `target--`. -/
  | decrement (span : Span) (target : Designator)
  /-- A call whose result is dropped. -/
  | call (span : Span) (call : Call)
  /-- Array unpacking, `[targets, *rest] = source`; a target may be blank. -/
  | unpack (span : Span) (targets : List (Option Designator)) (rest source : Designator)

/-- Where an action starts. -/
def Action.span : Action → Span
  | assign span _ _ => span
  | increment span _ => span
  | decrement span _ => span
  | call span _ => span
  | unpack span _ _ _ => span

/-- A statement. -/
inductive Stmt
  /-- An action. -/
  | action (step : Action)
  /-- A branch without an alternative. -/
  | ifThen (span : Span) (condition : Condition) (body : Stmt)
  /-- A branch with an alternative. -/
  | ifElse (span : Span) (condition : Condition) (body alternative : Stmt)
  /-- A loop; without a condition it ends only by leaving its body. -/
  | loop (span : Span) (init : List Action) (condition : Option Condition)
      (update : List Action) (body : Stmt)
  /-- Leave the innermost loop. -/
  | breakLoop (span : Span)
  /-- Go on with the update of the innermost loop. -/
  | continueLoop (span : Span)
  /-- Return from the method. -/
  | ret (span : Span) (value : Option Expr)
  /-- Read a value into a place. -/
  | read (span : Span) (target : Designator)
  /-- Print a value, in a field of the given width. -/
  | print (span : Span) (value : Expr) (width : Option Int32)
  /-- A sequence of statements. -/
  | block (span : Span) (body : List Stmt)

/-- Where a statement starts. -/
def Stmt.span : Stmt → Span
  | action step => step.span
  | ifThen span _ _ => span
  | ifElse span _ _ _ => span
  | loop span _ _ _ _ => span
  | breakLoop span => span
  | continueLoop span => span
  | ret span _ => span
  | read span _ => span
  | print span _ _ => span
  | block span _ => span

end MicroJava
