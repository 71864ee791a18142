import MicroJava.Span

/-!
# Faults of code generation

Generation stops at the first fault.  Two faults are properties of the program:
its code is too long, or a number does not fit the operand that encodes it.
Every other fault is internal: the tree was not accepted by the analysis, or the
bookkeeping of jumps was driven out of order.
-/

namespace MicroJava

/-- The stages through which the code of an `if` or a `for` passes. -/
inductive Stage
  /-- The conditions are being emitted. -/
  | header
  /-- The conditions are complete. -/
  | conditions
  /-- The body is complete. -/
  | body
  /-- No jump of the construct waits for its target. -/
  | patched
  /-- The construct is finished. -/
  | closed
deriving DecidableEq, Repr, Inhabited

/-- The name of a stage in messages. -/
def Stage.text : Stage → String
  | header => "HeaderOpened"
  | conditions => "ConditionsEmitted"
  | body => "BodyEmitted"
  | patched => "FixupsPatched"
  | closed => "Closed"

/-- A cause for which no code is generated. -/
inductive Fault
  /-- A list of waiting jumps is missing, or is left open. -/
  | imbalance (detail : String)
  /-- A construct cannot do this at its present stage. -/
  | wrongStage (stage : Stage) (action : String)
  /-- A symbol or a type lacks what its code needs. -/
  | missingAttribute (name detail : String)
  /-- A node was never annotated. -/
  | unannotated (node : Nat) (what : String) (span : Span)
  /-- The code is longer than the limit. -/
  | tooLarge (size limit : Nat)
  /-- A number does not fit its operand. -/
  | outOfRange (what : String) (value : Int)
deriving DecidableEq, Repr, Inhabited

namespace Fault

/-- The wording of a fault. -/
def message : Fault → String
  | imbalance detail => "internal: fix-up stack imbalance: " ++ detail
  | wrongStage stage action =>
      "internal: construct in state " ++ stage.text ++ " cannot " ++ action
  | missingAttribute name detail => "internal: symbol '" ++ name ++ "' " ++ detail
  | unannotated node what span =>
      "internal: node " ++ toString node ++ " at " ++ span.text ++ " has no " ++ what ++
        " annotation"
  | tooLarge size limit =>
      "program too large: " ++ toString size ++ " bytes of code, limit is " ++ toString limit
  | outOfRange what value => what ++ " " ++ toString value ++ " does not fit its operand"

/-- Whether the fault lies with the compiler and not with the program. -/
def isInternal : Fault → Bool
  | tooLarge _ _ => false
  | outOfRange _ _ => false
  | _ => true

end Fault

/-- A cause for which a program has no image. -/
inductive Failure
  /-- The program violates the static rules this many times. -/
  | violations (count : Nat)
  /-- Generation stopped. -/
  | fault (cause : Fault)
deriving DecidableEq, Repr, Inhabited

/-- The wording of a failure. -/
def Failure.message : Failure → String
  | violations count => "semantic analysis failed with " ++ toString count ++ " error(s)"
  | fault cause => cause.message

end MicroJava
