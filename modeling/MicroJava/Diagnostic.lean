import MicroJava.Span
import MicroJava.Violation

/-!
# Diagnostics

A diagnostic is a note about a declaration or a use, or the report of a
violation.  Diagnostics are kept in the order in which they arise.
-/

namespace MicroJava

/-- A message about a position of the program. -/
inductive Diagnostic
  /-- A note; it does not keep a program from being compiled. -/
  | info (text : String) (position : Span)
  /-- A violation; a program with one is rejected. -/
  | error (cause : Violation) (position : Span)
deriving DecidableEq, Repr, Inhabited

namespace Diagnostic

/-- Whether a diagnostic reports a violation. -/
def isError : Diagnostic → Bool
  | info _ _ => false
  | error _ _ => true

/-- The reported violation, if there is one. -/
def violation? : Diagnostic → Option (Violation × Span)
  | info _ _ => none
  | error cause position => some (cause, position)

/-- The message of a diagnostic, without its position. -/
def message : Diagnostic → String
  | info text _ => text
  | error cause _ => cause.message

/-- Where a diagnostic points. -/
def span : Diagnostic → Span
  | info _ position => position
  | error _ position => position

/-- The message followed by its line, when the line is known. -/
def text (diagnostic : Diagnostic) : String :=
  if diagnostic.span.isKnown then
    diagnostic.message ++ " on line " ++ toString diagnostic.span.line
  else
    diagnostic.message

end Diagnostic
end MicroJava
