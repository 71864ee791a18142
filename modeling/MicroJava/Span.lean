/-!
# Source positions

A span is the line and column at which a construct starts.  Lines and columns
count from one; a line of zero stands for an unknown position, and diagnostics
then leave the position out.
-/

namespace MicroJava

/-- A position in the source text. -/
structure Span where
  /-- Line number, zero when the position is unknown. -/
  line : Nat := 0
  /-- Column number, zero when only the line is known. -/
  column : Nat := 0
deriving DecidableEq, Repr, Inhabited

namespace Span

/-- A span that knows its line only. -/
def ofLine (line : Nat) : Span := { line := line }

/-- Whether the position is known. -/
def isKnown (span : Span) : Bool := span.line != 0

/-- A span is written `line:column`. -/
def text (span : Span) : String := toString span.line ++ ":" ++ toString span.column

end Span
end MicroJava
