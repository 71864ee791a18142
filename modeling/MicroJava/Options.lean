/-!
# Options of a compilation
-/

namespace MicroJava

/-- What may be chosen for a compilation. -/
structure Options where
  /-- The greatest number of bytes of code. -/
  codeLimit : Nat := 8192
  /-- Whether notes are reported besides violations. -/
  reportInfo : Bool := false
  /-- Whether a program without an entry point is rejected. -/
  requireMain : Bool := true
deriving DecidableEq, Repr, Inhabited

/-- Options for a program that need not have an entry point. -/
def Options.withoutMain : Options := { requireMain := false }

end MicroJava
