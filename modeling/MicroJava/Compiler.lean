import MicroJava.Generation.Program

/-!
# Compiling

A program without violations is compiled to an image; a program with violations
has none.  A fault of generation is reported instead of a result.
-/

namespace MicroJava

/-- The result of a compilation. -/
structure Compilation where
  /-- The image, if the program has no violations. -/
  image : Option Image
  /-- What was reported, in order. -/
  diagnostics : List Diagnostic
  /-- How many violations were reported. -/
  errorCount : Nat
deriving Inhabited

namespace Compilation

/-- Whether there is an image. -/
def isSuccess (compilation : Compilation) : Bool :=
  compilation.errorCount = 0 && compilation.image.isSome

/-- The reported violations. -/
def errors (compilation : Compilation) : List Diagnostic :=
  compilation.diagnostics.filter Diagnostic.isError

/-- The image, or why there is none. -/
def toImage (compilation : Compilation) : Except Failure Image :=
  match compilation.image with
  | some image => .ok image
  | none => .error (.violations compilation.errorCount)

end Compilation

/-- Compile a program. -/
def compile (options : Options) (program : Program) : Except Fault Compilation :=
  let analysis := analyze options program
  if analysis.errorCount = 0 then
    match (generate options analysis program).1 with
    | .ok image =>
        .ok { image := some image, diagnostics := analysis.diagnostics, errorCount := 0 }
    | .error fault => .error fault
  else
    .ok {
      image := none
      diagnostics := analysis.diagnostics
      errorCount := analysis.errorCount }

end MicroJava
