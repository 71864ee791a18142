/-!
# Operators

Arithmetic operators take two `int` operands and yield an `int`.  Relational
operators occur only inside conditions; `inverse` gives the operator that holds
exactly when the given one does not.
-/

namespace MicroJava

/-- The arithmetic operators. -/
inductive ArithOp
  | add
  | sub
  | mul
  | div
  | rem
deriving DecidableEq, Repr, Inhabited

/-- The relational operators. -/
inductive RelOp
  | eq
  | ne
  | gt
  | ge
  | lt
  | le
deriving DecidableEq, Repr, Inhabited

namespace ArithOp

/-- The operator as it is written in a program. -/
def text : ArithOp → String
  | add => "+"
  | sub => "-"
  | mul => "*"
  | div => "/"
  | rem => "%"

/-- The operator with the given spelling. -/
def ofText? : String → Option ArithOp
  | "+" => some add
  | "-" => some sub
  | "*" => some mul
  | "/" => some div
  | "%" => some rem
  | _ => none

end ArithOp

namespace RelOp

/-- The operator as it is written in a program. -/
def text : RelOp → String
  | eq => "=="
  | ne => "!="
  | gt => ">"
  | ge => ">="
  | lt => "<"
  | le => "<="

/-- The operator with the given spelling. -/
def ofText? : String → Option RelOp
  | "==" => some eq
  | "!=" => some ne
  | ">" => some gt
  | ">=" => some ge
  | "<" => some lt
  | "<=" => some le
  | _ => none

/-- Only equality and inequality may compare references. -/
def isEquality : RelOp → Bool
  | eq => true
  | ne => true
  | _ => false

/-- The operator that holds exactly when this one does not. -/
def inverse : RelOp → RelOp
  | eq => ne
  | ne => eq
  | gt => le
  | ge => lt
  | lt => ge
  | le => gt

end RelOp
end MicroJava
