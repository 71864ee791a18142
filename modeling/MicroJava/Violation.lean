/-!
# Violations of the static rules

A program that breaks a rule of the language is reported with the cause of the
violation.  The wording of every report is fixed here, in `Violation.message`.
-/

namespace MicroJava

/-- A cause for which a program is rejected. -/
inductive Violation
  /-- The name is declared twice in one frame. -/
  | duplicateName (name : String)
  /-- The declaration hides a type that is visible. -/
  | masksType (name : String)
  /-- The name is not declared in any visible frame. -/
  | undeclaredName (name : String)
  /-- There is no entry point. -/
  | missingMain
  /-- The type reference does not lead to a type. -/
  | unknownType (name : String)
  /-- Operands or values do not fit the construct. -/
  | typeMismatch (message : String)
  /-- The target of a store is no variable, field or element. -/
  | notAssignable (name : String)
  /-- A lone expression in a condition is not a `bool`. -/
  | nonBoolCondition
  /-- A call passes the wrong number of arguments, the receiver counted. -/
  | argumentCount (name : String) (expected got : Nat)
  /-- An argument does not fit its parameter; the receiver has position zero. -/
  | argumentType (name : String) (position : Nat)
  /-- A method does not fit the inherited one it replaces. -/
  | invalidOverride (name : String) (message : String)
  /-- What is called is not a method. -/
  | notAMethod (name : String)
  /-- The class has no such member. -/
  | unknownMember (owner name : String)
  /-- References are compared by an ordering. -/
  | referenceComparison
  /-- A member that needs a receiver is used where there is none. -/
  | staticContext (name : String)
  /-- There is no loop to leave. -/
  | breakOutsideLoop
  /-- There is no loop to go on with. -/
  | continueOutsideLoop
  /-- A method with a result never returns one. -/
  | missingReturn (name : String)
  /-- A return statement does not fit the method. -/
  | invalidReturn (message : String)
deriving DecidableEq, Repr, Inhabited

/-- The wording of a violation, without its position. -/
def Violation.message : Violation → String
  | duplicateName name => "name '" ++ name ++ "' already declared"
  | masksType name => "name '" ++ name ++ "' masks a type"
  | undeclaredName name => "name '" ++ name ++ "' is not declared"
  | missingMain => "program has no 'void main()' method"
  | unknownType name => "type '" ++ name ++ "' does not exist"
  | typeMismatch message => message
  | notAssignable name => "'" ++ name ++ "' cannot be assigned to"
  | nonBoolCondition => "condition must be of type bool"
  | argumentCount name expected got =>
      "'" ++ name ++ "' expects " ++ toString expected ++ " argument(s), got " ++ toString got
  | argumentType name position =>
      "argument " ++ toString position ++ " of '" ++ name ++ "' has an incompatible type"
  | invalidOverride name message =>
      "method '" ++ name ++ "' does not match the overridden signature: " ++ message
  | notAMethod name => "'" ++ name ++ "' is not a method"
  | unknownMember owner name => "'" ++ owner ++ "' has no member '" ++ name ++ "'"
  | referenceComparison => "references can only be compared with '==' or '!='"
  | staticContext name => "instance member '" ++ name ++ "' used in a static context"
  | breakOutsideLoop => "break statement not inside a loop"
  | continueOutsideLoop => "continue statement not inside a loop"
  | missingReturn name => "method '" ++ name ++ "' must return a value"
  | invalidReturn message => message

end MicroJava
