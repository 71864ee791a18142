import MicroJava.Analysis.Typing

/-!
# Checking statements

A store needs a variable, a field or an element that takes the value.  Leaving or
continuing a loop needs a loop around it, and a return has to fit the method.
-/

namespace MicroJava
namespace Check

/-- The symbol of a designator that is stored into; absent if nothing can be. -/
def resolveTarget (target : Designator) : Check SymbolId := do
  let found ← resolve target
  let symbol ← symbol found
  if found.isAbsent || symbol.isAssignable then
    return found
  else
    report (.notAssignable target.text) target.span
    return .absent

/-- The type of a designator that is stored into. -/
def targetType (target : Designator) : Check TypeId := do
  let found ← resolveTarget target
  return (← symbol found).type

/-- Require that a value may be stored. -/
def requireAssignable (source target : TypeId) (span : Span) : Check Unit := do
  let table ← table
  requireFit (table.assignable source target)
    ("cannot assign " ++ table.typeText source ++ " to " ++ table.typeText target) span

/-- Whether values of a type can be read and printed; no type passes. -/
def isBasic (type : TypeId) : Bool :=
  type = .int || type = .char || type = .bool || type = .none

/-- Check a step up or down. -/
def checkStep (span : Span) (target : Designator) : Check Unit := do
  let type ← targetType target
  requireFit (type = .int || type = .none) ("'" ++ target.text ++ "' must be of type int") span

/-- Require that a designator of an unpacking is an array. -/
def requireArray (designator : Designator) (type : TypeId) : Check Unit := do
  requireFit (type = .none || (← table).kind type = .array)
    ("'" ++ designator.text ++ "' is not an array") designator.span

/-- Require that the source of an unpacking fits the array that takes its rest. -/
def requireUnpackable (source rest : TypeId) (span : Span) : Check Unit := do
  let table ← table
  let arrays := table.kind source = .array && table.kind rest = .array
  requireFit (!arrays || table.assignable source rest)
    ("cannot unpack " ++ table.typeText source ++ " into " ++ table.typeText rest) span

/-- Check a position of an unpacking; a blank one is skipped. -/
def checkUnpackTarget (element : TypeId) (target : Option Designator) : Check Unit := do
  match target with
  | none => return ()
  | some target =>
      let type ← targetType target
      if element = .none then
        return ()
      else
        requireAssignable element type target.span

/-- Check an unpacking: two arrays of the same elements, and targets for the elements. -/
def checkUnpack (span : Span) (targets : List (Option Designator))
    (rest source : Designator) : Check Unit := do
  let restType ← targetType rest
  let found ← resolve source
  let sourceType := (← symbol found).type
  requireArray rest restType
  requireArray source sourceType
  let element := (← table).element sourceType
  requireUnpackable sourceType restType span
  targets.forM (checkUnpackTarget element)

/-- Check an action. -/
def checkAction (action : Action) : Check Unit := do
  match action with
  | .assign span target value =>
      let found ← resolveTarget target
      let type ← typeOf value
      requireAssignable type (← symbol found).type span
  | .increment span target => checkStep span target
  | .decrement span target => checkStep span target
  | .call _ call => discard (checkCall call)
  | .unpack span targets rest source => checkUnpack span targets rest source

/-- Remember that the current method returns a value. -/
def markReturn : Check Unit :=
  modify fun checker =>
    { checker with method := checker.method.map fun method => { method with returns := true } }

/-- Check a return against the result of the current method. -/
def checkReturn (span : Span) (value : Option Expr) : Check Unit := do
  match (← get).method, value with
  | none, _ => return ()
  | some method, none =>
      require (method.result = .none)
        (.invalidReturn ("method must return a value of type " ++ (← typeText method.result))) span
  | some method, some expr =>
      let type ← typeOf expr
      markReturn
      let table ← table
      if method.result = .none then
        report (.invalidReturn "void method cannot return a value") span
      else
        require (table.assignable type method.result)
          (.invalidReturn ("cannot return " ++ table.typeText type ++
            " from a method returning " ++ table.typeText method.result)) span

/-- Check what stands inside a loop. -/
def insideLoop (body : Check Unit) : Check Unit := do
  modify fun checker => { checker with loopDepth := checker.loopDepth + 1 }
  body
  modify fun checker => { checker with loopDepth := checker.loopDepth - 1 }

mutual

/-- Check a statement. -/
def checkStmt (stmt : Stmt) : Check Unit := do
  match stmt with
  | .action step => checkAction step
  | .ifThen _ condition body =>
      checkCondition condition
      checkStmt body
  | .ifElse _ condition body alternative =>
      checkCondition condition
      checkStmt body
      checkStmt alternative
  | .loop _ init condition update body =>
      init.forM checkAction
      condition.forM checkCondition
      update.forM checkAction
      insideLoop (checkStmt body)
  | .breakLoop span => require ((← get).loopDepth != 0) .breakOutsideLoop span
  | .continueLoop span => require ((← get).loopDepth != 0) .continueOutsideLoop span
  | .ret span value => checkReturn span value
  | .read span target =>
      let type ← targetType target
      requireFit (isBasic type) ("cannot read a value of type " ++ (← typeText type)) span
  | .print span value _ =>
      let type ← typeOf value
      requireFit (isBasic type) ("cannot print a value of type " ++ (← typeText type)) span
  | .block _ body => checkStmts body

/-- Check statements in order. -/
def checkStmts (stmts : List Stmt) : Check Unit := do
  match stmts with
  | [] => return ()
  | stmt :: rest =>
      checkStmt stmt
      checkStmts rest

end

end Check
end MicroJava
