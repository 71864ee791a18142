import MicroJava.Generation.Generator

/-!
# Code of designators and expressions

The code of a designator has two halves: what the access needs below the value,
which is an object, or an array and an index, and then the reading or writing
itself.  An expression leaves its value on the stack.  Instance methods are
called through the dispatch table of their receiver, all others directly.
-/

namespace MicroJava
namespace Gen

/-- Whether a designator names a type. -/
def namesType (notes : Annotations) (designator : Designator) : Gen Bool := do
  let id ← symbolAt notes designator.node
  return (← symbol id).kind = .type

/-- Push a new object of a class; its first word is the dispatch table. -/
def newObject (type : TypeId) : Gen Unit := do
  let desc := (← get).table.desc type
  match desc.dispatch with
  | none => throw (.missingAttribute desc.name "has no dispatch table")
  | some dispatch =>
      emit (Emit.newObject ((desc.fieldCount + 1) * 4))
      op .dup
      const dispatch
      emit (Emit.putField 0)

mutual

/-- Push what an access to a designator needs.  The result is its symbol. -/
def access (notes : Annotations) (designator : Designator) : Gen SymbolId := do
  let id ← symbolAt notes designator.node
  match designator with
  | .name _ _ =>
      if (← symbol id).kind = .field then
        emit (Emit.loadLocal 0)
        return id
      else
        return id
  | .qualified _ _ _ => return id
  | .element _ base index =>
      load (← access notes base)
      expr notes index
      return id
  | .member _ base _ =>
      if ← namesType notes base then
        return id
      else
        load (← access notes base)
        return id

/-- Push the value of an expression. -/
def expr (notes : Annotations) (expression : Expr) : Gen Unit := do
  match expression with
  | .literal _ value => emit (Emit.const value.word)
  | .load _ source => load (← access notes source)
  | .call _ target => discard (call notes target)
  | .newArray node _ length =>
      let array ← typeAt notes node
      expr notes length
      emit (Emit.newArray ((← get).table.element array != .char))
  | .newObject node _ => newObject (← typeAt notes node)
  | .neg _ operand =>
      expr notes operand
      op .neg
  | .arith _ operator left right =>
      expr notes left
      expr notes right
      op (Opcode.ofArith operator)

/-- Push the values of expressions, from left to right. -/
def exprs (notes : Annotations) (expressions : List Expr) : Gen Unit := do
  match expressions with
  | [] => return ()
  | first :: rest =>
      expr notes first
      exprs notes rest

/-- Call a method.  The result is the type of what it leaves on the stack. -/
def call (notes : Annotations) (target : Call) : Gen TypeId := do
  match target with
  | .mk _ callee arguments =>
      let id ← symbolAt notes callee.node
      let method ← symbol id
      if method.isVirtual then
        receiver notes callee
        let slot ← park
        op .dup
        emit (Emit.storeLocal slot)
        exprs notes arguments
        emit (Emit.loadLocal slot)
        unpark
        emit (Emit.getField 0)
        emit (Emit.invokeVirtual method.name)
        return method.type
      else
        exprs notes arguments
        emit (Emit.call (← codeAddress id))
        return method.type

/-- Push the object that an instance method is called on. -/
def receiver (notes : Annotations) (callee : Designator) : Gen Unit := do
  match callee with
  | .member _ base _ => load (← access notes base)
  | .name _ _ => emit (Emit.loadLocal 0)
  | callee =>
      throw (.missingAttribute callee.text "is an instance method without a receiver")

end

/-- Push the value of a designator. -/
def value (notes : Annotations) (designator : Designator) : Gen Unit := do
  load (← access notes designator)

end Gen
end MicroJava
