import MicroJava.Span
import MicroJava.Tree.Operator

/-!
# Names, designators and expressions

A designator names a place or a method: a plain name, a name of a namespace, an
array element or a member.  Designators and expressions carry a node, which
identifies them in the annotations, and a call carries only its span, because
it is annotated through the expression or the statement it stands in.
-/

namespace MicroJava

/-- Number of a node, unique within the trees of one supply. -/
abbrev NodeId := Nat

/-- Identity and position of an annotated construct. -/
structure Node where
  /-- The number under which annotations are recorded. -/
  id : NodeId
  /-- Where the construct starts. -/
  span : Span
deriving DecidableEq, Repr, Inhabited

/-- A name at a position. -/
structure Ident where
  /-- The name as written. -/
  name : String
  /-- Where it is written. -/
  span : Span
deriving DecidableEq, Repr, Inhabited

/-- A reference to a type, `name` or `space::name`. -/
structure TypeRef where
  /-- The namespace the type is looked up in, when one is written. -/
  space : Option Ident
  /-- The name of the type. -/
  name : Ident
  /-- Where the reference is written. -/
  span : Span
deriving DecidableEq, Repr, Inhabited

/-- A name inside a namespace is bound under `space::name`. -/
def qualify
    (space name : String) : String :=
  space ++ "::" ++ name

/-- A static member is bound under `owner.name`. -/
def dotted
    (owner name : String) : String :=
  owner ++ "." ++ name

/-- The name a type reference is looked up by. -/
def TypeRef.text (ref : TypeRef) : String :=
  match ref.space with
  | some space => qualify space.name ref.name.name
  | none => ref.name.name

/-- A literal value. -/
inductive Literal
  | int (value : Int32)
  | char (value : UInt8)
  | bool (value : Bool)
deriving DecidableEq, Repr, Inhabited

/-- The machine word of a literal. -/
def Literal.word : Literal → Int32
  | int value => value
  | char value => Int32.ofNat value.toNat
  | bool value => if value then 1 else 0

mutual

/-- A place or a method. -/
inductive Designator
  /-- A plain name. -/
  | name (node : Node) (ident : Ident)
  /-- A name of a namespace, `space::ident`. -/
  | qualified (node : Node) (space ident : Ident)
  /-- An array element, `base[index]`. -/
  | element (node : Node) (base : Designator) (index : Expr)
  /-- A member, `base.ident`. -/
  | member (node : Node) (base : Designator) (ident : Ident)

/-- An expression. -/
inductive Expr
  /-- A literal value. -/
  | literal (node : Node) (value : Literal)
  /-- The value of a designator. -/
  | load (node : Node) (source : Designator)
  /-- The result of a call. -/
  | call (node : Node) (call : Call)
  /-- A new array, `new element[length]`. -/
  | newArray (node : Node) (element : TypeRef) (length : Expr)
  /-- A new object, `new type`. -/
  | newObject (node : Node) (type : TypeRef)
  /-- The negation of an expression. -/
  | neg (node : Node) (operand : Expr)
  /-- An arithmetic operation. -/
  | arith (node : Node) (op : ArithOp) (left right : Expr)

/-- A method call, used as an expression or as a statement. -/
inductive Call
  /-- Call `callee` with `arguments`. -/
  | mk (span : Span) (callee : Designator) (arguments : List Expr)

end

namespace Designator

/-- The node of a designator. -/
def node : Designator → Node
  | name node _ => node
  | qualified node _ _ => node
  | element node _ _ => node
  | member node _ _ => node

/-- The number of a designator. -/
def id (designator : Designator) : NodeId := designator.node.id

/-- Where a designator starts. -/
def span (designator : Designator) : Span := designator.node.span

/-- The designator as messages show it; indices are left out. -/
def text : Designator → String
  | name _ ident => ident.name
  | qualified _ space ident => qualify space.name ident.name
  | element _ base _ => base.text ++ "[]"
  | member _ base ident => dotted base.text ident.name

end Designator

namespace Expr

/-- The node of an expression. -/
def node : Expr → Node
  | literal node _ => node
  | load node _ => node
  | call node _ => node
  | newArray node _ _ => node
  | newObject node _ => node
  | neg node _ => node
  | arith node _ _ _ => node

/-- The number of an expression. -/
def id (expr : Expr) : NodeId := expr.node.id

/-- Where an expression starts. -/
def span (expr : Expr) : Span := expr.node.span

end Expr

namespace Call

/-- Where a call starts. -/
def span : Call → Span
  | mk span _ _ => span

/-- The designator that is called. -/
def callee : Call → Designator
  | mk _ callee _ => callee

/-- The arguments as written, without a receiver. -/
def arguments : Call → List Expr
  | mk _ _ arguments => arguments

end Call
end MicroJava
