import MicroJava.Tree.Program

/-!
# Making numbered trees

A supply hands out the numbers of nodes, in the order in which the nodes are
made, and remembers the current line.  Every construct made from a supply starts
at the line that is current at that moment.  Numbers go to designators,
expressions, methods, classes and static initializers.
-/

namespace MicroJava

/-- What is needed to make the next node. -/
structure Supply where
  /-- The number of the next node, which is also how many were handed out. -/
  next : NodeId := 0
  /-- The current line. -/
  line : Nat := 1
deriving DecidableEq, Repr, Inhabited

/-- Construction of a tree from a supply. -/
abbrev Planted := StateM Supply

namespace Supply

/-- What is made from a new supply. -/
def plant {α : Type} (make : Planted α) : α :=
  (make.run {}).1

/-- Move to another line. -/
def setLine (line : Nat) : Planted Unit :=
  modify fun supply => { supply with line := line }

/-- The current position. -/
def span : Planted Span :=
  return Span.ofLine (← get).line

/-- A fresh node at the current position. -/
def node : Planted Node :=
  modifyGet fun supply =>
    ({ id := supply.next, span := Span.ofLine supply.line },
      { supply with next := supply.next + 1 })

/-! ## Names and types -/

/-- A name. -/
def ident (name : String) : Planted Ident :=
  return { name := name, span := ← span }

/-- A reference to a type. -/
def typeRef (space : Option String)
    (name : String) : Planted TypeRef :=
  return {
    space := ← space.mapM ident
    name := ← ident name
    span := ← span }

/-! ## Designators -/

/-- The designator `name`. -/
def name (name : String) : Planted Designator :=
  return .name (← node) (← ident name)

/-- The designator `space::name`. -/
def qualified (space name : String) : Planted Designator :=
  return .qualified (← node) (← ident space) (← ident name)

/-- The designator `base[index]`. -/
def element (base : Designator) (index : Expr) : Planted Designator :=
  return .element (← node) base index

/-- The designator `base.name`. -/
def member (base : Designator) (name : String) : Planted Designator :=
  return .member (← node) base (← ident name)

/-! ## Expressions -/

/-- A literal expression. -/
def literal (value : Literal) : Planted Expr :=
  return .literal (← node) value

/-- The value of a designator. -/
def load (source : Designator) : Planted Expr :=
  return .load (← node) source

/-- The value of a variable: its designator, then the expression that reads it. -/
def value (text : String) : Planted Expr := do
  load (← name text)

/-- A call that is yet to become an expression or a statement. -/
def call (callee : Designator) (arguments : List Expr) : Planted Call :=
  return .mk (← span) callee arguments

/-- A call used as an expression. -/
def callExpr (callee : Designator) (arguments : List Expr) : Planted Expr := do
  let call ← call callee arguments
  return .call (← node) call

/-- The expression `new element[length]`. -/
def newArray (element : TypeRef) (length : Expr) : Planted Expr :=
  return .newArray (← node) element length

/-- The expression `new type`. -/
def newObject (type : TypeRef) : Planted Expr :=
  return .newObject (← node) type

/-- The negation of an expression. -/
def neg (operand : Expr) : Planted Expr :=
  return .neg (← node) operand

/-- An arithmetic operation. -/
def arith (op : ArithOp) (left right : Expr) : Planted Expr :=
  return .arith (← node) op left right

/-! ## Conditions and statements -/

/-- A comparison. -/
def relation (left : Expr) (op : RelOp) (right : Expr) : Planted Fact :=
  return .relation (← span) left op right

/-- The action `target = value`. -/
def assign (target : Designator) (value : Expr) : Planted Action :=
  return .assign (← span) target value

/-- The action `target++`. -/
def increment (target : Designator) : Planted Action :=
  return .increment (← span) target

/-- The action `target--`. -/
def decrement (target : Designator) : Planted Action :=
  return .decrement (← span) target

/-- A call used as an action. -/
def callAction (callee : Designator) (arguments : List Expr) : Planted Action := do
  let call ← call callee arguments
  return .call (← span) call

/-- The action `[targets, *rest] = source`. -/
def unpack (targets : List (Option Designator))
    (rest source : Designator) : Planted Action :=
  return .unpack (← span) targets rest source

/-- A branch, with or without an alternative. -/
def branch (condition : Condition) (body : Stmt)
    (alternative : Option Stmt) : Planted Stmt := do
  let span ← span
  match alternative with
  | some alternative => return .ifElse span condition body alternative
  | none => return .ifThen span condition body

/-- A loop. -/
def loop (init : List Action) (condition : Option Condition) (update : List Action)
    (body : Stmt) : Planted Stmt :=
  return .loop (← span) init condition update body

/-- A statement that leaves the innermost loop. -/
def breakLoop : Planted Stmt :=
  return .breakLoop (← span)

/-- A statement that goes on with the innermost loop. -/
def continueLoop : Planted Stmt :=
  return .continueLoop (← span)

/-- A return statement. -/
def ret (value : Option Expr) : Planted Stmt :=
  return .ret (← span) value

/-- A statement that reads into a place. -/
def read (target : Designator) : Planted Stmt :=
  return .read (← span) target

/-- A statement that prints a value. -/
def print (value : Expr) (width : Option Int32) : Planted Stmt :=
  return .print (← span) value width

/-- A sequence of statements. -/
def block (body : List Stmt) : Planted Stmt :=
  return .block (← span) body

/-! ## Declarations -/

/-- Variables of one type, each with a mark that tells arrays. -/
def vars (type : TypeRef) (names : List (String × Bool)) : Planted VarDecl := do
  let items ← names.mapM fun (name, isArray) =>
    return { name := ← ident name, isArray := isArray, span := ← span }
  return { type := type, items := items }

/-- Constants of one type. -/
def consts (type : TypeRef) (values : List (String × Literal)) : Planted ConstDecl := do
  let items ← values.mapM fun (name, value) =>
    return { name := ← ident name, value := value, span := ← span }
  return { type := type, items := items }

/-- A parameter. -/
def param (type : TypeRef) (name : String) (isArray : Bool) : Planted Param :=
  return { type := type, name := ← ident name, isArray := isArray, span := ← span }

/-- A method. -/
def method (isStatic : Bool) (result : Option TypeRef) (returnsArray : Bool) (name : String)
    (params : List Param) (locals : List VarDecl)
    (body : List Stmt) : Planted MethodDecl :=
  return {
    node := ← node
    isStatic := isStatic
    result := result
    returnsArray := returnsArray
    name := ← ident name
    params := params
    locals := locals
    body := body }

/-- A static initializer. -/
def staticInit (body : List Stmt) : Planted StaticInit :=
  return { node := ← node, body := body }

/-- A class. -/
def type (name : String) (parent : Option TypeRef) (staticVars : List VarDecl)
    (staticInits : List StaticInit) (fields : List VarDecl)
    (methods : List MethodDecl) : Planted ClassDecl :=
  return {
    node := ← node
    name := ← ident name
    parent := parent
    staticVars := staticVars
    staticInits := staticInits
    fields := fields
    methods := methods }

/-- A namespace. -/
def space (name : String) (decls : List Decl)
    (methods : List MethodDecl) : Planted Namespace :=
  return { name := ← ident name, decls := decls, methods := methods }

/-- A program. -/
def program (name : String) (spaces : List Namespace) (decls : List Decl)
    (methods : List MethodDecl) : Planted Program :=
  return {
    name := ← ident name
    spaces := spaces
    decls := decls
    methods := methods
    span := ← span }

end Supply
end MicroJava
