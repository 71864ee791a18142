import MicroJava.Tree.Stmt

/-!
# Declarations and programs

A program declares constants, variables and classes, then methods; namespaces
group further declarations and methods under a common name.  A class may extend
another one, and has static variables, static initializers, fields and methods.
-/

namespace MicroJava

/-- One declared variable, field or local. -/
structure VarItem where
  /-- The declared name. -/
  name : Ident
  /-- Whether it is declared as an array. -/
  isArray : Bool
  /-- Where it is declared. -/
  span : Span
deriving Inhabited

/-- Variables of one type. -/
structure VarDecl where
  /-- The type, or the element type of the arrays among the items. -/
  type : TypeRef
  /-- The declared names. -/
  items : List VarItem
deriving Inhabited

/-- One named constant. -/
structure ConstItem where
  /-- The declared name. -/
  name : Ident
  /-- The value of the constant. -/
  value : Literal
  /-- Where it is declared. -/
  span : Span
deriving Inhabited

/-- Constants of one type. -/
structure ConstDecl where
  /-- The type of the constants. -/
  type : TypeRef
  /-- The declared constants. -/
  items : List ConstItem
deriving Inhabited

/-- A formal parameter. -/
structure Param where
  /-- The type, or the element type of an array parameter. -/
  type : TypeRef
  /-- The declared name. -/
  name : Ident
  /-- Whether it is an array. -/
  isArray : Bool
  /-- Where it is declared. -/
  span : Span
deriving Inhabited

/-- A method of the program, of a namespace or of a class. -/
structure MethodDecl where
  /-- Identity and position. -/
  node : Node
  /-- Whether a method of a class has no receiver. -/
  isStatic : Bool
  /-- The returned type, nothing for a `void` method. -/
  result : Option TypeRef
  /-- Whether an array of the returned type is returned. -/
  returnsArray : Bool
  /-- The declared name. -/
  name : Ident
  /-- The parameters as written, without a receiver. -/
  params : List Param
  /-- The local variables. -/
  locals : List VarDecl
  /-- The statements of the method. -/
  body : List Stmt
deriving Inhabited

/-- A block run before the body of `main`. -/
structure StaticInit where
  /-- Identity and position. -/
  node : Node
  /-- The statements of the block. -/
  body : List Stmt
deriving Inhabited

/-- A class. -/
structure ClassDecl where
  /-- Identity and position. -/
  node : Node
  /-- The declared name. -/
  name : Ident
  /-- The class it extends. -/
  parent : Option TypeRef
  /-- Variables shared by all objects of the class. -/
  staticVars : List VarDecl
  /-- Blocks that set up the static variables. -/
  staticInits : List StaticInit
  /-- Variables of each object. -/
  fields : List VarDecl
  /-- Static and instance methods. -/
  methods : List MethodDecl
deriving Inhabited

/-- A declaration of the program or of a namespace. -/
inductive Decl
  | consts (decl : ConstDecl)
  | vars (decl : VarDecl)
  | type (decl : ClassDecl)

/-- Declarations under a common name. -/
structure Namespace where
  /-- The name of the namespace. -/
  name : Ident
  /-- Its constants, variables and classes. -/
  decls : List Decl
  /-- Its methods. -/
  methods : List MethodDecl
deriving Inhabited

/-- A whole program. -/
structure Program where
  /-- The name of the program. -/
  name : Ident
  /-- The namespaces, declared first. -/
  spaces : List Namespace
  /-- The constants, variables and classes outside namespaces. -/
  decls : List Decl
  /-- The methods outside namespaces. -/
  methods : List MethodDecl
  /-- Where the program starts. -/
  span : Span
deriving Inhabited

end MicroJava
