import Mathlib.Control.Traversable.Basic
import MicroJava.Tree.Program

/-!
# The parts of a program

The parts of a body are its designators and expressions, each before the parts it consists of.
-/

namespace MicroJava

open List

theorem split_append {α : Type} {item : α} {first second early late : List α}
    (split : first ++ second = early ++ item :: late) :
    (∃ middle, first = early ++ item :: middle ∧ late = middle ++ second) ∨
      ∃ middle, early = first ++ middle ∧ second = middle ++ item :: late := by
  rcases append_eq_append_iff.mp split with ⟨middle, rfl, rfl⟩ | ⟨_ | ⟨_, middle⟩, rfl, behind⟩
  · exact .inr ⟨middle, rfl, rfl⟩
  · exact .inr ⟨[], by simp, behind.symm⟩
  · obtain ⟨rfl, rfl⟩ := List.cons.inj behind
    exact .inl ⟨middle, rfl, rfl⟩

/-- A designator or an expression. -/
inductive Part
  | designator (place : Designator)
  | expression (value : Expr)

namespace Part

/-- The node of a part. -/
def node : Part → Node
  | designator place => place.node
  | expression value => value.node

/-- The number of a part. -/
def id (part : Part) : NodeId := part.node.id

end Part

mutual

/-- A designator and the parts it consists of. -/
def Designator.parts (designator : Designator) : List Part :=
  .designator designator :: (
    match designator with
    | .name _ _ => []
    | .qualified _ _ _ => []
    | .element _ base index => base.parts ++ index.parts
    | .member _ base _ => base.parts)

/-- An expression and the parts it consists of. -/
def Expr.parts (expression : Expr) : List Part :=
  .expression expression :: (
    match expression with
    | .literal _ _ => []
    | .load _ source => source.parts
    | .call _ call => call.parts
    | .newArray _ _ length => length.parts
    | .newObject _ _ => []
    | .neg _ operand => operand.parts
    | .arith _ _ left right => left.parts ++ right.parts)

/-- The parts of expressions that follow each other. -/
def Expr.partsOf (expressions : List Expr) : List Part :=
  match expressions with
  | [] => []
  | first :: rest => first.parts ++ Expr.partsOf rest

/-- The parts of a call. -/
def Call.parts (call : Call) : List Part :=
  match call with
  | .mk _ callee arguments => callee.parts ++ Expr.partsOf arguments

end

theorem Designator.mem_parts (designator : Designator) :
    .designator designator ∈ designator.parts := by
  unfold parts
  exact mem_cons_self

/-- The parts of a fact. -/
def Fact.parts : Fact → List Part
  | .truth value => value.parts
  | .relation _ left _ right => left.parts ++ right.parts

/-- The parts of a condition. -/
def Condition.parts (condition : Condition) : List Part :=
  condition.flatMap fun term => term.flatMap Fact.parts

/-- The parts of an action. -/
def Action.parts : Action → List Part
  | .assign _ target value => target.parts ++ value.parts
  | .increment _ target => target.parts
  | .decrement _ target => target.parts
  | .call _ target => target.parts
  | .unpack _ targets rest source =>
      rest.parts ++ source.parts ++ targets.flatMap fun target => target.elim [] Designator.parts

mutual

/-- The parts of a statement. -/
def Stmt.parts (statement : Stmt) : List Part :=
  match statement with
  | .action step => step.parts
  | .ifThen _ condition body => Condition.parts condition ++ body.parts
  | .ifElse _ condition body alternative =>
      Condition.parts condition ++ body.parts ++ alternative.parts
  | .loop _ init condition update body =>
      init.flatMap Action.parts ++ (condition.elim [] Condition.parts) ++
        update.flatMap Action.parts ++ body.parts
  | .breakLoop _ => []
  | .continueLoop _ => []
  | .ret _ value => value.elim [] Expr.parts
  | .read _ target => target.parts
  | .print _ value _ => value.parts
  | .block _ body => Stmt.partsOf body

/-- The parts of statements that follow each other. -/
def Stmt.partsOf (statements : List Stmt) : List Part :=
  match statements with
  | [] => []
  | first :: rest => first.parts ++ Stmt.partsOf rest

end

/-! ## Units -/

/-- A declaration with a node of its own. -/
inductive DeclUnit
  | type (decl : ClassDecl)
  | init (block : StaticInit)
  | method (decl : MethodDecl)

namespace DeclUnit

/-- The node of a unit. -/
def node : DeclUnit → Node
  | type decl => decl.node
  | init block => block.node
  | method decl => decl.node

/-- The statements of a unit. -/
def body : DeclUnit → List Stmt
  | type _ => []
  | init block => block.body
  | method decl => decl.body

/-- The parts of a unit. -/
def parts (part : DeclUnit) : List Part := Stmt.partsOf part.body

/-- The numbers of the nodes of a unit. -/
def nodes (part : DeclUnit) : List NodeId := part.node.id :: part.parts.map Part.id

end DeclUnit

theorem DeclUnit.nodup_earlier {earlier later : List DeclUnit}
    (distinct : ((earlier ++ later).flatMap nodes).Nodup) :
    (earlier.flatMap nodes).Nodup := by
  rw [flatMap_append] at distinct
  exact (nodup_append.mp distinct).1

theorem DeclUnit.notMem_of_nodup {earlier later : List DeclUnit} {part : DeclUnit}
    (distinct : ((earlier ++ later).flatMap nodes).Nodup) (isUnit : part ∈ earlier) :
    part ∉ later := by
  rw [flatMap_append, nodup_append] at distinct
  exact fun again => distinct.2.2 _ (mem_flatMap.mpr ⟨part, isUnit, mem_cons_self⟩) _
    (mem_flatMap.mpr ⟨part, again, mem_cons_self⟩) rfl

/-- The units in the body of a class. -/
def ClassDecl.memberUnits (decl : ClassDecl) : List DeclUnit :=
  decl.staticInits.map .init ++ decl.methods.map .method

/-- The units of a class. -/
def ClassDecl.units (decl : ClassDecl) : List DeclUnit := .type decl :: decl.memberUnits

/-- The names of the parameters and locals of a method. -/
def MethodDecl.localNames (decl : MethodDecl) : List String :=
  decl.params.map (·.name.name) ++ decl.locals.flatMap fun vars => vars.items.map (·.name.name)

/-- The names that are declared in the body of a class. -/
def ClassDecl.innerNames (decl : ClassDecl) : List String :=
  decl.fields.flatMap (fun vars => vars.items.map (·.name.name)) ++
    decl.methods.flatMap fun method => method.name.name :: method.localNames

/-- The names that are declared inside a declaration. -/
def Decl.innerNames : Decl → List String
  | .consts _ => []
  | .vars _ => []
  | .type decl => decl.innerNames

/-- The units of a declaration. -/
def Decl.units : Decl → List DeclUnit
  | .consts _ => []
  | .vars _ => []
  | .type decl => decl.units

/-- The units of declarations and methods that stand side by side. -/
def unitsOf (decls : List Decl) (methods : List MethodDecl) : List DeclUnit :=
  decls.flatMap Decl.units ++ methods.map .method

/-- The names that are declared inside declarations and methods. -/
def namesOf (decls : List Decl) (methods : List MethodDecl) : List String :=
  decls.flatMap Decl.innerNames ++ methods.flatMap MethodDecl.localNames

namespace Program

/-- The units of a program, in the order of its text. -/
def units (program : Program) : List DeclUnit :=
  program.spaces.flatMap (fun space => unitsOf space.decls space.methods) ++
    unitsOf program.decls program.methods

/-- How many units stand before the methods of the program. -/
def split (program : Program) : Nat :=
  (program.spaces.flatMap (fun space => unitsOf space.decls space.methods) ++
    program.decls.flatMap Decl.units).length

/-- The names that are declared in classes and methods. -/
def innerNames (program : Program) : List String :=
  program.spaces.flatMap (fun space => namesOf space.decls space.methods) ++
    namesOf program.decls program.methods

/-- The designators and expressions of a program. -/
def parts (program : Program) : List Part := program.units.flatMap DeclUnit.parts

/-- The numbers of all nodes of a program. -/
def nodes (program : Program) : List NodeId := program.units.flatMap DeclUnit.nodes

end Program
end MicroJava
