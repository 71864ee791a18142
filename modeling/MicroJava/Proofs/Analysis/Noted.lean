import MicroJava.Proofs.Analysis.Visits

/-!
# What annotations say

The rules here relate the annotation of each node of a body to the annotations of the nodes
below it and to the symbols and types of the whole program.
-/

namespace MicroJava

variable {setting : Setting}

/-! ## Units -/

namespace DeclUnit

/-- The symbol of a unit with code. -/
def owner? (notes : Annotations) : DeclUnit → Option SymbolId
  | type _ => none
  | init block => notes.symbol? block.node.id
  | method decl => notes.symbol? decl.node.id

/-- The type of a class. -/
def class? (notes : Annotations) : DeclUnit → Option TypeId
  | type decl => notes.type? decl.node.id
  | init _ => none
  | method _ => none

/-- The symbol of a static initializer. -/
def init? (notes : Annotations) : DeclUnit → Option SymbolId
  | type _ => none
  | init block => notes.symbol? block.node.id
  | method _ => none

/-- A static initializer has neither parameters nor a result.  What is called on an object is not
static, and it has its receiver as a parameter. -/
def Suits (symbol : Symbol) : DeclUnit → Prop
  | type _ => True
  | init _ => symbol.paramCount = 0 ∧ symbol.type = .none ∧ symbol.isVirtual = false
  | method decl => symbol.isVirtual → 0 < symbol.paramCount ∧ decl.isStatic = false

end DeclUnit

/-- The class whose field a designator may be: that of the object in front of a member, and
otherwise the class around. -/
def Designator.home? (notes : Annotations) (table : Table)
    (around : Option TypeId) : Designator → Option TypeId
  | .member _ base _ =>
      let owner := table.symbol ((notes.symbol? base.id).getD .absent)
      if owner.kind = .type then around else some owner.type
  | _ => around

/-- A class has a member, or overrides a method that it inherits. -/
structure Table.Lists (table : Table) (type : TypeId) (id : SymbolId) : Prop where
  hasType : table.HasType type
  isClass : table.isClass type
  member : id ∈ (table.desc type).members ∨ (table.symbol id).kind = .method ∧
    ∃ parent, (table.desc type).parent = some parent ∧ id ∈ (table.desc parent).members

/-! ## Settings -/

/-- What the annotations of a body are read with. -/
structure Setting where
  notes : Annotations
  table : Table
  locals : List SymbolId
  around : Option TypeId
  units : List DeclUnit
  builtins : Builtins
  plain : Prop
  receiver : Prop
  result : TypeId

namespace Setting

/-- A method that is predefined or belongs to a unit up to the present one. -/
def HasCode (setting : Setting) (id : SymbolId) : Prop :=
  id ∈ setting.builtins.all ∨ ∃ part ∈ setting.units, part.owner? setting.notes = some id

/-- A class that is declared up to the present unit. -/
def HasObjects (setting : Setting) (type : TypeId) : Prop :=
  ∃ part ∈ setting.units, part.class? setting.notes = some type

/-- A symbol that a name leads to. -/
structure Finds (setting : Setting) (id : SymbolId) : Prop where
  present : id ≠ .absent
  var : (setting.table.symbol id).kind = .var →
    (setting.table.symbol id).level = 0 ∨ id ∈ setting.locals
  value : (setting.table.symbol id).hasValue → (setting.table.symbol id).type.IsProper
  typed : (setting.table.symbol id).type = .none ∨ (setting.table.symbol id).type.IsProper
  type : (setting.table.symbol id).kind = .type →
    setting.table.isClass (setting.table.symbol id).type →
    setting.HasObjects (setting.table.symbol id).type
  method : (setting.table.symbol id).kind = .method → setting.HasCode id
  field : (setting.table.symbol id).kind = .field → (setting.table.symbol id).level ≠ 0
  named : (setting.table.symbol id).kind ≠ .element

/-- A symbol that is used together with an object. -/
def NeedsObject (setting : Setting) (id : SymbolId) : Prop :=
  (setting.table.symbol id).NeedsObject

theorem Finds.level_ne_zero {id : SymbolId} (finds : setting.Finds id)
    (needs : setting.NeedsObject id) :
    (setting.table.symbol id).level ≠ 0 := by
  rcases needs with isField | isVirtual
  · exact finds.field isField
  · rw [Symbol.isVirtual, Bool.and_eq_true, decide_eq_true_iff, decide_eq_true_iff] at isVirtual
    rw [isVirtual.2]
    decide

theorem NeedsObject.kind_ne_var {id : SymbolId} (needs : setting.NeedsObject id) :
    (setting.table.symbol id).kind ≠ .var := by
  rcases Symbol.NeedsObject.kind needs with kind | kind <;> rw [kind] <;> decide

/-- What is used together with an object is a member of a class. -/
def IsLocated (setting : Setting) (home : Option TypeId) (id : SymbolId) : Prop :=
  setting.NeedsObject id → ∃ type, home = some type ∧ setting.table.Lists type id

/-- The class around a unit. -/
def Surrounds (setting : Setting) (part : DeclUnit) : Option TypeId → Prop
  | some type => ∃ decl, .type decl ∈ setting.units ∧ part ∈ decl.memberUnits ∧
      setting.notes.type? decl.node.id = some type
  | none => ∀ decl, .type decl ∈ setting.units → part ∉ decl.memberUnits

/-- The symbol of an element of an array; what has no type has no elements. -/
def IsElement (setting : Setting) (array id : SymbolId) : Prop :=
  let type := (setting.table.symbol array).type
  if setting.table.kind type = .array then
    id ≠ .absent ∧ (setting.table.symbol id).kind = .element ∧
      (setting.table.symbol id).type = setting.table.element type
  else
    id = .absent ∧ type = .none

/-- A field or a method of a class. -/
structure BelongsToObjects (setting : Setting) (id : SymbolId) : Prop where
  kind : (setting.table.symbol id).kind = .field ∨ (setting.table.symbol id).kind = .method
  level : (setting.table.symbol id).level = 1

/-- The symbol of a member of an object or of a class; what has no type has no members. -/
def IsMember (setting : Setting) (owner id : SymbolId) : Prop :=
  let symbol := setting.table.symbol owner
  if setting.table.isClass symbol.type then
    setting.Finds id ∧
      (setting.plain → symbol.kind = .type → (setting.table.symbol id).level = 0) ∧
      (symbol.kind ≠ .type → setting.BelongsToObjects id) ∧
      setting.IsLocated (if symbol.kind = .type then setting.around else some symbol.type) id
  else
    id = .absent ∧ symbol.type = .none

/-- The number of arguments of a call; a receiver counts as one. -/
def HasArity (setting : Setting) (id : SymbolId) (count : Nat) : Prop :=
  (setting.table.symbol id).paramCount =
    if (setting.table.symbol id).isVirtual then count + 1 else count

/-- An array may take the elements of another one; what has no type may take everything. -/
def Unpacks (setting : Setting) (array source : SymbolId) : Prop :=
  let type := (setting.table.symbol array).type
  let sourceType := (setting.table.symbol source).type
  type = .none ∨ sourceType = .none ∨
    setting.table.kind type = .array ∧ setting.table.kind sourceType = .array ∧
      (setting.table.element type = .none ∨
        setting.table.element sourceType = setting.table.element type)

/-- A designator that a value may be stored in. -/
def IsTarget (setting : Setting) (target : Designator) : Prop :=
  ∃ id, setting.notes.symbol? target.id = some id ∧
    (id = .absent ∨ (setting.table.symbol id).isAssignable)

end Setting

mutual

/-- The annotation of a designator and of what it consists of. -/
def Designator.IsNoted (setting : Setting) (designator : Designator) : Prop :=
  match designator with
  | .name node _ =>
      ∃ id, setting.notes.symbol? node.id = some id ∧ setting.Finds id ∧
        (setting.plain → setting.NeedsObject id → setting.receiver) ∧
        setting.IsLocated setting.around id
  | .qualified node _ _ =>
      ∃ id, setting.notes.symbol? node.id = some id ∧ setting.Finds id ∧
        (setting.plain → (setting.table.symbol id).level = 0) ∧
        setting.IsLocated setting.around id
  | .element node base index =>
      base.IsNoted setting ∧ index.IsNoted setting ∧
        ∃ array id, setting.notes.symbol? base.id = some array ∧
          setting.notes.symbol? node.id = some id ∧ setting.IsElement array id
  | .member node base _ =>
      base.IsNoted setting ∧
        ∃ owner id, setting.notes.symbol? base.id = some owner ∧
          setting.notes.symbol? node.id = some id ∧ setting.IsMember owner id

/-- The annotation of an expression and of what it consists of. -/
def Expr.IsNoted (setting : Setting) (expression : Expr) : Prop :=
  match expression with
  | .literal node value => setting.notes.type? node.id = some value.type
  | .load node source =>
      source.IsNoted setting ∧
        ∃ id, setting.notes.symbol? source.id = some id ∧
          (setting.table.symbol id).hasValue ∧
          setting.notes.type? node.id = some (setting.table.symbol id).type
  | .call node call =>
      call.IsNoted setting ∧
        ∃ id, setting.notes.symbol? call.callee.id = some id ∧
          setting.notes.type? node.id = some (setting.table.symbol id).type ∧
          (id = .absent ∨ (setting.table.symbol id).type ≠ .none)
  | .newArray node _ length =>
      length.IsNoted setting ∧ ∃ type, setting.notes.type? node.id = some type ∧ type ≠ .none
  | .newObject node _ =>
      ∃ type, setting.notes.type? node.id = some type ∧ type ≠ .none ∧ setting.HasObjects type
  | .neg node operand =>
      operand.IsNoted setting ∧
        ∃ type, setting.notes.type? operand.id = some type ∧
          setting.notes.type? node.id = some type ∧ (type = .int ∨ type = .none)
  | .arith node _ left right =>
      left.IsNoted setting ∧ right.IsNoted setting ∧
        ∃ leftType rightType type, setting.notes.type? left.id = some leftType ∧
          setting.notes.type? right.id = some rightType ∧
          setting.notes.type? node.id = some type ∧
          (type = .int ∨ type = .none ∧ (leftType = .none ∨ rightType = .none))

/-- The annotations of expressions. -/
def Expr.AreNoted (setting : Setting) (expressions : List Expr) : Prop :=
  match expressions with
  | [] => True
  | first :: rest => first.IsNoted setting ∧ Expr.AreNoted setting rest

/-- The annotations of a call. -/
def Call.IsNoted (setting : Setting) (call : Call) : Prop :=
  match call with
  | .mk _ callee arguments =>
      callee.IsNoted setting ∧ Expr.AreNoted setting arguments ∧
        ∃ id, setting.notes.symbol? callee.id = some id ∧
          (id = .absent ∨ (setting.table.symbol id).kind = .method ∧
            setting.HasArity id arguments.length)

end

theorem Designator.IsNoted.exists_symbol {designator : Designator}
    (noted : designator.IsNoted setting) :
    ∃ id, setting.notes.symbol? designator.id = some id := by
  cases designator with
  | name _ _ | qualified _ _ _ =>
    obtain ⟨id, found, _⟩ := noted
    exact ⟨id, found⟩
  | element node base index =>
    obtain ⟨_, _, _, id, _, found, _⟩ := noted
    exact ⟨id, found⟩
  | member node base _ =>
    obtain ⟨_, _, id, _, found, _⟩ := noted
    exact ⟨id, found⟩

/-- The annotations of a fact. -/
def Fact.IsNoted (setting : Setting) : Fact → Prop
  | .truth value => value.IsNoted setting
  | .relation _ left _ right => left.IsNoted setting ∧ right.IsNoted setting

/-- The annotations of a condition. -/
def Condition.IsNoted (setting : Setting) (condition : Condition) : Prop :=
  ∀ term ∈ condition, ∀ fact ∈ term, fact.IsNoted setting

/-- The annotations of an action. -/
def Action.IsNoted (setting : Setting) : Action → Prop
  | .assign _ target value =>
      target.IsNoted setting ∧ setting.IsTarget target ∧ value.IsNoted setting
  | .increment _ target => target.IsNoted setting ∧ setting.IsTarget target
  | .decrement _ target => target.IsNoted setting ∧ setting.IsTarget target
  | .call _ target => target.IsNoted setting
  | .unpack _ targets rest source =>
      rest.IsNoted setting ∧ setting.IsTarget rest ∧ source.IsNoted setting ∧
        (∀ target, some target ∈ targets → target.IsNoted setting ∧ setting.IsTarget target) ∧
        ∃ array id, setting.notes.symbol? rest.id = some array ∧
          setting.notes.symbol? source.id = some id ∧ setting.Unpacks array id

mutual

/-- The annotations of a statement, which stands in a loop or not. -/
def Stmt.IsNoted (setting : Setting) (inLoop : Bool) (statement : Stmt) : Prop :=
  match statement with
  | .action step => step.IsNoted setting
  | .ifThen _ condition body => condition.IsNoted setting ∧ body.IsNoted setting inLoop
  | .ifElse _ condition body alternative =>
      condition.IsNoted setting ∧ body.IsNoted setting inLoop ∧
        alternative.IsNoted setting inLoop
  | .loop _ init condition update body =>
      (∀ action ∈ init, action.IsNoted setting) ∧
        (∀ test, condition = some test → Condition.IsNoted setting test) ∧
        (∀ action ∈ update, action.IsNoted setting) ∧ body.IsNoted setting true
  | .breakLoop _ => inLoop
  | .continueLoop _ => inLoop
  | .ret _ value =>
      (∀ result, value = some result → result.IsNoted setting) ∧
        (value.isSome ↔ setting.result ≠ .none)
  | .read _ target => target.IsNoted setting ∧ setting.IsTarget target
  | .print _ value _ => value.IsNoted setting
  | .block _ body => Stmt.AreNoted setting inLoop body

/-- The annotations of statements. -/
def Stmt.AreNoted (setting : Setting) (inLoop : Bool) (statements : List Stmt) : Prop :=
  match statements with
  | [] => True
  | first :: rest => first.IsNoted setting inLoop ∧ Stmt.AreNoted setting inLoop rest

end

/-! ## Checks without violations -/

/-- A name with a mark of qualified names. -/
def IsQualified (name : String) : Prop := ':' ∈ name.toList ∨ '.' ∈ name.toList

theorem isQualified_qualify (space name : String) : IsQualified (qualify space name) := by
  simp [IsQualified, qualify]

theorem isQualified_dotted (owner name : String) : IsQualified (dotted owner name) := by
  simp [IsQualified, dotted]

namespace Checker

/-- A frame binds a name to a symbol. -/
def Binds (checker : Checker) (name : String) (id : SymbolId) : Prop :=
  ∃ frame ∈ checker.scopes.frames, frame.find? name = some id

variable {checker : Checker} {name : String} {id : SymbolId}

theorem binds_of_find? (found : checker.scopes.find? name = some id) : checker.Binds name id :=
  List.exists_of_findSome?_eq_some found

theorem find?_find (present : ¬ (checker.scopes.find name).isAbsent) :
    checker.scopes.find? name = some (checker.scopes.find name) := by
  cases found : checker.scopes.find? name with
  | none =>
    have absent : checker.scopes.find name = .absent := by rw [Scopes.find, found, Option.getD_none]
    rw [absent] at present
    exact absurd (by decide) present
  | some id => rw [Scopes.find, found, Option.getD_some]

theorem binds_find (present : ¬ (checker.scopes.find name).isAbsent) :
    checker.Binds name (checker.scopes.find name) :=
  binds_of_find? (find?_find present)

theorem binds_of_findStatic? {owner : TypeId} (found : checker.findStatic? owner name = some id) :
    ∃ qualified, IsQualified qualified ∧ checker.Binds qualified id := by
  obtain ⟨type, _, found⟩ := List.exists_of_findSome?_eq_some found
  exact ⟨_, isQualified_dotted _ _, binds_of_find? found⟩

theorem binds_of_findAt? {outer : Nat} (found : checker.scopes.findAt? outer name = some id) :
    checker.Binds name id := by
  obtain ⟨frame, at_, found⟩ := Option.bind_eq_some_iff.mp found
  rw [Scopes.frameAt?] at at_
  split at at_
  · exact ⟨frame, List.mem_of_getElem? at_, found⟩
  · cases at_

end Checker

namespace Setting

/-- The names that are visible at the start of a body lead to symbols of the program. -/
structure Covers (setting : Setting) (checker : Checker) : Prop where
  valid : checker.table.IsValid
  names : ∀ name id, checker.Binds name id → checker.table.HasSymbol id ∧ setting.Finds id ∧
    setting.IsLocated setting.around id
  qualified : setting.plain → ∀ name id, checker.Binds name id → IsQualified name →
    (setting.table.symbol id).level = 0
  members : ∀ type, checker.table.HasType type → checker.table.isClass type →
    (∀ context, checker.owner = some context → context.type ≠ type) →
    ∀ id ∈ (checker.table.desc type).members,
      checker.table.HasSymbol id ∧ setting.Finds id ∧ setting.BelongsToObjects id ∧
        setting.IsLocated (some type) id
  ownMembers : ∀ owner, checker.owner = some owner → ∀ name id,
    checker.scopes.findAt? owner.frame name = some id →
      setting.BelongsToObjects id ∧ setting.IsLocated (some owner.type) id
  reachable : ∀ name id, checker.scopes.find? name = some id → setting.NeedsObject id →
    ∃ owner, checker.owner = some owner ∧ checker.scopes.frameOf? name = some owner.frame
  method : ∃ method, checker.method = some method ∧ method.result = setting.result ∧
    (method.isStatic = false → setting.receiver)
  arity : ∀ id, checker.table.HasSymbol id → (checker.table.symbol id).kind = .method →
    (setting.table.symbol id).paramCount = (checker.table.symbol id).paramCount

/-- The final state has what was found out about some nodes by the time of a state without
violations. -/
structure Ends (setting : Setting) (nodes : List NodeId) (checker : Checker) : Prop where
  clean : checker.IsClean
  grows : checker.table.Grows setting.table
  agrees : ∀ node ∈ nodes, setting.notes.AgreesAt checker.notes node

namespace Covers

theorem visits {setting : Setting} {nodes : List NodeId} {before after : Checker}
    (covers : setting.Covers before) (visits : before.Visits nodes after) :
    setting.Covers after where
  valid := visits.table.valid covers.valid
  names := by
    intro name id bound
    rw [Checker.Binds, visits.scopes] at bound
    obtain ⟨has, finds⟩ := covers.names name id bound
    exact ⟨visits.table.grows.hasSymbol has, finds⟩
  qualified := by
    intro plain name id bound
    rw [Checker.Binds, visits.scopes] at bound
    exact covers.qualified plain name id bound
  members type hasType isClass other id member := by
    by_cases old : before.table.HasType type
    · rw [visits.table.desc_eq old] at member
      rw [visits.owner] at other
      rw [visits.table.grows.isClass old] at isClass
      obtain ⟨has, finds⟩ := covers.members type old isClass other id member
      exact ⟨visits.table.grows.hasSymbol has, finds⟩
    · rw [(visits.table.array_of_fresh hasType old).2] at member
      cases member
  ownMembers := by
    rw [visits.owner, visits.scopes]
    exact covers.ownMembers
  reachable := by
    rw [visits.owner, visits.scopes]
    exact covers.reachable
  method := by
    obtain ⟨method, isMethod, known⟩ := covers.method
    obtain ⟨later, isLater, result, isStatic⟩ := visits.method_some isMethod
    exact ⟨later, isLater, result ▸ isStatic ▸ known⟩
  arity := by
    intro id has kind
    obtain ⟨old, same⟩ := visits.table.method_of_kind has kind
    rw [same] at kind ⊢
    exact covers.arity id old kind

end Covers

end Setting
end MicroJava
