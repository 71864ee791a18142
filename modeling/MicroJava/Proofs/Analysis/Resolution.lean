import MicroJava.Proofs.Analysis.Soundness

/-!
# What names lead to

In a program without violations every name leads to a symbol.
-/

namespace MicroJava

open List

variable {id : SymbolId}

/-! ## Symbols of designators -/

namespace Setting

variable {setting : Setting}

theorem Finds.hasSymbol (finds : setting.Finds id) (valid : setting.table.IsValid) :
    setting.table.HasSymbol id := by
  by_contra outside
  have row := Table.symbol_of_not_hasSymbol outside
  have value := finds.value
  rw [row, Symbol.hasValue, valid.kind_absent, valid.type_absent] at value
  exact (value rfl).1 rfl

/-- What a designator with code stands for: a symbol that a name leads to, or an element of an
array. -/
def IsFound (setting : Setting) (id : SymbolId) : Prop :=
  setting.Finds id ∨
    id ≠ .absent ∧ (setting.table.symbol id).kind = .element ∧
      (setting.table.symbol id).type.IsProper

variable {array owner : SymbolId}

theorem IsFound.present (found : setting.IsFound id) : id ≠ .absent := by
  rcases found with finds | ⟨present, _⟩
  · exact finds.present
  · exact present

theorem IsFound.isProper (found : setting.IsFound id) (value : (setting.table.symbol id).hasValue) :
    (setting.table.symbol id).type.IsProper := by
  rcases found with finds | ⟨_, _, proper⟩
  · exact finds.value value
  · exact proper

theorem IsFound.finds (found : setting.IsFound id)
    (named : (setting.table.symbol id).kind ≠ .element) :
    setting.Finds id := by
  rcases found with finds | ⟨_, isElement, _⟩
  · exact finds
  · exact absurd isElement named

theorem IsFound.typed (found : setting.IsFound id) :
    (setting.table.symbol id).type = .none ∨ (setting.table.symbol id).type.IsProper := by
  rcases found with finds | ⟨_, _, proper⟩
  · exact finds.typed
  · exact .inr proper

theorem IsElement.isFound (isElement : setting.IsElement array id) (valid : setting.table.IsValid)
    (proper : (setting.table.symbol array).type.IsProper) :
    setting.IsFound id := by
  simp only [IsElement] at isElement
  split at isElement
  next isArray =>
    obtain ⟨present, kind, type⟩ := isElement
    exact .inr ⟨present, kind, type ▸ valid.isProper_element proper isArray⟩
  next => exact absurd isElement.2 proper.1

theorem IsElement.typed (isElement : setting.IsElement array id) (valid : setting.table.IsValid)
    (present : id ≠ .absent) :
    (setting.table.symbol array).type ≠ .none := by
  simp only [IsElement] at isElement
  split at isElement
  next isArray =>
    intro none
    rw [none, valid.kind_none] at isArray
    exact absurd isArray (by decide)
  next => exact absurd isElement.1 present

theorem IsMember.finds (isMember : setting.IsMember owner id)
    (typed : (setting.table.symbol owner).type ≠ .none) :
    setting.Finds id := by
  simp only [IsMember] at isMember
  split at isMember
  next => exact isMember.1
  next => exact absurd isMember.2 typed

theorem IsMember.typed (isMember : setting.IsMember owner id) (valid : setting.table.IsValid)
    (present : id ≠ .absent) :
    (setting.table.symbol owner).type ≠ .none := by
  simp only [IsMember] at isMember
  split at isMember
  next isClass =>
    intro none
    rw [none, valid.isClass_none] at isClass
    exact absurd isClass (by decide)
  next => exact absurd isMember.1 present

end Setting

/-! ## Parts -/

namespace Part

/-- The annotation of a part and of what it consists of. -/
def IsNoted (setting : Setting) : Part → Prop
  | designator place => place.IsNoted setting
  | expression value => value.IsNoted setting

/-- A part together with what it consists of. -/
def parts : Part → List Part
  | designator place => place.parts
  | expression value => value.parts

/-- What an element or a member is looked up in. -/
def base? : Part → Option Designator
  | designator (.element _ base _) => some base
  | designator (.member _ base _) => some base
  | _ => none

/-- A designator leads to a symbol, and an expression has a type. -/
def IsResolved (notes : Annotations) : Part → Prop
  | designator place => ∃ id, notes.symbol? place.id = some id ∧ id ≠ .absent
  | expression value => ∃ type, notes.type? value.id = some type ∧ type ≠ .none

/-- What a part is looked up in, if anything, leads to a symbol with a type. -/
def HasTypedBase (notes : Annotations) (table : Table) (part : Part) : Prop :=
  ∀ base, part.base? = some base →
    ∃ id, notes.symbol? base.id = some id ∧ (table.symbol id).type ≠ .none

instance (notes : Annotations) (part : Part) : Decidable (part.IsResolved notes) :=
  match part with
  | designator place =>
      decidable_of_iff ((notes.symbol? place.id).any (· ≠ .absent))
        (by simp [IsResolved, Option.any_eq_true])
  | expression value =>
      decidable_of_iff ((notes.type? value.id).any (· ≠ .none))
        (by simp [IsResolved, Option.any_eq_true])

instance (notes : Annotations) (table : Table) (part : Part) :
    Decidable (part.HasTypedBase notes table) :=
  decidable_of_iff
    (part.base?.all fun base => (notes.symbol? base.id).any fun id =>
      (table.symbol id).type ≠ .none)
    (by simp [HasTypedBase, Option.all_eq_true, Option.any_eq_true])

end Part

/-! ## Annotations of all parts -/

/-- Parts that keep the rules, together with what they consist of. -/
def Part.AreNoted (setting : Setting) (parts : List Part) : Prop :=
  ∀ part ∈ parts, part.IsNoted setting ∧ part.parts ⊆ parts

variable {setting : Setting}

namespace Part.AreNoted

theorem nil : AreNoted setting [] := nofun

theorem append {first second : List Part} (firstNoted : AreNoted setting first)
    (secondNoted : AreNoted setting second) :
    AreNoted setting (first ++ second) := by
  intro part member
  rcases mem_append.mp member with inFirst | inSecond
  · obtain ⟨noted, inside⟩ := firstNoted part inFirst
    exact ⟨noted, subset_append_of_subset_left _ inside⟩
  · obtain ⟨noted, inside⟩ := secondNoted part inSecond
    exact ⟨noted, subset_append_of_subset_right _ inside⟩

theorem cons {part : Part} {rest : List Part} (noted : part.IsNoted setting)
    (parts : part.parts = part :: rest) (restNoted : AreNoted setting rest) :
    AreNoted setting (part :: rest) := by
  intro other member
  rcases mem_cons.mp member with rfl | inside
  · exact ⟨noted, parts ▸ List.Subset.refl _⟩
  · obtain ⟨noted, inside⟩ := restNoted other inside
    exact ⟨noted, subset_cons_of_subset _ inside⟩

variable {α : Type} {parts : α → List Part}

theorem flatMap {items : List α} (each : ∀ item ∈ items, AreNoted setting (parts item)) :
    AreNoted setting (items.flatMap parts) := by
  intro part member
  obtain ⟨item, isItem, inside⟩ := mem_flatMap.mp member
  obtain ⟨noted, within⟩ := each item isItem part inside
  exact ⟨noted, fun inner inPart => mem_flatMap.mpr ⟨item, isItem, within inPart⟩⟩

theorem elim {item : Option α}
    (each : ∀ value, item = some value → AreNoted setting (parts value)) :
    AreNoted setting (item.elim [] parts) := by
  cases item with
  | none => exact nil
  | some value => exact each value rfl

end Part.AreNoted

mutual

theorem Designator.IsNoted.areNoted {designator : Designator} (noted : designator.IsNoted setting) :
    Part.AreNoted setting designator.parts := by
  match designator with
  | .name _ _ => exact .cons noted rfl .nil
  | .qualified _ _ _ => exact .cons noted rfl .nil
  | .element _ base index =>
    exact .cons noted rfl
      ((Designator.IsNoted.areNoted noted.1).append (Expr.IsNoted.areNoted noted.2.1))
  | .member _ base _ => exact .cons noted rfl (Designator.IsNoted.areNoted noted.1)

theorem Expr.IsNoted.areNoted {expression : Expr} (noted : expression.IsNoted setting) :
    Part.AreNoted setting expression.parts := by
  match expression with
  | .literal _ _ => exact .cons noted rfl .nil
  | .load _ source => exact .cons noted rfl (Designator.IsNoted.areNoted noted.1)
  | .call _ call => exact .cons noted rfl (Call.IsNoted.areNoted noted.1)
  | .newArray _ _ _ | .neg _ _ => exact .cons noted rfl (Expr.IsNoted.areNoted noted.1)
  | .newObject _ _ => exact .cons noted rfl .nil
  | .arith _ _ left right =>
    exact .cons noted rfl
      ((Expr.IsNoted.areNoted noted.1).append (Expr.IsNoted.areNoted noted.2.1))

theorem Expr.AreNoted.areNoted {expressions : List Expr}
    (noted : Expr.AreNoted setting expressions) :
    Part.AreNoted setting (Expr.partsOf expressions) := by
  match expressions with
  | [] => exact .nil
  | first :: rest =>
    exact (Expr.IsNoted.areNoted noted.1).append (Expr.AreNoted.areNoted noted.2)

theorem Call.IsNoted.areNoted {call : Call} (noted : call.IsNoted setting) :
    Part.AreNoted setting call.parts := by
  match call with
  | .mk _ callee arguments =>
    exact (Designator.IsNoted.areNoted noted.1).append (Expr.AreNoted.areNoted noted.2.1)

end

theorem Condition.IsNoted.areNoted {condition : Condition} (noted : condition.IsNoted setting) :
    Part.AreNoted setting (Condition.parts condition) := by
  refine .flatMap fun term isTerm => .flatMap fun fact isFact => ?_
  have noted := noted term isTerm fact isFact
  match fact with
  | .truth value => exact Expr.IsNoted.areNoted noted
  | .relation _ left _ right =>
    exact (Expr.IsNoted.areNoted noted.1).append (Expr.IsNoted.areNoted noted.2)

theorem Action.IsNoted.areNoted {action : Action} (noted : action.IsNoted setting) :
    Part.AreNoted setting action.parts := by
  match action with
  | .assign _ target value =>
    exact (Designator.IsNoted.areNoted noted.1).append (Expr.IsNoted.areNoted noted.2.2)
  | .increment _ target | .decrement _ target => exact Designator.IsNoted.areNoted noted.1
  | .call _ target => exact Call.IsNoted.areNoted noted
  | .unpack _ targets rest source =>
    obtain ⟨restNoted, _, sourceNoted, targetsNoted, _⟩ := noted
    refine ((Designator.IsNoted.areNoted restNoted).append
      (Designator.IsNoted.areNoted sourceNoted)).append
        (.flatMap fun target isTarget => .elim fun place same => ?_)
    exact Designator.IsNoted.areNoted (targetsNoted place (same ▸ isTarget)).1

mutual

theorem Stmt.IsNoted.areNoted {inLoop : Bool} {statement : Stmt}
    (noted : statement.IsNoted setting inLoop) :
    Part.AreNoted setting statement.parts := by
  match statement with
  | .action step => exact Action.IsNoted.areNoted noted
  | .ifThen _ condition body =>
    exact (Condition.IsNoted.areNoted noted.1).append (Stmt.IsNoted.areNoted noted.2)
  | .ifElse _ condition body alternative =>
    exact ((Condition.IsNoted.areNoted noted.1).append (Stmt.IsNoted.areNoted noted.2.1)).append
      (Stmt.IsNoted.areNoted noted.2.2)
  | .loop _ init condition update body =>
    obtain ⟨initNoted, conditionNoted, updateNoted, bodyNoted⟩ := noted
    have init : Part.AreNoted setting (init.flatMap Action.parts) :=
      .flatMap fun action member => Action.IsNoted.areNoted (initNoted action member)
    have condition : Part.AreNoted setting (condition.elim [] Condition.parts) :=
      .elim fun test same => Condition.IsNoted.areNoted (conditionNoted test same)
    have update : Part.AreNoted setting (update.flatMap Action.parts) :=
      .flatMap fun action member => Action.IsNoted.areNoted (updateNoted action member)
    exact ((init.append condition).append update).append (Stmt.IsNoted.areNoted bodyNoted)
  | .breakLoop _ => exact .nil
  | .continueLoop _ => exact .nil
  | .ret _ value => exact .elim fun result same => Expr.IsNoted.areNoted (noted.1 result same)
  | .read _ target => exact Designator.IsNoted.areNoted noted.1
  | .print _ value _ => exact Expr.IsNoted.areNoted noted
  | .block _ body => exact Stmt.AreNoted.areNoted noted

theorem Stmt.AreNoted.areNoted {inLoop : Bool} {statements : List Stmt}
    (noted : Stmt.AreNoted setting inLoop statements) :
    Part.AreNoted setting (Stmt.partsOf statements) := by
  match statements with
  | [] => exact .nil
  | first :: rest => exact (Stmt.IsNoted.areNoted noted.1).append (Stmt.AreNoted.areNoted noted.2)

end

/-! ## Bases with types -/

section

variable (valid : setting.table.IsValid)
include valid

theorem Designator.IsNoted.hasTypedBase {designator : Designator}
    (noted : designator.IsNoted setting)
    (resolved : Part.IsResolved setting.notes (.designator designator)) :
    Part.HasTypedBase setting.notes setting.table (.designator designator) := by
  rintro base isBase
  obtain ⟨id, isNoted, present⟩ := resolved
  match designator with
  | .name _ _ => cases isBase
  | .qualified _ _ _ => cases isBase
  | .element _ base index =>
    cases isBase
    obtain ⟨_, _, array, other, isArray, isOther, isElement⟩ := noted
    obtain rfl := Option.some.inj (isOther.symm.trans isNoted)
    exact ⟨array, isArray, isElement.typed valid present⟩
  | .member _ base _ =>
    cases isBase
    obtain ⟨_, owner, other, isOwner, isOther, isMember⟩ := noted
    obtain rfl := Option.some.inj (isOther.symm.trans isNoted)
    exact ⟨owner, isOwner, isMember.typed valid present⟩

theorem Designator.IsNoted.exists_found {designator : Designator}
    (noted : designator.IsNoted setting)
    (based : ∀ part ∈ designator.parts, part.HasTypedBase setting.notes setting.table) :
    ∃ id, setting.notes.symbol? designator.id = some id ∧ setting.IsFound id := by
  match designator with
  | .name _ _ | .qualified _ _ _ =>
    obtain ⟨id, isNoted, finds, _⟩ := noted
    exact ⟨id, isNoted, .inl finds⟩
  | .element _ base index =>
    obtain ⟨baseNoted, _, array, id, isArray, isNoted, isElement⟩ := noted
    obtain ⟨other, isOther, typed⟩ := based _ mem_cons_self base rfl
    obtain rfl := Option.some.inj (isOther.symm.trans isArray)
    obtain ⟨found, isFound, known⟩ := Designator.IsNoted.exists_found baseNoted fun part inside =>
      based part (mem_cons_of_mem _ (mem_append_left _ inside))
    obtain rfl := Option.some.inj (isFound.symm.trans isArray)
    exact ⟨id, isNoted, isElement.isFound valid (known.typed.resolve_left typed)⟩
  | .member _ base _ =>
    obtain ⟨_, owner, id, isOwner, isNoted, isMember⟩ := noted
    obtain ⟨other, isOther, typed⟩ := based _ mem_cons_self base rfl
    obtain rfl := Option.some.inj (isOther.symm.trans isOwner)
    exact ⟨id, isNoted, .inl (isMember.finds typed)⟩

theorem Expr.IsNoted.exists_type {expression : Expr} (noted : expression.IsNoted setting)
    (based : ∀ part ∈ expression.parts, part.HasTypedBase setting.notes setting.table) :
    ∃ type, setting.notes.type? expression.id = some type ∧ type ≠ .none := by
  match expression with
  | .literal _ value => exact ⟨_, noted, by cases value <;> exact nofun⟩
  | .load _ source =>
    obtain ⟨sourceNoted, id, isNoted, hasValue, isTyped⟩ := noted
    obtain ⟨found, isFound, known⟩ := Designator.IsNoted.exists_found valid sourceNoted
      fun part inside => based part (mem_cons_of_mem _ inside)
    obtain rfl := Option.some.inj (isFound.symm.trans isNoted)
    exact ⟨_, isTyped, (known.isProper hasValue).1⟩
  | .call _ (.mk _ callee arguments) =>
    obtain ⟨callNoted, id, isNoted, isTyped, typed⟩ := noted
    obtain ⟨found, isFound, known⟩ := Designator.IsNoted.exists_found valid callNoted.1
      fun part inside => based part (mem_cons_of_mem _ (mem_append_left _ inside))
    obtain rfl := Option.some.inj (isFound.symm.trans isNoted)
    exact ⟨_, isTyped, typed.resolve_left known.present⟩
  | .newArray _ _ length =>
    obtain ⟨_, type, isTyped, typed⟩ := noted
    exact ⟨type, isTyped, typed⟩
  | .newObject _ _ =>
    obtain ⟨type, isTyped, typed, _⟩ := noted
    exact ⟨type, isTyped, typed⟩
  | .neg _ operand =>
    obtain ⟨operandNoted, type, isOperand, isTyped, _⟩ := noted
    obtain ⟨other, isOther, typed⟩ := Expr.IsNoted.exists_type operandNoted fun part inside =>
      based part (mem_cons_of_mem _ inside)
    obtain rfl := Option.some.inj (isOther.symm.trans isOperand)
    exact ⟨_, isTyped, typed⟩
  | .arith _ _ left right =>
    obtain ⟨leftNoted, rightNoted, leftType, rightType, type, isLeft, isRight, isTyped, isInt⟩ :=
      noted
    obtain ⟨_, isOther, leftTyped⟩ := Expr.IsNoted.exists_type leftNoted fun part inside =>
      based part (mem_cons_of_mem _ (mem_append_left _ inside))
    obtain rfl := Option.some.inj (isOther.symm.trans isLeft)
    obtain ⟨_, isOther, rightTyped⟩ := Expr.IsNoted.exists_type rightNoted fun part inside =>
      based part (mem_cons_of_mem _ (mem_append_right _ inside))
    obtain rfl := Option.some.inj (isOther.symm.trans isRight)
    refine ⟨type, isTyped, ?_⟩
    rcases isInt with rfl | ⟨_, untyped⟩
    · decide
    · exact untyped.elim (absurd · leftTyped) (absurd · rightTyped)

theorem Part.AreNoted.isResolved_iff {parts : List Part} (noted : AreNoted setting parts) :
    (∀ part ∈ parts, part.IsResolved setting.notes) ↔
      ∀ part ∈ parts, part.HasTypedBase setting.notes setting.table := by
  refine ⟨fun resolved part member => ?_, fun based part member => ?_⟩
  · obtain ⟨isNoted, _⟩ := noted part member
    match part with
    | .designator place => exact isNoted.hasTypedBase valid (resolved _ member)
    | .expression value => nofun
  · obtain ⟨isNoted, inside⟩ := noted part member
    have based : ∀ inner ∈ part.parts, inner.HasTypedBase setting.notes setting.table :=
      fun inner within => based inner (inside within)
    match part with
    | .designator place =>
      obtain ⟨id, isId, found⟩ := isNoted.exists_found valid based
      exact ⟨id, isId, found.present⟩
    | .expression value => exact isNoted.exists_type valid based

end

/-! ## Programs -/

theorem Analysis.IsSound.areNoted {analysis : Analysis} {program : Program} {unit : DeclUnit}
    (sound : analysis.IsSound program) (member : unit ∈ program.units) :
    ∃ setting : Setting, setting.notes = analysis.notes ∧ setting.table = analysis.table ∧
      Part.AreNoted setting unit.parts := by
  obtain ⟨earlier, later, split⟩ := append_of_mem member
  have code : unit.IsCode → ∃ setting : Setting, setting.notes = analysis.notes ∧
      setting.table = analysis.table ∧ Part.AreNoted setting unit.parts := fun isCode => by
    obtain ⟨id, fits⟩ := sound.fits earlier unit later split isCode
    obtain ⟨_, _, noted⟩ := fits.noted
    exact ⟨_, rfl, rfl, noted.areNoted⟩
  cases unit with
  | type decl => exact ⟨analysis.setting program, rfl, rfl, .nil⟩
  | init block => exact code trivial
  | method decl => exact code trivial

/-- In a program without violations, a part and all that it consists of are resolved exactly if
elements and members are looked up in something with a type.  So every name is resolved. -/
theorem analyze_isResolved_iff {options : Options} {program : Program}
    (distinct : program.nodes.Nodup) (accepted : (analyze options program).errorCount = 0)
    {part : Part} (member : part ∈ program.parts) :
    (∀ inner ∈ part.parts, inner.IsResolved (analyze options program).notes) ↔
      ∀ inner ∈ part.parts,
        inner.HasTypedBase (analyze options program).notes (analyze options program).table := by
  have sound := analyze_isSound accepted distinct
  generalize analyze options program = analysis at *
  obtain ⟨unit, isUnit, inside⟩ := mem_flatMap.mp member
  obtain ⟨setting, notes, table, noted⟩ := sound.areNoted isUnit
  have own : Part.AreNoted setting part.parts := by
    obtain ⟨isNoted, _⟩ := noted part inside
    match part with
    | .designator place => exact isNoted.areNoted
    | .expression value => exact isNoted.areNoted
  rw [← notes, ← table]
  exact own.isResolved_iff (table ▸ sound.valid)

open Supply

/-- A program with a class, which has a static initializer and an instance method, and with a
loop that calls the method. -/
def stepping : Program :=
  plant do
    let int ← typeRef none "int"
    let counter ← typeRef none "Counter"
    let made ← staticInit
      [.action (← assign (← name "made") (← literal (.int 1)))]
    let step ← method false none false "step" [← param int "by" false] []
      [.action (← assign (← name "value")
        (← arith .add (← value "value") (← value "by")))]
    let counterType ← type "Counter" none [← vars int [("made", false)]] [made]
      [← vars int [("value", false)]] [step]
    let init ← assign (← name "i") (← literal (.int 0))
    let create ← assign (← name "c") (← newObject counter)
    let test ← relation (← value "i") .lt (← literal (.int 3))
    let isTwo ← relation (← value "i") .eq (← literal (.int 2))
    let leave ← branch [[isTwo]] (← breakLoop) none
    let call ← callAction (← member (← name "c") "step") [← value "i"]
    let update ← increment (← name "i")
    let loop ← loop [init] (some [[test]]) [update]
      (← block [leave, .action call])
    let main ← method false none false "main" []
      [← vars counter [("c", false)], ← vars int [("i", false)]]
      [.action create, loop, ← print (← value "i") none]
    program "Stepping" [] [.type counterType] [main]

theorem stepping_isAccepted : stepping.nodes.Nodup ∧ (analyze {} stepping).errorCount = 0 := by
  decide +kernel

theorem stepping_isPlain : stepping.IsPlain := by
  simp only [Program.IsPlain, IsQualified]
  decide +kernel

theorem analyze_isResolved_iff_stepping :
    stepping.nodes.Nodup ∧ (analyze {} stepping).errorCount = 0 ∧
      ∃ part ∈ stepping.parts, part.base?.isSome ∧
        ∀ inner ∈ part.parts, inner.IsResolved (analyze {} stepping).notes := by
  obtain ⟨distinct, accepted⟩ := stepping_isAccepted
  obtain ⟨part, member, hasBase, based⟩ : ∃ part ∈ stepping.parts, part.base?.isSome ∧
      ∀ inner ∈ part.parts, inner.HasTypedBase (analyze {} stepping).notes
        (analyze {} stepping).table := by decide +kernel
  exact ⟨distinct, accepted, part, member, hasBase,
    (analyze_isResolved_iff distinct accepted member).mpr based⟩

/-- A program that calls a member of the program itself. -/
def stray : Program :=
  plant do
    let call ← callAction (← member (← name "P") "m") []
    let main ← method false none false "main" [] [] [.action call]
    program "P" [] [] [main]

/-- A program has no type, so nothing is looked up, and there is no violation. -/
theorem not_isResolved_stray :
    stray.nodes.Nodup ∧ (analyze {} stray).errorCount = 0 ∧
      ∃ part ∈ stray.parts, ¬ part.IsResolved (analyze {} stray).notes := by
  decide +kernel

end MicroJava
