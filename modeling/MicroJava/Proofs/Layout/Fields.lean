import MicroJava.Proofs.Analysis.Objects
import MicroJava.Proofs.Layout.Tables

/-!
# Fields

In the code of a program without violations, the words of objects are read and written for
designators that lead to fields, and every object that a designator can stand for has the
word.
-/

namespace MicroJava

variable {early late : List Instruction} {instr : Instruction}

open Instruction Site

/-- What stands in front of a member is an object of a class, and not the name of a class. -/
def Analysis.HasObject (analysis : Analysis) (designator : Designator) (type : TypeId) : Prop :=
  ∀ node base name, designator = .member node base name →
    ∃ owner, analysis.notes.symbol? base.id = some owner ∧
      (analysis.table.symbol owner).kind ≠ .type ∧ (analysis.table.symbol owner).type = type

/-- What an instruction at an offset uses a word of an object for. -/
inductive Image.Uses (image : Image) (program : Program) (analysis result : Analysis) :
    Nat → Instruction → Prop
  | call
      {offset : Nat}
      {name : List Int32}
      (holds : image.code.Holds offset [.getField 0, .invokeVirtual name]) :
      image.Uses program analysis result offset (.getField 0)
  | place
      {start size : Nat}
      {type : TypeId}
      {place : Int}
      (isClass : type ∈ analysis.classes)
      (isPlace : (result.table.desc type).dispatch = some place)
      (isSize : size = 4 * ((analysis.table.desc type).fieldCount + 1))
      (holds : image.code.Holds start
        [.new size, .plain .dup, .const (Int32.ofInt place), .putField 0]) :
      image.Uses program analysis result
        (start + totalSize [.new size, .plain .dup, .const (Int32.ofInt place)]) (.putField 0)
  | access
      {part : DeclUnit}
      {around : Option TypeId}
      {designator : Designator}
      {id : SymbolId}
      {type : TypeId}
      {site : Site}
      {start field : Nat}
      {code : List Instruction}
      {instr : Instruction}
      (isUnit : part ∈ program.units)
      (surrounds : analysis.Surrounds program part around)
      (isPart : .designator designator ∈ part.parts)
      (finds : analysis.Finds around designator id type)
      (object : program.IsPlain → analysis.HasObject designator type)
      (address : (analysis.table.symbol id).address = field)
      (isField : instr.field? = some field)
      (notes : site.notes = analysis.notes)
      (places : analysis.table.Places site.table)
      (accesses : site.Accesses designator instr code)
      (holds : image.code.Holds start (code ++ [instr])) :
      image.Uses program analysis result (start + totalSize code) instr

/-- The code creates objects that have the fields of their classes, and reads and writes words
that objects have. -/
structure Image.KeepsToObjects (image : Image) (program : Program)
    (analysis result : Analysis) : Prop where
  /-- Where an object is created, it has a word for each field, and one more. -/
  objects : image.CreatesObjects program result fun type code => ∃ place,
    code = [.new (4 * ((analysis.table.desc type).fieldCount + 1)), .plain .dup, .const place,
      .putField 0]
  /-- Words of objects are used for dispatch tables and for the fields of designators. -/
  fields : ∀ offset ∈ image.code.offsets, ∀ instr,
    image.code.instructionAt? offset = some instr → instr.field?.isSome →
      image.Uses program analysis result offset instr

theorem Builtins.usesObject_eq_false {builtins : Builtins} {id : SymbolId}
    (member : instr ∈ builtins.code id) :
    instr.usesObject = false := by
  revert instr
  rw [Builtins.code]
  split <;> simp

namespace Analysis

variable {analysis : Analysis} {program : Program} {region : Region} {body : Body}

namespace Compiles

theorem hasObject {designator : Designator} {around : Option TypeId} {id : SymbolId} {type : TypeId}
    (compiles : analysis.Compiles program region body)
    (isPart : .designator designator ∈ Stmt.partsOf body.statements)
    (finds : analysis.Finds around designator id type) (plain : program.IsPlain) :
    analysis.HasObject designator type := by
  rintro node base name rfl
  obtain ⟨⟨_, owner, member, isOwner, isMember, belongs⟩, _⟩ := compiles.noted.areNoted _ isPart
  rw [compiles.notes_eq] at isOwner isMember
  obtain rfl := Option.some.inj (isMember.symm.trans finds.noted)
  have isField := finds.kind
  have home := finds.home
  rw [Setting.IsMember, compiles.table] at belongs
  split at belongs
  · obtain ⟨found, static, _⟩ := belongs
    have level := found.field
    rw [compiles.table] at level
    have isObject : (analysis.table.symbol owner).kind ≠ .type := fun isType =>
      level isField (static (compiles.plain ▸ plain) isType)
    refine ⟨owner, isOwner, isObject, ?_⟩
    simp only [Designator.home?, isOwner, Option.getD_some, if_neg isObject] at home
    exact Option.some.inj home
  · rw [belongs.1, ← compiles.table, compiles.sees.valid.kind_absent] at isField
    cases isField

theorem uses {image : Image} {result : Analysis} (compiles : analysis.Compiles program region body)
    (sound : analysis.IsSound program) (finds : analysis.FindsFields program)
    (table : result.table = (analysis.layoutOf program).table)
    (holds : image.code.Holds region.start region.code)
    (split : region.code = early ++ instr :: late) (hasField : instr.field?.isSome) :
    image.Uses program analysis result (region.start + totalSize early) instr := by
  obtain ⟨field, isField⟩ := Option.isSome_iff_exists.mp hasField
  have usesObject := usesObject_of_field? isField
  have explains := compiles.accounts early instr late split usesObject
  rw [split] at holds
  have cut : ∀ front middle, early = front ++ middle →
      image.code.Holds (region.start + totalSize front) (middle ++ [instr]) := by
    rintro front middle rfl
    rw [List.append_assoc, List.append_cons, Code.holds_append, Code.holds_append] at holds
    exact holds.2.1
  cases explains with
  | @access designator front code _ _ isPart accesses =>
    obtain ⟨part, isUnit, owner, isBody, _⟩ := compiles.unit
    obtain ⟨around, surrounds, found⟩ := finds part isUnit (DeclUnit.isCode_of_owner? owner)
    have inside : .designator designator ∈ part.parts := by
      rw [DeclUnit.parts, isBody]
      exact isPart
    obtain ⟨id, noted, found⟩ := found designator inside
    have places := compiles.sees.places
    rw [compiles.table] at places
    have symbolAt : body.site.symbolAt designator.node = id :=
      compiles.sees.symbolAt (compiles.notes_eq ▸ noted)
    obtain ⟨kind, operand⟩ := accesses.isField usesObject
    rw [symbolAt, places.kind] at kind
    obtain ⟨type, finds⟩ := found kind
    obtain ⟨positive, _⟩ := finds.below type finds.isClass.1 finds.isClass.2
      (Table.mem_lineage_self _ _)
    rw [symbolAt, places.other id (by rw [kind]; decide)] at operand
    rw [totalSize_append, ← Nat.add_assoc]
    refine .access isUnit surrounds inside finds (compiles.hasObject isPart finds) ?_ operand
      (compiles.sees.notes.trans compiles.notes_eq) places accesses ?_
    · exact (Int.toNat_of_nonneg (by omega)).symm
    · exact cut front code rfl
  | call =>
    have behind := ((Code.holds_append _ _ _ _).mp holds).2
    exact .call ⟨behind.1, behind.2.1, trivial⟩
  | create => cases isField
  | @place node ref front rest _ isPart code =>
    obtain ⟨type, slot, isTyped, isClass, _, there, object⟩ :=
      compiles.newObjectCode_eq sound isPart
    obtain rfl : rest = [.new (((analysis.table.desc type).fieldCount + 1) * 4), .plain .dup,
        .const (Int32.ofInt slot)] :=
      List.append_cancel_right (code.symm.trans object : rest ++ [.putField 0] = [_, _, _] ++ _)
    rw [totalSize_append, ← Nat.add_assoc]
    exact .place isClass (table ▸ there) (Nat.mul_comm _ _) (cut front _ rfl)

end Compiles
end Analysis

/-- Whatever is reported about a program, the fields of its classes have the words of their
objects; and if nothing is, the code keeps to them. -/
theorem generate_keepsToObjects (options : Options) (program : Program) :
    (∀ type ∈ (analyze options program).classes,
      (analyze options program).table.LaysOut type) ∧
    (program.nodes.Nodup → (analyze options program).errorCount = 0 → ∀ image result,
      generate options (analyze options program) program = (.ok image, result) →
        image.KeepsToObjects program (analyze options program) result) := by
  refine ⟨fun type member => ?_, fun distinct accepted image result generated => ?_⟩
  · obtain ⟨has, isClass⟩ := Analysis.isClass_of_mem_classes member
    exact Analysis.analyze_laysOut has isClass
  have finds := Analysis.analyze_findsFields distinct accepted
  obtain ⟨realizes, isResult, defined, sound⟩ := generate_implements distinct accepted generated
  generalize analyze options program = analysis at *
  have consists := realizes.consists sound
  refine ⟨Image.Implements.createsObjects ⟨realizes, isResult, defined, sound⟩
    fun type _ slot _ _ => ⟨Int32.ofInt slot, by rw [Nat.mul_comm]⟩,
    fun offset isOffset instr here hasField => ?_⟩
  obtain ⟨region, isRegion, other, inside, spells⟩ := consists.exists_of_mem_offsets isOffset
  obtain rfl := Option.some.inj (spells.instructionAt?.symm.trans here)
  rcases sound.region_cases defined isRegion with ⟨_, code⟩ | ⟨body, compiles⟩
  · obtain ⟨field, isField⟩ := Option.isSome_iff_exists.mp hasField
    have unused := Builtins.usesObject_eq_false (code ▸ mem_of_located inside)
    rw [usesObject_of_field? isField] at unused
    cases unused
  · obtain ⟨early, late, split, rfl⟩ := exists_split_of_located inside
    exact compiles.uses sound finds (by rw [isResult]) (consists.holds region isRegion) split
      hasField

open Supply

/-- A program with a class that extends another one, and with fields of both that are read and
written through an object and in a method. -/
def extending : Program :=
  plant do
    let int ← typeRef none "int"
    let shape ← typeRef none "Shape"
    let box ← typeRef none "Box"
    let shapeType ← type "Shape" none [] [] [← vars int [("area", false)]] []
    let grow ← method false none false "grow" [← param int "by" false] []
      [.action (← assign (← name "area")
        (← arith .mul (← value "depth") (← value "by")))]
    let boxType ← type "Box" (some shape) [] [] [← vars int [("depth", false)]] [grow]
    let create ← assign (← name "b") (← newObject box)
    let deepen ← increment (← member (← name "b") "depth")
    let call ← callAction (← member (← name "b") "grow")
      [← literal (.int 2)]
    let read ← read (← member (← name "b") "area")
    let main ← method false none false "main" [] [← vars box [("b", false)]]
      [.action create, .action deepen, .action call, read]
    program "Extending" [] [.type shapeType, .type boxType] [main]

theorem generate_keepsToObjects_extending :
    extending.nodes.Nodup ∧ (analyze {} extending).errorCount = 0 ∧
      (∃ type ∈ (analyze {} extending).classes,
        ((analyze {} extending).table.desc type).parent.isSome ∧
          ((analyze {} extending).table.desc type).fieldCount = 2 ∧
          (analyze {} extending).table.LaysOut type) ∧
      ∃ image result, generate {} (analyze {} extending) extending = (.ok image, result) ∧
        image.KeepsToObjects extending (analyze {} extending) result := by
  have distinct : extending.nodes.Nodup := by decide +kernel
  have accepted : (analyze {} extending).errorCount = 0 := by decide +kernel
  obtain ⟨type, isClass, hasParent, count⟩ : ∃ type ∈ (analyze {} extending).classes,
      ((analyze {} extending).table.desc type).parent.isSome ∧
        ((analyze {} extending).table.desc type).fieldCount = 2 := by decide +kernel
  have succeeds : (generate {} (analyze {} extending) extending).1.isOk := by decide +kernel
  obtain ⟨image, generated⟩ := exists_image succeeds
  obtain ⟨laysOut, keeps⟩ := generate_keepsToObjects {} extending
  exact ⟨distinct, accepted, ⟨type, isClass, hasParent, count, laysOut type isClass⟩, image, _,
    generated, keeps distinct accepted image _ generated⟩

end MicroJava
