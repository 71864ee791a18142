import MicroJava.Proofs.Layout.Tables
import MicroJava.Proofs.Semantics.Simulation

/-!
# Methods run as they are written

The code of a method with scalar statements, started behind the opening of its frame, changes
the variables, prints and returns as the statements of the method do.
-/

namespace MicroJava

open Instruction Site

/-- What the names of a program stand for, with the values that the program gives to constants. -/
def Analysis.meaning (analysis : Analysis) (program : Program) : Meaning :=
  { analysis with constant := program.constant? analysis.table }

/-- Where a machine is after the statements of a method, and what it has become. -/
def Image.Completes (image : Image) (table : Table) (method : Symbol) (before : Machine) (run : Run)
    (last : Machine) : Prop :=
  ∃ after pc, before.Becomes after table method.locals run.store run.printed ∧
    match run.outcome with
    | .normal => last = after.goOn pc before.stack ∧
        image.code.Spells pc (if method.type = .none then .plain .exit else .trap 1)
    | .returned value => last = after.goOn pc (value.toList ++ before.stack) ∧
        image.code.Spells pc (.plain .exit)
    | .broken => False
    | .continued => False

namespace Analysis.Compiles

variable {analysis : Analysis} {program : Program} {region : Region} {body : Body}
  (compiles : analysis.Compiles program region body)
include compiles

theorem agrees (sound : analysis.IsSound program) :
    body.site.Agrees body.setting analysis where
  sees := compiles.sees
  notes := compiles.notes_eq
  table := compiles.table
  placed := sound.placed
  slots := by
    rw [compiles.locals]
    exact compiles.slots

theorem means (sound : analysis.IsSound program) :
    body.site.Means body.setting (analysis.meaning program) where
  toAgrees := compiles.agrees sound
  constants id isConst isScalar := sound.constants id isConst fun isNull =>
    absurd (isNull ▸ isScalar) (by decide)

theorem completes {image : Image} {before last : Machine} {run : Run}
    (holds : image.code.Holds (body.start + body.site.stmtsSize body.statements)
      (endCode (analysis.table.symbol region.owner).type))
    (lands : Lands image.code analysis.table body.setting.locals before before.stack false
      (body.start + body.site.stmtsSize body.statements) 0 0 run last) :
    image.Completes analysis.table (analysis.table.symbol region.owner) before run last := by
  obtain ⟨after, becomes, ends⟩ := lands
  rw [compiles.locals] at becomes
  rw [endCode] at holds
  cases outcome : run.outcome with
  | normal =>
    rw [outcome] at ends
    refine ⟨after, body.start + body.site.stmtsSize body.statements, becomes, ?_⟩
    rw [outcome]
    refine ⟨ends, ?_⟩
    split at holds
    next isNone => exact if_pos isNone ▸ holds.1
    next isSome => exact if_neg isSome ▸ holds.1
  | broken | continued =>
    rw [outcome] at ends
    exact absurd ends.1 Bool.false_ne_true
  | returned value =>
    rw [outcome] at ends
    obtain ⟨pc, spells, isLast⟩ := ends
    refine ⟨after, pc, becomes, ?_⟩
    rw [outcome]
    exact ⟨isLast, spells⟩

end Analysis.Compiles

open Supply

end MicroJava
