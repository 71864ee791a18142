import MicroJava.Proofs.Control.Placement

/-!
# Where branches and loops lead

The facts of a condition are decided one by one.  The code of a fact ends with a jump that
leads to the next term, or from the last term past the body that the condition guards.
-/

namespace MicroJava

open Instruction Site

/-! ## Facts -/

/-- The jump at the end of a fact. -/
def Fact.falseJump : Fact → Opcode
  | .truth _ => .jeq
  | .relation _ _ op _ => Opcode.jumpIf op.inverse

/-- Push what a fact is decided by: a truth value is compared with zero. -/
def Site.operandsCode (site : Site) : Fact → List Instruction
  | .truth value => site.exprCode 0 value ++ [.const 0]
  | .relation _ left _ right => site.exprCode 0 left ++ site.exprCode 0 right

theorem Site.factCode_eq (site : Site) (target : Nat) (fact : Fact) :
    site.factCode target fact = site.operandsCode fact ++ [.jump fact.falseJump target] := by
  cases fact with
  | truth value =>
    rw [factCode, operandsCode, List.append_assoc]
    rfl
  | relation => rfl

/-- The place of a fact in a condition and in the code. -/
structure Spot where
  term : Nat
  fact : Nat
  start : Nat
  stop : Nat
deriving DecidableEq

/-- The code of a fact stands at a spot: what decides the fact, and then a jump to a target. -/
def Spot.Holds (spot : Spot) (code : Code) (site : Site) (target : Nat) (fact : Fact) : Prop :=
  ∃ jumpAt, code.Occupies spot.start jumpAt (site.operandsCode fact) ∧
    code.Occupies jumpAt spot.stop [.jump fact.falseJump target]

/-! ## Terms and conditions -/

/-- The facts of a term stand one behind the other and jump to one target. -/
def Term.IsPlaced (code : Code) (site : Site) (target index : Nat) :
    (position start stop : Nat) → Term → List Spot → Prop
  | _, start, stop, [], spots => start = stop ∧ spots = []
  | position, start, stop, fact :: rest, spots =>
      ∃ spot later, spots = spot :: later ∧ spot.term = index ∧ spot.fact = position ∧
        spot.start = start ∧ spot.Holds code site target fact ∧
        Term.IsPlaced code site target index (position + 1) spot.stop stop rest later

/-- The terms of a condition stand one behind the other.  The facts of a term jump to the next
term, and those of the last one to `other`; each term but the last one is followed by a jump to
the body. -/
def Condition.IsPlaced (code : Code) (site : Site) (body other : Nat) :
    (index start stop : Nat) → Condition → List Spot → Prop
  | _, start, stop, [], spots => start = stop ∧ spots = []
  | index, start, stop, [term], spots =>
      Term.IsPlaced code site other index 0 start stop term spots
  | index, start, stop, term :: next :: rest, spots =>
      ∃ middle further early late, spots = early ++ late ∧
        Term.IsPlaced code site further index 0 start middle term early ∧
        code.Occupies middle further [.jump .jmp body] ∧
        Condition.IsPlaced code site body other (index + 1) further stop (next :: rest) late

section Placed

variable {code : Code} {site : Site} {start stop : Nat}

theorem Term.exists_isPlaced {term : Term} {target : Nat} (index position : Nat)
    (occupies : code.Occupies start stop (site.termCode target term)) :
    ∃ spots, Term.IsPlaced code site target index position start stop term spots := by
  induction term generalizing start position with
  | nil => exact ⟨[], occupies.2.symm, rfl⟩
  | cons fact rest hypothesis =>
    obtain ⟨holds, isStop⟩ := occupies
    rw [termCode, List.flatMap_cons, Code.holds_append, factCode_eq, Code.holds_append] at holds
    rw [termCode, List.flatMap_cons, totalSize_append, factCode_eq, ← Nat.add_assoc] at isStop
    obtain ⟨⟨operands, jump⟩, later⟩ := holds
    obtain ⟨spots, placed⟩ := hypothesis (position + 1) ⟨later, isStop⟩
    refine ⟨_ :: spots, ⟨index, position, start, _⟩, spots, rfl, rfl, rfl, rfl, ?_, placed⟩
    refine ⟨_, ⟨operands, rfl⟩, jump, ?_⟩
    rw [totalSize_append, ← Nat.add_assoc]

theorem Condition.exists_isPlaced {condition : Condition} {body other : Nat} (index : Nat)
    (occupies : code.Occupies start stop (site.conditionCode start body other condition)) :
    ∃ spots, Condition.IsPlaced code site body other index start stop condition spots := by
  induction condition generalizing start index with
  | nil => exact ⟨[], occupies.2.symm, rfl⟩
  | cons term rest hypothesis =>
    cases rest with
    | nil => exact Term.exists_isPlaced index 0 occupies
    | cons next rest =>
      obtain ⟨holds, isStop⟩ := occupies
      rw [conditionCode, Code.holds_append, Code.holds_cons, totalSize_termCode] at holds
      rw [conditionCode, totalSize_append, totalSize_cons, totalSize_termCode, size_jump,
        ← Nat.add_assoc, ← Nat.add_assoc] at isStop
      obtain ⟨holdsTerm, enters, holdsRest⟩ := holds
      obtain ⟨early, first⟩ :=
        Term.exists_isPlaced index 0 ⟨holdsTerm, (congrArg _ (totalSize_termCode ..)).symm⟩
      obtain ⟨late, further⟩ := hypothesis (index + 1) ⟨holdsRest, isStop⟩
      exact ⟨early ++ late, _, _, early, late, rfl, first, ⟨⟨enters, trivial⟩, rfl⟩, further⟩

end Placed

/-! ## Branches and loops of programs -/

/-- Every condition leads to its body, or past it if no term holds. -/
def Reading.branches (code : Code) (site : Site) : Reading where
  action _ _ _ := True
  test start stop body other condition :=
    ∃ spots, Condition.IsPlaced code site body other 0 start stop condition spots

/-- In the code of a program without violations every branch and every loop is laid out, and the
jumps of conditions, of loops and of the statements that leave or continue them lead to the
parts of the statements they belong to. -/
theorem generate_laysBranches {options : Options} {program : Program} {image : Image}
    {result : Analysis} (distinct : program.nodes.Nodup)
    (accepted : (analyze options program).errorCount = 0)
    (generated : generate options (analyze options program) program = (.ok image, result)) :
    image.IsLaid program result fun _ site => .branches image.code site :=
  generate_isLaid distinct accepted generated fun _ _ _ _ =>
    { action := fun _ _ => trivial
      test := fun occupies _ _ => Condition.exists_isPlaced 0 occupies }

open Supply

/-- A program with a loop in a loop, both of which are left and continued from inside of
branches. -/
def searching : Program :=
  plant do
    let int ← typeRef none "int"
    let isPast ← relation (← value "j") .gt (← value "i")
    let isLarge ← relation (← value "j") .ge (← literal (.int 2))
    let isFound ← relation (← value "found") .ne (← literal (.int 0))
    let isOne ← relation (← value "j") .eq (← literal (.int 1))
    let skip ← branch [[isOne]] (← continueLoop) none
    let found ← assign (← name "found") (← value "i")
    let search ← branch [[isPast, isLarge], [isFound]] (← breakLoop)
      (some (← block [skip, .action found]))
    let initInner ← assign (← name "j") (← literal (.int 0))
    let stepInner ← increment (← name "j")
    let inner ← loop [initInner] none [stepInner] search
    let isEnough ← relation (← value "found") .ge (← literal (.int 3))
    let leave ← branch [[isEnough]] (← breakLoop) none
    let init ← assign (← name "i") (← literal (.int 0))
    let test ← relation (← value "i") .lt (← literal (.int 5))
    let step ← increment (← name "i")
    let outer ← loop [init] (some [[test]]) [step] (← block [inner, leave])
    let output ← print (← value "found") none
    let main ← method false none false "main" []
      [← vars int [("i", false), ("j", false)]] [outer, output]
    program "Searching" [] [.vars (← vars int [("found", false)])] [main]

theorem searching_compiles :
    searching.nodes.Nodup ∧ (analyze {} searching).errorCount = 0 ∧
      ∃ image result, generate {} (analyze {} searching) searching = (.ok image, result) := by
  have succeeds : (generate {} (analyze {} searching) searching).1.isOk := by decide +kernel
  obtain ⟨image, generated⟩ := exists_image succeeds
  exact ⟨by decide +kernel, by decide +kernel, image, _, generated⟩

theorem generate_laysBranches_searching :
    searching.nodes.Nodup ∧ (analyze {} searching).errorCount = 0 ∧
      ∃ image result, generate {} (analyze {} searching) searching = (.ok image, result) ∧
        image.IsLaid searching result fun _ site => .branches image.code site := by
  obtain ⟨distinct, accepted, image, result, generated⟩ := searching_compiles
  exact ⟨distinct, accepted, image, result, generated,
    generate_laysBranches distinct accepted generated⟩

end MicroJava
