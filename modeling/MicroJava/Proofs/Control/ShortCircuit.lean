import MicroJava.Proofs.Control.Branches

/-!
# Short-circuit evaluation

Whatever the truth values of its facts are, the jumps of a condition lead to the body if some
term holds and past it if none does, and on the way they enter just those facts that are
evaluated from left to right until the outcome is known.
-/

namespace MicroJava

open List Instruction Site

variable {code : Code} {condition : Condition} {fact : Fact} {visited : List (Nat × Nat)}
    {spots : List Spot} {body exit index other position start stop target : Nat}
    {truth : Nat → Nat → Bool} {site : Site} {spot : Spot} {term : Term}

/-! ## Evaluation -/

/-- All facts of a term hold; the first one has the given position. -/
def Term.holds (truth : Nat → Bool) (position : Nat) (term : Term) : Bool :=
  (term.zipIdx position).all fun entry => truth entry.2

/-- The facts that are evaluated: after one that does not hold there are no more. -/
def Term.evaluated (truth : Nat → Bool) : (position : Nat) → Term → List Nat
  | _, [] => []
  | position, _ :: rest =>
      position :: if truth position then Term.evaluated truth (position + 1) rest else []

/-- Some term of a condition holds; the first one has the given index. -/
def Condition.holds (truth : Nat → Nat → Bool) (index : Nat) (condition : Condition) : Bool :=
  (condition.zipIdx index).any fun entry => entry.1.holds (truth entry.2) 0

/-- The facts that are evaluated: after a term that holds there are no more. -/
def Condition.evaluated (truth : Nat → Nat → Bool) : (index : Nat) → Condition → List (Nat × Nat)
  | _, [] => []
  | index, term :: rest =>
      (Term.evaluated (truth index) 0 term).map (index, ·) ++
        if Term.holds (truth index) 0 term then [] else Condition.evaluated truth (index + 1) rest

theorem Term.holds_cons (truth : Nat → Bool) (position : Nat) (fact : Fact) (rest : Term) :
    Term.holds truth position (fact :: rest) =
      (truth position && Term.holds truth (position + 1) rest) := by
  rw [holds, zipIdx_cons, all_cons]
  rfl

theorem Condition.holds_cons (truth : Nat → Nat → Bool) (index : Nat) (term : Term)
    (rest : Condition) :
    Condition.holds truth index (term :: rest) =
      (term.holds (truth index) 0 || Condition.holds truth (index + 1) rest) := by
  rw [holds, zipIdx_cons, any_cons]
  rfl

theorem Term.evaluated_sublist (truth : Nat → Bool) (position : Nat) (term : Term) :
    (Term.evaluated truth position term).Sublist (List.range' position term.length) := by
  induction term generalizing position with
  | nil => exact .slnil
  | cons fact rest hypothesis =>
    rw [evaluated, length_cons, range'_succ]
    refine .cons_cons position ?_
    split
    · exact hypothesis (position + 1)
    · exact nil_sublist _

theorem Condition.le_of_mem_evaluated {entry : Nat × Nat}
    (member : entry ∈ Condition.evaluated truth index condition) :
    index ≤ entry.1 := by
  induction condition generalizing index with
  | nil => cases member
  | cons term rest hypothesis =>
    rw [evaluated, mem_append] at member
    rcases member with first | later
    · obtain ⟨_, _, rfl⟩ := mem_map.mp first
      exact Nat.le_refl index
    · split at later
      · cases later
      · exact Nat.le_of_succ_le (hypothesis later)

theorem Condition.nodup_evaluated (truth : Nat → Nat → Bool) (index : Nat) (condition : Condition) :
    (Condition.evaluated truth index condition).Nodup := by
  induction condition generalizing index with
  | nil => exact nodup_nil
  | cons term rest hypothesis =>
    refine nodup_append.mpr ⟨?_, ?_, ?_⟩
    · have positions := (Term.evaluated_sublist (truth index) 0 term).nodup nodup_range'
      exact positions.map fun _ _ same => (Prod.mk.inj same).2
    · split
      · exact nodup_nil
      · exact hypothesis (index + 1)
    · rintro entry first _ later rfl
      obtain ⟨_, _, rfl⟩ := mem_map.mp first
      split at later
      · cases later
      · exact Nat.not_succ_le_self _ (le_of_mem_evaluated later)

/-! ## Following jumps -/

/-- The jumps of a condition lead from an offset to the body or past it, and enter facts on the
way.  The jump at the end of a fact is taken if the fact does not hold. -/
inductive Condition.Leads (code : Code) (spots : List Spot) (truth : Nat → Nat → Bool)
    (body other : Nat) : Nat → List (Nat × Nat) → Nat → Prop
  | leave {offset : Nat} (outside : offset = body ∨ offset = other) :
      Leads code spots truth body other offset [] offset
  | enter {spot : Spot} {offset target exit : Nat} {op : Opcode} {visited : List (Nat × Nat)}
      (inside : ¬ (offset = body ∨ offset = other))
      (isSpot : spot ∈ spots)
      (starts : spot.start = offset)
      (jumps : code.instructionAt? (spot.stop - 3) = some (.jump op target))
      (further : Leads code spots truth body other
        (if truth spot.term spot.fact then spot.stop else target) visited exit) :
      Leads code spots truth body other offset ((spot.term, spot.fact) :: visited) exit
  | jump {offset target exit : Nat} {visited : List (Nat × Nat)}
      (inside : ¬ (offset = body ∨ offset = other))
      (between : ∀ spot ∈ spots, spot.start ≠ offset)
      (jumps : code.instructionAt? offset = some (.jump .jmp target))
      (further : Leads code spots truth body other target visited exit) :
      Leads code spots truth body other offset visited exit

section Leads

theorem Condition.Leads.unique {offset exit' : Nat} {visited' : List (Nat × Nat)}
    (apart : ∀ spot ∈ spots, ∀ spot' ∈ spots, spot.start = spot'.start → spot = spot')
    (leads : Condition.Leads code spots truth body other offset visited exit)
    (leads' : Condition.Leads code spots truth body other offset visited' exit') :
    visited' = visited ∧ exit' = exit := by
  induction leads generalizing visited' exit' with
  | leave outside =>
    cases leads' with
    | leave => exact ⟨rfl, rfl⟩
    | enter inside => exact absurd outside inside
    | jump inside => exact absurd outside inside
  | enter inside isSpot starts jumps further hypothesis =>
    cases leads' with
    | leave outside => exact absurd outside inside
    | enter _ isSpot' starts' jumps' further' =>
      obtain rfl := apart _ isSpot _ isSpot' (starts.trans starts'.symm)
      obtain ⟨rfl, rfl⟩ := Instruction.jump.inj (Option.some.inj (jumps.symm.trans jumps'))
      obtain ⟨rfl, rfl⟩ := hypothesis further'
      exact ⟨rfl, rfl⟩
    | jump _ between => exact absurd starts (between _ isSpot)
  | jump inside between jumps further hypothesis =>
    cases leads' with
    | leave outside => exact absurd outside inside
    | enter _ isSpot starts => exact absurd starts (between _ isSpot)
    | jump _ _ jumps' further' =>
      obtain ⟨_, rfl⟩ := Instruction.jump.inj (Option.some.inj (jumps.symm.trans jumps'))
      exact hypothesis further'

end Leads

/-! ## Spots follow each other -/

namespace Spot

/-- Spots between two offsets follow each other without overlap. -/
structure AreApart (spots : List Spot) (start stop : Nat) : Prop where
  sorted : spots.Pairwise fun first second => first.start < second.start
  bounds : ∀ spot ∈ spots, start ≤ spot.start ∧ spot.start < spot.stop ∧ spot.stop ≤ stop
  le : start ≤ stop

namespace AreApart

theorem nil (start : Nat) : AreApart [] start start := ⟨.nil, nofun, Nat.le_refl start⟩

theorem append {early late : List Spot} {middle further : Nat}
    (areEarly : AreApart early start middle) (areLate : AreApart late further stop)
    (follows : middle ≤ further) :
    AreApart (early ++ late) start stop where
  sorted := by
    refine pairwise_append.mpr ⟨areEarly.sorted, areLate.sorted, ?_⟩
    intro first isFirst second isSecond
    have := areEarly.bounds first isFirst
    have := areLate.bounds second isSecond
    omega
  bounds spot member := by
    have := areEarly.le
    have := areLate.le
    rcases mem_append.mp member with isEarly | isLate
    · have := areEarly.bounds spot isEarly
      omega
    · have := areLate.bounds spot isLate
      omega
  le := by
    have := areEarly.le
    have := areLate.le
    omega

theorem eq_of_start_eq (areApart : AreApart spots start stop) (spot : Spot)
    (isSpot : spot ∈ spots) (spot' : Spot) (isSpot' : spot' ∈ spots)
    (same : spot.start = spot'.start) :
    spot = spot' := by
  have starts : (spots.map Spot.start).Nodup :=
    pairwise_map.mpr (areApart.sorted.imp fun before => Nat.ne_of_lt before)
  exact inj_on_of_nodup_map starts isSpot isSpot' same

end AreApart

namespace Holds

variable (holds : spot.Holds code site target fact)
include holds

theorem areApart : AreApart [spot] spot.start spot.stop := by
  obtain ⟨jumpAt, ⟨_, rfl⟩, _, isStop⟩ := holds
  rw [totalSize_cons, size_jump] at isStop
  refine ⟨pairwise_singleton _ _, fun other member => ?_, by omega⟩
  obtain rfl := mem_singleton.mp member
  omega

theorem jumps : code.instructionAt? (spot.stop - 3) = some (.jump fact.falseJump target) := by
  obtain ⟨jumpAt, _, ⟨spells, _⟩, isStop⟩ := holds
  rw [isStop]
  exact spells.instructionAt?

end Holds
end Spot

section Placed

variable {own : List Spot}

theorem Term.IsPlaced.areApart
    (placed : Term.IsPlaced code site target index position start stop term spots) :
    Spot.AreApart spots start stop := by
  induction term generalizing position start spots with
  | nil =>
    obtain ⟨rfl, rfl⟩ := placed
    exact .nil start
  | cons fact rest hypothesis =>
    obtain ⟨spot, later, rfl, _, _, rfl, holds, placed⟩ := placed
    exact holds.areApart.append (hypothesis placed) (Nat.le_refl spot.stop)

theorem Condition.IsPlaced.areApart
    (placed : Condition.IsPlaced code site body other index start stop condition spots) :
    Spot.AreApart spots start stop := by
  induction condition generalizing index start spots with
  | nil =>
    obtain ⟨rfl, rfl⟩ := placed
    exact .nil start
  | cons term rest hypothesis =>
    cases rest with
    | nil => exact Term.IsPlaced.areApart placed
    | cons next rest =>
      obtain ⟨middle, further, early, late, rfl, first, ⟨_, isFurther⟩, placed⟩ := placed
      exact first.areApart.append (hypothesis placed) (by omega)

/-! ## Conditions lead to their bodies or past them -/

theorem Term.IsPlaced.leads
    (placed : Term.IsPlaced code site target index position start stop term own)
    (isOwn : own ⊆ spots) (early : stop ≤ body ∧ stop ≤ other)
    (further : Condition.Leads code spots truth body other
      (if Term.holds (truth index) position term then stop else target) visited exit) :
    Condition.Leads code spots truth body other start
      ((Term.evaluated (truth index) position term).map (index, ·) ++ visited) exit := by
  induction term generalizing position start own with
  | nil =>
    obtain ⟨rfl, rfl⟩ := placed
    exact further
  | cons fact rest hypothesis =>
    have areApart := placed.areApart
    obtain ⟨spot, later, rfl, rfl, rfl, rfl, holds, placed⟩ := placed
    have bounds := areApart.bounds spot mem_cons_self
    rw [evaluated, map_cons, cons_append]
    refine .enter (by omega) (isOwn mem_cons_self) rfl holds.jumps ?_
    rw [Term.holds_cons] at further
    cases isTrue : truth spot.term spot.fact with
    | false =>
      rw [isTrue] at further
      exact further
    | true =>
      rw [isTrue, Bool.true_and] at further
      exact hypothesis placed (fun _ member => isOwn (mem_cons_of_mem _ member)) further

/-- A condition leads to the body if it holds and past it if it does not. -/
theorem Condition.IsPlaced.leads {before : List Spot}
    (placed : Condition.IsPlaced code site body other index start stop condition own)
    (split : spots = before ++ own) (isBefore : ∀ spot ∈ before, spot.start < start)
    (present : condition ≠ []) (early : stop ≤ body ∧ stop ≤ other)
    (enters : Condition.Leads code spots truth body other stop [] body) :
    Condition.Leads code spots truth body other start (Condition.evaluated truth index condition)
      (if Condition.holds truth index condition then body else other) := by
  induction condition generalizing index start own before with
  | nil => exact absurd rfl present
  | cons term rest hypothesis =>
    rw [evaluated, Condition.holds_cons]
    cases rest with
    | nil =>
      have isOwn : own ⊆ spots := split ▸ subset_append_right before own
      refine Term.IsPlaced.leads placed isOwn early ?_
      cases term.holds (truth index) 0 with
      | true => exact enters
      | false => exact .leave (.inr rfl)
    | cons next rest =>
      obtain ⟨middle, further, first, later, rfl, isFirst, ⟨⟨spells, _⟩, isFurther⟩, isLater⟩ :=
        placed
      rw [totalSize_cons, size_jump, totalSize_nil, Nat.add_zero] at isFurther
      have le := isFirst.areApart.le
      have le' := isLater.areApart.le
      rw [← append_assoc] at split
      have isOwn : first ⊆ spots := fun spot member =>
        split ▸ mem_append_left later (mem_append_right before member)
      have isBefore : ∀ spot ∈ before ++ first, spot.start < middle := by
        intro spot member
        rcases mem_append.mp member with isOld | isFront
        · have := isBefore spot isOld
          omega
        · have := isFirst.areApart.bounds spot isFront
          omega
      refine isFirst.leads isOwn (by omega) ?_
      cases term.holds (truth index) 0 with
      | true =>
        show Condition.Leads code spots truth body other middle [] body
        refine .jump (by omega) (fun spot member => ?_) spells.instructionAt? (.leave (.inl rfl))
        rw [split, mem_append] at member
        rcases member with isFront | isBack
        · exact Nat.ne_of_lt (isBefore spot isFront)
        · have := isLater.areApart.bounds spot isBack
          omega
      | false =>
        have isBefore : ∀ spot ∈ before ++ first, spot.start < further := fun spot member =>
          Nat.lt_of_lt_of_le (isBefore spot member) (by omega)
        exact hypothesis isLater split isBefore (cons_ne_nil next rest)

end Placed

/-! ## Facts are decided by their jumps -/

/-- With its operands on the stack, a fact goes on if it holds, and to a target if it does not.
A truth value is compared with zero first, and does not hold if it is zero. -/
def Fact.IsDecided (code : Code) (site : Site) (spot : Spot) (target : Nat) : Fact → Prop
  | .truth value => ∀ (machine : Machine) (word : Int32) (stack : List Int32),
      machine.pc = spot.start + totalSize (site.exprCode 0 value) → machine.stack = word :: stack →
        ∃ between, machine.step code = .ok between ∧ between.step code =
          .ok (machine.goOn (if word = 0 then target else spot.stop) stack)
  | .relation _ left op right => ∀ (machine : Machine) (first second : Int32) (stack : List Int32),
      machine.pc = spot.start + totalSize (site.exprCode 0 left ++ site.exprCode 0 right) →
      machine.stack = second :: first :: stack →
        machine.step code =
          .ok (machine.goOn (if op.holds first second then spot.stop else target) stack)

theorem Spot.Holds.isDecided (holds : spot.Holds code site target fact) :
    fact.IsDecided code site spot target := by
  obtain ⟨jumpAt, ⟨operands, isJump⟩, ⟨spells, _⟩, isStop⟩ := holds
  cases fact with
  | truth value =>
    intro machine word stack isPc isStack
    rw [operandsCode, Code.holds_append] at operands
    rw [operandsCode, totalSize_append, ← Nat.add_assoc, ← isPc] at isJump
    refine ⟨machine.goOn jumpAt (0 :: word :: stack), ?_, ?_⟩
    · rw [machine.step_of_spells (isPc ▸ operands.2.1), isJump, ← isStack]
      rfl
    · refine (compare_step machine .ne target spells word 0 stack).trans ?_
      rw [isStop]
      by_cases isZero : word = 0 <;> simp [RelOp.holds, isZero]
  | relation span left op right =>
    intro machine first second stack isPc isStack
    have here : machine.goOn jumpAt (second :: first :: stack) = machine := by
      rw [← isStack, isJump.trans isPc.symm]
      rfl
    have compares := compare_step machine op target spells first second stack
    rw [here] at compares
    rw [isStop]
    exact compares

section Labels

theorem Term.IsPlaced.exists_fact
    (placed : Term.IsPlaced code site target index position start stop term spots)
    (member : spot ∈ spots) :
    spot.term = index ∧ position ≤ spot.fact ∧
      ∃ fact, term[spot.fact - position]? = some fact ∧ spot.Holds code site target fact := by
  induction term generalizing position start spots with
  | nil =>
    obtain ⟨_, rfl⟩ := placed
    cases member
  | cons fact rest hypothesis =>
    obtain ⟨first, later, rfl, isTerm, rfl, _, holds, placed⟩ := placed
    rcases mem_cons.mp member with rfl | isLater
    · refine ⟨isTerm, Nat.le_refl _, fact, ?_, holds⟩
      rw [Nat.sub_self]
      rfl
    · obtain ⟨isTerm, behind, other, found, holds⟩ := hypothesis placed isLater
      refine ⟨isTerm, Nat.le_of_succ_le behind, other, ?_, holds⟩
      rwa [← Nat.sub_add_cancel (Nat.sub_pos_of_lt behind), getElem?_cons_succ, Nat.sub_sub]

theorem Condition.IsPlaced.exists_fact
    (placed : Condition.IsPlaced code site body other index start stop condition spots)
    (member : spot ∈ spots) :
    index ≤ spot.term ∧ ∃ term fact target, condition[spot.term - index]? = some term ∧
      term[spot.fact]? = some fact ∧ spot.Holds code site target fact := by
  induction condition generalizing index start spots with
  | nil =>
    obtain ⟨_, rfl⟩ := placed
    cases member
  | cons term rest hypothesis =>
    have inFirst : ∀ {target stop own}, Term.IsPlaced code site target index 0 start stop term own →
        spot ∈ own → index ≤ spot.term ∧ ∃ found fact target,
          (term :: rest)[spot.term - index]? = some found ∧ found[spot.fact]? = some fact ∧
            spot.Holds code site target fact := by
      intro target stop own placed member
      obtain ⟨rfl, _, fact, found, holds⟩ := placed.exists_fact member
      refine ⟨Nat.le_refl _, term, fact, target, ?_, found, holds⟩
      rw [Nat.sub_self]
      rfl
    cases rest with
    | nil => exact inFirst placed member
    | cons next rest =>
      obtain ⟨middle, further, early, late, rfl, first, _, placed⟩ := placed
      rcases mem_append.mp member with isEarly | isLate
      · exact inFirst first isEarly
      · obtain ⟨behind, term, fact, target, isTerm, isFact, holds⟩ := hypothesis placed isLate
        refine ⟨Nat.le_of_succ_le behind, term, fact, target, ?_, isFact, holds⟩
        rwa [← Nat.sub_add_cancel (Nat.sub_pos_of_lt behind), getElem?_cons_succ, Nat.sub_sub]

end Labels

/-! ## Conditions of programs -/

/-- For all truth values of its facts, the jumps of a condition lead to the body if some term
holds and past it if none does, and enter the facts that are evaluated.  Each fact is decided by
the jump at its end. -/
structure Condition.ShortCircuits (code : Code) (site : Site) (start stop body other : Nat)
    (condition : Condition)
    (spots : List Spot) : Prop where
  placed : Condition.IsPlaced code site body other 0 start stop condition spots
  decided : ∀ spot ∈ spots, ∃ term fact target, condition[spot.term]? = some term ∧
    term[spot.fact]? = some fact ∧
    code.instructionAt? (spot.stop - 3) = some (.jump fact.falseJump target) ∧
    fact.IsDecided code site spot target
  leads : ∀ truth visited exit,
    Condition.Leads code spots truth body other start visited exit ↔
      visited = Condition.evaluated truth 0 condition ∧
        exit = if Condition.holds truth 0 condition then body else other
  once : ∀ truth, (Condition.evaluated truth 0 condition).Nodup

theorem Condition.exists_shortCircuits (present : condition ≠ [])
    (occupies : code.Occupies start stop (site.conditionCode start body other condition))
    (ahead : body ≤ other)
    (enters : stop = body ∨ stop < body ∧ code.Spells stop (.jump .jmp body)) :
    ∃ spots, Condition.ShortCircuits code site start stop body other condition spots := by
  obtain ⟨spots, placed⟩ := Condition.exists_isPlaced 0 occupies
  have areApart := placed.areApart
  refine ⟨spots, placed, fun spot member => ?_, fun truth visited exit => ?_, fun truth => ?_⟩
  · obtain ⟨_, term, fact, target, isTerm, isFact, holds⟩ := placed.exists_fact member
    exact ⟨term, fact, target, isTerm, isFact, holds.jumps, holds.isDecided⟩
  · have atStop : Condition.Leads code spots truth body other stop [] body := by
      rcases enters with rfl | ⟨early, spells⟩
      · exact .leave (.inl rfl)
      · refine .jump (by omega) (fun spot member => ?_) spells.instructionAt? (.leave (.inl rfl))
        have := areApart.bounds spot member
        omega
    have early : stop ≤ body ∧ stop ≤ other := by omega
    have leads := placed.leads (nil_append spots).symm nofun present early atStop
    constructor
    · exact leads.unique areApart.eq_of_start_eq
    · rintro ⟨rfl, rfl⟩
      exact leads
  · exact Condition.nodup_evaluated truth 0 condition

/-- Every condition with terms is evaluated as far as needed. -/
def Reading.shortCircuits (code : Code) (site : Site) : Reading where
  action _ _ _ := True
  test start stop body other condition := condition ≠ [] →
    ∃ spots, Condition.ShortCircuits code site start stop body other condition spots

/-- In the code of a program without violations, the conditions of all branches and loops are
evaluated from left to right until the outcome is known. -/
theorem generate_shortCircuits {options : Options} {program : Program} {image : Image}
    {result : Analysis} (distinct : program.nodes.Nodup)
    (accepted : (analyze options program).errorCount = 0)
    (generated : generate options (analyze options program) program = (.ok image, result)) :
    image.IsLaid program result fun _ site => .shortCircuits image.code site :=
  generate_isLaid distinct accepted generated fun _ _ _ _ =>
    { action := fun _ _ => trivial
      test := fun occupies ahead enters present =>
        Condition.exists_shortCircuits present occupies ahead enters }

theorem generate_shortCircuits_searching :
    searching.nodes.Nodup ∧ (analyze {} searching).errorCount = 0 ∧
      ∃ image result, generate {} (analyze {} searching) searching = (.ok image, result) ∧
        image.IsLaid searching result fun _ site => .shortCircuits image.code site := by
  obtain ⟨distinct, accepted, image, result, generated⟩ := searching_compiles
  exact ⟨distinct, accepted, image, result, generated,
    generate_shortCircuits distinct accepted generated⟩

end MicroJava
