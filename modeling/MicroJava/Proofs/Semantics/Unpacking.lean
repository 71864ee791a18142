import MicroJava.Proofs.Control.Placement
import MicroJava.Proofs.Semantics.Arrays

/-!
# Unpacking arrays

An unpacking gives the first elements of an array, one for each position, to the targets at
the positions and copies the elements behind them into another array.
-/

namespace MicroJava

open List Instruction Machine

variable {code : Code} {rest source target : Designator} {word : Int32}
    {entries : List (Option Designator × Nat)} {targets : List (Option Designator)}
    {old words : List Int32} {machine : Machine} {count done position start : Nat}
    {setting : Setting} {site : Site} {span : Span} {store : Store}

namespace Analysis

variable (analysis : Analysis) (locals : List SymbolId)

/-- A designator is the name of a local or global variable. -/
def IsVariable (designator : Designator) : Prop :=
  analysis.isName designator ∧ (analysis.symbolOf designator ∈ locals ∨
    analysis.table.IsGlobalVar (analysis.symbolOf designator))

instance (designator : Designator) : Decidable (analysis.IsVariable locals designator) :=
  decidable_of_iff (analysis.isName designator ∧ (analysis.symbolOf designator ∈ locals ∨
      analysis.symbolOf designator ∈ analysis.table.globals))
    (and_congr_right' (or_congr_right Table.mem_globals_iff))

/-- The type of the elements of an array variable. -/
def elementOf (array : Designator) : TypeId :=
  analysis.table.element (analysis.table.symbol (analysis.symbolOf array)).type

/-- The rest, the source and the named targets of an unpacking are different variables. -/
structure AreApart (targets : List (Option Designator)) (rest source : Designator) : Prop where
  areVariables : ∀ designator ∈ rest :: source :: targets.reduceOption,
    analysis.IsVariable locals designator
  distinct : ((rest :: source :: targets.reduceOption).map analysis.symbolOf).Nodup

instance (targets : List (Option Designator)) (rest source : Designator) :
    Decidable (analysis.AreApart locals targets rest source) :=
  decidable_of_iff (_ ∧ _) ⟨fun ⟨areVariables, distinct⟩ => ⟨areVariables, distinct⟩,
    fun apart => ⟨apart.areVariables, apart.distinct⟩⟩

end Analysis

/-- A machine has two arrays, which the rest and the source of an unpacking refer to. -/
structure Machine.HasArrays (machine : Machine) (analysis : Analysis) (locals : List SymbolId)
    (rest source : Designator) (store : Store)
    (old words : List Int32) : Prop where
  stores : machine.Stores analysis.table locals store
  atRest : machine.block (store (analysis.symbolOf rest)) = .ok old
  atSource : machine.block (store (analysis.symbolOf source)) = .ok words
  bytes : analysis.elementOf source = .char → ∀ word ∈ words, IsByte word
  length : words.length < 2 ^ 31

instance (machine : Machine) (analysis : Analysis) (locals : List SymbolId)
    (rest source : Designator) (store : Store) (old words : List Int32) :
    Decidable (machine.HasArrays analysis locals rest source store old words) :=
  decidable_of_iff (_ ∧ _ ∧ _ ∧ _ ∧ _)
    ⟨fun ⟨stores, atRest, atSource, bytes, length⟩ => ⟨stores, atRest, atSource, bytes, length⟩,
      fun arrays => ⟨arrays.stores, arrays.atRest, arrays.atSource, arrays.bytes, arrays.length⟩⟩

theorem Machine.HasArrays.becomes {after : Machine} {analysis : Analysis} {locals : List SymbolId}
    {final : Store} {printed : List Printed}
    (hasArrays : machine.HasArrays analysis locals rest source store old words)
    (becomes : machine.Becomes after analysis.table locals final printed)
    (sameRest : final (analysis.symbolOf rest) = store (analysis.symbolOf rest))
    (sameSource : final (analysis.symbolOf source) = store (analysis.symbolOf source)) :
    after.HasArrays analysis locals rest source final old words where
  stores := becomes.stores
  atRest := by rw [sameRest, block_congr becomes.keeps.heap, hasArrays.atRest]
  atSource := by rw [sameSource, block_congr becomes.keeps.heap, hasArrays.atSource]
  bytes := hasArrays.bytes
  length := hasArrays.length

/-- The targets of an unpacking get the elements at their positions, and all other variables keep
their values. -/
structure Analysis.Fills (analysis : Analysis) (words : List Int32)
    (entries : List (Option Designator × Nat))
    (before after : Store) : Prop where
  target : ∀ target position, (some target, position) ∈ entries →
    words[position]? = some (after (analysis.symbolOf target))
  other : ∀ id, id ∉ (entries.filterMap Prod.fst).map analysis.symbolOf → after id = before id

namespace Analysis.Fills

variable {analysis : Analysis} {before after : Store}

theorem cons_none (fills : analysis.Fills words entries before after) :
    analysis.Fills words ((none, position) :: entries) before after where
  target target position member :=
    fills.target target position ((mem_cons.mp member).resolve_left nofun)
  other := fills.other

theorem cons_some (found : words[position]? = some word)
    (fresh : analysis.symbolOf target ∉ (entries.filterMap Prod.fst).map analysis.symbolOf)
    (fills : analysis.Fills words entries (before.set (analysis.symbolOf target) word) after) :
    analysis.Fills words ((some target, position) :: entries) before after where
  target other index member := by
    rcases mem_cons.mp member with isFirst | isLater
    · cases isFirst
      rw [fills.other _ fresh, Store.set, if_pos rfl, found]
    · exact fills.target other index isLater
  other id absent := by
    obtain ⟨differs, later⟩ := not_or.mp (mt mem_cons.mpr absent)
    rw [fills.other id later, Store.set, if_neg differs]

theorem of_reverse (fills : analysis.Fills words entries.reverse before after) :
    analysis.Fills words entries before after where
  target target position member := fills.target target position (mem_reverse.mpr member)
  other id absent := fills.other id (by simpa using absent)

end Analysis.Fills

theorem filterMap_fst_zipIdx (targets : List (Option Designator)) :
    targets.zipIdx.filterMap Prod.fst = targets.reduceOption := by
  rw [List.reduceOption, ← zipIdx_map_fst 0 targets, filterMap_map,
    zipIdx_map_fst]
  rfl

namespace Site

variable {analysis : Analysis} {designator : Designator}

section Agrees

variable (agrees : site.Agrees setting analysis)
include agrees

/-! ## Variables -/

theorem accessCode_of_isVariable (isVariable : analysis.IsVariable setting.locals designator) :
    site.accessCode 0 designator = [] := by
  have isVar := kind_of_isVariable agrees isVariable.2
  exact accessCode_of_isName agrees 0 isVariable.1 (isVar.trans_ne (by decide))
    (isVar.trans_ne (by decide))

theorem valueCode_computes (isVariable : analysis.IsVariable setting.locals designator)
    (stores : machine.Stores analysis.table setting.locals store) (stack : List Int32) :
    machine.Computes code (site.valueCode designator) stack machine
      (store (analysis.symbolOf designator) :: stack) := by
  intro start holds
  rw [valueCode, accessCode_of_isVariable agrees isVariable, nil_append,
    agrees.symbolAt] at holds ⊢
  exact loadVariable_reaches agrees isVariable.2 stores holds stack

theorem elementAt_eq (array : Designator) : site.elementAt array = analysis.elementOf array := by
  rw [elementAt, Analysis.elementOf, agrees.symbolAt, agrees.sees.places.type,
    agrees.sees.places.element, agrees.table]

theorem type_ne_none (noted : designator.IsNoted setting)
    (isVariable : analysis.IsVariable setting.locals designator) :
    (setting.table.symbol (analysis.symbolOf designator)).type ≠ .none := by
  have isVar := kind_of_isVariable agrees isVariable.2
  have present : analysis.symbolOf designator ≠ .absent := by
    intro absent
    rcases isVariable.2 with isLocal | isGlobal
    · obtain ⟨index, found⟩ := getElem?_of_mem isLocal
      have level := (agrees.slots index _ found).2.2.1
      have valid := agrees.sees.valid
      rw [agrees.table] at valid
      rw [absent, valid.level_absent] at level
      exact level rfl
    · exact isGlobal.2.1 absent
  have finds := agrees.finds noted isVariable.1 present
  rw [← agrees.table] at isVar
  exact (finds.value (by rw [Symbol.hasValue, isVar])).1

theorem elementOf_source (noted : (Action.unpack span targets rest source).IsNoted setting)
    (isRest : analysis.IsVariable setting.locals rest)
    (isSource : analysis.IsVariable setting.locals source)
    (isChar : analysis.elementOf rest = .char) :
    analysis.elementOf source = .char := by
  obtain ⟨restNoted, _, sourceNoted, _, array, id, atRest, atSource, unpacks⟩ := noted
  rw [← agrees.sees.symbolAt atRest, ← agrees.sees.symbolAt atSource, agrees.symbolAt,
    agrees.symbolAt] at unpacks
  rw [Analysis.elementOf, ← agrees.table] at isChar ⊢
  rcases unpacks with missing | missing | ⟨_, _, noElement | same⟩
  · exact absurd missing (type_ne_none agrees restNoted isRest)
  · exact absurd missing (type_ne_none agrees sourceNoted isSource)
  · cases noElement.symm.trans isChar
  · exact same.trans isChar

/-! ## Filling the targets -/

variable (isSource : analysis.IsVariable setting.locals source)
include isSource

theorem fillCode_computes (isTarget : analysis.IsVariable setting.locals target)
    (stores : machine.Stores analysis.table setting.locals store)
    (isBlock : machine.block (store (analysis.symbolOf source)) = .ok words)
    (isSmall : position < 2 ^ 31) (found : words[position]? = some word) (stack : List Int32) :
    machine.Computes code (site.fillCode source (some target, position)) stack
      (machine.assign (analysis.table.symbol (analysis.symbolOf target)) word) stack := by
  rw [fillCode, accessCode_of_isVariable agrees isTarget, nil_append, agrees.symbolAt,
    Int32.ofInt_eq_ofNat]
  refine ((valueCode_computes agrees isSource stores stack).append (.cons (fun _ _ => rfl)
    (.cons (perform_loadElement isBlock isSmall found _ stack) .nil))).append ?_
  exact fun start holds => storeVariable_reaches agrees isTarget.2 stores holds word stack

theorem fillCodes_computes (areVariables : ∀ target ∈ entries.filterMap Prod.fst,
      analysis.IsVariable setting.locals target)
    (distinct : ((source :: entries.filterMap Prod.fst).map analysis.symbolOf).Nodup)
    (inside : ∀ entry ∈ entries, entry.2 < words.length) (isSmall : words.length < 2 ^ 31)
    (stores : machine.Stores analysis.table setting.locals store)
    (isBlock : machine.block (store (analysis.symbolOf source)) = .ok words) (stack : List Int32) :
    ∃ after final, machine.Becomes after analysis.table setting.locals final [] ∧
      analysis.Fills words entries store final ∧
      machine.Computes code (entries.flatMap (site.fillCode source)) stack after stack := by
  induction entries generalizing machine store with
  | nil => exact ⟨machine, store, .refl stores, ⟨nofun, fun _ _ => rfl⟩, .nil⟩
  | cons entry entries hypothesis =>
    rw [forall_mem_cons] at inside
    match entry with
    | (none, position) =>
      obtain ⟨after, final, becomes, fills, computes⟩ :=
        hypothesis areVariables distinct inside.2 stores isBlock
      exact ⟨after, final, becomes, fills.cons_none, computes⟩
    | (some target, position) =>
      have named : ((some target, position) :: entries).filterMap Prod.fst =
          target :: entries.filterMap Prod.fst := rfl
      rw [named] at areVariables distinct
      rw [forall_mem_cons] at areVariables
      simp only [map_cons, nodup_cons, mem_cons, not_or] at distinct
      obtain ⟨⟨differs, notLater⟩, fresh, distinct⟩ := distinct
      obtain ⟨word, found⟩ : ∃ word, words[position]? = some word :=
        ⟨_, getElem?_eq_getElem inside.1⟩
      have assigns := stores.becomes_assign agrees.placed agrees.slots areVariables.1.2 word
      have first : machine.Computes code _ stack _ stack := fillCode_computes agrees isSource
        areVariables.1 stores isBlock (Nat.lt_trans inside.1 isSmall) found stack
      have same : store.set (analysis.symbolOf target) word (analysis.symbolOf source) =
          store (analysis.symbolOf source) := if_neg differs
      obtain ⟨after, final, becomes, fills, computes⟩ := hypothesis areVariables.2
        (nodup_cons.mpr ⟨notLater, distinct⟩) inside.2 assigns.stores
        (by rw [same, block_congr assigns.keeps.heap, isBlock])
      exact ⟨after, final, assigns.trans becomes, fills.cons_some found fresh,
        first.append computes⟩

theorem fillsCode_computes
    (areVariables : ∀ target ∈ targets.reduceOption, analysis.IsVariable setting.locals target)
    (distinct : ((source :: targets.reduceOption).map analysis.symbolOf).Nodup)
    (enough : targets.length ≤ words.length) (isSmall : words.length < 2 ^ 31)
    (stores : machine.Stores analysis.table setting.locals store)
    (isBlock : machine.block (store (analysis.symbolOf source)) = .ok words) (stack : List Int32) :
    ∃ after final, machine.Becomes after analysis.table setting.locals final [] ∧
      analysis.Fills words targets.zipIdx store final ∧
      machine.Computes code (site.fillsCode targets source) stack after stack := by
  have named : targets.zipIdx.reverse.filterMap Prod.fst = targets.reduceOption.reverse := by
    rw [filterMap_reverse, filterMap_fst_zipIdx]
  have areVariables : ∀ target ∈ targets.zipIdx.reverse.filterMap Prod.fst,
      analysis.IsVariable setting.locals target := by
    rw [named]
    exact fun target member => areVariables target (mem_reverse.mp member)
  have distinct : ((source :: targets.zipIdx.reverse.filterMap Prod.fst).map
      analysis.symbolOf).Nodup := by
    rw [named]
    refine distinct.perm (List.Perm.map _ (List.Perm.cons _ (reverse_perm _).symm))
  have inside : ∀ entry ∈ targets.zipIdx.reverse, entry.2 < words.length := by
    intro entry member
    have := snd_lt_of_mem_zipIdx (mem_reverse.mp member)
    omega
  obtain ⟨after, final, becomes, fills, computes⟩ := fillCodes_computes agrees isSource areVariables
    distinct inside isSmall stores isBlock stack
  exact ⟨after, final, becomes, fills.of_reverse, computes⟩

end Agrees

/-! ## Copying the rest -/

/-- The rest after so many elements have been copied. -/
def copied (count : Nat) (old words : List Int32) (done : Nat) : List Int32 :=
  (words.drop count).take done ++ old.drop done

section Copied

variable (enough : old.length + count ≤ words.length)
include enough

theorem length_take_drop (inside : done ≤ old.length) :
    ((words.drop count).take done).length = done := by
  rw [length_take, length_drop]
  omega

theorem length_copied (inside : done ≤ old.length) :
    (copied count old words done).length = old.length := by
  rw [copied, length_append, length_take_drop enough inside, length_drop]
  omega

theorem getElem?_copied (inside : done ≤ old.length) :
    (copied count old words done)[done]? = old[done]? := by
  have length := length_take_drop enough inside
  rw [copied, getElem?_append_right (Nat.le_of_eq length), length, Nat.sub_self,
    getElem?_drop, Nat.add_zero]

theorem set_copied (inside : done < old.length) (found : words[count + done]? = some word) :
    (copied count old words done).set done word = copied count old words (done + 1) := by
  have length := length_take_drop enough (Nat.le_of_lt inside)
  rw [copied, set_append_right _ _ (Nat.le_of_eq length), length, Nat.sub_self,
    drop_eq_getElem_cons inside, set_cons_zero, copied, take_add_one,
    getElem?_drop, found, append_assoc]
  rfl

end Copied

theorem stepIndices_computes (machine : Machine) (done index : Nat) (stack : List Int32) :
    machine.Computes code stepIndices (Int32.ofNat index :: Int32.ofNat done :: stack) machine
      (Int32.ofNat (done + 1) :: Int32.ofNat (index + 1) :: Int32.ofNat (done + 1) :: stack) := by
  rw [Int32.ofNat_add, Int32.ofNat_add]
  refine .const ?_
  iterate 3 refine .cons (fun _ _ => rfl) ?_
  refine .const ?_
  iterate 2 refine .cons (fun _ _ => rfl) ?_
  exact .nil

/-- The parts of the copying loop of an unpacking: the test, the step of the indices and the
copying of one element. -/
structure HoldsCopying (site : Site) (code : Code) (rest source : Designator)
    (test next copy beyond : Nat) : Prop where
  length : code.Holds test (site.valueCode rest ++ [.plain .arrayLength])
  leaves : code.Spells (test + totalSize (site.valueCode rest) + 1) (.jump .jge beyond)
  enters : code.Spells (test + totalSize (site.valueCode rest) + 4) (.jump .jmp copy)
  steps : code.Holds next stepIndices
  returns : code.Spells (next + totalSize stepIndices) (.jump .jmp test)
  copies : code.Holds copy (site.copyElement rest source)
  continues : code.Spells (copy + totalSize (site.copyElement rest source)) (.jump .jmp next)

theorem exists_holdsCopying (holds : code.Holds start (site.restCode start count rest source)) :
    ∃ test next copy beyond,
      code.Occupies start test [.const 0, .const (Int32.ofInt count), .const 0] ∧
      site.HoldsCopying code rest source test next copy beyond ∧
      code.Occupies beyond (start + totalSize (site.restCode start count rest source))
        [.plain .pop, .plain .pop] := by
  obtain ⟨test, isTest⟩ : ∃ offset, offset = start +
    totalSize [.const 0, .const (Int32.ofInt count), .const 0] := ⟨_, rfl⟩
  obtain ⟨next, isNext⟩ : ∃ offset, offset = test + totalSize (site.valueCode rest) + 7 := ⟨_, rfl⟩
  obtain ⟨copy, isCopy⟩ : ∃ offset, offset = next + totalSize stepIndices + 3 := ⟨_, rfl⟩
  obtain ⟨beyond, isBeyond⟩ : ∃ offset,
    offset = copy + totalSize (site.copyElement rest source) + 3 := ⟨_, rfl⟩
  have parts := restCode_eq site start count rest source isTest isNext isCopy isBeyond
  have ends : start + totalSize (site.restCode start count rest source) = beyond + 2 := by
    rw [parts, totalSize_append, ← Nat.add_assoc, ← isTest]
    simp only [totalSize_append, totalSize_cons, totalSize_nil, size_plain, size_jump]
    omega
  rw [parts, Code.holds_append, ← isTest, Code.holds_append, Code.holds_append] at holds
  obtain ⟨indices, value, ⟨isLength, leaves, enters, _⟩, holds⟩ := holds
  have atNext : test + totalSize (site.valueCode rest) +
    totalSize [.plain .arrayLength, .jump .jge beyond, .jump .jmp copy] = next := isNext.symm
  rw [atNext, Code.holds_append] at holds
  obtain ⟨steps, returns, holds⟩ := holds
  rw [size_jump, ← isCopy, Code.holds_append] at holds
  obtain ⟨copies, continues, pops⟩ := holds
  rw [size_jump, ← isBeyond] at pops
  refine ⟨test, next, copy, beyond, ⟨indices, isTest⟩, ?_, ⟨pops, ends⟩⟩
  exact {
    length := (Code.holds_append ..).mpr ⟨value, isLength, trivial⟩
    leaves := leaves
    enters := enters
    steps := steps
    returns := returns
    copies := copies
    continues := continues }

section Copying

variable (agrees : site.Agrees setting analysis)
    (isRest : analysis.IsVariable setting.locals rest)
    (isSource : analysis.IsVariable setting.locals source)
include agrees isRest isSource

theorem copyElement_computes {index : Nat}
    (stores : machine.Stores analysis.table setting.locals store)
    (atRest : machine.block (store (analysis.symbolOf rest)) = .ok old)
    (atSource : machine.block (store (analysis.symbolOf source)) = .ok words)
    (isByte : analysis.elementOf rest = .char → IsByte word) (inside : done < old.length)
    (found : words[index]? = some word) (restSmall : done < 2 ^ 31) (sourceSmall : index < 2 ^ 31)
    (stack : List Int32) :
    machine.Computes code (site.copyElement rest source)
      (Int32.ofNat index :: Int32.ofNat done :: stack)
      (machine.setBlock (store (analysis.symbolOf rest)) (old.set done word))
      (Int32.ofNat index :: Int32.ofNat done :: stack) := by
  rw [← elementAt_eq agrees] at isByte
  simp only [copyElement, append_assoc, cons_append, nil_append]
  refine .cons (fun _ _ => rfl) ((valueCode_computes agrees isSource stores _).append ?_)
  -- A reference is pushed last: it is moved behind the index, or behind the index and the word.
  iterate 2 refine .cons (fun _ _ => rfl) ?_
  refine .cons (perform_loadElement atSource sourceSmall found _ _) ?_
  refine (valueCode_computes agrees isRest stores _).append ?_
  iterate 2 refine .cons (fun _ _ => rfl) ?_
  exact .cons (perform_storeElement atRest restSmall inside isByte _) .nil

end Copying

section Loop

variable {test next copy beyond : Nat} (agrees : site.Agrees setting analysis)
    (isRest : analysis.IsVariable setting.locals rest)
    (isSource : analysis.IsVariable setting.locals source)
    (bytes : analysis.elementOf rest = .char → analysis.elementOf source = .char)
    (hasArrays : machine.HasArrays analysis setting.locals rest source store old words)
    (enough : old.length + count ≤ words.length)
include hasArrays enough

theorem exists_nextElement (inside : done ≤ old.length) (found : words[count + done]? = some word) :
    ∃ elements,
      (machine.setBlock (store (analysis.symbolOf rest)) (copied count old words done)).block
        (store (analysis.symbolOf source)) = .ok elements ∧
      elements[count + done]? = some word := by
  by_cases same : blockIndex (store (analysis.symbolOf rest)) =
      blockIndex (store (analysis.symbolOf source))
  · obtain ⟨notNull, atSource⟩ := block_eq_ok_iff.mp hasArrays.atSource
    obtain ⟨_, atRest⟩ := block_eq_ok_iff.mp hasArrays.atRest
    obtain rfl : old = words := by
      rw [same, atSource] at atRest
      exact (Option.some.inj atRest).symm
    obtain rfl : count = 0 := by omega
    have within := (List.getElem?_eq_some_iff.mp atSource).1
    refine ⟨copied 0 old old done, block_eq_ok_iff.mpr ⟨notNull, ?_⟩, ?_⟩
    · rw [setBlock, same]
      exact getElem?_set_self within
    · rw [Nat.zero_add] at found ⊢
      rw [getElem?_copied enough inside, found]
  · exact ⟨words, block_setBlock_ne hasArrays.atSource same _, found⟩

include agrees isRest

theorem copyingTest_reaches (holds : site.HoldsCopying code rest source test next copy beyond)
    (inside : done ≤ old.length) (stack : List Int32) :
    ((machine.setBlock (store (analysis.symbolOf rest)) (copied count old words done)).goOn test
      (Int32.ofNat done :: stack)).Reaches code
    ((machine.setBlock (store (analysis.symbolOf rest)) (copied count old words done)).goOn
      (if done < old.length then copy else beyond) stack) := by
  have isSmall := hasArrays.length
  have atRest := block_setBlock hasArrays.atRest (copied count old words done)
  have lengths := ((valueCode_computes agrees isRest (hasArrays.stores.setBlock _ _) _).append
    (.cons (perform_arrayLength atRest (Int32.ofNat done :: stack)) .nil)) test holds.length
  rw [totalSize_append, totalSize_cons, totalSize_nil, size_plain, ← Nat.add_assoc,
    length_copied enough inside] at lengths
  have compares := compare_reaches (machine.setBlock (store (analysis.symbolOf rest))
    (copied count old words done)) .lt beyond holds.leaves (Int32.ofNat done)
    (Int32.ofNat old.length) stack
  have isLess : RelOp.lt.holds (Int32.ofNat done) (Int32.ofNat old.length) =
      decide (done < old.length) :=
    decide_eq_decide.mpr (ofNat_lt_ofNat_iff (by omega) (by omega))
  simp only [isLess, decide_eq_true_eq] at compares
  refine lengths.trans (compares.trans ?_)
  split
  next => exact .perform holds.enters rfl
  next => exact .refl

include isSource bytes

theorem round_reaches (holds : site.HoldsCopying code rest source test next copy beyond)
    (inside : done < old.length) (stack : List Int32) :
    ((machine.setBlock (store (analysis.symbolOf rest)) (copied count old words done)).goOn test
      (Int32.ofNat done :: Int32.ofNat (count + done) :: Int32.ofNat done :: stack)).Reaches code
    ((machine.setBlock (store (analysis.symbolOf rest)) (copied count old words (done + 1))).goOn
      test (Int32.ofNat (done + 1) :: Int32.ofNat (count + (done + 1)) :: Int32.ofNat (done + 1) ::
        stack)) := by
  have isSmall := hasArrays.length
  have isMissing : done < (copied count old words done).length := by
    rwa [length_copied enough (Nat.le_of_lt inside)]
  obtain ⟨word, found⟩ : ∃ word, words[count + done]? = some word :=
    ⟨_, getElem?_eq_getElem (by omega)⟩
  obtain ⟨elements, atSource, isNext⟩ :=
    exists_nextElement hasArrays enough (Nat.le_of_lt inside) found
  have tests := copyingTest_reaches agrees isRest hasArrays enough holds (Nat.le_of_lt inside)
    (Int32.ofNat (count + done) :: Int32.ofNat done :: stack)
  rw [if_pos inside] at tests
  have copies := copyElement_computes agrees isRest isSource (hasArrays.stores.setBlock _ _)
    (block_setBlock hasArrays.atRest _) atSource
    (fun isChar => hasArrays.bytes (bytes isChar) word (mem_of_getElem? found))
    isMissing isNext (by omega) (by omega) stack copy holds.copies
  rw [setBlock_setBlock, set_copied enough inside found] at copies
  have steps := stepIndices_computes (machine.setBlock (store (analysis.symbolOf rest))
    (copied count old words (done + 1))) done (count + done) stack next holds.steps
  exact tests.trans (copies.trans ((Reaches.perform holds.continues rfl).trans
    (steps.trans (.perform holds.returns rfl))))

theorem rounds_reach (holds : site.HoldsCopying code rest source test next copy beyond)
    (inside : done ≤ old.length) (stack : List Int32) :
    (machine.goOn test (0 :: Int32.ofNat count :: 0 :: stack)).Reaches code
    ((machine.setBlock (store (analysis.symbolOf rest)) (copied count old words done)).goOn
      test (Int32.ofNat done :: Int32.ofNat (count + done) :: Int32.ofNat done :: stack)) := by
  induction done with
  | zero =>
    rw [copied, take_zero, drop_zero, nil_append, setBlock_self hasArrays.atRest]
    exact .refl
  | succ done hypothesis =>
    exact (hypothesis (Nat.le_of_lt inside)).trans
      (round_reaches agrees isRest isSource bytes hasArrays enough holds inside stack)

theorem restCode_reaches (holds : code.Holds start (site.restCode start count rest source))
    (stack : List Int32) :
    (machine.goOn start stack).Reaches code
      ((machine.setBlock (store (analysis.symbolOf rest))
        ((words.drop count).take old.length)).goOn
          (start + totalSize (site.restCode start count rest source)) stack) := by
  obtain ⟨test, next, copy, beyond, ⟨holdsIndices, isTest⟩, copying, ⟨holdsPops, isStop⟩⟩ :=
    exists_holdsCopying holds
  have pushes : machine.Computes code [.const 0, .const (Int32.ofInt count), .const 0] stack machine
    (0 :: Int32.ofInt count :: 0 :: stack) := .const (.const (.const .nil))
  have starts := pushes start holdsIndices
  rw [← isTest, Int32.ofInt_eq_ofNat] at starts
  have rounds := rounds_reach agrees isRest isSource bytes hasArrays enough copying
    (Nat.le_refl _) stack
  have tests := copyingTest_reaches agrees isRest hasArrays enough copying (Nat.le_refl _)
    (Int32.ofNat (count + old.length) :: Int32.ofNat old.length :: stack)
  rw [if_neg (Nat.lt_irrefl _)] at tests
  have isAll : copied count old words old.length = (words.drop count).take old.length := by
    rw [copied, drop_length, append_nil]
  rw [isAll] at rounds tests
  rw [isStop]
  exact starts.trans (rounds.trans (tests.trans ((Reaches.perform holdsPops.1 rfl).trans
    (.perform holdsPops.2.1 rfl))))

end Loop

section Guard

variable (agrees : site.Agrees setting analysis)
    (isRest : analysis.IsVariable setting.locals rest)
    (isSource : analysis.IsVariable setting.locals source)
    (hasArrays : machine.HasArrays analysis setting.locals rest source store old words)
include agrees isRest isSource hasArrays

theorem guardOperands_computes (stack : List Int32) :
    machine.Computes code (site.guardOperands count rest source) stack machine
      (Int32.ofNat words.length :: Int32.ofNat (old.length + count) :: stack) := by
  rw [Int32.ofNat_add]
  simp only [guardOperands, Int32.ofInt_eq_ofNat, append_assoc, cons_append,
    nil_append]
  refine (valueCode_computes agrees isRest hasArrays.stores _).append ?_
  refine .cons (perform_arrayLength hasArrays.atRest _) (.const ?_)
  refine .cons (fun _ _ => rfl) ?_
  refine (valueCode_computes agrees isSource hasArrays.stores _).append ?_
  exact .cons (perform_arrayLength hasArrays.atSource _) .nil

theorem guardCode_reaches (needed : old.length + count < 2 ^ 31)
    (holds : code.Holds start (site.guardCode start count rest source)) (stack : List Int32) :
    (machine.goOn start stack).Reaches code
      (machine.goOn (if words.length < old.length + count
        then start + totalSize (site.guardOperands count rest source) + 3
        else start + totalSize (site.guardOperands count rest source) + 5) stack) := by
  rw [guardCode, Code.holds_append] at holds
  have operands := guardOperands_computes agrees isRest isSource hasArrays stack start holds.1
  have compares := compare_reaches machine .gt _ holds.2.1 (Int32.ofNat (old.length + count))
    (Int32.ofNat words.length) stack
  have isShort : RelOp.gt.holds (Int32.ofNat (old.length + count)) (Int32.ofNat words.length) =
      decide (words.length < old.length + count) :=
    decide_eq_decide.mpr (ofNat_lt_ofNat_iff hasArrays.length needed)
  simp only [isShort, decide_eq_true_eq] at compares
  exact operands.trans compares

end Guard

end Site

/-! ## Unpackings of programs -/

/-- The code of an unpacking stops the program, before anything changes, if the source has fewer
elements than the rest and the positions take.  Otherwise it fills the targets, gives the rest the
elements behind the positions and leaves everything else alone. -/
def Code.Unpacks (code : Code) (analysis : Analysis) (locals : List SymbolId) (start stop : Nat)
    (targets : List (Option Designator))
    (rest source : Designator) : Prop :=
  ∀ (machine : Machine) (store : Store) (old words : List Int32), machine.pc = start →
    machine.HasArrays analysis locals rest source store old words →
    old.length + targets.length < 2 ^ 31 →
    if words.length < old.length + targets.length then
      ∃ pc, start < pc ∧ pc < stop ∧ machine.Reaches code (machine.goOn pc machine.stack) ∧
        (machine.goOn pc machine.stack).step code = .error (.trapped 2)
    else
      ∃ after final, machine.Becomes after analysis.table locals final [] ∧
        analysis.Fills words targets.zipIdx store final ∧
        machine.Reaches code ((after.setBlock (store (analysis.symbolOf rest))
          ((words.drop targets.length).take old.length)).goOn stop machine.stack)

namespace Site

variable {analysis : Analysis} {stop : Nat}

/-- The code of an unpacking of different variables unpacks the source. -/
theorem unpackCode_unpacks (agrees : site.Agrees setting analysis)
    (noted : (Action.unpack span targets rest source).IsNoted setting)
    (apart : analysis.AreApart setting.locals targets rest source)
    (occupies : code.Occupies start stop (site.unpackCode start targets rest source)) :
    code.Unpacks analysis setting.locals start stop targets rest source := by
  rintro machine store old words rfl hasArrays needed
  obtain ⟨holds, isStop⟩ := occupies
  obtain ⟨areVariables, distinct⟩ := apart
  rw [forall_mem_cons, forall_mem_cons] at areVariables
  obtain ⟨isRest, isSource, areVariables⟩ := areVariables
  rw [unpackCode, Code.holds_append, Code.holds_append] at holds
  rw [unpackCode, totalSize_append, ← Nat.add_assoc] at isStop
  have isHead := totalSize_append (site.guardCode machine.pc targets.length rest source)
    (site.fillsCode targets source)
  obtain ⟨⟨holdsGuard, holdsFills⟩, holdsRest⟩ := holds
  have guards := guardCode_reaches agrees isRest isSource hasArrays needed holdsGuard machine.stack
  have isGuard : totalSize (site.guardCode machine.pc targets.length rest source) =
      totalSize (site.guardOperands targets.length rest source) + 5 := totalSize_append _ _
  split
  next short =>
    rw [if_pos short] at guards
    rw [guardCode, Code.holds_append] at holdsGuard
    refine ⟨_, by omega, by omega, guards, ?_⟩
    exact step_of_spells (machine.goOn _ machine.stack) holdsGuard.2.2.1
  next enough =>
    rw [if_neg enough, Nat.add_assoc, ← isGuard] at guards
    obtain ⟨restFresh, distinct⟩ := nodup_cons.mp distinct
    have sourceFresh := (nodup_cons.mp distinct).1
    obtain ⟨after, final, becomes, fills, computes⟩ := fillsCode_computes agrees isSource
      areVariables distinct (by omega) hasArrays.length hasArrays.stores hasArrays.atSource
      machine.stack
    have other := fills.other
    rw [filterMap_fst_zipIdx] at other
    have sameRest := other _ fun member => restFresh (mem_cons_of_mem _ member)
    have sameSource := other _ sourceFresh
    have filled := computes _ holdsFills
    rw [Nat.add_assoc, ← isHead] at filled
    have hasArrays := hasArrays.becomes becomes sameRest sameSource
    have copies := restCode_reaches agrees isRest isSource
      (elementOf_source agrees noted isRest isSource) hasArrays (Nat.not_lt.mp enough) holdsRest
      machine.stack
    rw [sameRest, ← isStop] at copies
    exact ⟨after, final, becomes, fills, guards.trans (filled.trans copies)⟩

end Site

/-- The code of unpackings of different variables unpacks their sources. -/
def Reading.unpackings (code : Code) (analysis : Analysis) (locals : List SymbolId) : Reading where
  action start stop action := ∀ span targets rest source,
    action = .unpack span targets rest source →
    analysis.AreApart locals targets rest source →
      code.Unpacks analysis locals start stop targets rest source
  test _ _ _ _ _ := True

/-- In the code of a program without violations, every unpacking of different variables stops the
program or fills its targets and its rest, as the lengths of the arrays say. -/
theorem generate_unpacks {options : Options} {program : Program} {image : Image} {result : Analysis}
    (distinct : program.nodes.Nodup) (accepted : (analyze options program).errorCount = 0)
    (generated : generate options (analyze options program) program = (.ok image, result)) :
    image.IsLaid program result fun method _ =>
      .unpackings image.code (analyze options program)
        ((analyze options program).table.symbol method).locals := by
  refine generate_isLaid distinct accepted generated fun region body sound compiles => ?_
  refine { action := ?_, test := fun _ _ _ => trivial }
  rintro start stop _ noted occupies span targets rest source rfl apart
  rw [← compiles.locals] at apart ⊢
  exact Site.unpackCode_unpacks (compiles.agrees sound) noted apart occupies

open Supply

/-- A program that splits a line into its first and third characters and a tail. -/
def splitting : Program :=
  plant do
    let char ← typeRef none "char"
    let split ← unpack
      [some (← name "first"), none, some (← name "third")]
      (← name "tail") (← name "line")
    let main ← method false none false "main" []
      [← vars char [("first", false), ("third", false), ("tail", true)]] [.action split]
    program "Splitting" [] [.vars (← vars char [("line", true)])] [main]

/-- A machine that runs the program.  The tail has two characters, the line has five. -/
def splitMachine (pc : Nat) : Machine where
  pc := pc
  data := [2]
  heap := [[0, 0], [72, 101, 108, 108, 111]]
  frames := [⟨[0, 0, 1], none⟩]

theorem splitMachine_hasArrays :
    ∃ part method span targets rest source store, splitting.units = [part] ∧
      part.owner? (generate {} (analyze {} splitting) splitting).2.notes = some method ∧
      part.body = [.action (.unpack span targets rest source)] ∧ targets.length = 3 ∧
      (analyze {} splitting).AreApart ((analyze {} splitting).table.symbol method).locals
        targets rest source ∧
      (splitMachine 0).HasArrays (analyze {} splitting)
        ((analyze {} splitting).table.symbol method).locals rest source store
        [0, 0] [72, 101, 108, 108, 111] ∧
      store ((analyze {} splitting).symbolOf rest) = 1 :=
  ⟨_, ⟨14⟩, _, _, _, _, fun id => if id = ⟨13⟩ then 2 else if id = ⟨17⟩ then 1 else 0, rfl,
    by decide +kernel, rfl, rfl, by decide +kernel, by decide +kernel, by decide +kernel⟩

theorem generate_unpacks_splitting :
    splitting.nodes.Nodup ∧ (analyze {} splitting).errorCount = 0 ∧
      ∃ image result, generate {} (analyze {} splitting) splitting = (.ok image, result) ∧
        ∃ start last, (splitMachine start).Reaches image.code last ∧ last.stack = [] ∧
          last.heap = [[108, 111], [72, 101, 108, 108, 111]] := by
  have distinct : splitting.nodes.Nodup := by decide +kernel
  have accepted : (analyze {} splitting).errorCount = 0 := by decide +kernel
  have succeeds : (generate {} (analyze {} splitting) splitting).1.isOk := by decide +kernel
  obtain ⟨image, generated⟩ := exists_image succeeds
  obtain ⟨part, method, span, targets, rest, source, store, units, owner, body, length, apart,
    hasArrays, isRest⟩ := splitMachine_hasArrays
  obtain ⟨_, _, _, _, start, _, _, _, _, areLaid, _⟩ := generate_unpacks distinct accepted generated
    part (by simp [units]) method owner
  rw [body] at areLaid
  obtain ⟨_, ⟨_, unpacks⟩, _⟩ := areLaid
  have atStart : (splitMachine start).HasArrays _ _ _ _ _ _ _ :=
    ⟨⟨hasArrays.stores.locals, hasArrays.stores.globals⟩, hasArrays.atRest, hasArrays.atSource,
      hasArrays.bytes, hasArrays.length⟩
  have runs := unpacks span targets rest source rfl apart (splitMachine start) store _ _ rfl atStart
    (by rw [length]; decide)
  rw [length, if_neg (by decide)] at runs
  obtain ⟨after, final, becomes, _, reaches⟩ := runs
  refine ⟨distinct, accepted, image, _, generated, start, _, reaches, rfl, ?_⟩
  rw [isRest]
  exact congrArg (fun heap => heap.set 0 [108, 111]) becomes.keeps.heap

end MicroJava
