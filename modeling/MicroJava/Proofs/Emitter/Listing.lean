import Mathlib.Data.List.Forall2
import MicroJava.Code.Listing
import MicroJava.Proofs.Emitter.Decoding

/-!
# Listings of what was emitted

A listing has one line for each instruction that was emitted, with its offset, its mnemonic
and its operands.  There is one exception: the size of a frame is shown as a signed byte.
-/

namespace MicroJava

open List

variable {code : Code} {offset : Nat} {instr : Instruction}

/-! ## Lines -/

/-- A text without line breaks. -/
def IsLine (text : String) : Prop := '\n' ∉ text.toList

instance (text : String) : Decidable (IsLine text) := inferInstanceAs (Decidable (_ ∉ _))

@[simp] theorem isLine_append (first second : String) :
    IsLine (first ++ second) ↔ IsLine first ∧ IsLine second := by
  simp [IsLine, not_or]

theorem isDigit_of_mem_repr {c : Char} {value : Nat} (member : c ∈ value.repr.toList) :
    c.isDigit := by
  rw [Nat.toList_repr] at member
  exact Nat.isDigit_of_mem_toDigits (by decide) (by decide) member

@[simp] theorem isLine_repr (value : Nat) : IsLine value.repr :=
  fun member => absurd (isDigit_of_mem_repr member) (by decide)

@[simp] theorem isLine_repr_int (value : Int) : IsLine value.repr := by
  cases value with
  | ofNat value => exact isLine_repr value
  | negSucc value => exact (isLine_append "-" _).mpr ⟨by decide, isLine_repr (value + 1)⟩

@[simp] theorem isLine_text (op : Opcode) : IsLine op.text := by
  cases op <;> decide

@[simp] theorem isLine_padded (width value : Nat) : IsLine (Code.padded width value) := by
  rw [Code.padded, isLine_append]
  exact ⟨by simp [IsLine], isLine_repr value⟩

theorem splitOn_join {lines : List String} (areLines : ∀ line ∈ lines, IsLine line) :
    (String.join (lines.map (· ++ "\n"))).toList.splitOn '\n' =
      lines.map String.toList ++ [[]] := by
  induction lines with
  | nil => rfl
  | cons line rest ih =>
    obtain ⟨isLine, areLines⟩ := forall_mem_cons.mp areLines
    have join : (String.join ((line :: rest).map (· ++ "\n"))).toList =
        line.toList ++ '\n' :: (String.join (rest.map (· ++ "\n"))).toList := by
      simp [String.join_cons]
    rw [join, splitOn_append_cons_self, splitOn_eq_singleton isLine, ih areLines]
    rfl

/-! ## The line of an instruction -/

namespace Instruction

/-- The operands of an instruction that its operation does not tell. -/
def operandText : Instruction → String
  | plain _ => ""
  | load slot | store slot => if slot < 4 then "" else " " ++ toString slot
  | const value => if constOp value = .const then " " ++ toString value.toInt else ""
  | getStatic number | putStatic number | getField number | putField number | new number =>
      " " ++ toString number
  | newArray number | trap number => " " ++ toString number.toNat
  | inc slot delta => " " ++ toString slot ++ " " ++ toString delta.toInt
  | enter params frameSize => " " ++ toString params ++ " " ++ toString frameSize
  | jump _ target | call target => " -> " ++ toString target
  | invokeVirtual name => " " ++ nameOf name

/-- The line that tells an instruction at an offset. -/
def line (offset : Nat) (instr : Instruction) : String :=
  Code.padded 5 offset ++ ": " ++ (instr.op.text ++ instr.operandText)

/-- The operands of an instruction as they are shown: the size of a frame is a signed byte. -/
def shownText : Instruction → String
  | enter params frameSize =>
      " " ++ toString params ++ " " ++ toString (UInt8.ofNat frameSize).toInt8.toInt
  | instr => instr.operandText

/-- The name that an instruction calls can be shown on a line. -/
def IsReadable : Instruction → Prop
  | invokeVirtual name => Code.nameText name = nameOf name ∧ IsLine (nameOf name)
  | _ => True

/-- A signed byte shows the size of a frame. -/
def hasSmallFrame : Instruction → Bool
  | enter _ frameSize => frameSize < 128
  | _ => true

end Instruction

open Instruction

theorem shownText_eq {slot : Nat} (byte : code.byteAt? (offset + 1) = some (UInt8.ofNat slot))
    (small : slot < 256) {op : Opcode} (single : op = .load ∨ op = .store) :
    code.operandText offset op = " " ++ toString slot := by
  rcases single with rfl | rfl <;>
    simp [Code.operandText, byte, Opcode.isJump, Opcode.operandSize, Nat.mod_eq_of_lt small]

theorem Code.Spells.operandText (spells : code.Spells offset instr)
    (readable : instr.IsReadable) :
    code.operandText offset instr.op = instr.shownText := by
  have operands := spells.operands
  have fits := spells.fits
  cases instr with
  | plain op => cases op <;> first | rfl | cases fits
  | load slot =>
    match slot with
    | 0 | 1 | 2 | 3 => rfl
    | slot + 4 => exact shownText_eq operands.byteAt? fits (.inl rfl)
  | store slot =>
    match slot with
    | 0 | 1 | 2 | 3 => rfl
    | slot + 4 => exact shownText_eq operands.byteAt? fits (.inr rfl)
  | const value =>
    change _ = (if constOp value = .const then _ else _)
    split
    next long =>
      rw [operandBytes, if_pos long] at operands
      simp [long, Code.operandText, Instruction.op, operands.wordAt?]
    next short =>
      change Code.operandText code offset (constOp value) = ""
      unfold constOp at short ⊢
      split_ifs at short ⊢ <;> first | rfl | exact absurd rfl short
  | jump op target =>
    have found := spells.targetAt?_jump
    cases op <;> first
      | exact absurd fits.1 (by decide)
      | simp [Code.operandText, Instruction.op, shownText, Instruction.operandText, Opcode.isJump,
          found]
  | call target =>
    simp [Code.operandText, Instruction.op, shownText, Instruction.operandText,
      spells.targetAt?_call]
  | inc slot delta =>
    simp [Code.operandText, Instruction.op, shownText, Instruction.operandText, operands.byteAt?,
      operands.tail.byteAt?, Nat.mod_eq_of_lt (show _ < 256 from fits)]
  | enter params frameSize =>
    simp [Code.operandText, Instruction.op, shownText, operands.byteAt?, operands.tail.byteAt?,
      Nat.mod_eq_of_lt (show _ < 256 from fits.1)]
  | newArray number | trap number =>
    simp [Code.operandText, Instruction.op, shownText, Instruction.operandText, operands.byteAt?,
      Opcode.isJump, Opcode.operandSize]
  | invokeVirtual name =>
    simp [Code.operandText, Instruction.op, shownText, Instruction.operandText, spells.nameAt?,
      readable.1]
  | _ =>
    simp [Code.operandText, Instruction.op, shownText, Instruction.operandText,
      Code.Shows.uint16At? operands, Opcode.isJump, Opcode.operandSize,
      Nat.mod_eq_of_lt (show _ < 65536 from fits)]

/-! ## Listings -/

namespace Instruction

/-- The line of an instruction at an offset as it is shown. -/
def shownLine (offset : Nat) (instr : Instruction) : String :=
  Code.padded 5 offset ++ ": " ++ (instr.op.text ++ instr.shownText)

theorem isLine_shownLine (readable : instr.IsReadable) : IsLine (instr.shownLine offset) := by
  cases instr with
  | invokeVirtual name => simp +decide [shownLine, shownText, operandText, readable.2]
  | load slot | store slot | const value =>
    simp only [shownLine, shownText, operandText]
    split <;> simp +decide
  | _ => simp +decide [shownLine, shownText, operandText]

theorem shownLine_eq_iff (fits : instr.Fits offset) :
    instr.shownLine offset = instr.line offset ↔ instr.hasSmallFrame := by
  cases instr with
  | enter params frameSize =>
    obtain ⟨_, fits⟩ := fits
    have signed : (UInt8.ofNat frameSize).toInt8.toInt =
        if frameSize < 128 then (frameSize : Int) else (frameSize : Int) - 256 := by
      simp [Int.bmod_def]
      omega
    simp only [shownLine, line, shownText, operandText, signed, hasSmallFrame, decide_eq_true_eq]
    by_cases small : frameSize < 128
    · simp [small, Int.repr]
    · -- A negative number starts with a sign, which is no digit.
      refine iff_of_false (fun same => ?_) small
      simp only [small, if_false, String.append_right_inj, Int.toString_eq_repr,
        Int.repr_eq_if] at same
      rw [if_neg (by omega)] at same
      have sign : '-' ∈ frameSize.repr.toList := by
        rw [← Nat.toString_eq_repr, ← same]
        simp
      exact absurd (isDigit_of_mem_repr sign) (by decide)
  | _ => exact iff_of_true rfl rfl

end Instruction

theorem Instruction.forall_located_iff {keeps : Instruction → Prop} (start : Nat)
    (instructions : List Instruction) :
    (∀ entry ∈ located start instructions, keeps entry.2) ↔
      ∀ instr ∈ instructions, keeps instr := by
  induction instructions generalizing start with
  | nil => simp
  | cons instr rest ih =>
    rw [located_cons, forall_mem_cons, forall_mem_cons, ih]

theorem Code.Holds.listing {instructions : List Instruction} (holds : code.Holds 0 instructions)
    (ends : totalSize instructions = code.size)
    (readable : ∀ entry ∈ located 0 instructions, entry.2.IsReadable) :
    code.listing = String.join (((located 0 instructions).map fun entry =>
      entry.2.shownLine entry.1).map (· ++ "\n")) := by
  rw [Code.listing, holds.offsets_eq ends, starts, map_map, map_map]
  refine congrArg String.join (map_congr_left fun entry member => ?_)
  have spells := holds.spells member
  simp only [Function.comp, Code.lineText, spells.opAt?, shownLine,
    spells.operandText (readable _ member)]

/-! ## Sequences of operations -/

theorem nameText_nameWords (name : String) : Code.nameText (Site.nameWords name) = name := by
  have each (c : Char) : (let code := (Int32.ofNat c.toNat).toUInt32.toNat
      if code.isValidChar then some (Char.ofNat code) else none) = some c := by
    simp only [Emit.toNat_nameWord]
    exact (if_pos c.valid).trans (by rw [Char.ofNat_toNat])
  rw [Code.nameText, Site.nameWords, filterMap_map, Function.comp_def]
  simp only [each]
  simp

namespace Operation

/-- Whether a signed byte shows the size of the frame that an operation opens, if any. -/
def hasSmallFrame : Operation → Bool
  | enter _ frameSize => frameSize < 128
  | _ => true

/-- The instructions of an operation can be shown, its frame as far as it is small. -/
structure Tells (operation : Operation) (part : List Instruction) : Prop where
  yields : operation.Yields part
  readable : ∀ instr ∈ part, instr.IsReadable
  frames : (∀ instr ∈ part, instr.hasSmallFrame) ↔ operation.hasSmallFrame

theorem act_tells {operation : Operation} {before after : Emitter} {granted : Granted}
    (whole : operation.isWhole)
    (named : ∀ name, operation = .write (.invokeVirtual name) → IsLine name)
    (ran : operation.act before = .ok granted after) :
    ∃ part, operation.Tells part ∧ before.Appends after part := by
  obtain ⟨part, yields, appends⟩ := act_yields whole ran
  suffices tells : (∀ instr ∈ part, instr.IsReadable) ∧
      ((∀ instr ∈ part, instr.hasSmallFrame) ↔ operation.hasSmallFrame) from
    ⟨part, ⟨yields, tells.1, tells.2⟩, appends⟩
  cases operation with
  | enter params frameSize =>
    obtain rfl := yields
    simp [IsReadable, Instruction.hasSmallFrame, hasSmallFrame]
  | write writing =>
    cases writing with
    | op code =>
      obtain rfl := yields
      cases code <;> simp [Opcode.alone, IsReadable, Instruction.hasSmallFrame, hasSmallFrame]
    | opByte code operand =>
      rcases yields with ⟨_, rfl⟩ | ⟨_, rfl⟩ <;>
        simp [IsReadable, Instruction.hasSmallFrame, hasSmallFrame]
    | opBytes | opUInt16 | opInt16 => cases yields
    | loadLocal | storeLocal | getStatic | putStatic | getField | putField | inc =>
      obtain ⟨_, _, rfl⟩ := yields
      simp [IsReadable, Instruction.hasSmallFrame, hasSmallFrame]
    | invokeVirtual name =>
      obtain ⟨words, isName, rfl⟩ := yields
      obtain ⟨_, _, wrote⟩ := plainly_ok ran
      have here := appends.holds.1.instructionAt?
      have written := Emitter.Appends.of_writes (Emit.invokeVirtual_writes wrote)
      rw [written.holds.1.instructionAt?] at here
      cases here
      simp [IsReadable, Instruction.hasSmallFrame, hasSmallFrame, isName, nameText_nameWords,
        named name rfl]
    | _ =>
      obtain rfl := yields
      simp [IsReadable, Instruction.hasSmallFrame, hasSmallFrame]
  | _ => cases yields

theorem forall_mem_flatten_of_tells {operations : List Operation} {parts : List (List Instruction)}
    (tells : List.Forall₂ Tells operations parts) :
    (∀ instr ∈ parts.flatten, instr.IsReadable) ∧
      ((∀ instr ∈ parts.flatten, instr.hasSmallFrame) ↔
        ∀ operation ∈ operations, operation.hasSmallFrame) := by
  induction tells with
  | nil => simp
  | cons tells _ ih =>
    simp only [flatten_cons, forall_mem_append, forall_mem_cons]
    exact ⟨⟨tells.readable, ih.1⟩, and_congr tells.frames ih.2⟩

/-- The listing of what was emitted is faithful if and only if no frame has 128 slots or more:
it has one line for each instruction, which shows the operands that were passed. -/
theorem emitAll_isListed_iff {operations : List Operation} {starts : List Nat} {emitter : Emitter}
    (whole : ∀ operation ∈ operations, operation.isWhole)
    (named : ∀ name, .write (.invokeVirtual name) ∈ operations → IsLine name)
    (ran : emitAll operations {} = .ok starts emitter) :
    ∃ parts, List.Forall₂ Yields operations parts ∧
      (emitter.code.listing.toList.splitOn '\n' =
          ((List.zipWith located starts parts).flatten.map fun entry =>
            (entry.2.line entry.1).toList) ++ [[]] ↔
        ∀ operation ∈ operations, operation.hasSmallFrame) := by
  obtain ⟨parts, tells, appends, places⟩ := emitAll_appends (fun operation member _ _ _ =>
    act_tells (whole operation member) fun name same => named name (same ▸ member)) ran
  refine ⟨parts, tells.imp fun _ _ tells => tells.yields, ?_⟩
  have holds : emitter.code.Holds 0 parts.flatten := appends.holds
  have ends : totalSize parts.flatten = emitter.code.size := by
    rw [appends.size]
    exact (Nat.zero_add _).symm
  have readable : ∀ entry ∈ located 0 parts.flatten, entry.2.IsReadable :=
    (forall_located_iff 0 _).mpr (forall_mem_flatten_of_tells tells).1
  have starting : ({} : Emitter).code.size = 0 := rfl
  rw [places, starting, holds.listing ends readable, splitOn_join, map_map,
    append_left_inj, map_inj_left, ← (forall_mem_flatten_of_tells tells).2,
    ← forall_located_iff 0]
  · refine forall₂_congr fun entry member => ?_
    rw [Function.comp, String.toList_inj]
    exact shownLine_eq_iff (holds.spells member).fits
  · intro line member
    obtain ⟨entry, inside, rfl⟩ := mem_map.mp member
    exact isLine_shownLine (readable entry inside)

theorem emitAll_isListed_iff_mixed :
    ∃ starts emitter parts, emitAll mixedExample {} = .ok starts emitter ∧
      List.Forall₂ Yields mixedExample parts ∧
      emitter.code.listing.toList.splitOn '\n' =
        ((List.zipWith located starts parts).flatten.map fun entry =>
          (entry.2.line entry.1).toList) ++ [[]] := by
  cases ran : emitAll mixedExample {} with
  | error fault emitter =>
    have runs : (match emitAll mixedExample {} with
        | .ok _ _ => true
        | .error _ _ => false) = true := by decide +kernel
    rw [ran] at runs
    cases runs
  | ok starts emitter =>
    have named (name : String) (member : .write (.invokeVirtual name) ∈ mixedExample) :
        IsLine name := by
      obtain rfl : name = "né" := by simpa [mixedExample] using member
      decide
    obtain ⟨parts, yields, listed⟩ := emitAll_isListed_iff (by decide) named ran
    exact ⟨starts, emitter, parts, rfl, yields, listed.mpr (by decide)⟩

/-- A frame of 200 slots is listed as one of -56. -/
theorem not_isListed_wide :
    ∃ starts emitter, emitAll [.enter 0 200] {} = .ok starts emitter ∧
      emitter.code.listing = "    0: enter 0 -56\n" :=
  ⟨_, _, rfl, by decide +kernel⟩

end Operation
end MicroJava
