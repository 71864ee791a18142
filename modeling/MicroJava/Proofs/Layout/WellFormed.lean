import MicroJava.Proofs.Layout.Regions

/-!
# Well-formed code

The code of a program without violations splits exactly into instructions.  It is a row of
methods, each with one frame.  Jumps stay within a method, and calls and the entry point lead
to the first instruction of a method.
-/

namespace MicroJava

open List Instruction

variable {regions : List Region} {start offset : Nat} {id : SymbolId} {instr : Instruction}
  {analysis : Analysis} {region : Region} {program : Program}

/-! ## Code as bytes -/

namespace Code

/-- A code splits into instructions, without a gap and without a rest. -/
structure IsSplit (code : Code) : Prop where
  first : code.offsets.head? = some 0
  each : ∀ offset ∈ code.offsets, (code.opAt? offset).isSome ∧
    ∃ size, code.instructionSize? offset = some size ∧
      (offset + size ∈ code.offsets ∨ offset + size = code.size)
  last : ∃ offset size, code.offsets.getLast? = some offset ∧
    code.instructionSize? offset = some size ∧ offset + size = code.size

/-- The offset of an instruction that opens a frame. -/
def IsEntry (code : Code) (offset : Nat) : Prop :=
  offset ∈ code.offsets ∧ code.opAt? offset = some .enter

/-- The bytes from one offset up to another are the code of one method. -/
structure IsMethod (code : Code) (start stop : Nat) : Prop where
  opens : code.IsEntry start
  single : ∀ offset, code.IsEntry offset → start ≤ offset → offset < stop → offset = start
  ends : ∃ offset ∈ code.offsets, ∃ size, start ≤ offset ∧
    code.instructionSize? offset = some size ∧ offset + size = stop ∧
    (code.opAt? offset = some .ret ∨ code.opAt? offset = some .trap)
  jumps : ∀ offset ∈ code.offsets, start ≤ offset → offset < stop →
    ∀ op, code.opAt? offset = some op → op.isJump →
      ∃ target ∈ code.offsets, code.targetAt? offset = some target ∧ start ≤ target ∧ target < stop

end Code

/-- The bytes of one method. -/
structure Stretch where
  owner : SymbolId
  start : Nat
  stop : Nat

/-- Methods that follow each other without gaps. -/
def Stretch.Tile : Nat → List Stretch → Nat → Prop
  | start, [], stop => start = stop
  | start, stretch :: rest, stop => stretch.start = start ∧ Tile stretch.stop rest stop

/-- Whether a unit has code. -/
def DeclUnit.hasCode : DeclUnit → Bool
  | type _ => false
  | init _ => true
  | method _ => true

/-- An image is well-formed for a program with the given symbols. -/
structure Image.IsWellFormed (image : Image) (program : Program) (analysis : Analysis) : Prop where
  /-- The code splits into instructions. -/
  split : image.code.IsSplit
  /-- The code is one method after the other, one for each unit that has code. -/
  methods : ∃ stretches : List Stretch, Stretch.Tile 0 stretches image.code.size ∧
    (stretches.map fun stretch => some stretch.owner) =
      analysis.builtins.all.map some ++
        (program.units.filter DeclUnit.hasCode).map (DeclUnit.owner? analysis.notes) ∧
    ∀ stretch ∈ stretches, image.code.IsMethod stretch.start stretch.stop ∧
      (analysis.table.symbol stretch.owner).address = (stretch.start : Int)
  /-- Calls lead to methods. -/
  calls : ∀ offset ∈ image.code.offsets, image.code.opAt? offset = some .call →
    ∃ target, image.code.targetAt? offset = some target ∧ image.code.IsEntry target
  /-- The address of every method leads to a method. -/
  addresses : ∀ id, (analysis.table.symbol id).kind = .method →
    ∃ start, (analysis.table.symbol id).address = ((start : Nat) : Int) ∧ image.code.IsEntry start
  /-- So does the entry point. -/
  entry : image.code.IsEntry image.entry

/-! ## Regions as instructions -/

namespace Region

/-- An instruction after which a method does not go on. -/
def IsEnd (instr : Instruction) : Prop :=
  instr = .plain .ret ∨ ∃ number, instr = .trap number

/-- A region is the code of one method among the regions of a program. -/
structure IsClosed (region : Region) (regions : List Region) : Prop where
  opens : ∃ params size tail, region.code = .enter params size :: tail ∧
    ∀ params size, .enter params size ∉ tail
  ends : ∃ early last, region.code = early ++ [last] ∧ IsEnd last
  jumps : ∀ op target, .jump op target ∈ region.code → target ∈ starts region.start region.code
  calls : ∀ target, .call target ∈ region.code → ∃ other ∈ regions, other.start = target

end Region

theorem mem_wordsCode {slot : Int} {words : List Int}
    (member : instr ∈ wordsCode slot words) :
    (∃ value, instr = .const value) ∨
      ∃ index < words.length, instr = .putStatic (slot + index).toNat := by
  induction words generalizing slot with
  | nil => cases member
  | cons word rest ih =>
    rw [wordsCode, mem_cons, mem_cons] at member
    rcases member with rfl | rfl | later
    · exact .inl ⟨_, rfl⟩
    · exact .inr ⟨0, Nat.succ_pos _, by simp⟩
    · refine (ih later).imp_right fun ⟨index, inside, same⟩ =>
        ⟨index + 1, Nat.succ_lt_succ inside, ?_⟩
      rw [same, Int.natCast_add, Int.add_assoc, Int.add_comm (index : Int)]
      rfl

theorem Analysis.mem_prologueCode {table : Table}
    (member : instr ∈ analysis.prologueCode table id) :
    (∃ value, instr = .const value) ∨
      (∃ type ∈ analysis.classes, ∃ slot, (table.desc type).dispatch = some slot ∧
        ∃ index < (table.dispatchWords (table.methodsOf type)).length,
          instr = .putStatic (slot + index).toNat) ∨
      ∃ init ∈ analysis.staticInits, instr = .call (table.symbol init).address.toNat := by
  unfold prologueCode at member
  split at member
  next =>
    rcases mem_append.mp member with word | call
    · obtain ⟨type, isClass, inside⟩ := mem_flatMap.mp word
      unfold Table.dispatchCode at inside
      split at inside
      next => cases inside
      next slot isSlot =>
        rcases mem_wordsCode inside with value | ⟨index, bound, same⟩
        · exact .inl value
        · exact .inr (.inl ⟨type, isClass, slot, isSlot, index, bound, same⟩)
    · obtain ⟨init, isInit, rfl⟩ := mem_map.mp call
      exact .inr (.inr ⟨init, isInit, rfl⟩)
  next => cases member

theorem mem_endCode {result : TypeId} (member : instr ∈ endCode result) :
    instr = .plain .exit ∨ instr = .plain .ret ∨ instr = .trap 1 := by
  unfold endCode at member
  split at member
  · rw [mem_cons, mem_singleton] at member
    exact member.imp_right .inl
  · exact .inr (.inr (mem_singleton.mp member))

theorem exists_endCode (result : TypeId) :
    ∃ early last, endCode result = early ++ [last] ∧ Region.IsEnd last := by
  unfold endCode
  split
  · exact ⟨[.plain .exit], .plain .ret, rfl, .inl rfl⟩
  · exact ⟨[], .trap 1, rfl, .inr ⟨1, rfl⟩⟩

/-- The code of a body refers to its own parts and parked receivers. -/
def Body.reach (body : Body) : Site.Reach where
  setting := body.setting
  known part := part ∈ Stmt.partsOf body.statements
  limit := body.peak

namespace Analysis

namespace IsSound

theorem kind_init (sound : analysis.IsSound program) (isInit : id ∈ analysis.staticInits) :
    (analysis.table.symbol id).kind = .method := by
  rw [sound.staticInits] at isInit
  obtain ⟨part, member, found⟩ := mem_filterMap.mp isInit
  cases part with
  | type decl => cases found
  | method decl => cases found
  | init block =>
    have member : CodeUnit.declared (.init block) ∈ analysis.units program :=
      mem_append_right _ (mem_map_of_mem member)
    cases sound.isKnown member with
    | code other owner kind =>
      obtain rfl := Option.some.inj (Eq.trans (Eq.symm owner) found)
      exact kind
    | dispatch type isClass => cases isClass

end IsSound

namespace Compiles

variable {body : Body}

variable (compiles : analysis.Compiles program region body)
include compiles

theorem builds :
    body.site.Builds body.reach (fun _ => False) True 0 body.start body.code 0 0
      (Site.atZero (body.site.stmtsBounds body.start body.statements)) :=
  Site.stmtsCode_built compiles.sees compiles.noted compiles.defined (Nat.le_refl _)
    (fun _ member => member) nofun

theorem admits :
    body.site.Admits body.setting body.peak (IsBoundary body.start body.code) body.code :=
  compiles.builds.admits compiles.sees (fun _ boundary => boundary) nofun

theorem mem_code (member : instr ∈ region.code) :
    instr = .enter (analysis.table.symbol region.owner).paramCount
        (body.site.frameBase + body.peak) ∨
      (analysis.main = some region.owner ∧
        instr ∈ analysis.prologueCode body.site.table region.owner) ∨
      instr ∈ body.code ∨
      instr = .plain .exit ∨ instr = .plain .ret ∨ instr = .trap 1 := by
  rw [compiles.code, mem_cons, mem_append, mem_append, compiles.prologue] at member
  refine member.imp_right (.imp (fun prologue => ⟨?_, prologue⟩) (.imp_right mem_endCode))
  by_contra other
  rw [prologueCode, if_neg other] at prologue
  cases prologue

theorem starts_code (member : offset ∈ starts body.start
      (body.code ++ endCode (analysis.table.symbol region.owner).type)) :
    offset ∈ starts region.start region.code := by
  rw [compiles.start] at member
  rw [compiles.code, starts_cons, mem_cons, starts_append, mem_append]
  exact .inr (.inr member)

theorem exists_callee {target : Nat} (sound : analysis.IsSound program)
    (first : ∃ other ∈ analysis.regions program, other.start = 0)
    (callee : body.site.IsCallee body.setting target) :
    ∃ other ∈ analysis.regions program, other.start = target := by
  obtain ⟨id, isCallee, placed, rfl⟩ := callee
  rw [compiles.table] at isCallee
  rcases isCallee with rfl | kind
  · have var := sound.valid.kind_absent
    have places := compiles.sees.places
    rw [compiles.table] at places
    have address : (analysis.table.symbol .absent).address = 0 := by
      have bare := congrArg Symbol.address sound.valid.bare_absent
      exact bare
    rw [places.other .absent (by rw [var]; decide), address]
    exact first
  · obtain ⟨other, isRegion, _, address⟩ := compiles.placed id kind placed
    exact ⟨other, isRegion, by rw [address, Int.toNat_natCast]⟩

theorem isClosed (sound : analysis.IsSound program)
    (first : ∃ other ∈ analysis.regions program, other.start = 0) :
    region.IsClosed (analysis.regions program) := by
  obtain ⟨early, last, ending, isEnd⟩ := exists_endCode (analysis.table.symbol region.owner).type
  refine ⟨⟨_, _, _, compiles.code, fun params size member => ?_⟩,
    ⟨.enter (analysis.table.symbol region.owner).paramCount (body.site.frameBase + body.peak) ::
      (body.prologue ++ (body.code ++ early)), last, ?_, isEnd⟩,
    fun op target member => ?_, fun target member => ?_⟩
  · rw [mem_append, mem_append, compiles.prologue] at member
    rcases member with prologue | inside | atEnd
    · rcases mem_prologueCode prologue with
        ⟨_, same⟩ | ⟨_, _, _, _, _, _, same⟩ | ⟨_, _, same⟩ <;> cases same
    · exact compiles.admits _ inside
    · rcases mem_endCode atEnd with same | same | same <;> cases same
  · rw [compiles.code, ending]
    simp only [cons_append, append_assoc]
  · rcases compiles.mem_code member with same | ⟨_, prologue⟩ | inside | same | same | same
    · cases same
    · rcases mem_prologueCode prologue with
        ⟨_, same⟩ | ⟨_, _, _, _, _, _, same⟩ | ⟨_, _, same⟩ <;> cases same
    · have boundary : IsBoundary body.start body.code target := compiles.admits _ inside
      exact compiles.starts_code (boundary.mem_starts (by rw [ending]; simp))
    · cases same
    · cases same
    · cases same
  · rcases compiles.mem_code member with same | ⟨isMain, prologue⟩ | inside | same | same | same
    · cases same
    · rcases mem_prologueCode prologue with
        ⟨_, same⟩ | ⟨_, _, _, _, _, _, same⟩ | ⟨init, isInit, same⟩
      · cases same
      · cases same
      · have placed := (compiles.prepared isMain).inits init isInit
        obtain ⟨other, isRegion, _, address⟩ := compiles.placed init (sound.kind_init isInit) placed
        refine ⟨other, isRegion, ?_⟩
        rw [Instruction.call.inj same, address, Int.toNat_natCast]
    · exact compiles.exists_callee sound first (compiles.admits _ inside)
    · cases same
    · cases same
    · cases same

end Compiles

theorem isClosed_of_builtin (code : region.code = analysis.builtins.code region.owner) :
    region.IsClosed (analysis.regions program) := by
  rw [Builtins.code] at code
  split at code
  · exact ⟨⟨1, 1, _, code, by simp⟩,
      ⟨[.enter 1 1, .load 0, .plain .arrayLength, .plain .exit], .plain .ret, code, .inl rfl⟩,
      by simp [code], by simp [code]⟩
  · exact ⟨⟨1, 1, _, code, by simp⟩,
      ⟨[.enter 1 1, .load 0, .plain .exit], .plain .ret, code, .inl rfl⟩,
      by simp [code], by simp [code]⟩

namespace IsSound

variable (sound : analysis.IsSound program)
include sound

theorem tile : Region.Tile 0 (analysis.regions program)
    (analysis.layoutOf program).size :=
  sound.followsAll.tile

theorem exists_first : ∃ region ∈ analysis.regions program, region.start = 0 := by
  have builtin : analysis.builtins.chr ∈ analysis.builtins.all := by simp [Builtins.all]
  obtain ⟨other, member, _⟩ := sound.exists_region_of_method (sound.builtins _ builtin).kind
  have member : other ∈ analysis.regions program := member
  have tile := sound.tile
  cases regions : analysis.regions program with
  | nil =>
    rw [regions] at member
    cases member
  | cons first rest =>
    rw [regions] at tile
    exact ⟨first, mem_cons_self, tile.1⟩

theorem isClosed (defined : Layout.Defined analysis (analysis.units program))
    (member : region ∈ analysis.regions program) :
    region.IsClosed (analysis.regions program) := by
  rcases sound.region_cases defined member with ⟨_, code⟩ | ⟨body, compiles⟩
  · exact isClosed_of_builtin code
  · exact compiles.isClosed sound sound.exists_first

end IsSound
end Analysis

/-! ## Regions as bytes -/

namespace Region

variable {stop : Nat}

theorem Tile.le_start (tile : Tile start regions stop) (member : region ∈ regions) :
    start ≤ region.start := by
  induction regions generalizing start with
  | nil => cases member
  | cons first rest ih =>
    obtain ⟨rfl, later⟩ := tile
    rcases mem_cons.mp member with rfl | behind
    · exact Nat.le_refl _
    · exact Nat.le_trans (Nat.le_add_right _ _) (ih later behind)

theorem Tile.eq_of_mem {first second : Region} (tile : Tile start regions stop)
    (isFirst : first ∈ regions) (isSecond : second ∈ regions)
    (inFirst : first.start ≤ offset ∧ offset < first.stop)
    (inSecond : second.start ≤ offset ∧ offset < second.stop) :
    first = second := by
  induction regions generalizing start with
  | nil => cases isFirst
  | cons region rest ih =>
    obtain ⟨_, later⟩ := tile
    rcases mem_cons.mp isFirst with rfl | firstBehind <;>
      rcases mem_cons.mp isSecond with rfl | secondBehind
    · rfl
    · have := later.le_start secondBehind
      omega
    · have := later.le_start firstBehind
      omega
    · exact ih later firstBehind secondBehind

/-- The bytes of a region. -/
def stretch (region : Region) : Stretch := ⟨region.owner, region.start, region.stop⟩

theorem Tile.stretches (tile : Tile start regions stop) :
    Stretch.Tile start (regions.map stretch) stop := by
  induction regions generalizing start with
  | nil => exact tile
  | cons region rest ih => exact ⟨tile.1, ih tile.2⟩

end Region

namespace Instruction

variable {code : List Instruction}

theorem exists_of_mem_starts (member : offset ∈ starts start code) :
    ∃ instr, (offset, instr) ∈ located start code := by
  obtain ⟨⟨found, instr⟩, inside, rfl⟩ := mem_map.mp member
  exact ⟨instr, inside⟩

variable (member : (offset, instr) ∈ located start code)
include member

theorem mem_starts_of_located : offset ∈ starts start code :=
  mem_map_of_mem member

theorem mem_of_located : instr ∈ code := by
  induction code generalizing start with
  | nil => cases member
  | cons first rest ih =>
    rw [located_cons, mem_cons] at member
    rcases member with same | later
    · cases same
      exact mem_cons_self
    · exact mem_cons_of_mem _ (ih later)

theorem next_of_located :
    offset + instr.size ∈ starts start code ∨
      offset + instr.size = start + totalSize code := by
  induction code generalizing start with
  | nil => cases member
  | cons first rest ih =>
    rw [located_cons, mem_cons] at member
    rw [starts_cons, mem_cons, totalSize_cons, ← Nat.add_assoc]
    rcases member with same | later
    · cases same
      cases rest with
      | nil => exact .inr rfl
      | cons second rest => exact .inl (.inr mem_cons_self)
    · exact (ih later).imp_left .inr

end Instruction

namespace Code.Spells

variable {code : Code}

variable (spells : code.Spells offset instr)
include spells

theorem eq_enter (isEnter : code.opAt? offset = some .enter) :
    ∃ params size, instr = .enter params size := by
  have found := spells.instructionAt?
  simp only [Code.instructionAt?, isEnter] at found
  split at found
  next => exact ⟨_, _, (Option.some.inj found).symm⟩
  next => cases found

theorem eq_jump {op : Opcode} (here : code.opAt? offset = some op) (isJump : op.isJump) :
    ∃ target, instr = .jump op target := by
  have found := spells.instructionAt?
  rw [Code.instructionAt?_of_isJump here isJump, Option.map_eq_some_iff] at found
  obtain ⟨target, _, same⟩ := found
  exact ⟨target, same.symm⟩

theorem eq_call (isCall : code.opAt? offset = some .call) : ∃ target, instr = .call target := by
  have found := spells.instructionAt?
  simp only [Code.instructionAt?, isCall, Option.map_eq_some_iff] at found
  obtain ⟨target, _, same⟩ := found
  exact ⟨target, same.symm⟩

end Code.Spells

/-- A code that consists of the regions of a program. -/
structure Code.Consists (code : Code) (regions : List Region) : Prop where
  tile : Region.Tile 0 regions code.size
  holds : ∀ region ∈ regions, code.Holds region.start region.code

namespace Code.Consists

variable {code : Code} (consists : code.Consists regions)
include consists

theorem offsets_eq :
    code.offsets = regions.flatMap fun region => starts region.start region.code := by
  obtain ⟨holds, ends⟩ := consists.tile.holds consists.holds
  rw [Nat.zero_add] at ends
  rw [holds.offsets_eq ends, consists.tile.starts]

theorem mem_offsets (isRegion : region ∈ regions)
    (member : offset ∈ starts region.start region.code) :
    offset ∈ code.offsets := by
  rw [consists.offsets_eq]
  exact mem_flatMap.mpr ⟨region, isRegion, member⟩

theorem exists_of_mem_offsets (member : offset ∈ code.offsets) :
    ∃ region ∈ regions, ∃ instr, (offset, instr) ∈ located region.start region.code ∧
      code.Spells offset instr := by
  rw [consists.offsets_eq] at member
  obtain ⟨region, isRegion, inside⟩ := mem_flatMap.mp member
  obtain ⟨instr, located⟩ := exists_of_mem_starts inside
  exact ⟨region, isRegion, instr, located, (consists.holds region isRegion).spells located⟩

theorem exists_of_mem_region (isRegion : region ∈ regions) (member : offset ∈ code.offsets)
    (low : region.start ≤ offset) (high : offset < region.stop) :
    ∃ instr, (offset, instr) ∈ located region.start region.code ∧
      code.Spells offset instr := by
  obtain ⟨other, isOther, instr, inside, spells⟩ := consists.exists_of_mem_offsets member
  obtain ⟨otherLow, otherHigh⟩ := bounds_of_mem_located inside
  have positive := instr.size_pos
  obtain rfl := consists.tile.eq_of_mem isRegion isOther ⟨low, high⟩
    ⟨otherLow, by rw [Region.stop]; omega⟩
  exact ⟨instr, inside, spells⟩

theorem isSplit (nonempty : regions.flatMap Region.code ≠ []) : code.IsSplit := by
  obtain ⟨holds, ends⟩ := consists.tile.holds consists.holds
  rw [Nat.zero_add] at ends
  have offsets := holds.offsets_eq ends
  refine ⟨?_, fun offset member => ?_, ?_⟩
  · rw [offsets]
    cases code : regions.flatMap Region.code with
    | nil => exact absurd code nonempty
    | cons first rest => rfl
  · rw [offsets] at member ⊢
    obtain ⟨instr, inside⟩ := exists_of_mem_starts member
    have spells := holds.spells inside
    refine ⟨by rw [spells.opAt?]; rfl, instr.size, spells.instructionSize?, ?_⟩
    rw [← ends, ← Nat.zero_add (totalSize _)]
    exact next_of_located inside
  · obtain ⟨early, last, whole⟩ := (eq_nil_or_concat _).resolve_left nonempty
    rw [whole, concat_eq_append] at holds ends offsets
    rw [totalSize_append] at ends
    have spells := ((Code.holds_append _ _ _ _).mp holds).2.1
    rw [Nat.zero_add] at spells
    refine ⟨totalSize early, last.size, ?_, spells.instructionSize?, ends⟩
    rw [offsets, starts_append, Nat.zero_add]
    exact getLast?_concat

/-- The bytes of a region are the code of one method. -/
theorem isMethod (isRegion : region ∈ regions) (closed : region.IsClosed regions) :
    code.IsMethod region.start region.stop := by
  have holds := consists.holds region isRegion
  obtain ⟨params, size, tail, opens, single⟩ := closed.opens
  refine ⟨?_, fun offset entry low high => ?_, ?_, fun offset member low high op here isJump => ?_⟩
  · refine ⟨consists.mem_offsets isRegion (by rw [opens]; exact mem_cons_self), ?_⟩
    rw [opens] at holds
    exact holds.1.opAt?
  · obtain ⟨instr, inside, spells⟩ := consists.exists_of_mem_region isRegion entry.1 low high
    obtain ⟨_, _, rfl⟩ := spells.eq_enter entry.2
    rw [opens, located_cons, mem_cons] at inside
    rcases inside with same | later
    · exact (Prod.mk.inj same).1
    · exact absurd (mem_of_located later) (single _ _)
  · obtain ⟨early, last, ending, isEnd⟩ := closed.ends
    have inside : (region.start + totalSize early, last) ∈ located region.start region.code := by
      rw [ending, located_append, mem_append]
      exact .inr mem_cons_self
    have spells := holds.spells inside
    refine ⟨_, consists.mem_offsets isRegion (mem_starts_of_located inside), last.size,
      Nat.le_add_right _ _, spells.instructionSize?, ?_, ?_⟩
    · rw [Region.stop, ending, totalSize_append, Nat.add_assoc]
      rfl
    · rw [spells.opAt?]
      rcases isEnd with rfl | ⟨number, rfl⟩
      · exact .inl rfl
      · exact .inr rfl
  · obtain ⟨instr, inside, spells⟩ := consists.exists_of_mem_region isRegion member low high
    obtain ⟨target, rfl⟩ := spells.eq_jump here isJump
    have isStart := closed.jumps op target (mem_of_located inside)
    obtain ⟨other, found⟩ := exists_of_mem_starts isStart
    obtain ⟨targetLow, targetHigh⟩ := bounds_of_mem_located found
    have positive := other.size_pos
    exact ⟨target, consists.mem_offsets isRegion isStart, spells.targetAt?_jump, targetLow,
      by rw [Region.stop]; omega⟩

theorem exists_target (closed : ∀ region ∈ regions, region.IsClosed regions)
    (member : offset ∈ code.offsets) (isCall : code.opAt? offset = some .call) :
    ∃ target, code.targetAt? offset = some target ∧ code.IsEntry target := by
  obtain ⟨region, isRegion, instr, inside, spells⟩ := consists.exists_of_mem_offsets member
  obtain ⟨target, rfl⟩ := spells.eq_call isCall
  obtain ⟨other, isOther, rfl⟩ := (closed region isRegion).calls target (mem_of_located inside)
  exact ⟨other.start, spells.targetAt?_call,
    (consists.isMethod isOther (closed other isOther)).opens⟩

end Code.Consists

/-! ## Programs -/

theorem Analysis.IsSound.map_owner? (sound : analysis.IsSound program) :
    (program.units.filterMap (DeclUnit.owner? analysis.notes)).map some =
      (program.units.filter DeclUnit.hasCode).map (DeclUnit.owner? analysis.notes) := by
  have known : ∀ part ∈ program.units,
      (part.owner? analysis.notes).isSome = part.hasCode := fun part member => by
    have isUnit : CodeUnit.declared part ∈ analysis.units program :=
      mem_append_right _ (mem_map_of_mem member)
    cases part with
    | type decl => rfl
    | init _ | method _ =>
      cases sound.isKnown isUnit with
      | code id owner => exact congrArg Option.isSome owner
      | dispatch type isClass => cases isClass
  generalize program.units = units at known
  induction units with
  | nil => rfl
  | cons part rest ih =>
    have rest := ih fun other member => known other (mem_cons_of_mem _ member)
    have here := known part mem_cons_self
    cases owner : part.owner? analysis.notes with
    | none =>
      rw [owner] at here
      rw [filterMap_cons_none owner, filter_cons_of_neg (by rw [← here]; nofun), rest]
    | some id =>
      rw [owner] at here
      rw [filterMap_cons_some owner, filter_cons_of_pos here.symm, map_cons,
        map_cons, owner, rest]

variable {image : Image} {options : Options} {result : Analysis}

theorem Image.Realizes.consists
    (realizes : image.Realizes (analysis.layoutOf program) analysis.main)
    (sound : analysis.IsSound program) :
    image.code.Consists (analysis.regions program) :=
  ⟨realizes.size ▸ sound.tile, realizes.holds⟩

/-- An image of a program without violations, and the analysis with the addresses in it. -/
structure Image.Implements (image : Image) (program : Program) (analysis result : Analysis) :
    Prop where
  realizes : image.Realizes (analysis.layoutOf program) analysis.main
  result_eq : result = { analysis with table := (analysis.layoutOf program).table }
  defined : Layout.Defined analysis (analysis.units program)
  sound : analysis.IsSound program

theorem generate_implements (distinct : program.nodes.Nodup)
    (accepted : (analyze options program).errorCount = 0)
    (generated : generate options (analyze options program) program = (.ok image, result)) :
    image.Implements program (analyze options program) result :=
  ⟨(generate_realizes generated).1, (generate_realizes generated).2,
    generate_defined accepted generated, analyze_isSound accepted distinct⟩

theorem Image.Implements.exists_stretches {holds : Stretch → Prop}
    (implements : image.Implements program analysis result)
    (each : ∀ region ∈ analysis.regions program, holds region.stretch) :
    ∃ stretches : List Stretch, Stretch.Tile 0 stretches image.code.size ∧
      stretches.map Stretch.owner =
        result.builtins.all ++ program.units.filterMap (DeclUnit.owner? result.notes) ∧
      ∀ stretch ∈ stretches,
        (result.table.symbol stretch.owner).address = (stretch.start : Int) ∧ holds stretch := by
  obtain ⟨realizes, rfl, _, sound⟩ := implements
  have follows := sound.followsAll
  refine ⟨(analysis.regions program).map Region.stretch,
    (realizes.consists sound).tile.stretches, ?_, fun stretch member => ?_⟩
  · rw [map_map]
    exact follows.owners.trans (Analysis.IsSound.owners_eq _ _)
  · obtain ⟨region, isRegion, rfl⟩ := mem_map.mp member
    exact ⟨follows.starts region isRegion, each region isRegion⟩

/-- The code of a program without violations is well-formed. -/
theorem generate_isWellFormed (distinct : program.nodes.Nodup)
    (accepted : (analyze options program).errorCount = 0)
    (generated : generate options (analyze options program) program = (.ok image, result)) :
    image.IsWellFormed program result := by
  obtain ⟨realizes, rfl, defined, sound⟩ := generate_implements distinct accepted generated
  generalize analyze options program = analysis at *
  have follows := sound.followsAll
  have consists := realizes.consists sound
  have closed : ∀ region ∈ analysis.regions program, region.IsClosed (analysis.regions program) :=
    fun region member => sound.isClosed defined member
  have isEntry : ∀ region ∈ analysis.regions program, image.code.IsEntry region.start :=
    fun region member => (consists.isMethod member (closed region member)).opens
  obtain ⟨first, isFirst, atStart⟩ := sound.exists_first
  have places := follows.places
  refine ⟨consists.isSplit ?_, ⟨(analysis.regions program).map Region.stretch,
    consists.tile.stretches, ?_, fun stretch member => ?_⟩,
    fun offset member isCall => consists.exists_target closed member isCall, fun id kind => ?_, ?_⟩
  · obtain ⟨params, size, tail, code, _⟩ := (closed first isFirst).opens
    intro empty
    have member : Instruction.enter params size ∈
        (analysis.regions program).flatMap Region.code :=
      mem_flatMap.mpr ⟨first, isFirst, by rw [code]; exact mem_cons_self⟩
    rw [empty] at member
    cases member
  · have owners := congrArg (List.map some) follows.owners
    rw [Analysis.IsSound.owners_eq, map_append, sound.map_owner?, map_map] at owners
    rw [map_map]
    exact owners
  · obtain ⟨region, isRegion, rfl⟩ := mem_map.mp member
    exact ⟨consists.isMethod isRegion (closed region isRegion), follows.starts region isRegion⟩
  · rw [places.kind] at kind
    obtain ⟨region, isRegion, rfl⟩ := sound.exists_region_of_method kind
    exact ⟨region.start, follows.starts region isRegion, isEntry region isRegion⟩
  · cases main : analysis.main with
    | none =>
      rw [realizes.noEntry main, ← atStart]
      exact isEntry first isFirst
    | some id =>
      obtain ⟨region, isRegion, rfl⟩ :=
        sound.exists_region_of_method (sound.main id main).1
      have entry := realizes.entry region.owner main
      rw [follows.starts region isRegion, Int.natCast_inj] at entry
      rw [entry]
      exact isEntry region isRegion

theorem exists_image (succeeds : (generate options analysis program).1.isOk) :
    ∃ image, generate options analysis program =
      (.ok image, (generate options analysis program).2) := by
  generalize generate options analysis program = outcome at succeeds ⊢
  obtain ⟨image | fault, result⟩ := outcome
  · cases succeeds
  · exact ⟨_, rfl⟩

theorem stepping_isGenerated :
    ∃ image, generate {} (analyze {} stepping) stepping =
      (.ok image, (generate {} (analyze {} stepping) stepping).2) :=
  exists_image (by decide +kernel)

theorem generate_isWellFormed_stepping :
    stepping.nodes.Nodup ∧ (analyze {} stepping).errorCount = 0 ∧
      ∃ image result, generate {} (analyze {} stepping) stepping = (.ok image, result) ∧
        image.IsWellFormed stepping result := by
  obtain ⟨distinct, accepted⟩ := stepping_isAccepted
  obtain ⟨image, generated⟩ := stepping_isGenerated
  exact ⟨distinct, accepted, image, _, generated,
    generate_isWellFormed distinct accepted generated⟩

end MicroJava
