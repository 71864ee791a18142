import MicroJava.Proofs.Layout.Dispatch
import MicroJava.Proofs.Layout.WellFormed

/-!
# Slots

Every slot that the code of a program without violations refers to is there: the slots of
frames are below the size that the method opens its frame with, and the slots of global words
are below the size of the global data.
-/

namespace MicroJava

variable {analysis : Analysis} {instr : Instruction} {regions : List Region} {slot : Nat}
    {program : Program} {region : Region}

open Instruction

namespace Instruction

/-- The slot of the frame that an instruction refers to. -/
def localSlot? : Instruction → Option Nat
  | load slot => some slot
  | store slot => some slot
  | inc slot _ => some slot
  | _ => none

/-- The slot of the global data that an instruction refers to. -/
def globalSlot? : Instruction → Option Nat
  | getStatic slot => some slot
  | putStatic slot => some slot
  | _ => none

end Instruction

/-- Instructions stay within the frame that the method opens and within the global data. -/
structure Image.KeepsToSlots (image : Image) : Prop where
  /-- The parameters are in the frame. -/
  params : ∀ start ∈ image.code.offsets, ∀ params size,
    image.code.instructionAt? start = some (.enter params size) → params ≤ size
  /-- Up to the next frame, slots are in the frame. -/
  locals : ∀ start ∈ image.code.offsets, ∀ params size,
    image.code.instructionAt? start = some (.enter params size) →
      ∀ offset ∈ image.code.offsets, start ≤ offset →
        (∀ next, image.code.IsEntry next → start < next → offset < next) →
          ∀ instr slot, image.code.instructionAt? offset = some instr →
            instr.localSlot? = some slot → slot < size
  /-- Everywhere, global slots are in the global data. -/
  globals : ∀ offset ∈ image.code.offsets, ∀ instr slot,
    image.code.instructionAt? offset = some instr →
      instr.globalSlot? = some slot → slot < image.dataSize

namespace Region

theorem IsClosed.start_lt_stop (closed : region.IsClosed regions) :
    region.start < region.stop := by
  obtain ⟨params, size, tail, opens, _⟩ := closed.opens
  rw [stop, opens, totalSize_cons]
  have positive := (Instruction.enter params size).size_pos
  omega

/-- The instructions of a region stay within a frame and within some global words. -/
structure KeepsToSlots (region : Region) (dataSize : Nat) : Prop where
  /-- The frame has room for the parameters and for each slot of the region. -/
  frame : ∃ params size tail, region.code = .enter params size :: tail ∧ params ≤ size ∧
    ∀ instr ∈ tail, ∀ slot, instr.localSlot? = some slot → slot < size
  /-- The global words are there. -/
  globals : ∀ instr ∈ region.code, ∀ slot,
    instr.globalSlot? = some slot → slot < dataSize

end Region

namespace Site.Permits

variable {site : Site} {setting : Setting} {limit : Nat} {targets : Nat → Prop}

theorem isSlot (permits : site.Permits setting limit targets instr)
    (refers : instr.localSlot? = some slot) :
    site.IsSlot setting limit slot := by
  cases instr <;> cases refers <;> exact permits

theorem isGlobalSlot (permits : site.Permits setting limit targets instr)
    (refers : instr.globalSlot? = some slot) :
    setting.IsGlobalSlot slot := by
  cases instr <;> cases refers <;> exact permits

end Site.Permits

namespace Analysis

namespace Compiles

variable {body : Body}

variable (compiles : analysis.Compiles program region body)
include compiles

theorem lt_frameSize (plain : program.IsPlain)
    (isSlot : body.site.IsSlot body.setting body.peak slot) :
    slot < body.site.frameBase + body.peak := by
  rcases isSlot with ⟨id, isLocal, rfl⟩ | ⟨rfl, receiver⟩ | ⟨_, parked⟩
  · rw [compiles.locals] at isLocal
    obtain ⟨index, bound, found⟩ := List.getElem_of_mem isLocal
    obtain ⟨_, _, _, address⟩ :=
      compiles.slots index id (List.getElem?_eq_some_iff.mpr ⟨bound, found⟩)
    rw [compiles.table, address, Int.toNat_natCast, compiles.frameBase]
    exact Nat.lt_add_right _ bound
  · -- An instance method has its receiver as a parameter.
    rw [compiles.receiver, compiles.plain] at receiver
    obtain ⟨part, _, owner, _, suits⟩ := compiles.unit
    have positive : 0 < (analysis.table.symbol region.owner).paramCount := by
      cases part with
      | type decl => cases owner
      | init block => exact absurd (receiver plain) (by rw [suits.2.2]; decide)
      | method decl => exact (suits (receiver plain)).1
    rw [compiles.frameBase]
    exact Nat.lt_add_right _ (Nat.lt_of_lt_of_le positive compiles.count)
  · exact parked

theorem lt_globalCount (sound : analysis.IsSound program)
    (isSlot : body.setting.IsGlobalSlot slot) :
    slot < analysis.table.globalCount := by
  obtain ⟨id, finds, isGlobal, rfl⟩ := isSlot
  have valid := compiles.sees.valid
  have has := finds.hasSymbol valid
  rw [compiles.table] at has isGlobal ⊢
  obtain ⟨slot, inside, address⟩ := sound.placed.globals id ⟨has, finds.present, isGlobal⟩
  rw [address, Int.toNat_natCast]
  exact inside

theorem lt_dataSize_of_prologue (sound : analysis.IsSound program)
    (isMain : analysis.main = some region.owner)
    (member : instr ∈ analysis.prologueCode body.site.table region.owner)
    (refers : instr.globalSlot? = some slot) :
    slot < (analysis.layoutOf program).dataSize := by
  rcases mem_prologueCode member with
    ⟨_, rfl⟩ | ⟨type, isClass, start, isStart, index, inside, rfl⟩ | ⟨_, _, rfl⟩
  · cases refers
  · obtain ⟨place, isPlace, high⟩ := (compiles.reserves sound isMain).exists_of_mem isClass
    obtain rfl := Option.some.inj (isStart.symm.trans isPlace)
    rw [Table.length_dispatchWords_methodsOf] at inside
    obtain rfl := Option.some.inj refers
    omega
  · cases refers

theorem keepsToSlots (sound : analysis.IsSound program) (plain : program.IsPlain) :
    region.KeepsToSlots (analysis.layoutOf program).dataSize := by
  refine ⟨⟨_, _, _, compiles.code, ?_, fun instr member slot refers => ?_⟩,
    fun instr member slot refers => ?_⟩
  · rw [compiles.frameBase]
    exact Nat.le_add_right_of_le compiles.count
  · rw [List.mem_append, List.mem_append, compiles.prologue] at member
    rcases member with prologue | inside | atEnd
    · rcases mem_prologueCode prologue with
        ⟨_, rfl⟩ | ⟨_, _, _, _, _, _, rfl⟩ | ⟨_, _, rfl⟩ <;> cases refers
    · exact compiles.lt_frameSize plain ((compiles.admits _ inside).isSlot refers)
    · rcases mem_endCode atEnd with rfl | rfl | rfl <;> cases refers
  · rcases compiles.mem_code member with rfl | ⟨isMain, prologue⟩ | inside | rfl | rfl | rfl
    · cases refers
    · exact compiles.lt_dataSize_of_prologue sound isMain prologue refers
    · exact Nat.lt_of_lt_of_le
        (compiles.lt_globalCount sound ((compiles.admits _ inside).isGlobalSlot refers))
        sound.reserves_all.start_le_stop
    · cases refers
    · cases refers
    · cases refers

end Compiles

theorem keepsToSlots_of_builtin (dataSize : Nat)
    (code : region.code = analysis.builtins.code region.owner) :
    region.KeepsToSlots dataSize := by
  rw [Builtins.code] at code
  refine ⟨⟨1, 1, _, code, Nat.le_refl _, ?_⟩, ?_⟩
  · split <;> simp [localSlot?]
  · rw [code]
    split <;> simp [globalSlot?]

theorem IsSound.keepsToSlots (sound : analysis.IsSound program)
    (defined : Layout.Defined analysis (analysis.units program)) (plain : program.IsPlain)
    (member : region ∈ analysis.regions program) :
    region.KeepsToSlots (analysis.layoutOf program).dataSize := by
  rcases sound.region_cases defined member with ⟨_, code⟩ | ⟨body, compiles⟩
  · exact keepsToSlots_of_builtin _ code
  · exact compiles.keepsToSlots sound plain

end Analysis

namespace Code.Consists

variable {code : Code} (consists : code.Consists regions)
include consists

theorem exists_of_enter {start params size : Nat}
    (closed : ∀ region ∈ regions, region.IsClosed regions) (member : start ∈ code.offsets)
    (enter : code.instructionAt? start = some (.enter params size)) :
    ∃ region ∈ regions, region.start = start ∧
      ∃ tail, region.code = .enter params size :: tail := by
  obtain ⟨region, isRegion, instr, inside, spells⟩ := consists.exists_of_mem_offsets member
  obtain rfl := Option.some.inj (spells.instructionAt?.symm.trans enter)
  obtain ⟨_, _, tail, opens, single⟩ := (closed region isRegion).opens
  rw [opens, located_cons, List.mem_cons] at inside
  rcases inside with same | later
  · obtain ⟨atStart, isFirst⟩ := Prod.mk.inj same
    exact ⟨region, isRegion, atStart.symm, tail, isFirst ▸ opens⟩
  · exact absurd (mem_of_located later) (single _ _)

theorem exists_before_entry {offset : Nat} (closed : ∀ region ∈ regions, region.IsClosed regions)
    (isRegion : region ∈ regions) (member : offset ∈ code.offsets) (low : region.start ≤ offset)
    (before : ∀ next, code.IsEntry next → region.start < next → offset < next) :
    ∃ instr, (offset, instr) ∈ located region.start region.code ∧
      code.instructionAt? offset = some instr := by
  obtain ⟨other, isOther, instr, inside, spells⟩ := consists.exists_of_mem_offsets member
  obtain ⟨otherLow, otherHigh⟩ := bounds_of_mem_located inside
  have positive := instr.size_pos
  have high : offset < other.stop := by rw [Region.stop]; omega
  -- Another region would start behind this one, with a frame of its own.
  have notBehind : ¬ region.start < other.start := fun behind =>
    absurd (before _ (consists.isMethod isOther (closed other isOther)).opens behind)
      (Nat.not_lt.mpr otherLow)
  obtain rfl := consists.tile.eq_of_mem isRegion isOther
    ⟨Nat.le_refl _, (closed region isRegion).start_lt_stop⟩
    ⟨Nat.not_lt.mp notBehind, Nat.lt_of_le_of_lt low high⟩
  exact ⟨instr, inside, spells.instructionAt?⟩

end Code.Consists

variable {options : Options}

/-- The code of a program without violations keeps to its slots, if no name that is declared in
a class or a method has the marks of a qualified name. -/
theorem generate_keepsToSlots {image : Image} {result : Analysis} (distinct : program.nodes.Nodup)
    (plain : program.IsPlain) (accepted : (analyze options program).errorCount = 0)
    (generated : generate options (analyze options program) program = (.ok image, result)) :
    image.KeepsToSlots := by
  obtain ⟨realizes, _, defined, sound⟩ := generate_implements distinct accepted generated
  generalize analyze options program = analysis at *
  have consists := realizes.consists sound
  have closed : ∀ region ∈ analysis.regions program, region.IsClosed (analysis.regions program) :=
    fun region member => sound.isClosed defined member
  have keeps : ∀ region ∈ analysis.regions program, region.KeepsToSlots image.dataSize :=
    fun region member => realizes.dataSize ▸ sound.keepsToSlots defined plain member
  refine ⟨fun start member params size enter => ?_, fun start member params size enter offset
    isOffset low before instr slot here refers => ?_, fun offset member instr slot here
    refers => ?_⟩
  · obtain ⟨region, isRegion, _, tail, code⟩ := consists.exists_of_enter closed member enter
    obtain ⟨_, _, _, opens, room, _⟩ := (keeps region isRegion).frame
    rw [code] at opens
    cases opens
    exact room
  · obtain ⟨region, isRegion, rfl, tail, code⟩ := consists.exists_of_enter closed member enter
    obtain ⟨found, inside, isFound⟩ :=
      consists.exists_before_entry closed isRegion isOffset low before
    obtain rfl := Option.some.inj (isFound.symm.trans here)
    obtain ⟨_, _, _, opens, _, room⟩ := (keeps region isRegion).frame
    rw [code] at opens
    cases opens
    have inside := mem_of_located inside
    rw [code, List.mem_cons] at inside
    rcases inside with rfl | inTail
    · cases refers
    · exact room found inTail slot refers
  · obtain ⟨region, isRegion, found, inside, spells⟩ := consists.exists_of_mem_offsets member
    obtain rfl := Option.some.inj (spells.instructionAt?.symm.trans here)
    exact (keeps region isRegion).globals found (mem_of_located inside) slot refers

theorem generate_keepsToSlots_stepping :
    stepping.nodes.Nodup ∧ stepping.IsPlain ∧ (analyze {} stepping).errorCount = 0 ∧
      ∃ image result, generate {} (analyze {} stepping) stepping = (.ok image, result) ∧
        image.KeepsToSlots := by
  obtain ⟨distinct, accepted⟩ := stepping_isAccepted
  obtain ⟨image, generated⟩ := stepping_isGenerated
  exact ⟨distinct, stepping_isPlain, accepted, image, _, generated,
    generate_keepsToSlots distinct stepping_isPlain accepted generated⟩

/-- A class whose field has the marks of a qualified name, and whose static method assigns to
a designator. -/
def misnamed (field : String) (target : Planted Designator) : Program :=
  Supply.plant do
    let int ← Supply.typeRef none "int"
    let assign ← Supply.assign (← target) (← Supply.literal (.int 1))
    let method ← Supply.method true none false "s" [] [] [.action assign]
    let type ← Supply.type "C" none [] [] [← Supply.vars int [(field, false)]] [method]
    let main ← Supply.method false none false "main" [] [] []
    Supply.program "P" [] [.type type] [main]

theorem exists_image_such (holds : Image → Prop) [DecidablePred holds]
    (succeeds : (generate options analysis program).1.toOption.any (holds ·)) :
    ∃ image, generate options analysis program =
      (.ok image, (generate options analysis program).2) ∧ holds image := by
  generalize generate options analysis program = outcome at succeeds ⊢
  obtain ⟨image | fault, result⟩ := outcome
  · cases succeeds
  · exact ⟨_, rfl, of_decide_eq_true succeeds⟩

/-- The static method finds the field under the name of a static field, and loads the receiver
that it does not have. -/
theorem not_keepsToSlots_misnamed :
    (misnamed "C.x" (Supply.name "x")).nodes.Nodup ∧
      (analyze {} (misnamed "C.x" (Supply.name "x"))).errorCount = 0 ∧
      ∃ image result, generate {} (analyze {} (misnamed "C.x" (Supply.name "x")))
        (misnamed "C.x" (Supply.name "x")) = (.ok image, result) ∧ ¬ image.KeepsToSlots := by
  obtain ⟨image, generated, entry, inner, enter, load, next⟩ :=
    exists_image_such (fun image => 19 ∈ image.code.offsets ∧ 22 ∈ image.code.offsets ∧
      image.code.instructionAt? 19 = some (.enter 0 0) ∧
      image.code.instructionAt? 22 = some (.load 0) ∧
      ∀ next ∈ image.code.offsets, image.code.opAt? next = some .enter → 19 < next → 22 < next)
      (show (generate {} (analyze {} (misnamed "C.x" (Supply.name "x")))
        (misnamed "C.x" (Supply.name "x"))).1.toOption.any _ by decide +kernel)
  refine ⟨by decide +kernel, by decide +kernel, image, _, generated, fun keeps => ?_⟩
  have bound := keeps.locals 19 entry 0 0 enter 22 inner (by decide)
    (fun offset isEntry behind => next offset isEntry.1 isEntry.2 behind) _ 0 load rfl
  exact Nat.not_lt_zero _ bound

end MicroJava
