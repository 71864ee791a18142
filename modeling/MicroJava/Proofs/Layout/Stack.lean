import MicroJava.Proofs.Layout.Pacing
import MicroJava.Proofs.Layout.Slots

/-!
# The operand stack of a program

In the code of a program without violations, the depth of the operand stack is a function of
the offset.  Every instruction finds the words it takes, and a method returns with its result
and nothing else.
-/

namespace MicroJava

open List Instruction

variable {code : Code} {instr : Instruction} {offset : Nat} {jumps : Nat × Nat → Prop}
  {region : Region} {setting : Setting} {mark : Nat × Nat}

/-- The symbol that a designator stands for. -/
def Part.symbol? (notes : Annotations) : Part → Option SymbolId
  | designator place => notes.symbol? place.id
  | expression _ => none

/-- No designator of a program stands for nothing. -/
def Analysis.Resolves (analysis : Analysis) (program : Program) : Prop :=
  ∀ part ∈ program.parts, part.symbol? analysis.notes ≠ some .absent

instance (analysis : Analysis) (program : Program) : Decidable (analysis.Resolves program) :=
  inferInstanceAs (Decidable (∀ part ∈ program.parts, _))

/-! ## Depths of code -/

/-- The depths of the operand stack in the bytes of one method. -/
structure Code.HasDepths (code : Code) (gauge : Gauge) (stretch : Stretch)
    (depth : Nat → Nat) : Prop where
  opens : ∃ params size, code.instructionAt? stretch.start = some (.enter params size) ∧
    depth (stretch.start + 3) = 0
  moves : ∀ offset ∈ code.offsets, stretch.start < offset → offset < stretch.stop →
    ∃ instr, code.instructionAt? offset = some instr ∧
      (instr.goesOn → offset + instr.size < stretch.stop) ∧
      gauge.Allows
        (fun mark => stretch.start < mark.1 ∧ mark.1 < stretch.stop ∧ depth mark.1 = mark.2)
        offset instr (depth offset) (depth (offset + instr.size))

/-- The bytes of a method end with the code of statements, from an offset on. -/
structure Code.HoldsBody (code : Code) (stretch : Stretch) (result : TypeId)
    (statements : List Stmt) (site : Site)
    (start : Nat) : Prop where
  behind : stretch.start + 3 ≤ start
  holds : code.Holds start (site.stmtsCode start 0 0 statements)
  ends : start + totalSize (site.stmtsCode start 0 0 statements) + totalSize (endCode result) =
    stretch.stop

/-- What the depths of a method are read with: all symbols, the calls by name of its unit, and
whether it has a result. -/
def Analysis.gauge (analysis : Analysis) (program : Program) (code : Code) (site : Site)
    (owner : SymbolId) : Gauge where
  table := analysis.table
  invokes offset id := ∃ part ∈ program.units, part.owner? analysis.notes = some owner ∧
    site.Invokes code (· ∈ part.parts) offset id
  result := if (analysis.table.symbol owner).type = .none then 0 else 1

/-- The operand stack has the right depth everywhere in the code of a program. -/
def Image.KeepsDepths (image : Image) (program : Program) (analysis : Analysis) : Prop :=
  ∃ stretches : List Stretch, Stretch.Tile 0 stretches image.code.size ∧
    stretches.map Stretch.owner = analysis.builtins.all ++
      program.units.filterMap (DeclUnit.owner? analysis.notes) ∧
    ∀ stretch ∈ stretches, (analysis.table.symbol stretch.owner).address = (stretch.start : Int) ∧
      ∃ (site : Site) (depth : Nat → Nat), site.IsOf analysis stretch.owner ∧
      image.code.HasDepths (analysis.gauge program image.code site stretch.owner) stretch depth ∧
      (stretch.owner ∈ analysis.builtins.all ∧
          (analysis.gauge program image.code site stretch.owner).result = 1 ∨
        ∃ part ∈ program.units, part.owner? analysis.notes = some stretch.owner ∧
          ∃ start, image.code.HoldsBody stretch (analysis.table.symbol stretch.owner).type
              part.body site start ∧
            ∀ offset ∈ site.stmtsBounds start part.body, depth offset = 0)

/-! ## Depths as a function -/

namespace Gauge

variable {gauge : Gauge} {start stop : Nat} {paced : List (Instruction × Nat)}

theorem le_of_mem_marks (member : mark ∈ marks start stop paced) : start ≤ mark.1 := by
  induction paced generalizing start with
  | nil =>
    rw [marks, mem_singleton] at member
    exact Nat.le_of_eq (congrArg Prod.fst member).symm
  | cons first rest ih =>
    rw [marks, mem_cons] at member
    rcases member with rfl | later
    · exact Nat.le_refl _
    · exact Nat.le_of_add_right_le (ih later)

theorem lookup_of_mem_marks {depth : Nat} (member : (offset, depth) ∈ marks start stop paced) :
    (marks start stop paced).lookup offset = some depth := by
  induction paced generalizing start with
  | nil =>
    rw [marks, mem_singleton] at member
    cases member
    exact lookup_cons_self
  | cons first rest ih =>
    rw [marks, mem_cons] at member
    rcases member with same | later
    · cases same
      exact lookup_cons_self
    · have behind := le_of_mem_marks later
      have positive := first.1.size_pos
      have other : (offset == start) = false := beq_false_of_ne (by omega)
      rw [marks, lookup_cons, other]
      exact ih later

theorem Steady.allows (steady : Steady gauge jumps start stop paced)
    (member : (offset, instr) ∈ located start (paced.map Prod.fst)) :
    ∃ depth next, (offset, depth) ∈ marks start stop paced ∧
      (offset + instr.size, next) ∈ marks start stop paced ∧
      gauge.Allows jumps offset instr depth next := by
  induction paced generalizing start with
  | nil => cases member
  | cons first rest ih =>
    rw [map_cons, located_cons, mem_cons] at member
    rw [marks]
    rcases member with same | later
    · cases same
      exact ⟨_, _, mem_cons_self, mem_cons_of_mem _ (mem_marks_entry _ _ _), steady.1⟩
    · obtain ⟨depth, next, here, behind, allows⟩ := ih steady.2 later
      exact ⟨depth, next, mem_cons_of_mem _ here, mem_cons_of_mem _ behind, allows⟩

/-- The depth that is written at an offset. -/
def depthAt (marks : List (Nat × Nat)) (offset : Nat) : Nat := (marks.lookup offset).getD 0

theorem depthAt_of_mem_marks (member : mark ∈ marks start stop paced) :
    depthAt (marks start stop paced) mark.1 = mark.2 := by
  rw [depthAt, lookup_of_mem_marks member, Option.getD_some]

theorem Paces.exists_depth {code : List Instruction} {first : Nat} {known : List (Nat × Nat)}
    (paces : gauge.Paces (fun _ => False) start code first stop known) :
    ∃ depth : Nat → Nat, depth start = first ∧ (∀ mark ∈ known, depth mark.1 = mark.2) ∧
      ∀ offset instr, (offset, instr) ∈ located start code →
        gauge.Allows (fun mark => start ≤ mark.1 ∧ depth mark.1 = mark.2) offset instr
          (depth offset) (depth (offset + instr.size)) := by
  obtain ⟨paced, rfl, rfl, steady, isKnown⟩ := paces
  refine ⟨depthAt (marks start stop paced), depthAt_of_mem_marks (mem_marks_entry _ _ _),
    fun mark member => depthAt_of_mem_marks (isKnown member), fun offset instr member => ?_⟩
  obtain ⟨depth, next, here, behind, allows⟩ := steady.allows member
  rw [depthAt_of_mem_marks here, depthAt_of_mem_marks behind]
  refine allows.mono fun mark leads => ?_
  have inside := leads.resolve_right id
  exact ⟨le_of_mem_marks inside, depthAt_of_mem_marks inside⟩

end Gauge

/-! ## Depths of regions -/

/-- The frame of a region is opened with an empty stack, which is empty at some offsets behind
as well. -/
def Region.Paces (region : Region) (gauge : Gauge) (bounds : List Nat) : Prop :=
  ∃ params size tail stop, region.code = .enter params size :: tail ∧
    gauge.Paces (fun _ => False) (region.start + 3) tail 0 stop (Site.atZero bounds)

variable {gauge : Gauge} {regions : List Region}

theorem Region.IsClosed.goesOn (closed : region.IsClosed regions)
    (member : (offset, instr) ∈ located region.start region.code)
    (goesOn : instr.goesOn) :
    offset + instr.size < region.stop := by
  obtain ⟨early, last, code, isEnd⟩ := closed.ends
  rw [Region.stop, code, totalSize_append]
  rw [code, located_append, mem_append] at member
  rcases member with inside | isLast
  · have bound := (bounds_of_mem_located inside).2
    have positive := last.size_pos
    rw [totalSize_cons]
    omega
  · rw [located_cons, located_nil, mem_singleton] at isLast
    cases isLast
    rcases isEnd with rfl | ⟨number, rfl⟩ <;> cases goesOn

theorem Code.Consists.hasDepths {bounds : List Nat} (consists : code.Consists regions)
    (isRegion : region ∈ regions) (closed : region.IsClosed regions)
    (paces : region.Paces gauge bounds) :
    ∃ depth : Nat → Nat, code.HasDepths gauge region.stretch depth ∧
      ∀ offset ∈ bounds, depth offset = 0 := by
  obtain ⟨params, size, tail, stop, opens, paces⟩ := paces
  obtain ⟨depth, atStart, atBounds, allows⟩ := paces.exists_depth
  have holds := consists.holds region isRegion
  rw [opens] at holds
  refine ⟨depth, ⟨⟨params, size, holds.1.instructionAt?, atStart⟩,
    fun offset member low high => ?_⟩,
    fun offset member => atBounds _ (Site.mem_atZero member)⟩
  obtain ⟨instr, inside, spells⟩ :=
    consists.exists_of_mem_region isRegion member (Nat.le_of_lt low) high
  have inTail : (offset, instr) ∈ located (region.start + 3) tail := by
    rw [opens, located_cons, mem_cons] at inside
    rcases inside with same | later
    · exact absurd (Prod.mk.inj same).1 (Nat.ne_of_gt low)
    · exact later
  obtain ⟨⟨pops, pushes, effect, enough, goesOn, leads⟩, exits⟩ := allows offset instr inTail
  refine ⟨instr, spells.instructionAt?, closed.goesOn inside,
    ⟨pops, pushes, effect, enough, goesOn, fun target isTarget => ?_⟩, exits⟩
  obtain ⟨behind, same⟩ := leads target isTarget
  cases instr with
  | jump op other =>
    obtain rfl := Option.some.inj isTarget
    obtain ⟨found, isFound⟩ := exists_of_mem_starts (closed.jumps op _ (mem_of_located inside))
    have bound := (bounds_of_mem_located isFound).2
    have positive := found.size_pos
    refine ⟨show region.start < _ by omega, show _ < region.stop from ?_, same⟩
    rw [Region.stop]
    omega
  | _ => cases isTarget

/-! ## Programs -/

theorem Region.paces_of_builtin {builtins : Builtins}
    (code : region.code = builtins.code region.owner) (isResult : gauge.result = 1) :
    region.Paces gauge [] := by
  have loads : gauge.Paces (fun _ => False) (region.start + 3)
      (.load 0 :: if region.owner = builtins.len then [.plain .arrayLength] else []) 0 1 [] := by
    split
    · exact .straight 0 0 1 rfl
    · exact .straight 0 0 1 rfl
  refine ⟨1, 1, _, 0, code, ?_⟩
  exact loads.append (.leave isResult.symm) rfl

theorem wordsCode_paces (start : Nat) (slot : Int) (words : List Int) :
    gauge.Paces jumps start (wordsCode slot words) 0 0 [] := by
  induction words generalizing start slot with
  | nil => exact .nil
  | cons word rest ih =>
    have write : gauge.Paces jumps start
        [.const (Int32.ofInt word), .putStatic slot.toNat] 0 0 [] := .straight 0 0 0 rfl
    exact write.append (ih _ _) rfl

theorem dispatchCode_paces (start : Nat) (table : Table) (types : List TypeId) :
    gauge.Paces jumps start (types.flatMap table.dispatchCode) 0 0 [] := by
  induction types generalizing start with
  | nil => exact .nil
  | cons type rest ih =>
    have write : gauge.Paces jumps start (table.dispatchCode type) 0 0 [] := by
      rw [Table.dispatchCode]
      split
      · exact .nil
      · exact wordsCode_paces _ _ _
    exact write.append (ih _) rfl

namespace Analysis

variable {analysis : Analysis} {program : Program}

theorem IsSound.callEffect_init {id : SymbolId} (sound : analysis.IsSound program)
    (isInit : id ∈ analysis.staticInits) :
    (analysis.table.symbol id).callEffect = (0, 0) := by
  rw [sound.staticInits] at isInit
  obtain ⟨part, member, found⟩ := mem_filterMap.mp isInit
  obtain ⟨earlier, later, split⟩ := append_of_mem member
  cases part with
  | type decl => cases found
  | method decl => cases found
  | init block =>
    obtain ⟨count, type, _⟩ := (sound.fits_of_owner split found).suits
    exact Prod.ext count (if_pos type)

theorem initCalls_paces {site : Site} {gauge : Gauge} {inits : List SymbolId}
    (suits : site.Suits setting gauge) (start : Nat)
    (known : ∀ id ∈ inits, (setting.table.symbol id).kind = .method ∧
      (setting.table.symbol id).callEffect = (0, 0) ∧ 0 ≤ (site.table.symbol id).address) :
    gauge.Paces jumps start
      (inits.map fun id => .call (site.table.symbol id).address.toNat) 0 0 [] := by
  induction inits generalizing start with
  | nil => exact .nil
  | cons id rest ih =>
    rw [forall_mem_cons] at known
    obtain ⟨⟨kind, effect, placed⟩, known⟩ := known
    have call := site.call_paces suits jumps start 0 kind placed
    rw [effect, show (setting.table.symbol id).paramCount = 0 from congrArg Prod.fst effect] at call
    exact call.append (ih _ known) rfl

namespace Compiles

variable {body : Body} (compiles : analysis.Compiles program region body)
  (sound : analysis.IsSound program)
include compiles sound

theorem suits (plain : program.IsPlain) (code : Code) :
    body.site.Suits body.setting
      ((analysis.laidOut program).gauge program code body.site region.owner) where
  toSees := compiles.sees
  plain := by rwa [compiles.plain]
  same := by
    rw [compiles.table]
    exact sound.followsAll.places
  addresses id kind placed := by
    rw [compiles.table] at kind
    obtain ⟨other, isOther, rfl, address⟩ := compiles.placed id kind placed
    rw [address]
    exact sound.followsAll.starts other isOther
  result := by
    rw [compiles.result, gauge, sound.followsAll.places.type]

theorem prologue_paces {gauge : Gauge} (suits : body.site.Suits body.setting gauge) (start : Nat) :
    gauge.Paces jumps start body.prologue 0 0 [] := by
  rw [compiles.prologue, prologueCode]
  split
  next isMain =>
    refine (dispatchCode_paces start _ _).append (initCalls_paces suits _ fun id isInit => ?_) rfl
    rw [compiles.table]
    exact ⟨sound.kind_init isInit, sound.callEffect_init isInit,
      (compiles.prepared isMain).inits id isInit⟩
  next => exact .nil

omit sound in
theorem present (resolves : analysis.Resolves program) :
    ∀ place, .designator place ∈ Stmt.partsOf body.statements →
      body.site.symbolAt place.node ≠ .absent := by
  intro place inside
  obtain ⟨part, member, _, isBody, _⟩ := compiles.unit
  obtain ⟨id, found⟩ := Designator.IsNoted.exists_symbol (compiles.noted.areNoted _ inside).1
  rw [compiles.sees.symbolAt found]
  rintro rfl
  rw [← compiles.sees.notes, compiles.site_notes] at found
  refine resolves (.designator place) (mem_flatMap.mpr ⟨part, member, ?_⟩) found
  rwa [DeclUnit.parts, isBody]

theorem paces (plain : program.IsPlain) (resolves : analysis.Resolves program)
    (holds : code.Holds region.start region.code) :
    region.Paces ((analysis.laidOut program).gauge program code body.site region.owner)
      (body.site.stmtsBounds body.start body.statements) := by
  have suits := compiles.suits sound plain code
  obtain ⟨part, member, owner, isBody, _⟩ := compiles.unit
  have statements : ((analysis.laidOut program).gauge program code body.site region.owner).Paces
      (fun _ => False) body.start body.code 0 0 _ :=
    compiles.builds.paces suits (compiles.present resolves)
      (fun offset id invokes => ⟨part, member, owner, by rwa [DeclUnit.parts, isBody]⟩)
      (compiles.holds_parts holds).2.1
  have ending : ((analysis.laidOut program).gauge program code body.site region.owner).Paces
      (fun _ => False) (body.start + totalSize body.code)
      (endCode (analysis.table.symbol region.owner).type) 0 0 [] := by
    rw [endCode]
    split
    next isVoid => exact .leave (by rw [suits.result, compiles.result, if_pos isVoid])
    next => exact .straight 0 0 0 rfl
  refine ⟨_, _, _, 0, compiles.code, ?_⟩
  refine ((compiles.prologue_paces sound suits _).append (statements.append ending rfl)
    compiles.start).weaken ?_
  simp

omit sound in
theorem holdsBody (holds : code.Holds region.start region.code) :
    code.HoldsBody region.stretch (analysis.table.symbol region.owner).type body.statements
      body.site body.start := by
  refine ⟨?_, (compiles.holds_parts holds).2.1, ?_⟩
  · rw [compiles.start]
    exact Nat.le_add_right _ _
  · rw [Region.stretch, Region.stop, compiles.code, totalSize_cons, totalSize_append,
      totalSize_append, compiles.start, Body.code, compiles.start]
    simp only [Instruction.size]
    omega

end Compiles
end Analysis

/-- The operand stack has the right depth everywhere in the code of a program without
violations, if every designator leads to a symbol and no name that is declared in a class or a
method has the marks of a qualified name. -/
theorem generate_keepsDepths {options : Options} {program : Program} {image : Image}
    {result : Analysis} (distinct : program.nodes.Nodup) (plain : program.IsPlain)
    (accepted : (analyze options program).errorCount = 0)
    (resolves : (analyze options program).Resolves program)
    (generated : generate options (analyze options program) program = (.ok image, result)) :
    image.KeepsDepths program result := by
  have implements := generate_implements distinct accepted generated
  generalize analyze options program = analysis at *
  refine implements.exists_stretches fun region isRegion => ?_
  obtain ⟨realizes, rfl, defined, sound⟩ := implements
  have follows := sound.followsAll
  have consists := realizes.consists sound
  have closed := sound.isClosed defined isRegion
  rcases sound.region_cases defined isRegion with ⟨isBuiltin, code⟩ | ⟨body, compiles⟩
  · obtain ⟨site, isOf⟩ := Site.exists_isOf (analysis.laidOut program) region.owner
    have predefined := sound.builtins region.owner isBuiltin
    have isResult : ((analysis.laidOut program).gauge program image.code site
        region.owner).result = 1 := by
      rw [Analysis.gauge, follows.places.type]
      exact if_neg predefined.result.1
    obtain ⟨depth, hasDepths, _⟩ :=
      consists.hasDepths isRegion closed (Region.paces_of_builtin code isResult)
    exact ⟨site, depth, isOf, hasDepths, .inl ⟨isBuiltin, isResult⟩⟩
  · have holds := consists.holds region isRegion
    obtain ⟨depth, hasDepths, atBounds⟩ :=
      consists.hasDepths isRegion closed (compiles.paces sound plain resolves holds)
    obtain ⟨part, isPart, owner, isBody, _⟩ := compiles.unit
    refine ⟨body.site, depth, compiles.isOf sound, hasDepths,
      .inr ⟨part, isPart, owner, body.start, ?_, ?_⟩⟩
    · rw [isBody, follows.places.type]
      exact compiles.holdsBody holds
    · rwa [isBody]

theorem generate_keepsDepths_stepping :
    stepping.nodes.Nodup ∧ stepping.IsPlain ∧ (analyze {} stepping).errorCount = 0 ∧
      (analyze {} stepping).Resolves stepping ∧
      ∃ image result, generate {} (analyze {} stepping) stepping = (.ok image, result) ∧
        image.KeepsDepths stepping result := by
  obtain ⟨distinct, accepted⟩ := stepping_isAccepted
  have resolves : (analyze {} stepping).Resolves stepping := by decide +kernel
  obtain ⟨image, generated⟩ := stepping_isGenerated
  exact ⟨distinct, stepping_isPlain, accepted, resolves, image, _, generated,
    generate_keepsDepths distinct stepping_isPlain accepted resolves generated⟩

/-- A class whose field has the name of a static field, and whose static method assigns to it. -/
def misread : Program :=
  misnamed "C.f" do Supply.member (← Supply.name "C") "f"

/-- The static method stores into the field, but there is no object on the stack. -/
theorem not_keepsDepths_misread :
    misread.nodes.Nodup ∧ (analyze {} misread).errorCount = 0 ∧
      (analyze {} misread).Resolves misread ∧
      ∃ image result, generate {} (analyze {} misread) misread = (.ok image, result) ∧
        ¬ image.KeepsDepths misread result := by
  obtain ⟨image, generated, inside, behind, const, putField⟩ :=
    exists_image_such (fun image => 22 ∈ image.code.offsets ∧ 23 ∈ image.code.offsets ∧
      image.code.instructionAt? 22 = some (.const 1) ∧
      image.code.instructionAt? 23 = some (.putField 1))
      (show (generate {} (analyze {} misread) misread).1.toOption.any _ by decide +kernel)
  generalize isResult : (generate {} (analyze {} misread) misread).2 = result at generated
  have addresses : (result.builtins.all ++
      misread.units.filterMap (DeclUnit.owner? result.notes)).map
        (fun id => (result.table.symbol id).address) = [0, 6, 12, 19, 28] := by
    subst isResult
    decide +kernel
  refine ⟨by decide +kernel, by decide +kernel, by decide +kernel, image, result, generated, ?_⟩
  rintro ⟨stretches, tile, owners, each⟩
  have starts : stretches.map (fun stretch => (stretch.start : Int)) = [0, 6, 12, 19, 28] := by
    rw [← addresses, ← owners, map_map]
    exact map_congr_left fun stretch member => (each stretch member).1.symm
  simp only [map_eq_cons_iff, map_eq_nil_iff] at starts
  obtain ⟨chr, _, rfl, _, ord, _, rfl, _, len, _, rfl, _, method, _, rfl, atStart, main, _, rfl,
    atMain, rfl⟩ := starts
  obtain ⟨_, _, _, _, atStop, _⟩ := tile
  obtain ⟨_, site, depth, _, ⟨⟨_, _, _, opens⟩, moves⟩, _⟩ := each method (by simp)
  have atStart : method.start = 19 := Int.ofNat_inj.mp atStart
  have atStop : method.stop = 28 := atStop.symm.trans (Int.ofNat_inj.mp atMain)
  have opens : depth 22 = 0 := by rwa [atStart] at opens
  obtain ⟨first, isFirst, _, ⟨pops, pushes, effect, _, next, _⟩, _⟩ :=
    moves 22 inside (by omega) (by omega)
  obtain rfl := Option.some.inj (const.symm.trans isFirst)
  obtain ⟨rfl, rfl⟩ := Prod.mk.inj effect
  have next : depth 23 = depth 22 - 0 + 1 := next rfl
  obtain ⟨second, isSecond, _, ⟨pops, pushes, effect, enough, _⟩, _⟩ :=
    moves 23 behind (by omega) (by omega)
  obtain rfl := Option.some.inj (putField.symm.trans isSecond)
  obtain ⟨rfl, _⟩ := Prod.mk.inj effect
  omega

end MicroJava
