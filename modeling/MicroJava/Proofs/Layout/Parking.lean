import MicroJava.Proofs.Layout.Stack

/-!
# Parked receivers

A virtual call parks its receiver in a slot behind the declared locals until all arguments are
there.  It is still there when it is loaded, and calls that wait for their arguments at the
same time have different slots.
-/

namespace MicroJava

open List Instruction

variable {parked start : Nat} {writes : Prop} {region : Region} {site : Site}

namespace Instruction

/-- The slot of the frame that an instruction writes. -/
def writtenSlot? : Instruction → Option Nat
  | store slot => some slot
  | inc slot _ => some slot
  | _ => none

/-- A call of a method by its name. -/
def isVirtualCall : Instruction → Bool
  | invokeVirtual _ => true
  | _ => false

end Instruction

/-- A virtual call in the code of a method. -/
structure Parking where
  start : Nat
  receiver : List Instruction
  slot : Nat
  arguments : List Instruction
  name : List Int32

namespace Parking

variable (parking : Parking)

/-- The instructions that find the method and call it. -/
def ending : List Instruction := [.load parking.slot, .getField 0, .invokeVirtual parking.name]

/-- The receiver is pushed, parked, and loaded again behind the arguments. -/
def code : List Instruction :=
  parking.receiver ++ ([.plain .dup, .store parking.slot] ++ (parking.arguments ++ parking.ending))

/-- The offset of the instruction that parks the receiver. -/
def stored : Nat := parking.start + totalSize parking.receiver + (plain .dup).size

/-- The offset of the arguments. -/
def behind : Nat := parking.stored + (store parking.slot).size

/-- The offset of the instruction that loads the receiver again. -/
def loaded : Nat := parking.behind + totalSize parking.arguments

/-- The offset of the instruction that calls the method. -/
def invoked : Nat := parking.loaded + (load parking.slot).size + (getField 0).size

/-- The first offset past the call. -/
def stop : Nat := parking.start + totalSize parking.code

/-- At an offset, the receiver is parked and has not been loaded again. -/
def IsPending (offset : Nat) : Prop := parking.stored < offset ∧ offset ≤ parking.loaded

/-- Two calls do not need one slot at the same time. -/
def Avoids (first second : Parking) : Prop :=
  ∀ offset, first.IsPending offset → second.IsPending offset → first.slot ≠ second.slot

variable {parking}

theorem located_code :
    located parking.start parking.code =
      located parking.start parking.receiver ++
        ([(parking.start + totalSize parking.receiver, .plain .dup),
            (parking.stored, .store parking.slot)] ++
          (located parking.behind parking.arguments ++
            [(parking.loaded, .load parking.slot),
              (parking.loaded + (load parking.slot).size, .getField 0),
              (parking.invoked, .invokeVirtual parking.name)])) := by
  simp only [code, ending, located_append, located_cons, located_nil, totalSize_cons,
    totalSize_nil, stored, behind, loaded, invoked, Nat.add_zero, Nat.add_assoc]

theorem loaded_lt_stop : parking.loaded < parking.stop := by
  have positive := (load parking.slot).size_pos
  simp only [stop, code, ending, loaded, behind, stored, totalSize_append, totalSize_cons]
  omega

theorem start_le_stored : parking.start ≤ parking.stored :=
  Nat.le_add_right_of_le (Nat.le_add_right _ _)

variable {first second : Parking}

theorem Avoids.of_stop_le_stored (past : first.stop ≤ second.stored) : first.Avoids second := by
  intro offset pending later
  have before := first.loaded_lt_stop
  exact absurd pending.2 (Nat.not_le.mpr
    (Nat.lt_trans before (Nat.lt_of_le_of_lt past later.1)))

theorem Avoids.of_stop_le (past : first.stop ≤ second.start) : first.Avoids second :=
  .of_stop_le_stored (Nat.le_trans past second.start_le_stored)

end Parking

/-- The virtual calls in the bytes of a method, with so many declared locals in the frame. -/
structure Code.ParksReceivers (code : Code) (stretch : Stretch) (locals : Nat)
    (parkings : List Parking) : Prop where
  /-- Each instruction that calls a method by its name belongs to one of the calls. -/
  calls : ∀ offset ∈ code.offsets, stretch.start ≤ offset → offset < stretch.stop →
    ∀ name, code.instructionAt? offset = some (.invokeVirtual name) →
      ∃ parking ∈ parkings, parking.invoked = offset
  /-- The calls are there. -/
  holds : ∀ parking ∈ parkings, code.Holds parking.start parking.code ∧
    stretch.start ≤ parking.start ∧ parking.stop ≤ stretch.stop
  /-- The receivers are parked behind the declared locals. -/
  slots : ∀ parking ∈ parkings, locals ≤ parking.slot
  /-- Until a receiver is loaded, no instruction writes its slot. -/
  kept : ∀ parking ∈ parkings, ∀ offset ∈ code.offsets, parking.stored < offset →
    offset < parking.loaded → ∀ instr, code.instructionAt? offset = some instr →
      instr.writtenSlot? ≠ some parking.slot
  /-- Calls that wait for their arguments at the same time have different slots. -/
  apart : parkings.Pairwise Parking.Avoids

namespace Site

/-- A virtual call of the source, at an offset, with so many receivers parked. -/
def parking (site : Site) (start parked : Nat) (callee : Designator)
    (arguments : List Expr) : Parking where
  start := start
  receiver := site.receiverCode parked callee
  slot := site.frameBase + parked
  arguments := site.exprsCode (parked + 1) arguments
  name := nameWords (site.table.symbol (site.symbolAt callee.node)).name

/-- A virtual call in the code is one of the source. -/
def IsCalled (site : Site) (parking : Parking) : Prop :=
  ∃ parked callee arguments, (site.table.symbol (site.symbolAt callee.node)).isVirtual ∧
    parking = site.parking parking.start parked callee arguments

end Site

/-- The methods follow each other from the first byte to the last.  Each of them parks the receivers
of its virtual calls, which are those of the source with the symbols of the analysis. -/
def Image.ParksReceivers (image : Image) (program : Program) (analysis : Analysis) : Prop :=
  ∃ stretches : List Stretch,
    Stretch.Tile 0 stretches image.code.size ∧
    stretches.map Stretch.owner =
      analysis.builtins.all ++ program.units.filterMap (DeclUnit.owner? analysis.notes) ∧
    ∀ stretch ∈ stretches,
      (analysis.table.symbol stretch.owner).address = (stretch.start : Int) ∧
      ∃ (site : Site) (parkings : List Parking),
        site.notes = analysis.notes ∧
        (∀ id, site.table.symbol id =
          { analysis.table.symbol id with address := (site.table.symbol id).address }) ∧
        image.code.ParksReceivers stretch (analysis.table.symbol stretch.owner).locals.length
          parkings ∧
        ∀ parking ∈ parkings, site.IsCalled parking

/-! ## Virtual calls in direct code -/

namespace Site

/-- The virtual calls in a sequence at an offset, with so many receivers parked before.  Other
instructions write slots only where `writes` says so. -/
structure Parks (site : Site) (writes : Prop) (parked start : Nat) (code : List Instruction)
    (parkings : List Parking) : Prop where
  written : ¬ writes → ∀ instr ∈ code, ∀ slot, instr.writtenSlot? = some slot →
    site.frameBase + parked ≤ slot
  split : ∀ parking ∈ parkings, ∃ early late, code = early ++ (parking.code ++ late) ∧
    parking.start = start + totalSize early
  called : ∀ parking ∈ parkings, site.IsCalled parking ∧ site.frameBase + parked ≤ parking.slot
  kept : ∀ parking ∈ parkings, ∀ instr ∈ parking.arguments,
    instr.writtenSlot? ≠ some parking.slot
  apart : parkings.Pairwise Parking.Avoids
  invoked : ∀ place ∈ located start code, place.2.isVirtualCall →
    place.1 ∈ parkings.map Parking.invoked

namespace Parks

variable {code first second : List Instruction} {parkings early late : List Parking}

theorem bounds {parking : Parking} (parks : site.Parks writes parked start code parkings)
    (member : parking ∈ parkings) :
    start ≤ parking.start ∧ parking.stop ≤ start + totalSize code := by
  obtain ⟨early, late, rfl, isStart⟩ := parks.split parking member
  rw [Parking.stop, totalSize_append, totalSize_append]
  omega

theorem of_forall
    (others : ∀ instr ∈ code, instr.isVirtualCall = false ∧
      (instr.writtenSlot?.isSome → writes)) :
    site.Parks writes parked start code [] where
  written silent instr member slot written :=
    absurd ((others instr member).2 (by rw [written]; rfl)) silent
  split := forall_mem_nil _
  called := forall_mem_nil _
  kept := forall_mem_nil _
  apart := .nil
  invoked place member isCall := by
    rw [(others _ (mem_of_located member)).1] at isCall
    cases isCall

theorem append (before : site.Parks writes parked start first early)
    (behind : site.Parks writes parked (start + totalSize first) second late) :
    site.Parks writes parked start (first ++ second) (early ++ late) where
  written silent := forall_mem_append.mpr ⟨before.written silent, behind.written silent⟩
  split := by
    refine forall_mem_append.mpr ⟨fun parking member => ?_, fun parking member => ?_⟩
    · obtain ⟨early, late, rfl, isStart⟩ := before.split parking member
      exact ⟨early, late ++ second, by simp only [append_assoc], isStart⟩
    · obtain ⟨early, late, rfl, isStart⟩ := behind.split parking member
      refine ⟨first ++ early, late, by simp only [append_assoc], ?_⟩
      rw [isStart, totalSize_append, Nat.add_assoc]
  called := forall_mem_append.mpr ⟨before.called, behind.called⟩
  kept := forall_mem_append.mpr ⟨before.kept, behind.kept⟩
  apart := pairwise_append.mpr
    ⟨before.apart, behind.apart, fun first isFirst second isSecond =>
    .of_stop_le (Nat.le_trans (before.bounds isFirst).2 (behind.bounds isSecond).1)⟩
  invoked := by
    simp only [located_append, map_append, mem_append]
    exact fun place member isCall => member.imp (before.invoked place · isCall)
      (behind.invoked place · isCall)

theorem call {callee : Designator} {arguments : List Expr}
    (isVirtual : (site.table.symbol (site.symbolAt callee.node)).isVirtual)
    (receiver : site.Parks False parked start (site.receiverCode parked callee) early)
    (values : site.Parks False (parked + 1) (site.parking start parked callee arguments).behind
      (site.exprsCode (parked + 1) arguments) late) :
    site.Parks writes parked start (site.parking start parked callee arguments).code
      (early ++ site.parking start parked callee arguments :: late) where
  written _ instr member slot written := by
    rw [Parking.code, mem_append, mem_append, mem_append] at member
    rcases member with inside | parks | inside | loads
    · exact receiver.written id instr inside slot written
    · rcases mem_pair.mp parks with rfl | rfl
      · cases written
      · exact Nat.le_of_eq (Option.some.inj written)
    · exact Nat.le_of_succ_le (values.written id instr inside slot written)
    · simp only [Parking.ending, mem_cons, not_mem_nil, or_false] at loads
      rcases loads with rfl | rfl | rfl <;> cases written
  split := by
    refine forall_mem_append.mpr ⟨fun parking member => ?_,
      forall_mem_cons.mpr ⟨⟨[], [], (append_nil _).symm, rfl⟩, fun parking member => ?_⟩⟩
    · obtain ⟨early, late, split, isStart⟩ := receiver.split parking member
      refine ⟨early, late ++ ([.plain .dup, .store (site.frameBase + parked)] ++
        (site.exprsCode (parked + 1) arguments ++
          (site.parking start parked callee arguments).ending)), ?_, isStart⟩
      simp only [Parking.code, Site.parking, split, append_assoc]
    · obtain ⟨early, late, split, isStart⟩ := values.split parking member
      refine ⟨site.receiverCode parked callee ++
        ([.plain .dup, .store (site.frameBase + parked)] ++ early),
        late ++ (site.parking start parked callee arguments).ending, ?_, ?_⟩
      · simp only [Parking.code, Site.parking, split, append_assoc]
      · rw [isStart, Parking.behind, Parking.stored, totalSize_append, totalSize_append]
        simp only [Site.parking, totalSize_cons, totalSize_nil]
        omega
  called := forall_mem_append.mpr ⟨receiver.called, forall_mem_cons.mpr
    ⟨⟨⟨parked, callee, arguments, isVirtual, rfl⟩, Nat.le_refl _⟩, fun parking member =>
      (values.called parking member).imp_right Nat.le_of_succ_le⟩⟩
  kept := by
    -- A receiver that is parked meanwhile is parked behind this one.
    refine forall_mem_append.mpr ⟨receiver.kept, forall_mem_cons.mpr
      ⟨fun instr inside written => ?_, values.kept⟩⟩
    exact absurd (values.written id instr inside _ written)
      (Nat.not_le.mpr (Nat.lt_succ_self _))
  apart := by
    have here : start + totalSize (site.receiverCode parked callee) ≤
        (site.parking start parked callee arguments).stored := Nat.le_add_right _ _
    have further : (site.parking start parked callee arguments).stored ≤
        (site.parking start parked callee arguments).behind := Nat.le_add_right _ _
    refine pairwise_append.mpr ⟨receiver.apart, pairwise_cons.mpr
      ⟨fun second isSecond => ?_, values.apart⟩, fun first isFirst second isSecond => ?_⟩
    · -- The receivers of nested calls are parked behind the receiver of this one.
      intro _ _ _ same
      have high := (values.called second isSecond).2
      rw [← same] at high
      exact absurd high (Nat.not_le.mpr (Nat.lt_succ_self _))
    · have stops := (receiver.bounds isFirst).2
      rcases mem_cons.mp isSecond with rfl | isLate
      · exact .of_stop_le_stored (Nat.le_trans stops here)
      · exact .of_stop_le (Nat.le_trans (Nat.le_trans stops (Nat.le_trans here further))
          (values.bounds isLate).1)
  invoked := by
    change ∀ place ∈ located (site.parking start parked callee arguments).start _, _
    rw [Parking.located_code, map_append, map_cons]
    simp only [forall_mem_append, forall_mem_cons]
    simp only [mem_append, mem_cons]
    have others : ∀ {holds : Prop}, false = true → holds := (absurd · Bool.false_ne_true)
    exact ⟨fun place member isCall => .inl (receiver.invoked place member isCall),
      ⟨others, others, forall_mem_nil _⟩,
      fun place member isCall => .inr (.inr (values.invoked place member isCall)),
      others, others, fun _ => .inr (.inl trivial), forall_mem_nil _⟩

end Parks

/-- Wherever a sequence starts, its virtual calls park their receivers. -/
def IsParked (site : Site) (writes : Prop) (parked : Nat) (code : List Instruction) : Prop :=
  ∀ start, ∃ parkings, site.Parks writes parked start code parkings

namespace IsParked

variable {first second : List Instruction}

theorem append (isParked : site.IsParked writes parked first)
    (later : site.IsParked writes parked second) :
    site.IsParked writes parked (first ++ second) := by
  intro start
  obtain ⟨early, before⟩ := isParked start
  obtain ⟨late, behind⟩ := later (start + totalSize first)
  exact ⟨early ++ late, before.append behind⟩

theorem of_forall
    (others : ∀ instr ∈ first, instr.isVirtualCall = false ∧
      (instr.writtenSlot?.isSome → writes)) :
    site.IsParked writes parked first :=
  fun _ => ⟨[], .of_forall others⟩

theorem of_silent
    (silent : first.all fun instr =>
      !instr.isVirtualCall && instr.writtenSlot?.isNone) :
    site.IsParked writes parked first := by
  refine of_forall fun instr member => ?_
  have silent := all_eq_true.mp silent instr member
  rw [Bool.and_eq_true, Bool.not_eq_true', Option.isNone_iff_eq_none] at silent
  exact ⟨silent.1, by simp [silent.2]⟩

end IsParked

variable {code : List Instruction}

theorem IsParked.of_others (others : code.all fun instr => !instr.isVirtualCall) :
    site.IsParked True 0 code :=
  .of_forall fun instr member =>
    ⟨by simpa using all_eq_true.mp others instr member, fun _ => trivial⟩

theorem loadCode_isParked (site : Site) (parked : Nat) (id : SymbolId) :
    site.IsParked writes parked (site.loadCode id) := by
  simp only [loadCode]
  split <;> (try split) <;> exact .of_silent rfl

theorem storeCode_isParked (site : Site) (id : SymbolId) :
    site.IsParked True 0 (site.storeCode id) := by
  simp only [storeCode]
  split <;> (try split) <;> exact .of_others rfl

/-- The virtual calls in the code of a body park their receivers, and calls in their arguments
park theirs behind. -/
theorem Builds.isParked {reach : Reach} {jumps : Nat × Nat → Prop} {depth stop : Nat}
    {known : List (Nat × Nat)}
    (builds : site.Builds reach jumps writes parked start code depth stop known) :
    site.IsParked writes parked code := by
  induction builds with
  | straight _ _ inert _ =>
    refine .of_forall fun instr member => ?_
    have isInert := all_eq_true.mp inert instr member
    cases instr <;> first | exact ⟨rfl, Bool.noConfusion⟩ | cases isInert
  | append _ _ _ before behind => exact before.append behind
  | close _ _ _ builds => exact builds
  | load _ _ _ access => exact access.append (site.loadCode_isParked _ _)
  | store _ _ _ _ supply => exact supply.append (site.storeCode_isParked _)
  | @step _ _ target _ _ _ _ access =>
    simp only [stepCode]
    refine access.append ?_
    split
    · exact .of_others rfl
    · have keeps : site.IsParked True 0
          (keepCode (site.table.symbol (site.symbolAt target.node)).kind) := by
        unfold keepCode
        split <;> exact .of_others rfl
      exact ((keeps.append (site.loadCode_isParked 0 _)).append (.of_others rfl)).append
        (site.storeCode_isParked _)
  | newObject _ _ =>
    rw [newObjectCode]
    split <;> exact .of_silent rfl
  | @invoke _ _ parked _ _ _ callee arguments isVirtual _ _ _ _ receiver values =>
    intro start
    obtain ⟨early, receiver⟩ := receiver start
    obtain ⟨late, values⟩ := values (site.parking start parked callee arguments).behind
    simp only [append_assoc]
    exact ⟨_, .call isVirtual receiver values⟩
  | _ => exact .of_silent rfl

end Site

/-! ## Virtual calls in programs -/

variable {instr : Instruction} {offset : Nat}

theorem Instruction.mem_located_of_split {early code late : List Instruction}
    (member : (offset, instr) ∈ located start (early ++ (code ++ late)))
    (low : start + totalSize early ≤ offset)
    (high : offset < start + totalSize early + totalSize code) :
    (offset, instr) ∈ located (start + totalSize early) code := by
  have positive := instr.size_pos
  rw [located_append, located_append, mem_append, mem_append] at member
  rcases member with before | inside | behind
  · have bound := (bounds_of_mem_located before).2
    omega
  · exact inside
  · have bound := (bounds_of_mem_located behind).1
    omega

theorem Parking.mem_arguments {parking : Parking}
    (member : (offset, instr) ∈ located parking.start parking.code)
    (low : parking.stored < offset) (high : offset < parking.loaded) :
    instr ∈ parking.arguments := by
  have positive := instr.size_pos
  rw [Parking.located_code] at member
  simp only [mem_append, mem_cons, not_mem_nil, or_false, Prod.mk.injEq] at member
  rcases member with before | (dup | store) | inside | load | find | call
  · have bound := (bounds_of_mem_located before).2
    have stored : parking.start + totalSize parking.receiver ≤ parking.stored :=
      Nat.le_add_right _ _
    omega
  · have stored : parking.start + totalSize parking.receiver ≤ parking.stored :=
      Nat.le_add_right _ _
    omega
  · omega
  · exact mem_of_located inside
  · omega
  · omega
  · have invoked : parking.loaded ≤ parking.invoked :=
      Nat.le_add_right_of_le (Nat.le_add_right _ _)
    omega

theorem Code.Consists.parksReceivers {code : Code} {regions : List Region}
    {parkings : List Parking} (consists : code.Consists regions) (isRegion : region ∈ regions)
    (parks : site.Parks True 0 region.start region.code parkings) :
    code.ParksReceivers region.stretch site.frameBase parkings where
  calls offset member low high name here := by
    obtain ⟨instr, inside, spells⟩ :=
      consists.exists_of_mem_region isRegion member low high
    obtain rfl := Option.some.inj (spells.instructionAt?.symm.trans here)
    exact mem_map.mp (parks.invoked _ inside rfl)
  holds parking isParking := by
    obtain ⟨early, late, split, isStart⟩ := parks.split parking isParking
    have holds := consists.holds region isRegion
    rw [split, holds_append, holds_append, ← isStart] at holds
    exact ⟨holds.2.1, parks.bounds isParking⟩
  slots parking isParking := (parks.called parking isParking).2
  kept parking isParking offset member low high instr here := by
    obtain ⟨early, late, split, isStart⟩ := parks.split parking isParking
    obtain ⟨within, ends⟩ := parks.bounds isParking
    have first := parking.start_le_stored
    have last := parking.loaded_lt_stop
    obtain ⟨found, inside, spells⟩ := consists.exists_of_mem_region isRegion member
      (by omega) (by rw [Region.stop]; omega)
    obtain rfl := Option.some.inj (spells.instructionAt?.symm.trans here)
    rw [Parking.stop] at last
    rw [split] at inside
    have inside := mem_located_of_split inside (by omega) (by omega)
    rw [← isStart] at inside
    exact parks.kept parking isParking _ (Parking.mem_arguments inside low high)
  apart := parks.apart

namespace Analysis

variable {analysis : Analysis} {program : Program}

theorem Compiles.isParked {body : Body} (compiles : analysis.Compiles program region body) :
    body.site.IsParked True 0 region.code := by
  have opens : ∀ params size, body.site.IsParked True 0 [.enter params size] :=
    fun _ _ => .of_others rfl
  have prologue : body.site.IsParked True 0 body.prologue := by
    refine .of_forall fun instr member => ⟨?_, fun _ => trivial⟩
    rw [compiles.prologue] at member
    rcases mem_prologueCode member with ⟨_, rfl⟩ | ⟨_, _, _, _, _, _, rfl⟩ | ⟨_, _, rfl⟩ <;> rfl
  have ending : body.site.IsParked True 0 (endCode (analysis.table.symbol region.owner).type) := by
    refine .of_forall fun instr member => ⟨?_, fun _ => trivial⟩
    rcases mem_endCode member with rfl | rfl | rfl <;> rfl
  rw [compiles.code]
  exact (opens _ _).append (prologue.append
    (compiles.builds.isParked.append ending))

end Analysis

/-- In the code of a program without violations, receivers that are parked stay until they are
loaded. -/
theorem generate_parksReceivers {options : Options} {program : Program} {image : Image}
    {result : Analysis} (distinct : program.nodes.Nodup)
    (accepted : (analyze options program).errorCount = 0)
    (generated : generate options (analyze options program) program = (.ok image, result)) :
    image.ParksReceivers program result := by
  have implements := generate_implements distinct accepted generated
  generalize analyze options program = analysis at *
  refine implements.exists_stretches fun region isRegion => ?_
  obtain ⟨realizes, rfl, defined, sound⟩ := implements
  have follows := sound.followsAll
  have consists := realizes.consists sound
  rcases sound.region_cases defined isRegion with ⟨_, code⟩ | ⟨body, compiles⟩
  · -- A predefined method calls nothing.
    let site : Site :=
      { notes := analysis.notes
        table := (analysis.layoutOf program).table
        frameBase := ((analysis.layoutOf program).table.symbol
          region.owner).locals.length }
    have isParked : site.IsParked True 0 region.code := by
      rw [code, Builtins.code]
      split <;> exact .of_others rfl
    obtain ⟨parkings, parks⟩ := isParked region.start
    exact ⟨site, parkings, rfl, fun _ => rfl, consists.parksReceivers isRegion parks,
      fun parking isParking => (parks.called parking isParking).1⟩
  · obtain ⟨parkings, parks⟩ := compiles.isParked region.start
    refine ⟨body.site, parkings, compiles.site_notes, fun id => ?_, ?_, fun parking isParking =>
      (parks.called parking isParking).1⟩
    · have sees := compiles.sees.places.symbol id
      rw [compiles.table] at sees
      rw [sees]
      exact congrArg (fun symbol : Symbol =>
        { symbol with address := (body.site.table.symbol id).address })
        (follows.places.symbol id).symm
    · have locals := congrArg List.length (follows.places.locals region.owner)
      have parks := consists.parksReceivers isRegion parks
      rw [compiles.frameBase, ← locals] at parks
      exact parks

open Supply

/-- A program with a virtual call in the argument of another. -/
def nesting : Program :=
  plant do
    let int ← typeRef none "int"
    let counter ← typeRef none "Counter"
    let next ← method false (some int) false "next" [← param int "value" false] []
      [← ret (some (← value "value"))]
    let counterType ← type "Counter" none [] [] [] [next]
    let create ← assign (← name "c") (← newObject counter)
    let inner ← callExpr (← member (← name "c") "next")
      [← literal (.int 1)]
    let outer ← callExpr (← member (← name "c") "next") [inner]
    let main ← method false none false "main" [] [← vars counter [("c", false)]]
      [.action create, ← print outer none]
    program "Nesting" [] [.type counterType] [main]

theorem generate_parksReceivers_nesting :
    nesting.nodes.Nodup ∧ (analyze {} nesting).errorCount = 0 ∧
      ∃ image result, generate {} (analyze {} nesting) nesting = (.ok image, result) ∧
        image.code.offsets.filterMap (fun offset =>
          (image.code.instructionAt? offset).bind writtenSlot?) = [0, 1, 2] ∧
        image.ParksReceivers nesting result := by
  have distinct : nesting.nodes.Nodup := by decide +kernel
  have accepted : (analyze {} nesting).errorCount = 0 := by decide +kernel
  obtain ⟨image, generated, slots⟩ :=
    exists_image_such (fun image => image.code.offsets.filterMap (fun offset =>
      (image.code.instructionAt? offset).bind writtenSlot?) = [0, 1, 2])
      (show (generate {} (analyze {} nesting) nesting).1.toOption.any _ by decide +kernel)
  exact ⟨distinct, accepted, image, _, generated, slots,
    generate_parksReceivers distinct accepted generated⟩

end MicroJava
