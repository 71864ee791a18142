import MicroJava.Proofs.Layout.Objects

/-!
# Dispatch tables

The entry point of a program writes the dispatch tables of all classes before it does anything
else.  Looking a name up in the table of a class then leads to the method of that name, and to
nothing if there is none.
-/

namespace MicroJava

open List Instruction Site

variable {analysis : Analysis} {word : Int32} {pc start stop : Nat} {program : Program}
  {region : Region} {type : TypeId} {front : List Int32} {id : SymbolId} {code : Code}
  {methods : List SymbolId} {regions : List Region}

/-! ## Names -/

theorem Char.toNat_lt (c : Char) : c.toNat < 2 ^ 31 := by
  have valid := c.valid
  unfold UInt32.isValidChar Nat.isValidChar at valid
  have same : c.toNat = c.val.toNat := rfl
  omega

theorem toInt_ofNat_char (c : Char) : (Int32.ofNat c.toNat).toInt = c.toNat :=
  Int32.toInt_ofNat_of_lt (Char.toNat_lt c)

theorem ne_mark_of_mem_nameWords {name : String} (member : word ∈ nameWords name) :
    word ≠ -1 ∧ word ≠ -2 := by
  obtain ⟨c, _, rfl⟩ := mem_map.mp member
  have positive : 0 ≤ (Int32.ofNat c.toNat).toInt := by
    rw [toInt_ofNat_char]
    exact Int.natCast_nonneg _
  refine ⟨fun same => ?_, fun same => ?_⟩ <;>
  · rw [same] at positive
    exact absurd positive (by decide)

theorem nameWords_inj {first second : String} :
    nameWords first = nameWords second ↔ first = second := by
  refine ⟨fun same => ?_, fun same => by rw [same]⟩
  have inj : Function.Injective fun c : Char => Int32.ofNat c.toNat := fun c d equal => by
    have ints := congrArg Int32.toInt equal
    simp only [toInt_ofNat_char] at ints
    exact Char.toNat_inj.mp (Int.ofNat.inj ints)
  exact String.toList_inj.mp (map_injective_iff.mpr inj same)

/-! ## Looking names up -/

namespace Dispatch

theorem scan_entry (name read : List Int32) (entry : String) (address : Int32)
    (later : List Int32) :
    scan name read (nameWords entry ++ -1 :: address :: later) =
      if read ++ nameWords entry = name then some address else scan name [] later := by
  have marks : ∀ word ∈ nameWords entry, word ≠ -1 ∧ word ≠ -2 :=
    fun word member => ne_mark_of_mem_nameWords member
  generalize nameWords entry = words at marks
  induction words generalizing read with
  | nil =>
    have other : ¬ (read = [] ∧ (-1 : Int32) = -2) := fun both => absurd both.2 (by decide)
    rw [nil_append, append_nil, scan, if_neg other, if_pos rfl]
  | cons word rest ih =>
    obtain ⟨⟨notEnd, notLast⟩, others⟩ := forall_mem_cons.mp marks
    have skips : scan name read (word :: (rest ++ -1 :: address :: later)) =
        scan name (read ++ [word]) (rest ++ -1 :: address :: later) := by
      cases rest <;> exact (if_neg fun both => notLast both.2).trans (if_neg notEnd)
    rw [cons_append, skips, ih (read ++ [word]) others, append_assoc]
    rfl

theorem scan_last (name rest : List Int32) : scan name [] (-2 :: rest) = none := by
  cases rest with
  | nil => rfl
  | cons next rest => exact if_pos ⟨rfl, rfl⟩

end Dispatch

namespace Table

variable (table : Table)

/-- The words of a dispatch table, as they are stored. -/
def storedWords (type : TypeId) : List Int32 :=
  (table.dispatchWords (table.methodsOf type)).map Int32.ofInt

theorem scan_dispatchWords (name rest : List Int32) (methods : List SymbolId) :
    Dispatch.scan name [] ((table.dispatchWords methods).map Int32.ofInt ++ rest) =
      (methods.find? fun id => nameWords (table.symbol id).name = name).map fun id =>
        Int32.ofNat (table.symbol id).address.toNat := by
  induction methods with
  | nil =>
    exact Dispatch.scan_last name rest
  | cons id others ih =>
    have entry : (table.symbol id).name.toList.map (Int32.ofInt ∘ fun c => (c.toNat : Int)) =
        nameWords (table.symbol id).name :=
      map_congr_left fun c _ => Int32.ofInt_eq_ofNat
    have mark : Int32.ofInt (-1) = -1 := rfl
    rw [dispatchWords, map_append, map_map, entry, map_cons, map_cons, mark,
      Int32.ofInt_eq_ofNat, append_assoc, cons_append, cons_append,
      Dispatch.scan_entry, nil_append, ih]
    by_cases same : nameWords (table.symbol id).name = name
    · rw [if_pos same, find?_cons_of_pos (by simpa using same)]
      rfl
    · rw [if_neg same, find?_cons_of_neg (by simpa using same)]

theorem find?_of_mem (distinct : (methods.map fun id => (table.symbol id).name).Nodup)
    (member : id ∈ methods) :
    (methods.find? fun other =>
      nameWords (table.symbol other).name = nameWords (table.symbol id).name) = some id := by
  induction methods with
  | nil => cases member
  | cons first rest ih =>
    obtain ⟨fresh, distinct⟩ := nodup_cons.mp distinct
    rcases mem_cons.mp member with rfl | inRest
    · exact find?_cons_of_pos (by simp)
    · have other : nameWords (table.symbol first).name ≠ nameWords (table.symbol id).name :=
        fun same => fresh (mem_map.mpr ⟨id, inRest, (nameWords_inj.mp same).symm⟩)
      rw [find?_cons_of_neg (by simpa using other)]
      exact ih distinct inRest

/-- The words of the dispatch tables of classes, one table after the other. -/
def allWords (classes : List TypeId) : List Int :=
  classes.flatMap fun type => table.dispatchWords (table.methodsOf type)

variable {table}

theorem allWords_cons (type : TypeId) (rest : List TypeId) :
    table.allWords (type :: rest) =
      table.dispatchWords (table.methodsOf type) ++ table.allWords rest :=
  flatMap_cons

theorem length_allWords (classes : List TypeId) :
    (table.allWords classes).length = (classes.map table.dispatchSize).sum := by
  rw [allWords, length_flatMap]
  simp only [length_dispatchWords_methodsOf]

theorem wordsCode_append (slot : Int) (first second : List Int) :
    wordsCode slot (first ++ second) =
      wordsCode slot first ++ wordsCode (slot + first.length) second := by
  induction first generalizing slot with
  | nil => simp [wordsCode]
  | cons word rest ih =>
    rw [cons_append, wordsCode, wordsCode, ih, length_cons, cons_append,
      cons_append]
    congr 4
    push_cast
    omega

namespace Reserves

variable {classes : List TypeId}

variable (reserves : table.Reserves start classes stop)
include reserves

theorem flatMap_dispatchCode :
    classes.flatMap table.dispatchCode = wordsCode start (table.allWords classes) := by
  induction classes generalizing start with
  | nil => rfl
  | cons type rest ih =>
    obtain ⟨here, later⟩ := reserves
    rw [flatMap_cons, ih later, allWords_cons, wordsCode_append,
      length_dispatchWords_methodsOf, dispatchCode, here]
    rfl

theorem drop_allWords (member : type ∈ classes) (length : front.length = start) :
    ∃ slot rest, (table.desc type).dispatch = some ((slot : Nat) : Int) ∧
      (front ++ (table.allWords classes).map Int32.ofInt).drop slot =
        table.storedWords type ++ rest := by
  induction classes generalizing start front with
  | nil => cases member
  | cons first others ih =>
    obtain ⟨here, later⟩ := reserves
    have words : (table.allWords (first :: others)).map Int32.ofInt =
        table.storedWords first ++ (table.allWords others).map Int32.ofInt := by
      rw [allWords_cons, map_append]
      rfl
    rw [words]
    rcases mem_cons.mp member with rfl | inOthers
    · refine ⟨start, (table.allWords others).map Int32.ofInt, here, ?_⟩
      rw [← length]
      exact drop_left
    · rw [← append_assoc]
      refine ih later inOthers ?_
      rw [length_append, length, storedWords, length_map, length_dispatchWords_methodsOf]

theorem find?_eq (member : type ∈ classes) (length : front.length = start) :
    ∃ slot, (table.desc type).dispatch = some ((slot : Nat) : Int) ∧ ∀ name,
      Dispatch.find? (front ++ (table.allWords classes).map Int32.ofInt) slot name =
        ((table.methodsOf type).find? fun id => nameWords (table.symbol id).name = name).map
          fun id => Int32.ofNat (table.symbol id).address.toNat := by
  obtain ⟨slot, rest, isSlot, words⟩ := reserves.drop_allWords member length
  refine ⟨slot, isSlot, fun name => ?_⟩
  rw [Dispatch.find?, words]
  exact table.scan_dispatchWords name rest _

end Reserves
end Table

/-! ## Writing tables -/

namespace Machine

/-- Be at an offset with other global words. -/
def wrote (machine : Machine) (pc : Nat) (data : List Int32) : Machine :=
  { machine with pc := pc, data := data }

theorem reaches_wordCode (machine : Machine) (old : Int32) (back : List Int32)
    (holds : code.Holds pc [.const word, .putStatic front.length]) :
    (machine.wrote pc (front ++ old :: back)).Reaches code
      (machine.wrote (pc + size (.const word) + 3) (front ++ word :: back)) := by
  obtain ⟨pushes, puts, _⟩ := holds
  refine .tail (.single (step_of_spells (machine.wrote pc _) pushes)) ?_
  refine (step_of_spells _ puts).trans ?_
  have inside : front.length < (front ++ old :: back).length := by simp
  have stored : (front ++ old :: back).set front.length word = front ++ word :: back := by simp
  simp only [wrote, perform, goOn, if_pos inside, stored]
  rfl

theorem reaches_wordsCode {words : List Int} {middle : List Int32} (machine : Machine)
    (holds : code.Holds pc (wordsCode front.length words)) (back : List Int32)
    (room : middle.length = words.length) :
    (machine.wrote pc (front ++ (middle ++ back))).Reaches code
      (machine.wrote (pc + totalSize (wordsCode front.length words))
        (front ++ (words.map Int32.ofInt ++ back))) := by
  induction words generalizing pc front middle with
  | nil =>
    obtain rfl := length_eq_zero_iff.mp room
    exact .refl
  | cons word rest ih =>
    obtain ⟨old, middle, rfl⟩ := exists_cons_of_length_eq_add_one room
    obtain ⟨pushes, puts, later⟩ := holds
    rw [Int.toNat_natCast] at puts later
    have here := reaches_wordCode machine old (middle ++ back) ⟨pushes, puts, trivial⟩
    have next : ((front ++ [Int32.ofInt word]).length : Int) = front.length + 1 := by simp
    rw [← next] at later
    have rest := ih later (Nat.succ.inj room)
    simp only [append_assoc, singleton_append] at rest
    refine here.trans ?_
    simp only [wordsCode, totalSize_cons, ← Nat.add_assoc, ← next]
    exact rest

end Machine

/-! ## Programs -/

variable {image : Image} {result : Analysis} {table : Table}

theorem Table.Reserves.dispatch_eq {front back : List TypeId}
    (reserves : table.Reserves start (front ++ type :: back) stop) :
    (table.desc type).dispatch =
      some ((start + (front.map table.dispatchSize).sum : Nat) : Int) := by
  induction front generalizing start with
  | nil => exact reserves.1
  | cons first rest ih =>
    rw [ih reserves.2, map_cons, sum_cons, Nat.add_assoc]

theorem Table.dispatchWords_congr {other : Table}
    (same : ∀ id ∈ methods, (other.symbol id).name = (table.symbol id).name ∧
      (other.symbol id).address = (table.symbol id).address) :
    other.dispatchWords methods = table.dispatchWords methods := by
  induction methods with
  | nil => rfl
  | cons id rest ih =>
    obtain ⟨name, address⟩ := same id mem_cons_self
    rw [dispatchWords, dispatchWords, name, address,
      ih fun other member => same other (mem_cons_of_mem _ member)]

theorem Region.Tile.start_le_stop (tile : Tile start regions stop) : start ≤ stop := by
  induction regions generalizing start with
  | nil => exact Nat.le_of_eq tile
  | cons region rest ih =>
    obtain ⟨rfl, later⟩ := tile
    exact Nat.le_trans (Nat.le_add_right _ _) (ih later)

theorem Region.Tile.stop_le (tile : Tile start regions stop) (member : region ∈ regions) :
    region.stop ≤ stop := by
  induction regions generalizing start with
  | nil => cases member
  | cons first rest ih =>
    obtain ⟨rfl, later⟩ := tile
    rcases mem_cons.mp member with rfl | behind
    · exact later.start_le_stop
    · exact ih later behind

/-- A code holds a sequence from one offset to another. -/
def Code.Occupies (code : Code) (start stop : Nat) (instructions : List Instruction) : Prop :=
  code.Holds start instructions ∧ stop = start + totalSize instructions

/-- The instructions before the statements of a method: the entry point writes the dispatch
tables and calls the static initializers, and any other method starts with its statements. -/
def Analysis.preamble (analysis : Analysis) (method : SymbolId) : List Instruction :=
  if analysis.main = some method then
    wordsCode analysis.table.globalCount (analysis.table.allWords analysis.classes) ++
      analysis.staticInits.map fun init => .call (analysis.table.symbol init).address.toNat
  else
    []

/-- The statements of every unit stand behind the preamble of its method, and where they create
an object of a class, their code is as a rule says. -/
def Image.CreatesObjects (image : Image) (program : Program) (analysis : Analysis)
    (rule : TypeId → List Instruction → Prop) : Prop :=
  ∀ part ∈ program.units, ∀ method, part.owner? analysis.notes = some method →
    ∃ site entry params size start, site.IsOf analysis method ∧
      (analysis.table.symbol method).address = ((entry : Nat) : Int) ∧
      image.code.Occupies entry start (.enter params size :: analysis.preamble method) ∧
      image.code.Holds start (Site.stmtsCode site start 0 0 part.body) ∧
      ∀ node ref, .expression (.newObject node ref) ∈ part.parts →
        ∃ type ∈ analysis.classes, analysis.notes.type? node.id = some type ∧
          ∀ parked, rule type (site.exprCode parked (.newObject node ref))

/-- The entry point writes the dispatch tables of all classes, and objects refer to them. -/
structure Image.FillsTables (image : Image) (program : Program) (analysis : Analysis)
    (main : SymbolId) : Prop where
  /-- The classes are those of the program, in the order of its text. -/
  classes : analysis.classes = program.units.filterMap (DeclUnit.class? analysis.notes)
  /-- So are the static initializers. -/
  inits : analysis.staticInits = program.units.filterMap (DeclUnit.init? analysis.notes)
  /-- The global data is what the global variables and the tables need. -/
  dataSize : image.dataSize =
    analysis.table.globalCount + (analysis.classes.map analysis.table.dispatchSize).sum
  /-- The tables stand behind the global variables, one after the other. -/
  places : analysis.table.Reserves analysis.table.globalCount analysis.classes image.dataSize
  /-- Their words fill the rest of the global data. -/
  words : analysis.table.globalCount + (analysis.table.allWords analysis.classes).length =
    image.dataSize
  /-- The entry point opens a frame, writes the words of all tables, calls all static
  initializers, and goes on with its statements. -/
  start : ∃ params size decl site, decl ∈ program.methods ∧
    analysis.notes.symbol? decl.node.id = some main ∧ site.IsOf analysis main ∧
    ∃ front, front = .enter params size ::
        (wordsCode analysis.table.globalCount (analysis.table.allWords analysis.classes) ++
          analysis.staticInits.map fun init =>
            .call (analysis.table.symbol init).address.toNat) ∧
      image.code.Holds image.entry (front ++
        (Site.stmtsCode site (image.entry + totalSize front) 0 0 decl.body ++
          endCode (analysis.table.symbol main).type))
  /-- When that runs, the words are in the global data. -/
  written : ∀ (machine : Machine) (front back : List Int32), machine.pc = image.entry + 3 →
    machine.data = front ++ back →
    machine.data.length = image.dataSize → front.length = analysis.table.globalCount →
    machine.Reaches image.code (machine.wrote
      (image.entry + 3 + totalSize
        (wordsCode analysis.table.globalCount (analysis.table.allWords analysis.classes)))
      (front ++ (analysis.table.allWords analysis.classes).map Int32.ofInt))
  /-- In the table of a class, exactly the methods of the class are found. -/
  finds : ∀ front : List Int32, front.length = analysis.table.globalCount →
    ∀ type ∈ analysis.classes,
    ∃ slot, (analysis.table.desc type).dispatch = some ((slot : Nat) : Int) ∧
      (∀ id ∈ analysis.table.methodsOf type, ∃ address,
        Dispatch.find? (front ++ (analysis.table.allWords analysis.classes).map Int32.ofInt) slot
          (nameWords (analysis.table.symbol id).name) = some address ∧
        address.toInt = (analysis.table.symbol id).address) ∧
      ∀ name, (∀ id ∈ analysis.table.methodsOf type,
          nameWords (analysis.table.symbol id).name ≠ name) →
        Dispatch.find? (front ++ (analysis.table.allWords analysis.classes).map Int32.ofInt) slot
          name = none
  /-- A new object has the place of the table of its class in its first field. -/
  objects : ∀ offset ∈ image.code.offsets, ∀ size,
    image.code.instructionAt? offset = some (.new size) →
      ∃ node ref type table, .expression (.newObject node ref) ∈ program.parts ∧
        analysis.notes.type? node.id = some type ∧ type ∈ analysis.classes ∧
        (analysis.table.desc type).dispatch = some (Int32.toInt table) ∧
        image.code.Holds offset [.new (((analysis.table.desc type).fieldCount + 1) * 4),
          .plain .dup, .const table, .putField 0]
  /-- So has each object that the program creates, where it does so. -/
  created : image.CreatesObjects program analysis fun type code => ∃ table,
    (analysis.table.desc type).dispatch = some (Int32.toInt table) ∧
      code = [.new (((analysis.table.desc type).fieldCount + 1) * 4), .plain .dup, .const table,
        .putField 0]

namespace Analysis

variable {body : Body}

namespace Compiles

variable (compiles : analysis.Compiles program region body)
include compiles

theorem address_eq (sound : analysis.IsSound program)
    (kind : (analysis.table.symbol id).kind = .method)
    (placed : 0 ≤ (body.site.table.symbol id).address) :
    ((analysis.layoutOf program).table.symbol id).address =
      (body.site.table.symbol id).address := by
  obtain ⟨other, isRegion, rfl, address⟩ := compiles.placed id kind placed
  rw [address]
  exact sound.followsAll.starts other isRegion

theorem dispatch_eq (sound : analysis.IsSound program)
    (hasObjects : ∃ unit ∈ body.setting.units, unit.class? analysis.notes = some type) :
    type ∈ analysis.classes ∧ ∃ slot : Nat,
      slot < (analysis.layoutOf program).dataSize ∧
      (body.site.table.desc type).dispatch = some (slot : Int) ∧
      ((analysis.layoutOf program).table.desc type).dispatch =
        some (slot : Int) := by
  obtain ⟨done, rest, part, split, owner, site, units⟩ := compiles.site
  obtain ⟨unit, isUnit, isClass⟩ := hasObjects
  have whole := split.trans (append_cons ..)
  have table : (Layout.of analysis (done ++ [.declared part])).table = body.site.table := by
    rw [site, Layout.table_concat done (.declared part) owner]
  have member : type ∈ Layout.classes analysis (done ++ [.declared part]) :=
    mem_filterMap.mpr ⟨_, units unit isUnit, isClass⟩
  obtain ⟨front, back, classes⟩ := append_of_mem member
  have all : analysis.classes = front ++ type :: (back ++ Layout.classes analysis rest) := by
    rw [← sound.classes_eq, whole,
      Layout.classes_append (done ++ [CodeUnit.declared part]), classes,
      append_assoc]
    rfl
  have early := sound.reserves whole
  have late := sound.reserves_all
  have isClass : type ∈ analysis.classes := by rw [all]; simp
  obtain ⟨slot, place, inside⟩ := late.exists_of_mem isClass
  have positive : 0 < (analysis.layoutOf program).table.dispatchSize type :=
    Nat.succ_pos _
  refine ⟨isClass, slot, by omega, ?_, place⟩
  rw [classes, table] at early
  rw [all] at late
  have places := compiles.sees.places
  rw [compiles.table] at places
  have sizes : body.site.table.dispatchSize =
      (analysis.layoutOf program).table.dispatchSize := by
    funext other
    rw [places.dispatchSize, sound.followsAll.places.dispatchSize]
  rw [early.dispatch_eq, sizes, ← late.dispatch_eq, place]

theorem allWords_eq (sound : analysis.IsSound program)
    (isMain : analysis.main = some region.owner) :
    body.site.table.allWords analysis.classes =
      (analysis.layoutOf program).table.allWords analysis.classes := by
  have places := compiles.sees.places
  rw [compiles.table] at places
  have late := sound.followsAll.places
  have reserves := compiles.reserves sound isMain
  refine flatMap_congr fun type isClass => ?_
  rw [places.methodsOf, late.methodsOf]
  refine (Table.dispatchWords_congr fun id member => ⟨?_, ?_⟩).symm
  · rw [places.name, late.name]
  · obtain ⟨slot, place, _⟩ := reserves.exists_of_mem isClass
    have kind := of_decide_eq_true (mem_filter.mp member).2
    refine compiles.address_eq sound kind ?_
    refine (compiles.prepared isMain).methods type isClass (by rw [place]; rfl) id ?_
    rwa [places.methodsOf]

theorem prologue_eq (sound : analysis.IsSound program)
    (isMain : analysis.main = some region.owner) :
    body.prologue = wordsCode analysis.table.globalCount
        ((analysis.layoutOf program).table.allWords analysis.classes) ++
      analysis.staticInits.map fun init => .call
        ((analysis.layoutOf program).table.symbol init).address.toNat := by
  rw [compiles.prologue, prologueCode, if_pos isMain,
    (compiles.reserves sound isMain).flatMap_dispatchCode, compiles.allWords_eq sound isMain]
  congr 1
  refine map_congr_left fun init isInit => ?_
  rw [compiles.address_eq sound (sound.kind_init isInit)
    ((compiles.prepared isMain).inits init isInit)]

theorem prologue_eq_preamble (sound : analysis.IsSound program) :
    body.prologue = (analysis.laidOut program).preamble region.owner := by
  rw [preamble]
  split
  next isMain =>
    rw [compiles.prologue_eq sound isMain]
    show _ = wordsCode (analysis.layoutOf program).table.globalCount _ ++ _
    rw [Layout.globalCount_of]
  next notMain => rw [compiles.prologue, prologueCode, if_neg notMain]

theorem occupies (sound : analysis.IsSound program) (holds : code.Holds region.start region.code) :
    code.Occupies region.start body.start (.enter (analysis.table.symbol region.owner).paramCount
      (body.site.frameBase + body.peak) :: (analysis.laidOut program).preamble region.owner) := by
  rw [← compiles.prologue_eq_preamble sound]
  exact ⟨(compiles.holds_parts holds).1, (compiles.front _ _).symm⟩

theorem notes_eq : body.setting.notes = analysis.notes := by
  obtain ⟨_, _, _, _, _, site, _⟩ := compiles.site
  rw [← compiles.sees.notes, site]
  rfl

theorem exists_method (sound : analysis.IsSound program)
    (isMain : analysis.main = some region.owner) :
    ∃ decl ∈ program.methods, analysis.notes.symbol? decl.node.id = some region.owner ∧
      body.statements = decl.body := by
  obtain ⟨part, isUnit, owner, statements, _⟩ := compiles.unit
  obtain ⟨earlier, later, split⟩ := append_of_mem isUnit
  have late := sound.split_le_of_main split owner isMain
  obtain ⟨decl, isMethod, rfl⟩ := mem_map.mp (Program.mem_methods_of_split split late)
  exact ⟨decl, isMethod, owner, statements.symm⟩

theorem mem_parts {part : Part} (member : part ∈ Stmt.partsOf body.statements) :
    part ∈ program.parts := by
  obtain ⟨unit, isUnit, _, isBody, _⟩ := compiles.unit
  exact mem_flatMap.mpr ⟨unit, isUnit, by rw [DeclUnit.parts, isBody]; exact member⟩

theorem accounts : body.site.Accounts (Stmt.partsOf body.statements) region.code := by
  have statements : body.site.Accounts (Stmt.partsOf body.statements) body.code :=
    compiles.builds.accounts fun _ isPart => isPart
  rw [compiles.code, compiles.prologue, ← singleton_append]
  refine .append (.of_forall (by simp)) (.append (.of_forall fun instr member => ?_)
    (statements.append (.of_forall fun instr member => ?_)))
  · rcases mem_prologueCode member with ⟨_, rfl⟩ | ⟨_, _, _, _, _, _, rfl⟩ | ⟨_, _, rfl⟩ <;> rfl
  · rcases mem_endCode member with rfl | rfl | rfl <;> rfl

theorem newObjectCode_eq {node : Node} {ref : TypeRef} (sound : analysis.IsSound program)
    (isPart : .expression (.newObject node ref) ∈ Stmt.partsOf body.statements) :
    ∃ type, ∃ slot : Nat, analysis.notes.type? node.id = some type ∧ type ∈ analysis.classes ∧
      slot < (analysis.layoutOf program).dataSize ∧
      ((analysis.layoutOf program).table.desc type).dispatch = some (slot : Int) ∧
      body.site.newObjectCode (body.site.typeAt node) =
        [.new (((analysis.table.desc type).fieldCount + 1) * 4), .plain .dup,
          .const (Int32.ofInt slot), .putField 0] := by
  obtain ⟨noted, _⟩ := compiles.noted.areNoted _ isPart
  obtain ⟨type, isTyped, _, hasObjects⟩ := noted
  have typeAt := compiles.sees.typeAt isTyped
  rw [compiles.notes_eq] at isTyped
  rw [Setting.HasObjects, compiles.notes_eq] at hasObjects
  obtain ⟨isClass, slot, bound, here, there⟩ := compiles.dispatch_eq sound hasObjects
  have places := compiles.sees.places
  rw [compiles.table] at places
  refine ⟨type, slot, isTyped, isClass, bound, there, ?_⟩
  simp only [typeAt, newObjectCode, here]
  rw [places.fieldCount]

theorem exists_object {offset size : Nat} (sound : analysis.IsSound program)
    (fits : (analysis.layoutOf program).dataSize < 2 ^ 31)
    (holds : code.Holds region.start region.code)
    (inside : (offset, .new size) ∈ located region.start region.code) :
    ∃ node ref type table, .expression (.newObject node ref) ∈ program.parts ∧
      analysis.notes.type? node.id = some type ∧ type ∈ analysis.classes ∧
      ((analysis.layoutOf program).table.desc type).dispatch =
        some (Int32.toInt table) ∧
      code.Holds offset
        [.new ((((analysis.layoutOf program).table.desc type).fieldCount + 1) * 4),
          .plain .dup, .const table, .putField 0] := by
  obtain ⟨early, late, split, rfl⟩ := exists_split_of_located inside
  obtain ⟨node, ref, rest, isPart, same⟩ :=
    (compiles.accounts early _ late split rfl).exists_of_new
  obtain ⟨type, slot, isTyped, isClass, bound, there, object⟩ :=
    compiles.newObjectCode_eq sound isPart
  refine ⟨node, ref, type, Int32.ofInt slot, compiles.mem_parts isPart, isTyped, isClass, ?_, ?_⟩
  · rw [there, Int32.toInt_ofInt_of_le (by omega) (by omega)]
  · rw [split, same] at holds
    have behind := ((Code.holds_append _ _ _ _).mp holds).2
    rw [sound.followsAll.places.fieldCount, ← object]
    exact ((Code.holds_append _ _ _ _).mp behind).1

end Compiles

namespace IsSound

variable (sound : analysis.IsSound program)
include sound

theorem toInt_address (fits : (analysis.layoutOf program).size < 2 ^ 31)
    (kind : (analysis.table.symbol id).kind = .method) :
    (Int32.ofNat ((analysis.layoutOf program).table.symbol
        id).address.toNat).toInt =
      ((analysis.layoutOf program).table.symbol id).address := by
  have follows := sound.followsAll
  obtain ⟨region, isRegion, rfl⟩ := sound.exists_region_of_method kind
  have inside := follows.tile.stop_le isRegion
  have low : region.start ≤ region.stop := Nat.le_add_right _ _
  rw [follows.starts region isRegion, Int.toNat_natCast]
  exact Int32.toInt_ofNat_of_lt (by omega)

theorem finds_methods (fits : (analysis.layoutOf program).size < 2 ^ 31)
    (length : front.length = analysis.table.globalCount) (isClass : type ∈ analysis.classes) :
    ∃ slot, ((analysis.layoutOf program).table.desc type).dispatch =
        some ((slot : Nat) : Int) ∧
      (∀ id ∈ (analysis.layoutOf program).table.methodsOf type, ∃ address,
        Dispatch.find? (front ++ ((analysis.layoutOf program).table.allWords
          analysis.classes).map Int32.ofInt) slot
            (nameWords ((analysis.layoutOf program).table.symbol id).name) =
          some address ∧
        address.toInt =
          ((analysis.layoutOf program).table.symbol id).address) ∧
      ∀ name, (∀ id ∈ (analysis.layoutOf program).table.methodsOf type,
          nameWords ((analysis.layoutOf program).table.symbol id).name ≠ name) →
        Dispatch.find? (front ++ ((analysis.layoutOf program).table.allWords
          analysis.classes).map Int32.ofInt) slot name = none := by
  have places := sound.followsAll.places
  have names : (((analysis.layoutOf program).table.methodsOf type).map fun id =>
      ((analysis.layoutOf program).table.symbol id).name).Nodup := by
    simp only [places.name, places.methodsOf]
    exact (sound.names type isClass).sublist (filter_sublist.map _)
  obtain ⟨slot, isSlot, finds⟩ := sound.reserves_all.find?_eq isClass length
  refine ⟨slot, isSlot, fun id member => ⟨_, ?_, sound.toInt_address fits ?_⟩, fun name other => ?_⟩
  · rw [finds, Table.find?_of_mem _ names member]
    rfl
  · rw [places.methodsOf] at member
    exact of_decide_eq_true (mem_filter.mp member).2
  · rw [finds, find?_eq_none.mpr fun id member => by simpa using other id member]
    rfl

end IsSound
end Analysis

theorem Image.Implements.createsObjects {rule : TypeId → List Instruction → Prop}
    (implements : image.Implements program analysis result)
    (obeys : ∀ type ∈ analysis.classes, ∀ slot : Nat, slot < image.dataSize →
      (result.table.desc type).dispatch = some (slot : Int) →
        rule type [.new (((analysis.table.desc type).fieldCount + 1) * 4), .plain .dup,
          .const (Int32.ofInt slot), .putField 0]) :
    image.CreatesObjects program result rule := by
  obtain ⟨realizes, rfl, defined, sound⟩ := implements
  intro part isPart method owner
  obtain ⟨region, isRegion, rfl, body, compiles, isBody⟩ :=
    sound.exists_compiles defined isPart owner
  have holds := realizes.holds region isRegion
  refine ⟨body.site, region.start, _, _, body.start, compiles.isOf sound,
    sound.followsAll.starts region isRegion, compiles.occupies sound holds,
    isBody ▸ (compiles.holds_parts holds).2.1, fun node ref isNew => ?_⟩
  rw [DeclUnit.parts, ← isBody] at isNew
  obtain ⟨type, slot, isTyped, isClass, bound, place, code⟩ := compiles.newObjectCode_eq sound isNew
  rw [← realizes.dataSize] at bound
  refine ⟨type, isClass, isTyped, fun parked => ?_⟩
  rw [exprCode, code]
  exact obeys type isClass slot bound place

/-- The dispatch tables of a program without violations are laid out and filled. -/
theorem generate_fillsTables {options : Options} {main : SymbolId}
    (distinct : program.nodes.Nodup) (accepted : (analyze options program).errorCount = 0)
    (isMain : (analyze options program).main = some main)
    (generated : generate options (analyze options program) program = (.ok image, result))
    (codeFits : image.code.size < 2 ^ 31) (dataFits : image.dataSize < 2 ^ 31) :
    image.FillsTables program result main := by
  obtain ⟨realizes, rfl, defined, sound⟩ := generate_implements distinct accepted generated
  generalize analyze options program = analysis at *
  have follows := sound.followsAll
  have consists := realizes.consists sound
  have reserves := sound.reserves_all
  have globals := Layout.globalCount_of analysis (analysis.units program)
  rw [realizes.size] at codeFits
  -- The region of the entry point.
  obtain ⟨region, isRegion, rfl⟩ := sound.exists_region_of_method (sound.main main isMain).1
  have entry := realizes.entry region.owner isMain
  rw [follows.starts region isRegion, Int.natCast_inj] at entry
  obtain ⟨body, compiles⟩ : ∃ body, analysis.Compiles program region body := by
    refine (sound.region_cases defined isRegion).resolve_left fun ⟨builtin, _⟩ => ?_
    exact (sound.builtins _ builtin).name (sound.main _ isMain).2.2
  have start := compiles.start
  have holds := consists.holds region isRegion
  rw [compiles.code, Body.code, start, compiles.prologue_eq sound isMain] at holds
  rw [← realizes.dataSize] at reserves
  have words : analysis.table.globalCount + ((analysis.layoutOf program).table.allWords
      analysis.classes).length = image.dataSize := by
    rw [Table.length_allWords, ← reserves.stop_eq]
  refine ⟨sound.classes, sound.staticInits, globals ▸ reserves.stop_eq, globals ▸ reserves,
    globals ▸ words, ?_, ?_, ?_, ?_, ?_⟩
  · obtain ⟨decl, isMethod, named, statements⟩ := compiles.exists_method sound isMain
    refine ⟨(analysis.table.symbol region.owner).paramCount, body.site.frameBase + body.peak, decl,
      body.site, isMethod, named, compiles.isOf sound, _, rfl, ?_⟩
    rw [statements] at holds
    rw [globals, entry, cons_append, totalSize_cons, ← Nat.add_assoc, follows.places.type]
    exact holds
  · intro machine front back here data size length
    rw [globals] at length ⊢
    have code : image.code.Holds (region.start + 3) (wordsCode analysis.table.globalCount
        ((analysis.layoutOf program).table.allWords analysis.classes)) :=
      ((Code.holds_append _ _ _ _).mp ((Code.holds_append _ _ _ _).mp holds.2).1).1
    rw [← length] at code words ⊢
    have room : back.length = ((analysis.layoutOf program).table.allWords
        analysis.classes).length := by
      rw [data, length_append] at size
      omega
    have reaches := Machine.reaches_wordsCode machine code [] room
    have same : machine.wrote (region.start + 3) (front ++ (back ++ [])) = machine := by
      rw [append_nil, ← data, ← entry, ← here]
      rfl
    rw [same, append_nil, ← entry] at reaches
    exact reaches
  · intro front length type isClass
    exact sound.finds_methods codeFits (length.trans globals) isClass
  · intro offset isOffset size here
    obtain ⟨other, isOther, instr, inside, spells⟩ := consists.exists_of_mem_offsets isOffset
    obtain rfl := Option.some.inj (spells.instructionAt?.symm.trans here)
    rcases sound.region_cases defined isOther with ⟨_, code⟩ | ⟨inner, compiled⟩
    · have member := mem_of_located inside
      rw [code, Builtins.code] at member
      split at member <;> simp at member
    · exact compiled.exists_object sound (realizes.dataSize ▸ dataFits)
        (consists.holds other isOther)
        inside
  · refine Image.Implements.createsObjects ⟨realizes, rfl, defined, sound⟩
      fun type isClass slot bound place => ⟨Int32.ofInt slot, ?_, ?_⟩
    · rw [place, Int32.toInt_ofInt_of_le (by omega) (by omega)]
    · rw [follows.places.fieldCount]

theorem generate_fillsTables_stepping :
    stepping.nodes.Nodup ∧ (analyze {} stepping).errorCount = 0 ∧
      ∃ main image result, (analyze {} stepping).main = some main ∧
        generate {} (analyze {} stepping) stepping = (.ok image, result) ∧
        image.code.size < 2 ^ 31 ∧ image.dataSize < 2 ^ 31 ∧
        image.FillsTables stepping result main := by
  obtain ⟨distinct, accepted⟩ := stepping_isAccepted
  have hasMain : (analyze {} stepping).main.isSome := by decide +kernel
  obtain ⟨main, isMain⟩ := Option.isSome_iff_exists.mp hasMain
  obtain ⟨image, generated, codeFits, dataFits⟩ :=
    exists_image_such (fun image => image.code.size < 2 ^ 31 ∧ image.dataSize < 2 ^ 31)
      (show (generate {} (analyze {} stepping) stepping).1.toOption.any _ by decide +kernel)
  exact ⟨distinct, accepted, main, image, _, isMain, generated, codeFits, dataFits,
    generate_fillsTables distinct accepted isMain generated codeFits dataFits⟩

end MicroJava
