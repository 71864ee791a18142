import MicroJava.Proofs.Layout.Statements
import MicroJava.Proofs.Tree.Nodes

/-!
# The layout of a program

A program is laid out unit by unit: the predefined methods, then the classes, then the methods
outside of classes.  `Layout.of` computes all regions and addresses, and a run of the
generator that succeeds emits them.
-/

namespace MicroJava

open List Instruction

variable {before after : Generator} {analysis : Analysis} {layout : Layout} {id : SymbolId}
  {params start : Nat} {notes : Annotations} {words : List Int} {owner : SymbolId}
  {body : List Stmt}

/-! ## Units -/

/-- A part of a program that code generation handles as a whole. -/
inductive CodeUnit
  | builtin (id : SymbolId)
  | declared (part : DeclUnit)

/-- The units of a program and of what every program knows. -/
def Analysis.units (analysis : Analysis) (program : Program) : List CodeUnit :=
  analysis.builtins.all.map .builtin ++ program.units.map .declared

namespace Gen

/-- Emit a unit of the program. -/
def declUnit (analysis : Analysis) : DeclUnit → Gen Unit
  | .type decl => do reserveDispatch (← typeAt analysis.notes decl.node)
  | .init block => staticInit analysis block
  | .method decl => method analysis decl

/-- Emit a unit. -/
def codeUnit (analysis : Analysis) : CodeUnit → Gen Unit
  | .builtin id => builtin analysis.builtins id
  | .declared part => declUnit analysis part

theorem forM_flatMap {α β : Type} (items : List α) (parts : α → List β) (act : β → Gen Unit) :
    (items.flatMap parts).forM act = items.forM fun item => (parts item).forM act := by
  simp only [forM_eq_forM]
  induction items with
  | nil => rfl
  | cons item rest ih => rw [flatMap_cons, forM_append, forM_cons, ih]

theorem type_eq (analysis : Analysis) (classDecl : ClassDecl) :
    type analysis classDecl = classDecl.units.forM (declUnit analysis) := by
  simp only [type, ClassDecl.units, ClassDecl.memberUnits, forM_eq_forM, forM_cons,
    forM_append,
    forM_map, declUnit, bind_assoc]

theorem decl_eq (analysis : Analysis) (declared : Decl) :
    decl analysis declared = declared.units.forM (declUnit analysis) := by
  cases declared with
  | consts => rfl
  | vars => rfl
  | type classDecl => exact type_eq analysis classDecl

theorem unit_eq (analysis : Analysis) (decls : List Decl) (methods : List MethodDecl) :
    unit analysis decls methods = (unitsOf decls methods).forM (declUnit analysis) := by
  have declsEq : decl analysis = fun declared => declared.units.forM (declUnit analysis) :=
    funext (decl_eq analysis)
  rw [unit, declsEq, ← forM_flatMap, unitsOf]
  simp only [forM_eq_forM, forM_append, forM_map]
  rfl

theorem program_eq (options : Options) (analysis : Analysis) (tree : Program) :
    program options analysis tree = (do
      (analysis.units tree).forM (codeUnit analysis)
      let entry ← entryAddress analysis
      let code ← finish options.codeLimit
      return { code := code, dataSize := (← get).dataSize, entry := entry }) := by
  have spaces : (fun space : Namespace => unit analysis space.decls space.methods) =
      fun space => (unitsOf space.decls space.methods).forM (declUnit analysis) :=
    funext fun space => unit_eq analysis space.decls space.methods
  rw [program, spaces, unit_eq, ← forM_flatMap, Analysis.units, Program.units]
  simp only [forM_eq_forM, forM_append, forM_map, bind_assoc]
  rfl

end Gen

/-! ## Regions -/

/-- The words of a dispatch table. -/
def Table.dispatchWords (table : Table) : List SymbolId → List Int
  | [] => [-2]
  | id :: rest =>
      (table.symbol id).name.toList.map (fun c => (c.toNat : Int)) ++
        (-1 : Int) :: ((table.symbol id).address.toNat : Int) :: table.dispatchWords rest

/-- Write words to the global data from a slot on. -/
def wordsCode (slot : Int) : List Int → List Instruction
  | [] => []
  | word :: rest =>
      .const (Int32.ofInt word) :: .putStatic slot.toNat :: wordsCode (slot + 1) rest

/-- Write the dispatch table of a class, if it has a place. -/
def Table.dispatchCode (table : Table) (type : TypeId) : List Instruction :=
  match (table.desc type).dispatch with
  | none => []
  | some slot => wordsCode slot (table.dispatchWords (table.methodsOf type))

/-- The start of a method, which only the entry point has. -/
def Analysis.prologueCode (analysis : Analysis) (table : Table) (id : SymbolId) :
    List Instruction :=
  if analysis.main = some id then
    analysis.classes.flatMap table.dispatchCode ++
      analysis.staticInits.map fun init => .call (table.symbol init).address.toNat
  else
    []

/-- The code of a predefined method. -/
def Builtins.code (builtins : Builtins) (id : SymbolId) : List Instruction :=
  [.enter 1 1, .load 0] ++ (if id = builtins.len then [.plain .arrayLength] else []) ++
    [.plain .exit, .plain .ret]

/-- The end of a method: one with a result must not get there. -/
def endCode (result : TypeId) : List Instruction :=
  if result = .none then [.plain .exit, .plain .ret] else [.trap 1]

/-- The code of a static initializer. -/
def Site.initCode (site : Site) (start : Nat) (init : StaticInit) : List Instruction :=
  .enter 0 (site.frameBase + site.stmtsPeak init.body) ::
    (site.stmtsCode (start + 3) 0 0 init.body ++ [.plain .exit, .plain .ret])

/-- The code of a method with the given symbol. -/
def Site.methodCode (site : Site) (analysis : Analysis) (id : SymbolId) (start : Nat)
    (decl : MethodDecl) : List Instruction :=
  let prologue := analysis.prologueCode site.table id
  let symbol := site.table.symbol id
  .enter symbol.paramCount (site.frameBase + site.stmtsPeak decl.body) ::
    (prologue ++ site.stmtsCode (start + 3 + totalSize prologue) 0 0 decl.body ++
      endCode symbol.type)

/-- The code of one unit. -/
structure Region where
  owner : SymbolId
  start : Nat
  code : List Instruction

/-- What is known about the code of a program after some of its units. -/
structure Layout where
  table : Table
  dataSize : Nat
  size : Nat := 0
  regions : List Region := []

namespace Layout

/-- Let the code of a symbol start at the end. -/
def placed (layout : Layout) (owner : SymbolId) : Table :=
  layout.table.updateSymbol owner fun method => { method with address := layout.size }

/-- What the code of a unit with the given symbol depends on. -/
def site (layout : Layout) (notes : Annotations) (owner : SymbolId) : Site :=
  { notes := notes
    table := layout.placed owner
    frameBase := ((layout.placed owner).symbol owner).locals.length }

/-- Append a region. -/
def append (layout : Layout) (owner : SymbolId) (code : List Instruction) : Layout :=
  { table := layout.placed owner
    dataSize := layout.dataSize
    size := layout.size + totalSize code
    regions := layout.regions ++ [{ owner := owner, start := layout.size, code := code }] }

/-- Reserve the dispatch table of a class. -/
def reserve (layout : Layout) (type : TypeId) : Layout :=
  { layout with
    dataSize := layout.dataSize + layout.table.dispatchSize type
    table := layout.table.updateType type fun desc =>
      { desc with dispatch := some (layout.dataSize : Int) } }

/-- Add a unit. -/
def add (analysis : Analysis) (layout : Layout) : CodeUnit → Layout
  | .builtin id => layout.append id (analysis.builtins.code id)
  | .declared (.type decl) => layout.reserve ((analysis.notes.type? decl.node.id).getD .none)
  | .declared (.init block) =>
      let id := (analysis.notes.symbol? block.node.id).getD .absent
      layout.append id ((layout.site analysis.notes id).initCode layout.size block)
  | .declared (.method decl) =>
      let id := (analysis.notes.symbol? decl.node.id).getD .absent
      layout.append id ((layout.site analysis.notes id).methodCode analysis id layout.size decl)

/-- The layout before the first unit. -/
def initial (analysis : Analysis) : Layout :=
  { table := analysis.table, dataSize := analysis.table.globalCount }

/-- The layout after some units. -/
def of (analysis : Analysis) (units : List CodeUnit) : Layout :=
  units.foldl (add analysis) (initial analysis)

end Layout

/-- The layout of a program. -/
abbrev Analysis.layoutOf (analysis : Analysis) (program : Program) : Layout :=
  .of analysis (analysis.units program)

/-! ## Emitting regions -/

namespace Gen

open Run
open Site (Emits)

variable {site : Site} {parked : Nat}

theorem emits_dispatchWords (methods : List SymbolId) :
    site.Emits parked (dispatchWords methods) (site.table.dispatchWords methods) [] 0 := by
  induction methods with
  | nil => exact .result _
  | cons id rest ih =>
    exact (emits_symbol id).read ((emits_codeAddress id).read (ih.read (.result _)))

theorem emits_writeWords (slot : Int) (words : List Int) :
    site.Emits parked (writeWords slot words) () (wordsCode slot words) 0 := by
  induction words generalizing slot with
  | nil => exact .result ()
  | cons word rest ih =>
    exact (emits_const word).after
      ((Emits.of_writes fun ran => (Emit.putStatic_writes ran).2).after (ih _))

theorem emits_writeDispatch (type : TypeId) :
    site.Emits parked (writeDispatch type) () (site.table.dispatchCode type) 0 := by
  refine .of_get fun generator here => ?_
  have table : generator.table = site.table := congrArg Site.table here
  simp only [Table.dispatchCode, table]
  cases (site.table.desc type).dispatch with
  | none => exact .result ()
  | some slot => exact (emits_dispatchWords _).read (emits_writeWords _ _)

theorem emits_prologue (analysis : Analysis) (id : SymbolId) :
    site.Emits parked (prologue analysis id) () (analysis.prologueCode site.table id) 0 := by
  unfold prologue Analysis.prologueCode
  split
  · rw [map_eq_flatMap]
    exact (Emits.forM emits_writeDispatch _).after
      (.forM (fun init => (emits_codeAddress init).read (.of_writes Emit.call_writes)) _)
  · exact .result ()

theorem emits_ret : site.Emits parked (emit Emit.ret) () [.plain .exit, .plain .ret] 0 :=
  fun _ _ _ _ _ ran => ⟨rfl, ret_emits ran⟩

theorem emits_end (result : TypeId) :
    site.Emits parked (if result = .none then emit Emit.ret else emit (Emit.trap 1)) ()
      (endCode result) 0 := by
  unfold endCode
  split
  · exact emits_ret
  · exact .of_writes Emit.trap_writes

/-! ## Frames -/

theorem enter_lays {frameSize : Nat}
    (ran : emit (Emit.enter params frameSize) before = .ok start after) :
    before.Lays after [before.size + 2] 3 0 fun final =>
      ∀ size, size < 256 → final.Shows (before.size + 2) [UInt8.ofNat size] →
        final.Spells before.size (.enter params size) := by
  obtain ⟨emitter, emitted, rfl⟩ := emit_ok ran
  obtain ⟨rfl, writes⟩ := Emit.enter_writes emitted
  have laid := Generator.Lays.of_writes writes
  have sizeAt := laid.size_eq
  simp only [Instruction.size] at sizeAt
  exact
    { laid with
      within := by
        intro offset member
        obtain rfl := mem_singleton.mp member
        omega
      nodup := by simp
      claims := by
        intro final agrees size small shown
        have whole := (laid.claims emitter.code fun _ _ _ _ => rfl).bytes
        have split : Instruction.encode before.size (.enter params frameSize) =
            [Opcode.enter.byte, UInt8.ofNat params] ++ [UInt8.ofNat frameSize] := rfl
        rw [split] at whole
        have fixed := agrees.shows whole.append.1 (Nat.le_refl _) (by simp)
        refine ⟨⟨writes.fits.1, small⟩, ?_⟩
        intro index byte here
        match index with
        | 0 => exact fixed 0 byte here
        | 1 => exact fixed 1 byte here
        | index + 2 =>
          have shift : before.size + (index + 2) = before.size + 2 + index := by omega
          rw [shift]
          exact shown index byte here }

theorem frame_lays {count peak : Nat} {claim : Code → Prop} {inside filled : Generator}
    (fresh : before.parkedMost = 0)
    (enterRan : emit (Emit.enter params before.frameBase) before = .ok start inside)
    (body : inside.Lays filled [] count peak claim)
    (closeRan : closeFrame start filled = .ok () after) :
    after.emitter.fixups = filled.emitter.fixups ∧
      before.Lays after [] (3 + count) peak fun final =>
        final.Spells before.size (.enter params (before.frameBase + peak)) ∧ claim final := by
  obtain ⟨emitter, emitted, rfl⟩ := emit_ok enterRan
  obtain ⟨rfl, writes⟩ := Emit.enter_writes emitted
  have opened := Generator.Emits.of_writes writes
  have most : filled.parkedMost = peak := by
    rw [body.parkedMost, opened.lays.parkedMost, fresh]
    omega
  obtain ⟨_, _, found, closeRan⟩ := bind_ok closeRan
  obtain ⟨rfl, rfl⟩ := get_ok found
  split at closeRan
  next none =>
    obtain ⟨_, rfl⟩ := pure_ok closeRan
    rw [most] at none
    subst none
    have all := opened.lays.trans body
    refine ⟨rfl, all.weaken fun final holds => ⟨holds.1.1, holds.2⟩⟩
  next some =>
    obtain ⟨patchedEmitter, patching, rfl⟩ := emit_ok closeRan
    obtain ⟨operand, _, checked, patching⟩ := bind_ok patching
    obtain ⟨⟨_, small⟩, rfl, rfl⟩ := Emit.byteOperand_ok checked
    obtain ⟨fits, rfl⟩ := Emit.patch_ok patching
    have sameBase : filled.frameBase = before.frameBase := by
      rw [body.frameBase, opened.lays.frameBase]
    rw [most, sameBase] at small
    have laid := (enter_lays enterRan).trans body
    have order : ([before.size + 2] ++ []).Perm
        (List.range' (before.size + 2) [UInt8.ofNat (before.frameBase + peak)].length ++ []) :=
      .refl _
    have settled := laid.patch order fits
    rw [Nat.zero_max] at settled
    have value : ((filled.frameBase + filled.parkedMost : Nat) : Int).toNat =
        before.frameBase + peak := by
      rw [most, sameBase, Int.toNat_natCast]
    rw [value]
    refine ⟨rfl, settled.weaken fun final holds => ?_⟩
    exact ⟨holds.1.1 (before.frameBase + peak) (by omega) holds.2, holds.1.2⟩

end Gen

/-! ## All units -/

namespace Layout

/-- A layout describes a point of the walk between two units. -/
structure Describes (layout : Layout) (generator : Generator) : Prop where
  table : generator.table = layout.table
  size : generator.size = layout.size
  dataSize : generator.dataSize = layout.dataSize
  fixups : generator.emitter.fixups = {}
  holds : ∀ final : Code, final.Agrees generator.emitter.code 0 [] →
    ∀ region ∈ layout.regions, final.Holds region.start region.code

theorem describes_initial (analysis : Analysis) :
    (initial analysis).Describes
      { table := analysis.table, dataSize := analysis.table.globalCount } where
  table := rfl
  size := rfl
  dataSize := rfl
  fixups := rfl
  holds := by simp [initial]

theorem Describes.append {code : List Instruction} {peak : Nat} {placed : Generator}
    (describes : layout.Describes before) (table : placed.table = layout.placed owner)
    (sameCode : placed.emitter.code = before.emitter.code)
    (dataSize : placed.dataSize = before.dataSize)
    (lays : placed.Lays after [] (totalSize code) peak fun final => final.Holds placed.size code)
    (fixups : after.emitter.fixups = {}) :
    (layout.append owner code).Describes after := by
  have start : placed.size = layout.size := by
    rw [← describes.size, Generator.size, sameCode]
    rfl
  have sizeAt := lays.size_eq
  refine ⟨lays.table.trans table, by rw [sizeAt, start]; rfl, ?_, fixups, ?_⟩
  · rw [lays.dataSize, dataSize, describes.dataSize]
    rfl
  · intro final agrees region member
    rcases mem_append.mp member with early | last
    · refine describes.holds final ?_ region early
      intro offset low high settled
      rw [← sameCode] at high ⊢
      rw [agrees offset low (by simp only [Generator.size] at sizeAt; omega) settled]
      exact lays.kept offset high
    · obtain rfl := mem_singleton.mp last
      have here := lays.claims final fun offset _ high settled =>
        agrees offset (Nat.zero_le _) high settled
      rw [start] at here
      exact here

end Layout

namespace Gen

open Run
open Site (Emits)

theorem updateSymbol_ok {change : Symbol → Symbol}
    (ran : updateSymbol id change before = .ok () after) :
    after = { before with table := before.table.updateSymbol id change } := by
  cases ran
  rfl

theorem placeMethod_ok {span : Span} (ran : placeMethod id span before = .ok () after) :
    after.emitter.code = before.emitter.code ∧
      after.emitter.fixups = before.emitter.fixups ∧
      after.dataSize = before.dataSize ∧
      after.table = before.table.updateSymbol id
        fun method => { method with address := before.size } := by
  obtain ⟨_, g₁, lineRan, ran⟩ := bind_ok ran
  obtain ⟨emitter, acted, rfl⟩ := emit_ok lineRan
  cases acted
  obtain ⟨_, _, located, ran⟩ := bind_ok ran
  obtain ⟨rfl, rfl⟩ := offset_ok located
  cases ran
  exact ⟨rfl, rfl, rfl, rfl⟩

theorem describes_builtin (describes : layout.Describes before)
    (ran : builtin analysis.builtins id before = .ok () after) :
    (layout.add analysis (.builtin id)).Describes after := by
  obtain ⟨_, _, located, ran⟩ := bind_ok ran
  obtain ⟨rfl, rfl⟩ := offset_ok located
  obtain ⟨_, placed, update, ran⟩ := bind_ok ran
  have isPlaced := updateSymbol_ok update
  obtain ⟨_, g₁, enterRan, ran⟩ := bind_ok ran
  obtain ⟨_, enterRan⟩ := discard_ok enterRan
  obtain ⟨emitter, emitted, rfl⟩ := emit_ok enterRan
  obtain ⟨_, writes⟩ := Emit.enter_writes emitted
  have opened := Generator.Emits.of_writes writes
  have rest : Generator.Emits { placed with emitter := emitter } after
      ([.load 0] ++ (if id = analysis.builtins.len then [.plain .arrayLength] else []) ++
        [.plain .exit, .plain .ret]) 0 := by
    refine Emits.run ?_ (rfl : Generator.site _ analysis.notes = _) rfl ran
    rw [append_assoc]
    refine emits_loadReceiver.after ?_
    split
    · exact (emits_op rfl).after emits_ret
    · exact emits_ret
  have all := opened.trans rest
  refine describes.append ?_ (by rw [isPlaced]) (by rw [isPlaced]) all.lays ?_
  · rw [isPlaced, Layout.placed, ← describes.table, ← describes.size]
  · rw [all.fixups, isPlaced]
    exact describes.fixups

theorem openFrame_ok {locals : Nat} (ran : openFrame params locals before = .ok start after) :
    ∃ opened : Generator,
      opened = { before with frameBase := locals, parked := 0, parkedMost := 0 } ∧
        emit (Emit.enter params locals) opened = .ok start after := by
  obtain ⟨_, opened, changed, entered⟩ := bind_ok ran
  cases changed
  exact ⟨_, rfl, entered⟩

theorem body_lays (flat : before.parked = 0) (balanced : before.emitter.fixups = {})
    (ran : stmts notes body before = .ok () after) :
    after.emitter.fixups = {} ∧
      before.Lays after [] ((before.site notes).stmtsSize body)
        ((before.site notes).stmtsPeak body) fun final =>
        final.Holds before.size ((before.site notes).stmtsCode before.size 0 0 body) := by
  obtain ⟨stops, stopped⟩ := stmts_stops flat ran
  have none : stops = [] := stopped.outside (by rw [balanced])
  subst none
  have next : before.emitter.fixups.next = 0 := by rw [balanced]; rfl
  refine ⟨by rw [stopped.fixups, balanced]; rfl, stopped.lays.weaken fun final holds => ?_⟩
  have here := holds 0 (by simp)
  rw [next] at here
  exact here

variable (describes : layout.Describes before)
include describes

theorem describes_frame {count : Symbol → Nat} {prepare : Gen Unit} {finish : Symbol → Gen Unit}
    {prologue ending : List Instruction} {span : Span}
    (prepares : (layout.site notes owner).Emits 0 prepare () prologue 0)
    (finishes : (layout.site notes owner).Emits 0 (finish ((layout.placed owner).symbol owner)) ()
      ending 0) (ran : (do
      placeMethod owner span
      let symbol ← symbol owner
      let start ← openFrame (count symbol) symbol.locals.length
      prepare
      stmts notes body
      closeFrame start
      finish symbol) before = .ok () after) :
    (layout.append owner
      (.enter (count ((layout.placed owner).symbol owner)) ((layout.site notes owner).frameBase +
          (layout.site notes owner).stmtsPeak body) ::
        (prologue ++ (layout.site notes owner).stmtsCode (layout.size + 3 + totalSize prologue) 0 0
          body ++ ending))).Describes after := by
  obtain ⟨_, placed, placeRan, ran⟩ := bind_ok ran
  obtain ⟨sameCode, sameFixups, sameData, table⟩ := placeMethod_ok placeRan
  replace table : placed.table = layout.placed owner := by
    rw [table, describes.table, describes.size]
    rfl
  obtain ⟨symbol, _, found, ran⟩ := bind_ok ran
  obtain ⟨isSymbol, rfl⟩ := symbol_ok found
  rw [table] at isSymbol
  subst isSymbol
  obtain ⟨start, inside, openRan, ran⟩ := bind_ok ran
  obtain ⟨opened, isOpened, enterRan⟩ := openFrame_ok openRan
  obtain ⟨_, started, prepareRan, ran⟩ := bind_ok ran
  obtain ⟨_, filled, bodyRan, ran⟩ := bind_ok ran
  obtain ⟨_, closed, closeRan, finishRan⟩ := bind_ok ran
  have sites : opened.site notes = layout.site notes owner := by
    simp only [isOpened, Generator.site, Layout.site, table]
  have base : opened.frameBase = (layout.site notes owner).frameBase :=
    congrArg Site.frameBase sites
  have openedAt : opened.size = layout.size := by
    rw [isOpened, ← describes.size]
    simp only [Generator.size, sameCode]
  have fresh : opened.parkedMost = 0 := by rw [isOpened]
  have unparked : opened.parked = 0 := by rw [isOpened]
  obtain ⟨emitter, emitted, isInside⟩ := emit_ok enterRan
  obtain ⟨_, writes⟩ := Emit.enter_writes emitted
  have entered := Generator.Emits.of_writes writes
  rw [← isInside] at entered
  have prepared := prepares.run ((entered.site notes).trans sites)
    (entered.parked.trans unparked) prepareRan
  have flat : started.parked = 0 := by rw [prepared.parked, entered.parked, unparked]
  have balanced : started.emitter.fixups = {} := by
    rw [prepared.fixups, entered.fixups, isOpened]
    exact sameFixups.trans describes.fixups
  obtain ⟨filledFixups, laid⟩ := body_lays flat balanced bodyRan
  rw [prepared.site, entered.site, sites] at laid
  have enterRan' : emit (Emit.enter (count ((layout.placed owner).symbol owner)) opened.frameBase)
      opened = .ok start inside := by
    rw [isOpened] at enterRan ⊢
    exact enterRan
  obtain ⟨closedFixups, framed⟩ := frame_lays fresh enterRan' (prepared.lays.trans laid) closeRan
  have ended := finishes.run ((framed.site notes).trans sites) (framed.parked.trans unparked)
    finishRan
  have insideAt := entered.lays.size_eq
  simp only [totalSize_cons, totalSize_nil, Instruction.size] at insideAt
  have startedAt : started.size = layout.size + 3 + totalSize prologue := by
    rw [prepared.lays.size_eq, insideAt, openedAt]
  have closedAt := framed.size_eq
  have code : totalSize (.enter (count ((layout.placed owner).symbol owner))
      ((layout.site notes owner).frameBase + (layout.site notes owner).stmtsPeak body) ::
        (prologue ++ (layout.site notes owner).stmtsCode (layout.size + 3 + totalSize prologue) 0 0
          body ++ ending)) =
      3 + (totalSize prologue + (layout.site notes owner).stmtsSize body) + totalSize ending := by
    simp only [totalSize_cons, totalSize_append, Site.totalSize_stmtsCode, Instruction.size]
    omega
  have laidOut := framed.trans ended.lays
  rw [append_nil, ← code] at laidOut
  refine describes.append ?_ ?_ ?_ (laidOut.weaken ?_) ?_
  · rw [isOpened, table]
  · rw [isOpened, sameCode]
  · rw [isOpened, sameData]
  · intro final holds
    obtain ⟨⟨enters, prepares, fills⟩, ends⟩ := holds
    rw [base, Nat.zero_max] at enters
    rw [startedAt] at fills
    have rest := (prepares.append fills (by rw [← startedAt, prepared.lays.size_eq])).append ends
      (by
        rw [closedAt, insideAt, totalSize_append, Site.totalSize_stmtsCode]
        omega)
    rw [insideAt] at rest
    exact ⟨enters, rest⟩
  · rw [ended.fixups, closedFixups, filledFixups]

theorem describes_init {init : StaticInit} (ran : staticInit analysis init before = .ok () after) :
    (layout.add analysis (.declared (.init init))).Describes after := by
  obtain ⟨_, _, found, ran⟩ := bind_ok ran
  obtain ⟨rfl, rfl⟩ := symbolAt_ok found
  exact describes_frame describes (.result ()) emits_ret (by simpa only [pure_bind] using ran)

theorem describes_method {declared : MethodDecl}
    (ran : method analysis declared before = .ok () after) :
    (layout.add analysis (.declared (.method declared))).Describes after := by
  obtain ⟨_, _, found, ran⟩ := bind_ok ran
  obtain ⟨rfl, rfl⟩ := symbolAt_ok found
  exact describes_frame describes (emits_prologue analysis _) (emits_end _) ran

theorem describes_dispatch {declared : ClassDecl}
    (ran : declUnit analysis (.type declared) before = .ok () after) :
    (layout.add analysis (.declared (.type declared))).Describes after := by
  obtain ⟨type, _, found, ran⟩ := bind_ok ran
  obtain ⟨rfl, rfl⟩ := typeAt_ok found
  cases ran
  refine ⟨?_, describes.size, ?_, describes.fixups, describes.holds⟩
  · simp only [Layout.add, Layout.reserve, ← describes.table, ← describes.dataSize]
    rfl
  · simp only [Layout.add, Layout.reserve, ← describes.table, ← describes.dataSize]
    rfl

/-- One unit keeps code and layout together. -/
theorem describes_codeUnit {part : CodeUnit} (ran : codeUnit analysis part before = .ok () after) :
    (layout.add analysis part).Describes after := by
  match part with
  | .builtin id => exact describes_builtin describes ran
  | .declared (.type decl) => exact describes_dispatch describes ran
  | .declared (.init block) => exact describes_init describes ran
  | .declared (.method decl) => exact describes_method describes ran

/-- So do all units together. -/
theorem describes_units {units : List CodeUnit}
    (ran : units.forM (codeUnit analysis) before = .ok () after) :
    (units.foldl (Layout.add analysis) layout).Describes after := by
  induction units generalizing layout before with
  | nil =>
    obtain rfl := forM_nil_ok ran
    exact describes
  | cons part rest ih =>
    obtain ⟨between, firstRan, restRan⟩ := forM_cons_ok ran
    exact ih (describes_codeUnit describes firstRan) restRan

end Gen

/-! ## The whole program -/

namespace Gen

open Run

theorem entryAddress_ok {entry : Nat} (ran : entryAddress analysis before = .ok entry after) :
    before = after ∧
      (∀ id, analysis.main = some id → (entry : Int) = (before.table.symbol id).address) ∧
      (analysis.main = none → entry = 0) := by
  unfold entryAddress at ran
  cases main : analysis.main with
  | some id =>
    simp only [main] at ran
    obtain ⟨placed, rfl, rfl⟩ := codeAddress_ok ran
    refine ⟨rfl, fun other same => ?_, fun none => by cases none⟩
    obtain rfl := Option.some.inj same
    exact Int.toNat_of_nonneg placed
  | none =>
    simp only [main] at ran
    obtain ⟨rfl, rfl⟩ := pure_ok ran
    exact ⟨rfl, fun _ same => (by cases same), fun _ => rfl⟩

theorem finish_ok {limit : Nat} {code : Code} (ran : finish limit before = .ok code after) :
    before = after ∧ code = before.emitter.code := by
  obtain ⟨_, _, found, ran⟩ := bind_ok ran
  obtain ⟨rfl, rfl⟩ := get_ok found
  cases finished : before.emitter.finish with
  | error fault =>
    simp only [finished] at ran
    cases ran
  | ok found =>
    simp only [finished] at ran
    split at ran
    next => cases ran
    next =>
      obtain ⟨rfl, rfl⟩ := pure_ok ran
      refine ⟨rfl, ?_⟩
      unfold Emitter.finish at finished
      split at finished
      next => exact (Except.ok.inj finished).symm
      next => cases finished

end Gen

/-- An image holds a layout. -/
structure Image.Realizes (image : Image) (layout : Layout) (main : Option SymbolId) : Prop where
  size : image.code.size = layout.size
  holds : ∀ region ∈ layout.regions, image.code.Holds region.start region.code
  dataSize : image.dataSize = layout.dataSize
  entry : ∀ id, main = some id → ((image.entry : Nat) : Int) = (layout.table.symbol id).address
  noEntry : main = none → image.entry = 0

/-- A run of the generator that succeeds emits the layout of the program. -/
theorem generate_realizes {options : Options} {result : Analysis} {program : Program}
    {image : Image} (ran : generate options analysis program = (.ok image, result)) :
    image.Realizes (analysis.layoutOf program) analysis.main ∧
      result = { analysis with
        table := (analysis.layoutOf program).table } := by
  simp only [generate, Gen.program_eq] at ran
  split at ran
  next image' generator ran' =>
    obtain ⟨imageEq, rfl⟩ := Prod.mk.inj ran
    obtain rfl := Except.ok.inj imageEq
    obtain ⟨_, g₁, unitsRan, ran'⟩ := Run.bind_ok ran'
    have describes := Gen.describes_units (Layout.describes_initial analysis) unitsRan
    obtain ⟨entry, g₂, entryRan, ran'⟩ := Run.bind_ok ran'
    obtain ⟨code, g₃, finishRan, ran'⟩ := Run.bind_ok ran'
    obtain ⟨_, _, found, ran'⟩ := Run.bind_ok ran'
    obtain ⟨rfl, rfl⟩ := Gen.get_ok found
    obtain ⟨rfl, rfl⟩ := Run.pure_ok ran'
    obtain ⟨rfl, hasMain, noMain⟩ := Gen.entryAddress_ok entryRan
    obtain ⟨rfl, rfl⟩ := Gen.finish_ok finishRan
    refine ⟨⟨describes.size, ?_, describes.dataSize, ?_, noMain⟩, ?_⟩
    · exact describes.holds g₁.emitter.code fun _ _ _ _ => rfl
    · rw [describes.table] at hasMain
      exact hasMain
    · rw [describes.table]
      rfl
  next => cases ran

end MicroJava
