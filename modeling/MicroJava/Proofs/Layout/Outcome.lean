import MicroJava.Proofs.Analysis.Resolution
import MicroJava.Proofs.Layout.Faults

/-!
# What a run of the generator needs

The layout of a program is defined if the code of every unit is defined at the place where the
unit stands.  A run of the generator that succeeds proves that it is; and if it is, a run that
fails misses nothing.
-/

namespace MicroJava

variable {analysis : Analysis} {layout : Layout} {before : Generator} {condition : Prop}
  {options : Options} {result : Analysis}

open Emitter (Awaits IsStable)

/-- The code of the entry point can be prepared: all methods in dispatch tables and all static
initializers have addresses. -/
structure Analysis.PrologueDefined (analysis : Analysis) (table : Table) : Prop where
  methods : ∀ type ∈ analysis.classes, (table.desc type).dispatch.isSome →
    ∀ id ∈ table.methodsOf type, 0 ≤ (table.symbol id).address
  inits : ∀ init ∈ analysis.staticInits, 0 ≤ (table.symbol init).address

namespace Layout

/-- A unit has code after the units of a layout. -/
def UnitDefined (analysis : Analysis) (layout : Layout) : CodeUnit → Prop
  | .builtin _ => True
  | .declared (.type decl) => (analysis.notes.type? decl.node.id).isSome
  | .declared (.init block) =>
      (analysis.notes.symbol? block.node.id).isSome ∧
        (layout.site analysis.notes
          ((analysis.notes.symbol? block.node.id).getD .absent)).StmtsDefined block.body
  | .declared (.method decl) =>
      let id := (analysis.notes.symbol? decl.node.id).getD .absent
      (analysis.notes.symbol? decl.node.id).isSome ∧
        (analysis.main = some id → analysis.PrologueDefined (layout.placed id)) ∧
        (layout.site analysis.notes id).StmtsDefined decl.body

/-- Every unit has code where it stands. -/
def UnitsDefined (analysis : Analysis) (layout : Layout) : List CodeUnit → Prop
  | [] => True
  | part :: rest =>
    UnitDefined analysis layout part ∧ UnitsDefined analysis (layout.add analysis part) rest

/-- Every unit has code where it stands, and the entry point has an address. -/
structure Defined (analysis : Analysis) (units : List CodeUnit) : Prop where
  each : UnitsDefined analysis (initial analysis) units
  entry : ∀ id ∈ analysis.main, 0 ≤ ((of analysis units).table.symbol id).address

end Layout

namespace Gen

open Site (Needs)

/-! ## The entry point -/

section

variable {site : Site} {kept : Emitter → Prop} [IsStable kept]

theorem needs_dispatchWords (methods : List SymbolId) :
    site.Keeps kept (dispatchWords methods)
      (∀ id ∈ methods, 0 ≤ (site.table.symbol id).address) := by
  induction methods with
  | nil => exact (Needs.result _).congr (by simp)
  | cons id rest ih =>
    simp only [List.forall_mem_cons]
    exact needs_symbol_bind ((needs_codeAddress id).bind fun _ _ => ih.ends)

instance {slot : Int} {words : List Int} : IsFree (writeWords slot words) := by
  induction words generalizing slot with
  | nil => exact inferInstanceAs (IsFree (pure ()))
  | cons word rest ih => unfold writeWords; infer_instance

theorem needs_writeDispatch (type : TypeId) :
    site.Keeps kept (writeDispatch type) ((site.table.desc type).dispatch.isSome →
      ∀ id ∈ site.table.methodsOf type, 0 ≤ (site.table.symbol id).address) := by
  refine needs_get_bind fun generator here => ?_
  have table : generator.table = site.table := congrArg Site.table here
  simp only [table]
  cases (site.table.desc type).dispatch with
  | none => exact (Needs.result ()).congr (by simp)
  | some slot =>
    refine Needs.congr ?_ (imp_iff_right rfl).symm
    exact (needs_dispatchWords _).ends

theorem needs_prologue (analysis : Analysis) (id : SymbolId) :
    site.Keeps kept (prologue analysis id)
      (analysis.main = some id → analysis.PrologueDefined site.table) := by
  unfold prologue
  by_cases isMain : analysis.main = some id
  · rw [if_pos isMain]
    have calls (init : SymbolId) : site.Keeps kept (do emit (Emit.call (← codeAddress init)))
        (0 ≤ (site.table.symbol init).address) :=
      (needs_codeAddress init).ends
    refine ((Needs.forM needs_writeDispatch _).bind fun _ _ => .forM calls _).congr ?_
    exact ⟨fun ⟨methods, inits⟩ _ => ⟨methods, inits⟩,
      fun defined => ⟨(defined isMain).methods, (defined isMain).inits⟩⟩
  · rw [if_neg isMain]
    exact (Needs.result ()).congr (by simp [isMain])

theorem needs_closeFrame (start : Nat) :
    site.Keeps (Awaits [] 0 (start + 3)) (closeFrame start) True := by
  refine needs_get_bind fun generator _ => ?_
  split
  · exact .result ()
  · exact .emit (.of_holds fun _ awaits => (Emit.ensures_patchFrameSize _ awaits.size).weaken
      fun _ _ => awaits.of_holds)

theorem needs_body {body : List Stmt} {start : Nat} {last : Gen Unit}
    (nested : Stmt.AreNested false body) (ends : site.Keeps (Awaits [] 0 (start + 3)) last True) :
    site.Needs (Awaits [] 0 (start + 3)) (do stmts site.notes body; closeFrame start; last)
      (site.StmtsDefined body) fun _ => Awaits [] 0 0 := by
  refine (needs_stmts body nested _ _ _ (by simp)).before fun _ _ => ?_
  refine (needs_closeFrame start).after fun _ _ => ends.weaken fun _ _ awaits => ?_
  exact awaits.mono (Nat.zero_le _)

end

/-! ## One unit -/

section

variable {α : Type} {id : SymbolId} {span : Span}

theorem meets_free {act : Gen α} [IsFree act] (awaits : before.emitter.Awaits [] 0 0) :
    Meets act before True fun _ after => after.emitter.Awaits [] 0 0 :=
  (IsFree.keeps (before.site {}) _ before rfl awaits).weaken fun _ _ => And.right

theorem meets_change {step : Generator → Generator} (same : (step before).emitter = before.emitter)
    (awaits : before.emitter.Awaits [] 0 0) :
    Meets (modify step) before True fun _ after => after.emitter.Awaits [] 0 0 := by
  refine .of_ensures (.change fun state (isBefore : state = before) => ?_) rfl
  rw [isBefore, same]
  exact awaits

theorem meets_site {pre : Emitter → Prop} {act : Gen α} (site : Site)
    (needs : site.Needs pre act condition fun _ => Awaits [] 0 0)
    (here : before.site site.notes = site) (holds : pre before.emitter) :
    Meets act before condition fun _ after => after.emitter.Awaits [] 0 0 :=
  (needs before here holds).weaken fun _ _ => And.right

theorem meets_placeMethod (awaits : before.emitter.Awaits [] 0 0) :
    Meets (placeMethod id span) before True fun _ after => after.emitter.Awaits [] 0 0 := by
  refine (meets_free awaits).after fun _ _ _ awaits => ?_
  exact (meets_free awaits).after fun _ _ _ awaits => meets_change rfl awaits

theorem meets_openFrame {params locals : Nat} (awaits : before.emitter.Awaits [] 0 0) :
    Meets (openFrame params locals) before True fun start after =>
      after.emitter.Awaits [] 0 (start + 3) := by
  refine (meets_change rfl awaits).after fun _ _ _ awaits => ?_
  exact (Meets.emit (Emit.ensures_enter_awaits params locals) awaits).weaken
    fun _ _ ⟨_, isAfter, _, opened⟩ => isAfter ▸ opened

theorem meets_builtin (builtins : Builtins) (awaits : before.emitter.Awaits [] 0 0) :
    Meets (builtin builtins id) before True fun _ after => after.emitter.Awaits [] 0 0 := by
  refine (meets_free awaits).after fun _ _ _ awaits => ?_
  exact (meets_change rfl awaits).after fun _ _ _ awaits => meets_free awaits

theorem openFrame_site {notes : Annotations} {params start : Nat} {placed inside : Generator}
    (describes : layout.Describes before) (placeRan : placeMethod id span before = .ok () placed)
    (openRan : openFrame params (placed.table.symbol id).locals.length placed = .ok start inside) :
    inside.site notes = layout.site notes id := by
  obtain ⟨_, _, _, table⟩ := placeMethod_ok placeRan
  rw [describes.table, describes.size] at table
  obtain ⟨opened, rfl, enterRan⟩ := openFrame_ok openRan
  obtain ⟨emitter, _, rfl⟩ := emit_ok enterRan
  simp only [Generator.site, Layout.site, table]
  rfl

theorem meets_frame (notes : Annotations) {params : Symbol → Nat} {next : Symbol → Nat → Gen Unit}
    {post : Unit → Generator → Prop} (describes : layout.Describes before)
    (awaits : before.emitter.Awaits [] 0 0)
    (further : ∀ symbol start inside, inside.site notes = layout.site notes id →
      inside.emitter.Awaits [] 0 (start + 3) → Meets (next symbol start) inside condition post) :
    Meets (do placeMethod id span
              let symbol ← symbol id
              next symbol (← openFrame (params symbol) symbol.locals.length))
      before condition post := by
  refine (meets_placeMethod awaits).after fun _ placed placeRan awaits => ?_
  have reads : Meets (symbol id) placed True fun _ after => after.emitter.Awaits [] 0 0 :=
    .of_ensures ⟨fun _ state => state⟩ awaits
  refine reads.after fun symbol _ found awaits => ?_
  obtain ⟨rfl, rfl⟩ := symbol_ok found
  refine (meets_openFrame awaits).after fun start inside openRan opened => ?_
  exact further _ start inside (openFrame_site describes placeRan openRan) opened

end

section

variable (describes : layout.Describes before)
include describes

theorem meets_init {block : StaticInit} (awaits : before.emitter.Awaits [] 0 0)
    (nested : Stmt.AreNested false block.body) :
    Meets (staticInit analysis block) before (layout.UnitDefined analysis (.declared (.init block)))
      fun _ after => after.emitter.Awaits [] 0 0 := by
  refine (meets_site (before.site analysis.notes) (needs_symbolAt block.node) rfl awaits).bind
    fun id _ found _ => ?_
  obtain ⟨isId, rfl⟩ := symbolAt_ok found
  refine meets_frame analysis.notes describes awaits fun symbol start inside here opened => ?_
  rw [isId] at here
  exact meets_site (layout.site analysis.notes _) (needs_body nested (.free trivial)) here opened

theorem meets_method {decl : MethodDecl} (awaits : before.emitter.Awaits [] 0 0)
    (nested : Stmt.AreNested false decl.body) :
    Meets (method analysis decl) before (layout.UnitDefined analysis (.declared (.method decl)))
      fun _ after => after.emitter.Awaits [] 0 0 := by
  refine (meets_site (before.site analysis.notes) (needs_symbolAt decl.node) rfl awaits).bind
    fun id _ found _ => ?_
  obtain ⟨isId, rfl⟩ := symbolAt_ok found
  refine meets_frame analysis.notes describes awaits fun symbol start inside here opened => ?_
  rw [isId] at here ⊢
  refine meets_site (layout.site analysis.notes _)
    ((needs_prologue analysis _).bind fun _ _ => needs_body nested (.free trivial)) here opened

theorem meets_codeUnit {part : CodeUnit} (awaits : before.emitter.Awaits [] 0 0)
    (nested : ∀ unit, part = .declared unit → Stmt.AreNested false unit.body) :
    Meets (codeUnit analysis part) before (layout.UnitDefined analysis part)
      fun _ after => after.emitter.Awaits [] 0 0 := by
  match part with
  | .builtin id => exact meets_builtin _ awaits
  | .declared (.type decl) =>
    refine ((meets_site (before.site analysis.notes) (needs_typeAt decl.node) rfl awaits).bind
      fun type _ _ awaits => ?_).congr (iff_of_eq (and_true _))
    exact meets_change rfl awaits
  | .declared (.init block) => exact meets_init describes awaits (nested _ rfl)
  | .declared (.method decl) => exact meets_method describes awaits (nested _ rfl)

/-! ## All units -/

theorem meets_units {units : List CodeUnit} (awaits : before.emitter.Awaits [] 0 0)
    (nested : ∀ unit, .declared unit ∈ units → Stmt.AreNested false unit.body) :
    Meets (units.forM (codeUnit analysis)) before (layout.UnitsDefined analysis units)
      fun _ after => after.emitter.Awaits [] 0 0 := by
  induction units generalizing layout before with
  | nil => exact .of_ensures (.result fun _ state => state) awaits
  | cons part rest ih =>
    have first : Meets (codeUnit analysis part) before (layout.UnitDefined analysis part) _ :=
      meets_codeUnit describes awaits fun unit isPart => nested unit (isPart ▸ List.mem_cons_self)
    refine first.bind fun _ between partRan awaits => ?_
    exact ih (describes_codeUnit describes partRan) awaits fun unit member =>
      nested unit (List.mem_cons_of_mem _ member)

end

theorem meets_finish {limit : Nat} (awaits : before.emitter.Awaits [] 0 0) :
    Meets (finish limit) before True fun _ _ => True := by
  refine .of_ensures ⟨fun state (isBefore : state = before) => ?_⟩ rfl
  subst isBefore
  have read : (get : Gen Generator) state = .ok state state := rfl
  simp only [finish, Bind.bind, EStateM.bind, read, awaits.finish_eq]
  by_cases large : limit < state.emitter.code.size
  · rw [if_pos large]
    exact rfl
  · rw [if_neg large]
    trivial

theorem meets_entryAddress (describes : layout.Describes before)
    (awaits : before.emitter.Awaits [] 0 0) :
    Meets (entryAddress analysis) before
      (∀ id ∈ analysis.main, 0 ≤ (layout.table.symbol id).address)
      fun _ after => after.emitter.Awaits [] 0 0 := by
  unfold entryAddress
  have table : (before.site analysis.notes).table = layout.table := describes.table
  cases analysis.main with
  | none => exact (Meets.of_ensures (.result fun _ state => state) awaits).congr (by simp)
  | some id =>
    have meets := meets_site (before.site analysis.notes) (needs_codeAddress id) rfl awaits
    rw [table] at meets
    exact meets.congr (by simp)

theorem meets_program {tree : Program}
    (nested : ∀ unit ∈ tree.units, Stmt.AreNested false unit.body) :
    Meets (program options analysis tree)
      { table := analysis.table, dataSize := analysis.table.globalCount }
      (Layout.Defined analysis (analysis.units tree)) fun _ _ => True := by
  rw [program_eq]
  have start := Layout.describes_initial analysis
  have declared (unit : DeclUnit) (member : .declared unit ∈ analysis.units tree) :
      unit ∈ tree.units := by
    simpa [Analysis.units] using member
  have awaits : ({} : Emitter).Awaits [] 0 0 :=
    ⟨rfl, rfl, ⟨List.forall_mem_nil _, List.forall_mem_nil _⟩, Nat.zero_le _⟩
  refine ((meets_units start awaits fun unit member =>
    nested unit (declared unit member)).bind fun _ between unitsRan awaits => ?_).congr
    ⟨fun both => ⟨both.1, both.2⟩, fun defined => ⟨defined.each, defined.entry⟩⟩
  have describes := describes_units start unitsRan
  refine ((meets_entryAddress describes awaits).bind fun entry _ _ awaits => ?_).congr
    (iff_of_eq (and_true _))
  refine (meets_finish awaits).after fun code _ _ _ => ?_
  exact .of_ensures ⟨fun _ state => state⟩ trivial

end Gen

section

variable {checking options : Options} {program : Program}

/-- Where a run succeeds, every unit has code. -/
theorem generate_defined {image : Image} (accepted : (analyze checking program).errorCount = 0)
    (ran : generate options (analyze checking program) program = (.ok image, result)) :
    Layout.Defined (analyze checking program) ((analyze checking program).units program) := by
  simp only [generate] at ran
  split at ran
  next succeeded => exact ((Gen.meets_program fun _ => Analysis.areNested accepted).ok succeeded).1
  next => cases ran

/-- A run fails on a limit or for something that is missing, and where every unit has code nothing
is missing. -/
theorem generate_error {fault : Fault} (accepted : (analyze checking program).errorCount = 0)
    (failed : (generate options (analyze checking program) program).1 = .error fault) :
    fault.isBookkeeping = false ∧
      (Layout.Defined (analyze checking program) ((analyze checking program).units program) →
        fault.isMissing = false) := by
  simp only [generate] at failed
  split at failed
  next => cases failed
  next failing =>
    cases failed
    exact (Gen.meets_program fun _ => Analysis.areNested accepted).error failing

end

/-- The generator never fails on its own bookkeeping of jumps, if the program was accepted. -/
theorem generate_isBalanced {choices : Options} {program : Program}
    (accepted : (analyze options program).errorCount = 0) :
    (∀ detail, (generate choices (analyze options program) program).1 ≠
        .error (.imbalance detail)) ∧
      ∀ stage action, (generate choices (analyze options program) program).1 ≠
        .error (.wrongStage stage action) := by
  refine ⟨fun detail failed => ?_, fun stage action failed => ?_⟩
  · exact Bool.noConfusion (generate_error accepted failed).1
  · exact Bool.noConfusion (generate_error accepted failed).1

theorem generate_isBalanced_stepping :
    (analyze {} stepping).errorCount = 0 ∧
      (∀ detail, (generate { codeLimit := 100 } (analyze {} stepping) stepping).1 ≠
          .error (.imbalance detail)) ∧
        ∀ stage action, (generate { codeLimit := 100 } (analyze {} stepping) stepping).1 ≠
          .error (.wrongStage stage action) := by
  have accepted : (analyze {} stepping).errorCount = 0 := by decide +kernel
  exact ⟨accepted, generate_isBalanced accepted⟩

end MicroJava
