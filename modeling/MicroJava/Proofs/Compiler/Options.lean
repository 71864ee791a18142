import MicroJava.Compiler
import MicroJava.Proofs.Analysis.Members

/-!
# Options that do not matter

Whether notes are wanted has no influence on anything but the notes, and the limit of the code
is looked at once, when the code is finished.  A program that compiles has one image, which is
refused exactly by the limits below its size.
-/

namespace MicroJava

/-- An analysis without its notes. -/
def Analysis.silenced (analysis : Analysis) : Analysis :=
  { analysis with diagnostics := analysis.diagnostics.filter Diagnostic.isError }

/-- A compilation without its notes. -/
def Compilation.silenced (compilation : Compilation) : Compilation :=
  { compilation with diagnostics := compilation.errors }

namespace Program

/-- Wanted or not, notes are all that depends on whether they are wanted. -/
def IgnoresNotes (program : Program) (options : Options) : Prop :=
  ∀ wanted : Bool, let other : Options := { options with reportInfo := wanted }
    (analyze other program).silenced = (analyze options program).silenced ∧
    (analyze other program).errorCount = (analyze options program).errorCount ∧
    (compile other program).map Compilation.silenced =
      (compile options program).map Compilation.silenced

/-- Under all limits of the code there is the same fault, or one image that is refused exactly
where it is larger than the limit. -/
def HasOneImage (program : Program) (options : Options) : Prop :=
  (∃ fault, ∀ limit, compile { options with codeLimit := limit } program = .error fault) ∨
    ∃ compilation image, compilation.image = some image ∧
      ∀ limit, compile { options with codeLimit := limit } program =
        if limit < image.code.size then .error (.tooLarge image.code.size limit)
        else .ok compilation

end Program

variable (options : Options) (analysis : Analysis) (program : Program)

/-! ## Notes -/

theorem Analysis.errorCount_silenced : analysis.silenced.errorCount = analysis.errorCount := by
  have same : analysis.silenced.violations = analysis.violations := by
    rw [violations, silenced, List.filterMap_filter, violations]
    refine List.filterMap_congr fun diagnostic _ => ?_
    cases diagnostic <;> rfl
  rw [errorCount, same, errorCount]

theorem analyze_silenced :
    analyze { options with reportInfo := false } program = (analyze options program).silenced := by
  have tuned := analyze_tuned options ⟨options.codeLimit, true, #[]⟩ program rfl
  have keeps : Tuning.keeps ⟨options.codeLimit, true, #[]⟩ = Diagnostic.isError :=
    funext fun diagnostic => Bool.or_false _
  rwa [Options.tuned, keeps, Bool.not_true, Bool.and_false] at tuned

theorem generate_silenced :
    (generate { options with reportInfo := false } analysis.silenced program).1 =
      (generate options analysis program).1 := by
  have same : Gen.program { options with reportInfo := false } analysis.silenced program =
    Gen.program options analysis program := rfl
  rw [generate, generate, same]
  dsimp only [Analysis.silenced]
  split <;> rfl

theorem compile_silenced :
    compile { options with reportInfo := false } program =
      (compile options program).map Compilation.silenced := by
  simp only [compile]
  rw [analyze_silenced, Analysis.errorCount_silenced, generate_silenced]
  split
  · split <;> rfl
  · rfl

/-! ## The limit of the code -/

theorem analyze_codeLimit (limit : Nat) :
    analyze { options with codeLimit := limit } program = analyze options program := by
  have tuned := analyze_tuned options ⟨limit, false, #[]⟩ program rfl
  have keeps : ∀ diagnostic, Tuning.keeps ⟨limit, false, #[]⟩ diagnostic = true :=
    fun diagnostic => Bool.or_true _
  rw [Options.tuned, List.filter_eq_self.mpr fun diagnostic _ => keeps diagnostic, Bool.not_false,
    Bool.and_true] at tuned
  generalize analyze options program = analysis at tuned ⊢
  exact tuned

theorem Gen.finish_eq (limit : Nat) (generator : Generator) :
    Gen.finish limit generator = match generator.emitter.finish with
      | .error fault => .error fault generator
      | .ok code =>
        if limit < code.size then .error (.tooLarge code.size limit) generator
        else .ok code generator := by
  have read : (get : Gen Generator) generator = .ok generator generator := rfl
  simp only [Gen.finish, bind, EStateM.bind, read]
  cases generator.emitter.finish with
  | error fault => rfl
  | ok code => dsimp only; split_ifs <;> rfl

/-- The limit is looked at when all code is generated. -/
theorem generate_codeLimit :
    (∃ fault, ∀ limit,
      (generate { options with codeLimit := limit } analysis program).1 = .error fault) ∨
    ∃ image, ∀ limit, (generate { options with codeLimit := limit } analysis program).1 =
      if limit < image.code.size then .error (.tooLarge image.code.size limit) else .ok image := by
  -- Everything up to the address of the entry point.
  let front : Gen Nat := do
    analysis.builtins.all.forM (Gen.builtin analysis.builtins)
    program.spaces.forM fun space => Gen.unit analysis space.decls space.methods
    Gen.unit analysis program.decls program.methods
    Gen.entryAddress analysis
  have split : ∀ limit, Gen.program { options with codeLimit := limit } analysis program =
      front >>= fun entry => Gen.finish limit >>= fun code =>
        get >>= fun generator => pure ⟨code, generator.dataSize, entry⟩ := by
    intro limit
    simp only [Gen.program, front, bind_assoc]
  simp only [generate, split, bind, EStateM.bind, Gen.finish_eq]
  cases front { table := analysis.table, dataSize := analysis.table.globalCount } with
  | error fault late => exact .inl ⟨fault, fun _ => rfl⟩
  | ok entry late =>
    dsimp only
    cases late.emitter.finish with
    | error fault => exact .inl ⟨fault, fun _ => rfl⟩
    | ok code =>
      refine .inr ⟨⟨code, late.dataSize, entry⟩, fun limit => ?_⟩
      dsimp only
      split_ifs <;> rfl

/-- Neither the wish for notes nor the limit of the code leaks into anything else. -/
theorem compile_isIndifferent :
    program.IgnoresNotes options ∧
      ((analyze options program).errorCount = 0 → program.HasOneImage options) := by
  refine ⟨fun wanted => ?_, fun clean => ?_⟩
  · have analyses := (analyze_silenced { options with reportInfo := wanted } program).symm.trans
      (analyze_silenced options program)
    refine ⟨analyses, ?_, ?_⟩
    · rw [← Analysis.errorCount_silenced, analyses, Analysis.errorCount_silenced]
    · exact (compile_silenced { options with reportInfo := wanted } program).symm.trans
        (compile_silenced options program)
  · rcases generate_codeLimit options (analyze options program) program with
      ⟨fault, generated⟩ | ⟨image, generated⟩
    · refine .inl ⟨fault, fun limit => ?_⟩
      simp only [compile, analyze_codeLimit, clean, generated, if_true]
    · refine .inr ⟨⟨some image, (analyze options program).diagnostics, 0⟩, image, rfl,
        fun limit => ?_⟩
      simp only [compile, analyze_codeLimit, clean, generated, if_true]
      split_ifs <;> rfl

/-- A program with classes has one image, with and without notes. -/
theorem compile_isIndifferent_narrowing :
    (analyze {} Analysis.narrowing).errorCount = 0 ∧
      Analysis.narrowing.IgnoresNotes {} ∧ Analysis.narrowing.HasOneImage {} := by
  have clean : (analyze {} Analysis.narrowing).errorCount = 0 := by decide +kernel
  have indifferent := compile_isIndifferent {} Analysis.narrowing
  exact ⟨clean, indifferent.1, indifferent.2 clean⟩

end MicroJava
