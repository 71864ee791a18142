import MicroJava.Proofs.Analysis.Members

/-!
# Predefined symbols

The symbol of the program gets its locals when all declarations are checked.  If the name of
the program is predefined, that symbol is a predefined one; otherwise all predefined symbols
are kept.
-/

namespace MicroJava

variable {first last final : Checker} {main : Option SymbolId}

namespace Analysis

variable {options : Options} {program : Program}

/-- The absent symbol and the predefined ones; a method is followed by its parameter. -/
def knownSymbols : List Symbol :=
  [ ⟨.var, "", .none, 0, 0, 0, []⟩,
    ⟨.type, "int", .int, 0, 0, 0, []⟩,
    ⟨.type, "char", .char, 0, 0, 0, []⟩,
    ⟨.type, "bool", .bool, 0, 0, 0, []⟩,
    ⟨.const, "eol", .char, 10, 0, 0, []⟩,
    ⟨.const, "null", .null, 0, 0, 0, []⟩,
    ⟨.method, "chr", .char, -1, 0, 1, [⟨7⟩]⟩,
    ⟨.var, "i", .int, 0, 1, 0, []⟩,
    ⟨.method, "ord", .int, -1, 0, 1, [⟨9⟩]⟩,
    ⟨.var, "ch", .char, 0, 1, 0, []⟩,
    ⟨.method, "len", .int, -1, 0, 1, [⟨11⟩]⟩,
    ⟨.var, "arr", .anyArray, 0, 1, 0, []⟩ ]

theorem predefined_eq : Check.predefined.symbols.toList = knownSymbols := by decide +kernel

theorem predefined_kind {id : SymbolId} (known : Check.predefined.HasSymbol id) :
    (Check.predefined.symbol id).kind ≠ .program := by
  have kinds : ∀ symbol ∈ knownSymbols, symbol.kind ≠ .program := by decide
  rw [← predefined_eq] at kinds
  exact kinds _ (Array.mem_toList_iff.mpr
    (Array.mem_of_getElem? (Table.getElem?_of_hasSymbol known)))

/-- The predefined symbols are kept, and the symbol of the program lists its declarations. -/
structure KeepsKnown (program : Program) (analysis : Analysis) : Prop where
  /-- The predefined symbols come first, as they were. -/
  first : knownSymbols <+: analysis.table.symbols.toList
  /-- The symbol of the program stands for a program. -/
  kind : (analysis.table.symbol analysis.program).kind = .program
  /-- Its locals are the symbols of the declarations, in order; others were rejected. -/
  locals : ∃ found,
    List.Forall₂ (Global.Became analysis.table analysis.diagnostics) program.globals found ∧
      (analysis.table.symbol analysis.program).locals = found.reduceOption

theorem symbol_of_start {own id : SymbolId} (isLast : Check.IsLast program own main last final)
    (succeeds : first.Succeeds last) (has : first.table.HasSymbol id) :
    final.table.symbol id = if id = own then
      { first.table.symbol id with locals := last.scopes.globals } else first.table.symbol id := by
  rw [isLast.rows id (succeeds.grows.hasSymbol has), succeeds.rows id has]

theorem known_isFirst {own : SymbolId} (isLast : Check.IsLast program own main last final)
    (succeeds : first.Succeeds last) (starts : Check.IsStart program.name.name own first)
    (fresh : ¬ Check.predefined.HasSymbol own) :
    knownSymbols <+: final.table.symbols.toList := by
  rw [← predefined_eq, List.prefix_iff_getElem?]
  intro index bound
  have known : Check.predefined.HasSymbol ⟨index⟩ := Nat.lt_of_lt_of_eq bound Array.length_toList
  have has := starts.grows.hasSymbol known
  have row := symbol_of_start isLast succeeds has
  rw [if_neg fun same : (⟨index⟩ : SymbolId) = own => fresh (same ▸ known),
    starts.rows _ known] at row
  have found := Table.getElem?_of_hasSymbol known
  rw [Array.getElem?_toList, Table.getElem?_of_hasSymbol
    (isLast.carries.hasSymbol (succeeds.grows.hasSymbol has)), row, ← found,
    ← Array.getElem?_toList, List.getElem?_eq_getElem bound]

/-- Predefined symbols are kept and the declarations are listed in the symbol of the program,
unless the name of the program is predefined. -/
theorem analyze_keepsKnown_iff (options : Options) (program : Program) :
    (analyze options program).KeepsKnown program ↔
      program.name.name ∉ Check.predefinedNames := by
  obtain ⟨last, final, isLast, table, _, _, _, diagnostics, _⟩ := exists_isLast options program
  obtain ⟨first, enlists, starts⟩ := isLast.enlists
  have row := symbol_of_start isLast enlists.succeeds starts.has
  rw [if_pos rfl] at row
  have kind : (final.table.symbol (analyze options program).program).kind =
      (first.table.symbol (analyze options program).program).kind := by rw [row]
  rw [← starts.taken]
  constructor
  · intro keeps known
    have isProgram := keeps.kind
    rw [table, kind, starts.rows _ known] at isProgram
    exact predefined_kind known isProgram
  · intro fresh
    refine ⟨?_, ?_, ?_⟩
    · rw [table]
      exact known_isFirst isLast enlists.succeeds starts fresh
    · rw [table, kind]
      exact starts.fresh.resolve_left fresh
    · obtain ⟨found, became, globals⟩ := enlists.publishes.listed
      rw [starts.globals, List.nil_append] at globals
      refine ⟨found, ?_, by rw [table, row, globals]⟩
      rw [table, diagnostics]
      exact became.imp fun _ _ => Checker.became_mono isLast.carries.toGrows isLast.tells

/-- A program with the name of a type. -/
def intruding : Program :=
  Supply.plant do
    let main ← Supply.method false none false "main" [] [] []
    Supply.program "int" [] [] [main]

/-- The type gets the methods of the program as its locals. -/
theorem not_keepsKnown_intruding :
    (analyze {} intruding).errorCount = 0 ∧ ¬ (analyze {} intruding).KeepsKnown intruding := by
  have lost : ¬ knownSymbols <+: (analyze {} intruding).table.symbols.toList := by decide +kernel
  exact ⟨by decide +kernel, fun keeps => lost keeps.first⟩

end Analysis
end MicroJava
