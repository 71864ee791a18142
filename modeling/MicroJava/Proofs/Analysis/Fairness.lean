import MicroJava.Proofs.Analysis.Progress

/-!
# What names may lead to

But for the elements of arrays, a program gets symbols that names may lead to: what has a
value has a type, unless a violation is reported, and what is not global is named in a class
or in a method.
-/

namespace MicroJava

/-- What a program may give names to. -/
structure Rules where
  inner : String → Prop
  constant : String → Int → Prop

namespace Rules

/-- Whatever is named is accepted. -/
def all : Rules := ⟨fun _ => True, fun _ _ => True⟩

theorem all_inner {names : List String} : ∀ name ∈ names, all.inner name := fun _ _ => trivial

theorem all_constant {constants : List (String × Int32)} :
    ∀ entry ∈ constants, all.constant entry.1 entry.2.toInt :=
  fun _ _ => trivial

end Rules

variable {rules : Rules} {id : SymbolId} {kind : SymbolKind} {name : String} {type : TypeId}
  {outer : Bool} {owners : List SymbolId} {decl : VarDecl} {before after : Checker}

/-- A symbol that a name may lead to. -/
structure Symbol.IsFair (rules : Rules) (symbol : Symbol) : Prop where
  value : symbol.hasValue → symbol.type.IsProper
  typed : symbol.type = .none ∨ symbol.type.IsProper
  inner : symbol.level ≠ 0 → rules.inner symbol.name
  constant : symbol.kind = .const → rules.constant symbol.name symbol.address

theorem Table.Grows.isFair {early late : Table} (grows : early.Grows late)
    (has : early.HasSymbol id) (fair : (early.symbol id).IsFair rules) :
    (late.symbol id).IsFair rules := by
  constructor
  · rw [grows.symbol_hasValue has, grows.symbol_type has]
    exact fair.value
  · rw [grows.symbol_type has]
    exact fair.typed
  · rw [grows.symbol_level has, grows.symbol_name has]
    exact fair.inner
  · rw [grows.symbol_kind has, grows.symbol_name has, grows.symbol_address has]
    exact fair.constant

namespace Checker

/-- Steps by which names may lead to new symbols, and which add no methods but the given ones. -/
structure Grants (rules : Rules) (owners : List SymbolId)
    (before after : Checker) : Prop where
  grows : before.table.Grows after.table
  tells : before.Tells after
  fair : after.IsClean → ∀ id, after.table.HasSymbol id → ¬ before.table.HasSymbol id →
    (after.table.symbol id).kind ≠ .element → (after.table.symbol id).IsFair rules
  methods : ∀ id, after.table.HasSymbol id → (after.table.symbol id).kind = .method →
    before.table.HasSymbol id ∨ id ∈ owners

namespace Grants

theorem trans {first second third : Checker} {more : List SymbolId}
    (grants : first.Grants rules owners second) (next : second.Grants rules more third) :
    first.Grants rules (owners ++ more) third where
  grows := grants.grows.trans next.grows
  tells := grants.tells.trans next.tells
  fair clean id has fresh notElement := by
    by_cases early : second.table.HasSymbol id
    · rw [next.grows.symbol_kind early] at notElement
      exact next.grows.isFair early
        (grants.fair (next.tells.isClean clean) id early fresh notElement)
    · exact next.fair clean id has early notElement
  methods id has isMethod := by
    rw [List.mem_append]
    rcases next.methods id has isMethod with early | isNew
    · rw [next.grows.symbol_kind early] at isMethod
      exact (grants.methods id early isMethod).imp_right .inl
    · exact .inr (.inr isNew)

theorem idle {first second third : Checker} (grants : first.Grants rules owners second)
    (next : second.Grants rules [] third) :
    first.Grants rules owners third :=
  List.append_nil owners ▸ grants.trans next

theorem of_symbols (grows : before.table.Grows after.table) (tells : before.Tells after)
    (size : after.table.symbols.size = before.table.symbols.size) :
    before.Grants rules [] after := by
  have old : ∀ id, after.table.HasSymbol id → before.table.HasSymbol id := fun id has => by
    rwa [Table.HasSymbol, size] at has
  exact ⟨grows, tells, fun _ id has fresh => absurd (old id has) fresh,
    fun id has _ => .inl (old id has)⟩

theorem refl (checker : Checker) : checker.Grants rules [] checker :=
  of_symbols (.refl _) (.refl _) rfl

theorem of_new (grows : before.table.Grows after.table) (tells : before.Tells after)
    (new : ∀ other, after.table.HasSymbol other → before.table.HasSymbol other ∨ other = id)
    (fair : after.IsClean → (after.table.symbol id).IsFair rules)
    (method : (after.table.symbol id).kind = .method → id ∈ owners) :
    before.Grants rules owners after where
  grows := grows
  tells := tells
  fair clean other has fresh _ := (new other has).resolve_left fresh ▸ fair clean
  methods other has isMethod := (new other has).imp_right fun same => by
    subst same
    exact method isMethod

end Grants

theorem Visits.grants {nodes : List NodeId} (visits : before.Visits nodes after) :
    before.Grants rules [] after where
  grows := visits.table.grows
  tells := visits.tells
  fair _ _ has fresh notElement :=
    absurd (visits.table.element_of_fresh has fresh).1 notElement
  methods _ has isMethod := .inl (visits.table.method_of_kind has isMethod).1

theorem Introduces.grants (introduces : before.Introduces outer kind name type id after)
    (value : after.IsClean → type.IsProper ∨ type = .none ∧ (kind = .method ∨ kind = .program))
    (isInner : outer.toNat + 2 < before.scopes.depth → rules.inner name)
    (method : kind = .method → id ∈ owners) (notConst : kind ≠ .const) :
    before.Grants rules owners after := by
  obtain ⟨address, adds, _⟩ := introduces.adds
  rw [← introduces.symbol_kind] at method
  refine .of_new introduces.grows introduces.tells
    (fun other has => introduces.fresh ▸ (adds.hasSymbol_iff other).mp has) (fun clean => ?_) method
  rw [introduces.fresh, adds.symbol_new]
  have level : (before.scopes.depth - 2 - if outer then 1 else 0) ≠ 0 → rules.inner name := by
    cases outer
    · exact fun deep => isInner (by simp at deep ⊢; omega)
    · exact fun deep => isInner (by simp at deep ⊢; omega)
  rcases value clean with proper | ⟨rfl, rfl | rfl⟩
  · exact ⟨fun _ => proper, .inr proper, level, (absurd · notConst)⟩
  · exact ⟨nofun, .inl rfl, level, nofun⟩
  · exact ⟨nofun, .inl rfl, level, nofun⟩

end Checker

namespace Check

theorem checkVars_grants (ran : Ran (checkVars kind decl) before () after)
    (valid : before.table.IsValid) (isKind : kind = .var ∨ kind = .field)
    (deep : 2 ≤ before.scopes.depth ∧ (kind = .field → 3 ≤ before.scopes.depth))
    (names : 2 < before.scopes.depth →
      ∀ item ∈ decl.items, rules.inner (before.qualifiedName item.name.name)) :
    before.Grants rules [] after := by
  have notMethod : kind ≠ .method := by rcases isKind with rfl | rfl <;> decide
  have notConst : kind ≠ .const := by rcases isKind with rfl | rfl <;> decide
  refine (checkVars_keeps ran (motive := fun checker => before.Proceeds none checker ∧
    before.Grants rules [] checker) (fun item => if before.scopes.depth = 2 then
      [⟨kind, before.qualifiedName item.name.name, item.span⟩] else [])
    (fun _ kept => kept.1.valid valid)
    (fun _ _ visits kept => ⟨kept.1.trans visits.proceeds, kept.2.idle visits.grants⟩)
    (fun item member type id early late introduces proper kept =>
      ⟨kept.1.trans introduces.proceeds, kept.2.idle (introduces.grants
        (fun clean => .inl (proper (introduces.tells.isClean clean))) (fun inside => ?_)
        (fun isMethod => absurd isMethod notMethod) notConst)⟩)
    isKind (fun checker kept => ?_) ⟨.refl _, .refl _⟩).1.2
  · have depth : early.scopes.depth = before.scopes.depth := congrArg Place.depth kept.1.place
    rw [Checker.qualifiedName_eq kept.1.place]
    exact names (depth ▸ inside) item member
  · have depth : checker.scopes.depth = before.scopes.depth := congrArg Place.depth kept.1.place
    rw [depth, Checker.qualifiedName_eq kept.1.place]
    exact ⟨deep.1, deep.2, fun _ => rfl⟩

theorem checkStaticVars_grants {owner : String}
    (ran : Ran (checkStaticVars owner decl) before () after)
    (valid : before.table.IsValid) (depth : before.scopes.depth = 3) :
    before.Grants rules [] after :=
  (checkStaticVars_keeps ran (motive := fun checker => before.Proceeds none checker ∧
    before.Grants rules [] checker) (fun _ kept => kept.1.valid valid)
    (fun _ kept => (congrArg Place.depth kept.1.place).trans depth)
    (fun _ _ visits kept => ⟨kept.1.trans visits.proceeds, kept.2.idle visits.grants⟩)
    (fun _ type id early late introduces proper kept =>
      ⟨kept.1.trans introduces.proceeds, kept.2.idle (introduces.grants
        (fun clean => .inl (proper (introduces.tells.isClean clean)))
        (fun inside => by
          have same : early.scopes.depth = 3 := (congrArg Place.depth kept.1.place).trans depth
          rw [same] at inside
          exact absurd inside (Nat.lt_irrefl 3)) nofun nofun)⟩) ⟨.refl _, .refl _⟩).1.2

end Check
end MicroJava
