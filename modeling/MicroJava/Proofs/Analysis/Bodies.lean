import MicroJava.Proofs.Analysis.Blindness

/-!
# Annotations of bodies without violations

If no violation is reported by the end of the check of a body, then its annotations keep the
rules.
-/

namespace MicroJava

open List

variable {parts : List Part} {setting : Setting} {id result owner found array : SymbolId}
  {α : Type} {type : TypeId} {before after : Checker} {span : Span} {ident : Ident}
  {name : String} {target designator base : Designator} {nodes : List NodeId}

namespace Checker

variable {checker : Checker}

theorem findAt_or_mem_of_findMember? {owner : TypeId}
    (found : checker.findMember? owner name = some id) :
    (∃ context, checker.owner = some context ∧ context.type = owner ∧
      checker.scopes.findAt? context.frame name = some id) ∨
      (∀ context, checker.owner = some context → context.type ≠ owner) ∧
        id ∈ (checker.table.desc owner).members := by
  have listed : checker.table.member? owner name = some id →
      id ∈ (checker.table.desc owner).members := mem_of_find?_eq_some
  rw [findMember?] at found
  split at found
  next context isOwner =>
    split at found
    next same => exact .inl ⟨context, isOwner, same, found⟩
    next other =>
      refine .inr ⟨fun _ same => ?_, listed found⟩
      obtain rfl := Option.some.inj (isOwner.symm.trans same)
      exact other
  next noOwner =>
    exact .inr ⟨fun _ isOwner => (nomatch noOwner.symm.trans isOwner), listed found⟩

end Checker

namespace Check

/-! ## Steps without violations -/

theorem require_isClean {kept : Bool} {cause : Violation}
    (ran : Ran (require kept cause span) before () after) (clean : after.IsClean) :
    kept = true := by
  unfold require at ran
  split at ran
  · assumption
  · exact absurd clean (not_isClean_report ran)

theorem resolveElsewhere_binds (ran : Ran (resolveElsewhere ident) before result after)
    (clean : after.IsClean) :
    ∃ name, IsQualified name ∧ before.Binds name result := by
  replace ran := ran.get_bind
  split at ran
  next found static =>
    obtain ⟨rfl, rfl⟩ := ran.pure
    obtain ⟨owner, _, static⟩ := Option.bind_eq_some_iff.mp static
    exact Checker.binds_of_findStatic? static
  next =>
    obtain ⟨_, told, requireRan, ran⟩ := ran.bind
    obtain ⟨rfl, rfl⟩ := ran.pure
    have present := require_isClean requireRan clean
    cases space : before.space with
    | none =>
      simp only [space] at present
      exact absurd present (by decide)
    | some space =>
      simp only [space] at present ⊢
      rw [Bool.not_eq_true'] at present
      exact ⟨_, isQualified_qualify _ _, Checker.binds_find (by rw [present]; decide)⟩

theorem resolveName_binds (ran : Ran (resolveName ident) before result after)
    (clean : after.IsClean) :
    (∃ name, IsQualified name ∧ before.Binds name result) ∨
      before.scopes.find? ident.name = some result ∧
        before.needsReceiver ident.name result = false := by
  replace ran := ran.get_bind
  dsimp only at ran
  split_ifs at ran with absent needs
  · exact .inl (resolveElsewhere_binds ran clean)
  · exact absurd clean (not_isClean_fail ran)
  · obtain ⟨rfl, rfl⟩ := ran.pure
    exact .inr ⟨Checker.find?_find absent, Bool.not_eq_true _ ▸ needs⟩

theorem resolveQualified_binds {space : Ident}
    (ran : Ran (resolveQualified space ident span) before result after) (clean : after.IsClean) :
    before.Binds (qualify space.name ident.name) result := by
  replace ran := ran.get_bind
  obtain ⟨_, told, requireRan, ran⟩ := ran.bind
  obtain ⟨rfl, rfl⟩ := ran.pure
  have present := require_isClean requireRan clean
  rw [Bool.not_eq_true'] at present
  exact Checker.binds_find (by rw [present]; decide)

end Check

/-! ## Designators -/

namespace Setting

theorem isMember_of_class (isClass : setting.table.isClass (setting.table.symbol owner).type)
    (finds : setting.Finds id)
    (static : setting.plain → (setting.table.symbol owner).kind = .type →
      (setting.table.symbol id).level = 0)
    (ofObject : (setting.table.symbol owner).kind ≠ .type → setting.BelongsToObjects id)
    (located : setting.IsLocated (if (setting.table.symbol owner).kind = .type then setting.around
      else some (setting.table.symbol owner).type) id) :
    setting.IsMember owner id := by
  unfold IsMember
  dsimp only
  rw [if_pos isClass]
  exact ⟨finds, static, ofObject, located⟩

variable (covers : setting.Covers before)
include covers

theorem isMember_of_none (grows : before.table.Grows setting.table)
    (untyped : (setting.table.symbol owner).type = .none) :
    setting.IsMember owner .absent := by
  have other : setting.table.isClass .none = false := by
    rw [grows.isClass (covers.valid.hasType_basic (by decide)), covers.valid.isClass_none]
  unfold IsMember
  dsimp only
  rw [untyped, other]
  exact ⟨rfl, rfl⟩

theorem isElement_of_none (grows : before.table.Grows setting.table)
    (untyped : (setting.table.symbol array).type = .none) :
    setting.IsElement array .absent := by
  have other : setting.table.kind .none = .none := by
    rw [grows.kind (covers.valid.hasType_basic (by decide)), covers.valid.kind_none]
  unfold IsElement
  dsimp only
  rw [untyped, other]
  exact ⟨rfl, rfl⟩

theorem finds_of_search (hasType : before.table.HasType type)
    (isClass : before.table.isClass type)
    (searched : (if (before.table.symbol owner).kind = .type then before.findStatic? type name
      else before.findMember? type name) = some result) :
    before.table.HasSymbol result ∧ setting.Finds result ∧
      (setting.plain → (before.table.symbol owner).kind = .type →
        (setting.table.symbol result).level = 0) ∧
      ((before.table.symbol owner).kind ≠ .type → setting.BelongsToObjects result) ∧
      setting.IsLocated (if (before.table.symbol owner).kind = .type then setting.around
        else some type) result := by
  split_ifs at searched ⊢ with isType
  · obtain ⟨key, qualified, bound⟩ := Checker.binds_of_findStatic? searched
    obtain ⟨has, finds, located⟩ := covers.names key result bound
    exact ⟨has, finds, fun plain _ => covers.qualified plain key result bound qualified,
      fun notType => absurd isType notType, located⟩
  · obtain ⟨has, finds, ofObject⟩ : before.table.HasSymbol result ∧ setting.Finds result ∧
        setting.BelongsToObjects result ∧ setting.IsLocated (some type) result := by
      rcases Checker.findAt_or_mem_of_findMember? searched with
        ⟨context, isOwner, rfl, found⟩ | ⟨other, listed⟩
      · obtain ⟨has, finds, _⟩ := covers.names name result (Checker.binds_of_findAt? found)
        exact ⟨has, finds, covers.ownMembers context isOwner name result found⟩
      · exact covers.members type hasType isClass other _ listed
    exact ⟨has, finds, fun _ ofType => absurd ofType isType, fun _ => ofObject.1, ofObject.2⟩

theorem receiver_of_needsReceiver (grows : before.table.Grows setting.table)
    (has : before.table.HasSymbol id) (found : before.scopes.find? name = some id)
    (present : before.needsReceiver name id = false) (needs : setting.NeedsObject id) :
    setting.receiver := by
  obtain ⟨owner, isOwner, frame⟩ := covers.reachable name id found needs
  obtain ⟨method, isMethod, _, receiver⟩ := covers.method
  apply receiver
  rw [NeedsObject, grows.needsObject_iff has] at needs
  have needs : (decide ((before.table.symbol id).kind = .field) ||
      (before.table.symbol id).isVirtual) = true := by
    rwa [Bool.or_eq_true, decide_eq_true_iff]
  simpa only [Checker.needsReceiver, isOwner, isMethod, frame, needs, decide_true, Bool.and_true]
    using present

theorem isMember_of_ran (grows : before.table.Grows setting.table)
    (has : before.table.HasSymbol owner)
    (ran : Check.Ran (Check.resolveMember owner base ident) before result after)
    (clean : after.IsClean) :
    before.table.HasSymbol result ∧ setting.IsMember owner result := by
  have type := grows.symbol_type has
  replace ran := ran.get_bind
  dsimp only at ran
  by_cases absent : owner.isAbsent
  · rw [if_pos absent] at ran
    obtain ⟨rfl, rfl⟩ := ran.pure
    have same : owner = .absent := of_decide_eq_true absent
    refine ⟨covers.valid.hasSymbol_absent, isMember_of_none covers grows ?_⟩
    rw [type, same, covers.valid.type_absent]
  rw [if_neg absent] at ran
  cases isClass : before.table.isClass (before.table.symbol owner).type with
  | false =>
    rw [isClass] at ran
    obtain ⟨_, told, fitRan, ran⟩ := ran.bind
    obtain ⟨rfl, rfl⟩ := ran.pure
    have untyped := of_decide_eq_true (Check.require_isClean fitRan clean)
    exact ⟨covers.valid.hasSymbol_absent, isMember_of_none covers grows (type.trans untyped)⟩
  | true =>
    rw [isClass, if_neg (by decide)] at ran
    have isClass' : setting.table.isClass (setting.table.symbol owner).type := by
      rw [type, grows.isClass (covers.valid.hasType_symbol owner), isClass]
    split at ran
    next found searched =>
      obtain ⟨rfl, rfl⟩ := ran.pure
      obtain ⟨hasResult, finds, static, ofObject, located⟩ := finds_of_search covers
        (covers.valid.hasType_symbol owner) isClass searched
      rw [← grows.symbol_kind has] at static ofObject located
      exact ⟨hasResult, isMember_of_class isClass' finds static ofObject (type ▸ located)⟩
    next =>
      exact absurd clean (Check.not_isClean_fail ran)

theorem isElement_of_ran (has : before.table.HasSymbol array)
    (ran : Check.Ran (Check.elementOf base array span) before result after)
    (clean : after.IsClean) (grows : after.table.Grows setting.table) :
    after.table.HasSymbol result ∧ setting.IsElement array result := by
  have growsBefore := (Check.elementOf_visits ran).table.grows.trans grows
  have type := growsBefore.symbol_type has
  have used := covers.valid.hasType_symbol array
  replace ran := ran.table_bind
  dsimp only at ran
  split_ifs at ran with isArray
  · obtain ⟨_, rfl, same⟩ := Check.onTable_visits ran (Table.addElement_widens _ _)
    have isArray' : setting.table.kind (setting.table.symbol array).type = .array := by
      rw [type, growsBefore.kind used]
      exact isArray
    have hasNew : after.table.HasSymbol before.table.nextSymbol := by
      rw [same]
      simp [Table.HasSymbol, Table.addSymbol, Table.nextSymbol]
    have entry : after.table.symbol before.table.nextSymbol =
        .declared .element "" (before.table.element (before.table.symbol array).type) 0 := by
      rw [same]
      exact (Table.symbol_eq_of_getElem? (by simp [Table.addSymbol, Table.nextSymbol])).2
    refine ⟨hasNew, ?_⟩
    unfold IsElement
    dsimp only
    rw [if_pos isArray']
    refine ⟨?_, ?_, ?_⟩
    · intro absent
      have first : before.table.symbols.size = 0 := congrArg SymbolId.index absent
      have positive : 0 < before.table.symbols.size := covers.valid.hasSymbol_absent
      omega
    · exact (grows.symbol_kind hasNew).trans (by rw [entry]; rfl)
    · rw [type, growsBefore.element used]
      exact (grows.symbol_type hasNew).trans (by rw [entry]; rfl)
  · obtain ⟨_, told, fitRan, ran⟩ := ran.bind
    obtain ⟨rfl, rfl⟩ := ran.pure
    have untyped := of_decide_eq_true (Check.require_isClean fitRan clean)
    have reports := Check.quiet.requireFit.reports fitRan
    exact ⟨reports.visits.table.grows.hasSymbol covers.valid.hasSymbol_absent,
      isElement_of_none covers growsBefore (type.trans untyped)⟩

end Setting

/-! ## Stretches of a check -/

namespace Setting

/-- A stretch of a check that ends without violations, and the parts of the body that it
annotates. -/
structure Spans (setting : Setting) (parts : List Part)
    (before after : Checker) : Prop where
  covers : setting.Covers before
  ends : setting.Ends (parts.map Part.id) after
  distinct : (parts.map Part.id).Nodup

namespace Spans

variable {further : List Part} {between : Checker}

theorem stop (spans : setting.Spans parts before after) (visits : between.Visits [] after) :
    setting.Spans parts before between where
  covers := spans.covers
  ends :=
    { clean := visits.tells.isClean spans.ends.clean
      grows := visits.table.grows.trans spans.ends.grows
      agrees := fun node member =>
        (spans.ends.agrees node member).trans (visits.notes node not_mem_nil) }
  distinct := spans.distinct

theorem reports (spans : setting.Spans parts before after) (reports : between.Reports after) :
    setting.Spans parts before between :=
  spans.stop reports.visits

theorem start (spans : setting.Spans parts before after) (visits : before.Visits nodes between) :
    setting.Spans parts between after :=
  ⟨spans.covers.visits visits, spans.ends, spans.distinct⟩

theorem cut (spans : setting.Spans (parts ++ further) before after)
    (visits : before.Visits nodes between) (later : between.Visits (further.map Part.id) after) :
    setting.Spans parts before between ∧ setting.Spans further between after := by
  obtain ⟨covers, ⟨clean, grows, agrees⟩, distinct⟩ := spans
  rw [map_append] at agrees distinct
  obtain ⟨first, second, apart⟩ := nodup_append.mp distinct
  refine ⟨⟨covers, ⟨later.tells.isClean clean, later.table.grows.trans grows,
    fun node member => ?_⟩, first⟩, ⟨covers.visits visits, ⟨clean, grows, fun node member =>
      agrees node (mem_append_right _ member)⟩, second⟩⟩
  exact (agrees node (mem_append_left _ member)).trans
    (later.notes node fun again => apart node member node again rfl)

theorem split {β : Type} {act : Check α} {next : Check β} {value : α} {result : β}
    (spans : setting.Spans (parts ++ further) before after) (walks : Check.WalksOver parts act)
    (ran : Check.Ran act before value between) (walksNext : Check.WalksOver further next)
    (nextRan : Check.Ran next between result after) :
    setting.Spans parts before between ∧ setting.Spans further between after := by
  have visits := walks.visits ran spans.covers.valid
  exact spans.cut visits (walksNext.visits nextRan (visits.table.valid spans.covers.valid))

theorem below {part : Part} (spans : setting.Spans (part :: parts) before after)
    (visits : between.Visits [part.id] after) :
    setting.Spans parts before between := by
  obtain ⟨apart, distinct⟩ := nodup_cons.mp spans.distinct
  refine ⟨spans.covers, ⟨visits.tells.isClean spans.ends.clean,
    visits.table.grows.trans spans.ends.grows, fun other member => ?_⟩, distinct⟩
  have different : other ∉ [part.id] := fun same => apart (mem_singleton.mp same ▸ member)
  exact (spans.ends.agrees other (mem_cons_of_mem _ member)).trans
    (visits.notes other different)

end Spans
end Setting

namespace Check

theorem settle_noted (ran : Ran (settle designator found) before result after)
    (ends : setting.Ends (designator.id :: parts.map Part.id) after) :
    result = found ∧ setting.notes.symbol? designator.id = some found := by
  obtain ⟨_, rfl, noted, _⟩ := settle_visits ran
  exact ⟨rfl, (ends.agrees _ mem_cons_self).1.trans noted⟩

variable {rest source : Designator}

theorem record_noted {node : Node} {result : TypeId}
    (ran : Ran (record node type) before result after)
    (ends : setting.Ends (node.id :: parts.map Part.id) after) :
    result = type ∧ setting.notes.type? node.id = some type := by
  obtain ⟨_, rfl, noted, _⟩ := record_visits ran
  exact ⟨rfl, (ends.agrees _ mem_cons_self).2.trans noted⟩

theorem checkSignature_isClean {expected : Nat} {actuals formals : List TypeId}
    (ran : Ran (checkSignature name span expected actuals formals) before () after)
    (clean : after.IsClean) :
    actuals.length = expected := by
  unfold checkSignature at ran
  split_ifs at ran with same
  · exact same
  · exact absurd clean (not_isClean_report ran)

theorem applyMethod_isClean {callee : Designator} {arguments : List TypeId}
    {result : SymbolId × TypeId}
    (ran : Ran (applyMethod span callee found arguments) before result after)
    (valid : before.table.IsValid) (clean : after.IsClean) :
    (found = .absent ∨ (before.table.symbol found).kind = .method ∧
      (before.table.symbol found).paramCount =
        if (before.table.symbol found).isVirtual then arguments.length + 1
        else arguments.length) ∧
      result = (found, (before.table.symbol found).type) := by
  replace ran := ran.table_bind
  dsimp only at ran
  by_cases absent : found.isAbsent
  · rw [if_pos absent] at ran
    obtain ⟨rfl, rfl⟩ := ran.pure
    have same : found = .absent := of_decide_eq_true absent
    rw [same, valid.type_absent]
    exact ⟨.inl rfl, rfl⟩
  rw [if_neg absent] at ran
  by_cases isMethod : (before.table.symbol found).kind = .method
  · rw [isMethod, if_neg (by decide)] at ran
    obtain ⟨_, s₁, receiverRan, ran⟩ := ran.bind
    obtain ⟨_, s₂, signatureRan, ran⟩ := ran.bind
    obtain ⟨rfl, rfl⟩ := ran.pure
    refine ⟨.inr ⟨isMethod, ?_⟩, rfl⟩
    rw [← checkSignature_isClean signatureRan clean]
    split_ifs <;> rfl
  · rw [if_pos (bne_iff_ne.mpr isMethod)] at ran
    exact absurd clean (not_isClean_fail ran)

theorem valueType_isClean {result : TypeId}
    (ran : Ran (valueType designator found) before result after) (clean : after.IsClean) :
    (before.table.symbol found).hasValue ∧ result = (before.table.symbol found).type := by
  replace ran := ran.symbol_bind
  split_ifs at ran with hasValue
  · obtain ⟨rfl, rfl⟩ := ran.pure
    exact ⟨hasValue, rfl⟩
  · exact absurd clean (not_isClean_fail ran)

theorem resolveType_isClean {ref : TypeRef} {result : TypeId}
    (ran : Ran (resolveType ref false) before result after) (clean : after.IsClean) :
    ∃ name id, before.Binds name id ∧ (before.table.symbol id).kind = .type ∧
      result = (before.table.symbol id).type := by
  replace ran := ran.get_bind
  dsimp only at ran
  split_ifs at ran with missing array
  · exact absurd clean (not_isClean_fail ran)
  · exact array.elim
  · obtain ⟨rfl, rfl⟩ := ran.pure
    rw [Bool.or_eq_true, not_or, bne_iff_ne, not_not] at missing
    obtain ⟨present, isType⟩ := missing
    have bound : ∃ name, before.Binds name (before.findTypeRef ref) := by
      unfold Checker.findTypeRef at present ⊢
      dsimp only at present ⊢
      split at present
      all_goals exact ⟨_, Checker.binds_find present⟩
    obtain ⟨name, bound⟩ := bound
    exact ⟨name, _, bound, isType, rfl⟩

mutual

theorem resolve_noted {designator : Designator} {result : SymbolId} {before after : Checker}
    (ran : Ran (resolve designator) before result after)
    (spans : setting.Spans designator.parts before after) :
    designator.IsNoted setting ∧ setting.notes.symbol? designator.id = some result ∧
      after.table.HasSymbol result := by
  have covers := spans.covers
  unfold resolve at ran
  match designator with
  | .name node ident =>
    obtain ⟨found, s₁, nameRan, ran⟩ := ran.bind
    have reports := quiet.resolveName.reports nameRan
    have visits := (settle_visits ran).1
    have all := visits.after_reports reports
    have grows := all.table.grows.trans spans.ends.grows
    obtain ⟨rfl, noted⟩ := settle_noted ran spans.ends
    rcases resolveName_binds nameRan (visits.tells.isClean spans.ends.clean) with
      ⟨name, qualified, bound⟩ | ⟨bound, present⟩
    · obtain ⟨has, finds, located⟩ := covers.names name result bound
      refine ⟨⟨result, noted, finds, fun plain needs => ?_, located⟩, noted,
        all.table.grows.hasSymbol has⟩
      exact absurd (covers.qualified plain name result bound qualified) (finds.level_ne_zero needs)
    · obtain ⟨has, finds, located⟩ := covers.names _ result (Checker.binds_of_find? bound)
      exact ⟨⟨result, noted, finds, fun _ =>
        Setting.receiver_of_needsReceiver covers grows has bound present, located⟩, noted,
        all.table.grows.hasSymbol has⟩
  | .qualified node space ident =>
    obtain ⟨found, s₁, nameRan, ran⟩ := ran.bind
    have reports := quiet.resolveQualified.reports nameRan
    have visits := (settle_visits ran).1
    have bound := resolveQualified_binds nameRan (visits.tells.isClean spans.ends.clean)
    obtain ⟨has, finds, located⟩ := covers.names _ found bound
    obtain ⟨rfl, noted⟩ := settle_noted ran spans.ends
    exact ⟨⟨result, noted, finds, fun plain => covers.qualified plain _ result bound
      (isQualified_qualify _ _), located⟩, noted,
        (visits.after_reports reports).table.grows.hasSymbol has⟩
  | .element node base index =>
    obtain ⟨array, s₁, baseRan, ran⟩ := ran.bind
    obtain ⟨type, s₂, indexRan, ran⟩ := ran.bind
    obtain ⟨_, s₃, fitRan, ran⟩ := ran.bind
    obtain ⟨found, s₄, elementRan, ran⟩ := ran.bind
    have settled := (settle_visits ran).1
    have told := quiet.requireFit.reports fitRan
    have entered := spans.below settled
    obtain ⟨baseSpans, indexSpans⟩ := ((entered.stop (elementOf_visits elementRan)).reports
      told).split (walksOver_resolve base) baseRan (walksOver_typeOf index) indexRan
    obtain ⟨baseNoted, baseSymbol, has⟩ := resolve_noted baseRan baseSpans
    have indexNoted := typeOf_noted indexRan indexSpans
    have later := ((walksOver_typeOf index).visits indexRan indexSpans.covers.valid).then_reports
      told
    obtain ⟨hasFound, isElement⟩ := Setting.isElement_of_ran (indexSpans.covers.visits later)
      (later.table.grows.hasSymbol has) elementRan entered.ends.clean entered.ends.grows
    obtain ⟨rfl, noted⟩ := settle_noted ran spans.ends
    exact ⟨⟨baseNoted, indexNoted.1, array, result, baseSymbol, noted, isElement⟩, noted,
      settled.table.grows.hasSymbol hasFound⟩
  | .member node base ident =>
    obtain ⟨owner, s₁, baseRan, ran⟩ := ran.bind
    obtain ⟨found, s₂, memberRan, ran⟩ := ran.bind
    have settled := (settle_visits ran).1
    have told := quiet.resolveMember.reports memberRan
    have searched := spans.below settled
    have baseSpans := searched.reports told
    obtain ⟨baseNoted, baseSymbol, has⟩ := resolve_noted baseRan baseSpans
    have visits := (walksOver_resolve base).visits baseRan covers.valid
    obtain ⟨hasFound, isMember⟩ := Setting.isMember_of_ran (covers.visits visits)
      baseSpans.ends.grows has memberRan searched.ends.clean
    obtain ⟨rfl, noted⟩ := settle_noted ran spans.ends
    exact ⟨⟨baseNoted, owner, result, baseSymbol, noted, isMember⟩, noted,
      (settled.after_reports told).table.grows.hasSymbol hasFound⟩

theorem typeOf_noted {expr : Expr} {result : TypeId} {before after : Checker}
    (ran : Ran (typeOf expr) before result after) (spans : setting.Spans expr.parts before after) :
    expr.IsNoted setting ∧ setting.notes.type? expr.id = some result := by
  have covers := spans.covers
  unfold typeOf at ran
  match expr with
  | .literal node value =>
    obtain ⟨rfl, noted⟩ := record_noted ran spans.ends
    exact ⟨noted, noted⟩
  | .load node source =>
    obtain ⟨found, s₁, sourceRan, ran⟩ := ran.bind
    obtain ⟨type, s₂, valueRan, ran⟩ := ran.bind
    have value := spans.below (record_visits ran).1
    have sourceSpans := value.reports (quiet.valueType.reports valueRan)
    obtain ⟨sourceNoted, symbol, has⟩ := resolve_noted sourceRan sourceSpans
    obtain ⟨hasValue, same⟩ := valueType_isClean valueRan value.ends.clean
    obtain ⟨rfl, noted⟩ := record_noted ran spans.ends
    rw [← sourceSpans.ends.grows.symbol_hasValue has] at hasValue
    rw [← sourceSpans.ends.grows.symbol_type has] at same
    exact ⟨⟨sourceNoted, found, symbol, hasValue, same ▸ noted⟩, noted⟩
  | .call node call =>
    obtain ⟨⟨method, type⟩, s₁, callRan, ran⟩ := ran.bind
    obtain ⟨_, s₂, fitRan, ran⟩ := ran.bind
    have fit := spans.below (record_visits ran).1
    obtain ⟨callNoted, symbol, same⟩ := checkCall_noted callRan
      (fit.reports (quiet.requireFit.reports fitRan))
    have fits := require_isClean fitRan fit.ends.clean
    rw [Bool.or_eq_true, bne_iff_ne] at fits
    obtain ⟨rfl, noted⟩ := record_noted ran spans.ends
    dsimp only at symbol same
    rw [← same] at fits
    exact ⟨⟨callNoted, method, symbol, same ▸ noted, fits.imp of_decide_eq_true id⟩, noted⟩
  | .newArray node element length =>
    obtain ⟨type, s₁, refRan, ran⟩ := ran.bind
    obtain ⟨lengthType, s₂, lengthRan, ran⟩ := ran.bind
    obtain ⟨_, s₃, fitRan, ran⟩ := ran.bind
    obtain ⟨array, s₄, arrayRan, ran⟩ := ran.bind
    obtain ⟨refVisits, used, proper⟩ := resolveType_visits refRan covers.valid
    have valid := refVisits.table.valid covers.valid
    have told := quiet.requireFit.reports fitRan
    have lengthVisits := (walksOver_typeOf length).visits lengthRan valid
    have later := lengthVisits.then_reports told
    obtain ⟨arrayVisits, _, _, present⟩ := arrayOf_visits arrayRan (later.table.valid valid)
      (later.table.grows.hasType used) (proper.imp_left And.left)
    have lengthSpans := (((spans.start refVisits).below (record_visits ran).1).stop
      arrayVisits).reports told
    have lengthNoted := typeOf_noted lengthRan lengthSpans
    obtain ⟨_, id, _, isType, same⟩ := resolveType_isClean refRan
      (lengthVisits.tells.isClean lengthSpans.ends.clean)
    have named := covers.valid.type_names _ (covers.valid.symbol_mem id) isType
    obtain ⟨rfl, noted⟩ := record_noted ran spans.ends
    exact ⟨⟨lengthNoted.1, result, noted, present (same ▸ named.1)⟩, noted⟩
  | .newObject node ref =>
    obtain ⟨type, s₁, refRan, ran⟩ := ran.bind
    replace ran := ran.table_bind
    split_ifs at ran with isClass
    · have ends := (spans.below (record_visits ran).1).ends
      have refVisits := (resolveType_visits refRan covers.valid).1
      obtain ⟨name, id, bound, isType, same⟩ := resolveType_isClean refRan ends.clean
      obtain ⟨has, finds, _⟩ := covers.names name id bound
      have grows := refVisits.table.grows.trans ends.grows
      have named := covers.valid.type_names _ (covers.valid.symbol_mem id) isType
      obtain ⟨rfl, noted⟩ := record_noted ran spans.ends
      rw [Bool.or_eq_true, decide_eq_true_iff, same] at isClass
      have isClass := isClass.resolve_left named.1
      have type := grows.symbol_type has
      rw [refVisits.table.grows.isClass (covers.valid.hasType_symbol id),
        ← grows.isClass (covers.valid.hasType_symbol id), ← type] at isClass
      have objects := finds.type ((grows.symbol_kind has).trans isType) isClass
      rw [type, ← same] at objects
      exact ⟨⟨result, noted, same ▸ named.1, objects⟩, noted⟩
    · obtain ⟨_, s₂, reportRan, ran⟩ := ran.bind
      exact absurd (spans.below (record_visits ran).1).ends.clean (not_isClean_report reportRan)
  | .neg node operand =>
    obtain ⟨type, s₁, operandRan, ran⟩ := ran.bind
    split_ifs at ran with isInt
    · obtain ⟨operandNoted, typed⟩ := typeOf_noted operandRan
        (spans.below (record_visits ran).1)
      obtain ⟨rfl, noted⟩ := record_noted ran spans.ends
      rw [Bool.or_eq_true, decide_eq_true_iff, decide_eq_true_iff] at isInt
      exact ⟨⟨operandNoted, result, typed, noted, isInt⟩, noted⟩
    · obtain ⟨_, s₂, reportRan, ran⟩ := ran.bind
      exact absurd (spans.below (record_visits ran).1).ends.clean (not_isClean_report reportRan)
  | .arith node op left right =>
    obtain ⟨leftType, s₁, leftRan, ran⟩ := ran.bind
    obtain ⟨rightType, s₂, rightRan, ran⟩ := ran.bind
    have finish : ∀ type,
        (type = .int ∨ type = .none ∧ (leftType = .none ∨ rightType = .none)) →
        Ran (record node type) s₂ result after →
        (Expr.arith node op left right).IsNoted setting ∧
          setting.notes.type? node.id = some result := by
      intro type typed recordRan
      obtain ⟨leftSpans, rightSpans⟩ := (spans.below (record_visits recordRan).1).split
        (walksOver_typeOf left) leftRan (walksOver_typeOf right) rightRan
      obtain ⟨leftNoted, leftTyped⟩ := typeOf_noted leftRan leftSpans
      obtain ⟨rightNoted, rightTyped⟩ := typeOf_noted rightRan rightSpans
      obtain ⟨rfl, noted⟩ := record_noted recordRan spans.ends
      exact ⟨⟨leftNoted, rightNoted, leftType, rightType, result, leftTyped, rightTyped, noted,
        typed⟩, noted⟩
    split_ifs at ran with ints untyped
    · exact finish .int (.inl rfl) ran
    · rw [Bool.or_eq_true, decide_eq_true_iff, decide_eq_true_iff] at untyped
      exact finish .none (.inr ⟨rfl, untyped⟩) ran
    · obtain ⟨_, s₃, reportRan, ran⟩ := ran.bind
      exact absurd (spans.below (record_visits ran).1).ends.clean (not_isClean_report reportRan)

theorem typesOf_noted {exprs : List Expr} {result : List TypeId} {before after : Checker}
    (ran : Ran (typesOf exprs) before result after)
    (spans : setting.Spans (Expr.partsOf exprs) before after) :
    Expr.AreNoted setting exprs ∧ result.length = exprs.length := by
  match exprs with
  | [] =>
    unfold typesOf at ran
    obtain ⟨rfl, rfl⟩ := ran.pure
    exact ⟨trivial, rfl⟩
  | first :: rest =>
    unfold typesOf at ran
    obtain ⟨type, s₁, firstRan, ran⟩ := ran.bind
    obtain ⟨types, s₂, restRan, ran⟩ := ran.bind
    obtain ⟨rfl, rfl⟩ := ran.pure
    obtain ⟨firstSpans, restSpans⟩ := spans.split (walksOver_typeOf first) firstRan
      (walksOver_typesOf rest) restRan
    obtain ⟨restNoted, length⟩ := typesOf_noted restRan restSpans
    exact ⟨⟨(typeOf_noted firstRan firstSpans).1, restNoted⟩, congrArg (· + 1) length⟩

theorem checkCall_noted {call : Call} {result : SymbolId × TypeId} {before after : Checker}
    (ran : Ran (checkCall call) before result after)
    (spans : setting.Spans call.parts before after) :
    call.IsNoted setting ∧ setting.notes.symbol? call.callee.id = some result.1 ∧
      (setting.table.symbol result.1).type = result.2 := by
  match call with
  | .mk span callee arguments =>
    unfold checkCall at ran
    obtain ⟨found, s₁, calleeRan, ran⟩ := ran.bind
    obtain ⟨types, s₂, argumentsRan, ran⟩ := ran.bind
    have parts := spans.reports (quiet.applyMethod.reports ran)
    obtain ⟨calleeSpans, argumentsSpans⟩ := parts.split (walksOver_resolve callee) calleeRan
      (walksOver_typesOf arguments) argumentsRan
    obtain ⟨calleeNoted, symbol, has⟩ := resolve_noted calleeRan calleeSpans
    obtain ⟨argumentsNoted, length⟩ := typesOf_noted argumentsRan argumentsSpans
    have visits := (walksOver_typesOf arguments).visits argumentsRan argumentsSpans.covers.valid
    have covers := argumentsSpans.covers.visits visits
    obtain ⟨isMethod, rfl⟩ := applyMethod_isClean ran covers.valid spans.ends.clean
    have hasLater := visits.table.grows.hasSymbol has
    have grows := parts.ends.grows
    refine ⟨⟨calleeNoted, argumentsNoted, found, symbol, isMethod.imp_right ?_⟩, symbol,
      grows.symbol_type hasLater⟩
    rintro ⟨kind, count⟩
    rw [Setting.HasArity, covers.arity found hasLater kind, grows.symbol_kind hasLater,
      grows.symbol_isVirtual hasLater, ← length]
    exact ⟨kind, count⟩

end

/-! ## Statements -/

theorem forM_noted {act : α → Check PUnit} {parts : α → List Part} {keeps : α → Prop}
    {items : List α} (walks : ∀ item, WalksOver (parts item) (act item))
    (noted : ∀ item before after, Ran (act item) before () after →
      setting.Spans (parts item) before after → keeps item)
    (ran : Ran (items.forM act) before () after)
    (spans : setting.Spans (items.flatMap parts) before after) :
    ∀ item ∈ items, keeps item := by
  induction items generalizing before with
  | nil => exact fun _ member => nomatch member
  | cons item rest ih =>
    obtain ⟨between, firstRan, restRan⟩ := ran.forM_cons
    obtain ⟨firstSpans, restSpans⟩ := spans.split (walks item) firstRan (.forM walks rest) restRan
    intro other member
    rcases mem_cons.mp member with rfl | member
    · exact noted other before between firstRan firstSpans
    · exact ih restRan restSpans other member

theorem checkFact_noted {fact : Fact} (ran : Ran (checkFact fact) before () after)
    (spans : setting.Spans fact.parts before after) :
    fact.IsNoted setting := by
  cases fact with
  | truth value =>
    obtain ⟨type, s₁, valueRan, ran⟩ := ran.bind
    exact (typeOf_noted valueRan (spans.reports (quiet.require.reports ran))).1
  | relation span left op right =>
    obtain ⟨leftType, s₁, leftRan, ran⟩ := ran.bind
    obtain ⟨rightType, s₂, rightRan, ran⟩ := ran.bind
    have told : s₂.Reports after := by
      refine IsQuiet.reports (quiet.bind quiet.table fun table => ?_) ran
      split_ifs
      · exact quiet.pure
      · exact quiet.require
      · exact quiet.mismatch
    obtain ⟨leftSpans, rightSpans⟩ := (spans.reports told).split (walksOver_typeOf left) leftRan
      (walksOver_typeOf right) rightRan
    exact ⟨(typeOf_noted leftRan leftSpans).1, (typeOf_noted rightRan rightSpans).1⟩

theorem checkCondition_noted {condition : Condition}
    (ran : Ran (checkCondition condition) before () after)
    (spans : setting.Spans (Condition.parts condition) before after) :
    Condition.IsNoted setting condition :=
  forM_noted (fun term => .forM walksOver_checkFact term)
    (fun _ _ _ termRan => forM_noted walksOver_checkFact (fun _ _ _ => checkFact_noted) termRan)
    ran spans

theorem resolveTarget_noted (ran : Ran (resolveTarget target) before result after)
    (spans : setting.Spans target.parts before after) :
    target.IsNoted setting ∧ setting.IsTarget target := by
  obtain ⟨found, s₁, targetRan, ran⟩ := ran.bind
  replace ran := ran.symbol_bind
  split_ifs at ran with stored
  · obtain ⟨_, rfl⟩ := ran.pure
    obtain ⟨noted, symbol, has⟩ := resolve_noted targetRan spans
    rw [Bool.or_eq_true, ← spans.ends.grows.symbol_isAssignable has] at stored
    exact ⟨noted, found, symbol, stored.imp of_decide_eq_true id⟩
  · exact absurd spans.ends.clean (not_isClean_fail ran)

theorem targetType_noted {result : TypeId} (ran : Ran (targetType target) before result after)
    (spans : setting.Spans target.parts before after) :
    target.IsNoted setting ∧ setting.IsTarget target := by
  obtain ⟨found, s₁, targetRan, ran⟩ := ran.bind
  replace ran := ran.symbol_bind
  obtain ⟨_, rfl⟩ := ran.pure
  exact resolveTarget_noted targetRan spans

theorem targetType_typed (ran : Ran (targetType target) before type after)
    (spans : setting.Spans target.parts before after) :
    ∃ id, setting.notes.symbol? target.id = some id ∧ after.table.HasSymbol id ∧
      type = (after.table.symbol id).type := by
  obtain ⟨found, s₁, targetRan, ran⟩ := ran.bind
  replace ran := ran.symbol_bind
  obtain ⟨rfl, rfl⟩ := ran.pure
  obtain ⟨result, s₂, resolveRan, ran⟩ := targetRan.bind
  replace ran := ran.symbol_bind
  split_ifs at ran
  · obtain ⟨rfl, rfl⟩ := ran.pure
    obtain ⟨_, symbol, has⟩ := resolve_noted resolveRan spans
    exact ⟨found, symbol, has, rfl⟩
  · exact absurd spans.ends.clean (not_isClean_fail ran)

theorem checkStep_noted (ran : Ran (checkStep span target) before () after)
    (spans : setting.Spans target.parts before after) :
    target.IsNoted setting ∧ setting.IsTarget target := by
  obtain ⟨type, s₁, targetRan, ran⟩ := ran.bind
  exact targetType_noted targetRan (spans.reports (quiet.requireFit.reports ran))

theorem checkUnpackTarget_noted {element : TypeId} {target : Option Designator}
    (ran : Ran (checkUnpackTarget element target) before () after)
    (spans : setting.Spans (target.elim [] Designator.parts) before after) :
    ∀ place, target = some place → place.IsNoted setting ∧ setting.IsTarget place := by
  cases target with
  | none => exact fun _ some => nomatch some
  | some target =>
    rintro place ⟨rfl⟩
    obtain ⟨type, s₁, targetRan, ran⟩ := ran.bind
    refine targetType_noted targetRan (spans.reports (IsQuiet.reports ?_ ran))
    split_ifs
    · exact quiet.pure
    · exact quiet.requireAssignable

theorem requireArray_isClean (ran : Ran (requireArray designator type) before () after)
    (clean : after.IsClean) :
    type = .none ∨ before.table.kind type = .array := by
  replace ran := ran.table_bind
  have kept := require_isClean ran clean
  rw [Bool.or_eq_true, decide_eq_true_iff, decide_eq_true_iff] at kept
  exact kept

theorem requireUnpackable_isClean {source rest : TypeId}
    (ran : Ran (requireUnpackable source rest span) before () after) (clean : after.IsClean)
    (isTarget : before.table.kind rest = .array) (isArray : before.table.kind source = .array) :
    rest = .none ∨ source = .none ∨ before.table.element rest = .none ∨
      before.table.element source = before.table.element rest := by
  replace ran := ran.table_bind
  have kept := require_isClean ran clean
  simp only [isArray, isTarget, decide_true, Bool.and_self, Bool.not_true, Bool.false_or,
    Table.assignable] at kept
  split at kept
  next trivially =>
    simp only [Bool.or_eq_true, decide_eq_true_iff] at trivially
    rcases trivially with (rfl | isNone) | isNone
    · exact .inr (.inr (.inr rfl))
    · exact .inr (.inl isNone)
    · exact .inl isNone
  next =>
    rw [Bool.or_eq_true, decide_eq_true_iff, decide_eq_true_iff] at kept
    rw [Table.element, Table.element, if_pos isArray, if_pos isTarget]
    exact .inr (.inr kept)

theorem unpacks_of_isClean {sourceType : TypeId} {second third : Checker}
    (restRan : Ran (requireArray rest type) before () second)
    (sourceRan : Ran (requireArray source sourceType) second () third)
    (unpackRan : Ran (requireUnpackable sourceType type span) third () after)
    (clean : after.IsClean) :
    type = .none ∨ sourceType = .none ∨
      before.table.kind type = .array ∧ before.table.kind sourceType = .array ∧
        (before.table.element type = .none ∨
          before.table.element sourceType = before.table.element type) := by
  have cleanThird := (quiet.requireUnpackable.reports unpackRan).visits.tells.isClean clean
  have cleanSecond := (quiet.requireArray.reports sourceRan).visits.tells.isClean cleanThird
  have restKind := requireArray_isClean restRan cleanSecond
  have sourceKind := requireArray_isClean sourceRan cleanThird
  have fits := requireUnpackable_isClean unpackRan clean
  obtain ⟨_, rfl⟩ := quiet.requireArray.reports sourceRan
  obtain ⟨_, rfl⟩ := quiet.requireArray.reports restRan
  rcases restKind with isNone | isTarget
  · exact .inl isNone
  · rcases sourceKind with isNone | isArray
    · exact .inr (.inl isNone)
    · exact (fits isTarget isArray).imp_right fun fits => fits.imp_right fun same =>
        ⟨isTarget, isArray, same⟩

theorem checkUnpack_noted {targets : List (Option Designator)}
    (ran : Ran (checkUnpack span targets rest source) before () after)
    (spans : setting.Spans (Action.unpack span targets rest source).parts before after) :
    (Action.unpack span targets rest source).IsNoted setting := by
  obtain ⟨restType, s₁, restRan, ran⟩ := ran.bind
  obtain ⟨found, s₂, sourceRan, ran⟩ := ran.bind
  replace ran := ran.symbol_bind
  obtain ⟨_, s₃, restArrayRan, ran⟩ := ran.bind
  obtain ⟨_, s₄, sourceArrayRan, ran⟩ := ran.bind
  replace ran := ran.table_bind
  obtain ⟨_, s₅, unpackRan, ran⟩ := ran.bind
  have valid := spans.covers.valid
  have restVisits := (walksOver_targetType rest).visits restRan valid
  have sourceVisits := (walksOver_resolve source).visits sourceRan (restVisits.table.valid valid)
  have told := ((quiet.requireArray.reports restArrayRan).trans
    (quiet.requireArray.reports sourceArrayRan)).trans
    (quiet.requireUnpackable.reports unpackRan)
  have visits := (restVisits.trans sourceVisits).then_reports told
  have walks := fun element => WalksOver.forM (walksOver_checkUnpackTarget element) targets
  obtain ⟨spans, targetsSpans⟩ := spans.cut visits
    ((walks _).visits ran (visits.table.valid valid))
  obtain ⟨restSpans, sourceSpans⟩ := (spans.reports told).split (walksOver_targetType rest) restRan
    (walksOver_resolve source) sourceRan
  obtain ⟨restNoted, restTarget⟩ := targetType_noted restRan restSpans
  have targetsNoted := forM_noted (walksOver_checkUnpackTarget _)
    (fun _ _ _ => checkUnpackTarget_noted) ran targetsSpans
  obtain ⟨sourceNoted, sourceSymbol, sourceHas⟩ := resolve_noted sourceRan sourceSpans
  refine ⟨restNoted, restTarget, sourceNoted, fun target member =>
    targetsNoted (some target) member target rfl, ?_⟩
  obtain ⟨array, isArray, arrayHas, rfl⟩ := targetType_typed restRan restSpans
  have fits := unpacks_of_isClean restArrayRan sourceArrayRan unpackRan spans.ends.clean
  have restGrows := restSpans.ends.grows
  have grows := sourceSpans.ends.grows
  have restValid := restVisits.table.valid valid
  have restHas := sourceVisits.table.grows.hasType (restValid.hasType_symbol array)
  have sourceHasType := (sourceVisits.table.valid restValid).hasType_symbol found
  refine ⟨array, found, isArray, sourceSymbol, ?_⟩
  simp only [Setting.Unpacks, restGrows.symbol_type arrayHas, grows.symbol_type sourceHas,
    grows.kind restHas, grows.kind sourceHasType, grows.element restHas,
    grows.element sourceHasType]
  exact fits

theorem checkAction_noted {action : Action} (ran : Ran (checkAction action) before () after)
    (spans : setting.Spans action.parts before after) :
    action.IsNoted setting := by
  cases action with
  | assign span target value =>
    obtain ⟨found, s₁, targetRan, ran⟩ := ran.bind
    obtain ⟨type, s₂, valueRan, ran⟩ := ran.bind
    replace ran := ran.symbol_bind
    have told := quiet.requireAssignable.reports ran
    obtain ⟨targetSpans, valueSpans⟩ := (spans.reports told).split (walksOver_resolveTarget target)
      targetRan (walksOver_typeOf value) valueRan
    obtain ⟨targetNoted, isTarget⟩ := resolveTarget_noted targetRan targetSpans
    exact ⟨targetNoted, isTarget, (typeOf_noted valueRan valueSpans).1⟩
  | increment span target => exact checkStep_noted ran spans
  | decrement span target => exact checkStep_noted ran spans
  | call span call =>
    obtain ⟨_, callRan⟩ := ran.discard
    exact (checkCall_noted callRan spans).1
  | unpack span targets rest source => exact checkUnpack_noted ran spans

theorem checkActions_noted {actions : List Action}
    (ran : Ran (actions.forM checkAction) before () after)
    (spans : setting.Spans (actions.flatMap Action.parts) before after) :
    ∀ action ∈ actions, action.IsNoted setting :=
  forM_noted walksOver_checkAction (fun _ _ _ => checkAction_noted) ran spans

theorem checkReturn_noted {value : Option Expr} (ran : Ran (checkReturn span value) before () after)
    (spans : setting.Spans (value.elim [] Expr.parts) before after) :
    (∀ result, value = some result → result.IsNoted setting) ∧
      (value.isSome ↔ setting.result ≠ .none) := by
  replace ran := ran.get_bind
  obtain ⟨method, isMethod, sameResult, _⟩ := spans.covers.method
  rw [← sameResult]
  simp only [isMethod] at ran
  cases value with
  | none =>
    obtain ⟨_, s₁, _, ran⟩ := ran.bind
    have isVoid := of_decide_eq_true (require_isClean ran spans.ends.clean)
    exact ⟨nofun, by simp [isVoid]⟩
  | some value =>
    obtain ⟨type, s₁, valueRan, ran⟩ := ran.bind
    obtain ⟨_, s₂, markRan, ran⟩ := ran.bind
    replace ran := ran.table_bind
    split_ifs at ran with isVoid
    · exact absurd spans.ends.clean (not_isClean_report ran)
    · refine ⟨?_, by simp [isVoid]⟩
      rintro result ⟨rfl⟩
      exact (typeOf_noted valueRan ((spans.reports (quiet.require.reports ran)).stop
        (markReturn_visits markRan))).1

theorem covers_insideLoop (covers : setting.Covers before) (depth : Nat) :
    setting.Covers { before with loopDepth := depth } :=
  ⟨covers.valid, covers.names, covers.qualified, covers.members, covers.ownMembers,
    covers.reachable, covers.method, covers.arity⟩

mutual

theorem checkStmt_noted {stmt : Stmt} {inLoop : Bool} {before after : Checker}
    (ran : Ran (checkStmt stmt) before () after) (loops : before.loopDepth ≠ 0 → inLoop)
    (spans : setting.Spans stmt.parts before after) :
    stmt.IsNoted setting inLoop := by
  unfold checkStmt at ran
  match stmt with
  | .action step => exact checkAction_noted ran spans
  | .ifThen _ condition body =>
    obtain ⟨_, s₁, testRan, bodyRan⟩ := ran.bind
    have visits := (walksOver_checkCondition condition).visits testRan spans.covers.valid
    obtain ⟨testSpans, bodySpans⟩ := spans.split (walksOver_checkCondition condition) testRan
      (walksOver_checkStmt body) bodyRan
    exact ⟨checkCondition_noted testRan testSpans,
      checkStmt_noted bodyRan (visits.loopDepth ▸ loops) bodySpans⟩
  | .ifElse _ condition body alternative =>
    obtain ⟨_, s₁, testRan, ran⟩ := ran.bind
    have visits := (walksOver_checkCondition condition).visits testRan spans.covers.valid
    rw [Stmt.parts, append_assoc] at spans
    obtain ⟨testSpans, spans⟩ := spans.split (walksOver_checkCondition condition) testRan
      (.bind (walksOver_checkStmt body) fun _ => walksOver_checkStmt alternative) ran
    obtain ⟨_, s₂, bodyRan, otherRan⟩ := ran.bind
    have bodyVisits := (walksOver_checkStmt body).visits bodyRan spans.covers.valid
    obtain ⟨bodySpans, otherSpans⟩ := spans.split (walksOver_checkStmt body) bodyRan
      (walksOver_checkStmt alternative) otherRan
    have loopsBody := visits.loopDepth ▸ loops
    exact ⟨checkCondition_noted testRan testSpans, checkStmt_noted bodyRan loopsBody bodySpans,
      checkStmt_noted otherRan (bodyVisits.loopDepth ▸ loopsBody) otherSpans⟩
  | .loop _ init condition update body =>
    have bodyWalks := walksOver_insideLoop (walksOver_checkStmt body)
    have updateWalks := WalksOver.bind (walksOver_checkActions update) fun _ => bodyWalks
    rw [Stmt.parts, append_assoc, append_assoc] at spans
    obtain ⟨_, s₁, initRan, ran⟩ := ran.bind
    obtain ⟨initSpans, spans⟩ := spans.split (walksOver_checkActions init) initRan
      (.bind (walksOver_checkTest condition) fun _ => updateWalks) ran
    obtain ⟨_, s₂, testRan, ran⟩ := ran.bind
    obtain ⟨testSpans, spans⟩ := spans.split (walksOver_checkTest condition) testRan updateWalks ran
    obtain ⟨_, s₃, updateRan, ran⟩ := ran.bind
    obtain ⟨updateSpans, spans⟩ := spans.split (walksOver_checkActions update) updateRan bodyWalks
      ran
    refine ⟨checkActions_noted initRan initSpans, ?_, checkActions_noted updateRan updateSpans, ?_⟩
    · rintro test rfl
      exact checkCondition_noted testRan testSpans
    · obtain ⟨_, s₄, enterRan, ran⟩ := ran.bind
      obtain ⟨_, s₅, bodyRan, leaveRan⟩ := ran.bind
      cases enterRan
      cases leaveRan
      obtain ⟨covers, ⟨clean, grows, agrees⟩, distinct⟩ := spans
      exact checkStmt_noted bodyRan (fun _ => rfl)
        ⟨covers_insideLoop covers _, ⟨clean, grows, agrees⟩, distinct⟩
  | .breakLoop _ | .continueLoop _ =>
    replace ran := ran.get_bind
    exact loops (bne_iff_ne.mp (require_isClean ran spans.ends.clean))
  | .ret span value => exact checkReturn_noted ran spans
  | .read _ target =>
    obtain ⟨type, s₁, targetRan, ran⟩ := ran.bind
    have told := (quiet.bind quiet.typeText fun _ => quiet.requireFit).reports ran
    exact targetType_noted targetRan (spans.reports told)
  | .print _ value _ =>
    obtain ⟨type, s₁, valueRan, ran⟩ := ran.bind
    have told := (quiet.bind quiet.typeText fun _ => quiet.requireFit).reports ran
    exact (typeOf_noted valueRan (spans.reports told)).1
  | .block _ body => exact checkStmts_noted ran loops spans

/-- The annotations of statements, if there is no violation. -/
theorem checkStmts_noted {stmts : List Stmt} {inLoop : Bool} {before after : Checker}
    (ran : Ran (checkStmts stmts) before () after) (loops : before.loopDepth ≠ 0 → inLoop)
    (spans : setting.Spans (Stmt.partsOf stmts) before after) :
    Stmt.AreNoted setting inLoop stmts := by
  match stmts with
  | [] => trivial
  | first :: rest =>
    unfold checkStmts at ran
    obtain ⟨_, s₁, firstRan, restRan⟩ := ran.bind
    have visits := (walksOver_checkStmt first).visits firstRan spans.covers.valid
    obtain ⟨firstSpans, restSpans⟩ := spans.split (walksOver_checkStmt first) firstRan
      (walksOver_checkStmts rest) restRan
    exact ⟨checkStmt_noted firstRan loops firstSpans,
      checkStmts_noted restRan (visits.loopDepth ▸ loops) restSpans⟩

end

end Check
end MicroJava
