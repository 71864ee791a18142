import MicroJava.Proofs.Analysis.Walks

/-!
# What the analysis does not look at

A walk under tuned options is the same walk, without the notes that are not wanted any more.
-/

namespace MicroJava
namespace Check

variable
  {α : Type}
  {span : Span}
  {name owner param : String}
  {id : SymbolId}
  {overridden : Option SymbolId}
  {type result : TypeId}
  {receiver : Option TypeId}
  {types : List TypeId}
  {kind : SymbolKind}
  {method : MethodDecl}
  {decl : ClassDecl}
  {index : Nat}

theorem isBlind_closeFrame : IsBlind closeFrame := .change

/-! ## Declarations -/

theorem isBlind_insideMethod {body : Check α} {context : MethodContext} (isBlind : IsBlind body) :
    IsBlind (insideMethod context body) :=
  .read fun _ => .bind blind.onScopes fun _ => .bind .change fun _ => .bind isBlind fun _ =>
    .bind isBlind_closeFrame fun _ => .bind .change fun _ => .pure

theorem isBlind_checkBody : IsBlind (checkBody id receiver method result types overridden) :=
  .bind blind.checkParams fun _ => .bind (blind.forM fun _ => blind.checkVars) fun _ =>
    .bind (walksOver_checkStmts _).blind fun _ => .read fun _ => blind.require

theorem isBlind_checkMethod : IsBlind (checkMethod method) :=
  .bind blind.resolveResult fun _ => .bind (blind.mapM fun _ => blind.resolveType) fun _ =>
    .read fun _ => .bind blind.declareMethod fun _ => .bind blind.orUnbound fun _ =>
      .bind .change fun _ => .bind (isBlind_insideMethod isBlind_checkBody) fun _ =>
        blind.updateSymbol

theorem isBlind_checkStaticInit {init : StaticInit} : IsBlind (checkStaticInit owner index init) :=
  .bind blind.onTable fun _ => .bind .change fun _ => .bind .change fun _ =>
    .bind (isBlind_insideMethod (walksOver_checkStmts _).blind) fun _ => blind.updateSymbol

theorem isBlind_checkMembers : IsBlind (checkMembers name decl) :=
  .bind (blind.forM fun _ => blind.checkStaticVars) fun _ =>
    .bind (blind.forM fun _ => isBlind_checkStaticInit) fun _ =>
      .bind (blind.forM fun _ => blind.checkVars) fun _ => blind.forM fun _ => isBlind_checkMethod

theorem isBlind_checkClass : IsBlind (checkClass decl) :=
  .read fun _ => .bind blind.parentOf fun _ => .bind blind.onTable fun _ =>
    .bind .change fun _ => .bind (blind.discard blind.declareIn) fun _ =>
      .bind .change fun _ => .bind blind.onScopes fun _ => .bind blind.inheritMembers fun _ =>
        .read fun _ => .bind .change fun _ => .bind isBlind_checkMembers fun _ =>
          .bind isBlind_closeFrame fun _ => .bind blind.table fun _ =>
            .bind blind.updateType fun _ => .bind .change fun _ => blind.inform

theorem isBlind_checkDecl (decl : Decl) : IsBlind (checkDecl decl) := by
  cases decl with
  | consts decl => exact blind.checkConsts
  | vars decl => exact blind.checkVars
  | type decl => exact isBlind_checkClass

/-! ## Programs -/

theorem isBlind_seed : IsBlind (seed kind name type) := .bind blind.bindName fun _ => .pure

theorem isBlind_seedMethod : IsBlind (seedMethod name result param type) :=
  .bind isBlind_seed fun _ => .bind blind.onTable fun _ => .bind blind.updateSymbol fun _ =>
    .pure

theorem isBlind_seedUniverse : IsBlind seedUniverse :=
  .bind blind.onScopes fun _ => .bind (blind.discard isBlind_seed) fun _ =>
    .bind (blind.discard isBlind_seed) fun _ => .bind (blind.discard isBlind_seed) fun _ =>
      .bind isBlind_seed fun _ => .bind blind.updateSymbol fun _ =>
        .bind (blind.discard isBlind_seed) fun _ => .bind isBlind_seedMethod fun _ =>
          .bind isBlind_seedMethod fun _ => .bind isBlind_seedMethod fun _ => .change

theorem isBlind_checkMain : IsBlind (checkMain span) :=
  .read fun _ => .bind blind.require fun _ => .pure

theorem isBlind_checkUnit {decls : List Decl} {methods : List MethodDecl} :
    IsBlind (checkUnit decls methods) :=
  .bind (blind.forM isBlind_checkDecl) fun _ => blind.forM fun _ => isBlind_checkMethod

theorem isBlind_checkSpace {space : Namespace} : IsBlind (checkSpace space) :=
  .bind .change fun _ => .bind isBlind_checkUnit fun _ => .change

theorem isBlind_checkProgram {program : Program} : IsBlind (checkProgram program) :=
  .bind isBlind_seedUniverse fun _ => .bind isBlind_seed fun _ => .bind blind.onScopes fun _ =>
    .bind (blind.forM fun _ => isBlind_checkSpace) fun _ => .bind isBlind_checkUnit fun _ =>
      .bind isBlind_checkMain fun _ => .bind isBlind_closeFrame fun _ =>
        .bind blind.updateSymbol fun _ => .bind blind.onScopes fun _ => .pure

end Check

/-- An analysis under tuned options. -/
theorem analyze_tuned (options : Options) (tuning : Tuning) (program : Program)
    (fresh : tuning.earlier = #[]) :
    analyze (options.tuned tuning) program =
      { analyze options program with
        diagnostics := (analyze options program).diagnostics.filter tuning.keeps } := by
  have start : ({ options := options.tuned tuning } : Checker) =
      Checker.tuned { options := options } tuning := by
    simp [Checker.tuned, fresh]
  simp only [analyze, StateT.run]
  rw [start, Check.isBlind_checkProgram tuning]
  simp only [Checker.tuned, fresh, Array.empty_append, Array.toList_filter]
  rfl

end MicroJava
