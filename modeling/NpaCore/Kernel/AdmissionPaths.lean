import NpaCore.Kernel.Diagnosed
import NpaCore.Kernel.MemoInvisible

/-!
# The admission paths agree

The plain methods, the diagnosed methods with diagnostics off and the diagnosed
metered methods ask the same questions in the same order. What a question answers
does not depend on the path: conversion and inference return the same with and
without a memo, with either version of the comparison and under all execution
options.

## Main result

`admission_paths_agree`: on every environment the paths are the same method, with the
same result, the same error and the same environment at the end.
-/

namespace NpaCore.Kernel

/-! ### The questions -/

section Questions

variable {env : Env}

theorem isDefeqDiagnosedAt_realises (delta : List String) (depth : Nat) (ctx : Ctx)
    (lhs rhs : Expr) :
    Realises env .conversion (· < depth) (isDefeqDiagnosedAt env delta depth ctx lhs rhs)
      (DefeqSpends env ctx lhs rhs) := by
  induction depth generalizing ctx lhs rhs with
  | zero =>
    intro s _ none
    exact absurd none (Nat.not_lt_zero _)
  | succ depth ih =>
    -- the body is the one of the plain comparison, without its lookup in the memo
    exact isDefeqBody_realises memoFree delta ih ctx lhs .borrowed rhs .borrowed

theorem isDefeqDiagnosed_realises (ctx : Ctx) (delta : List String) (lhs rhs : Expr) :
    Realises env .conversion (fun _ => True)
      (isDefeqWithRemainingFuelDiagnosed env ctx delta lhs rhs) (DefeqSpends env ctx lhs rhs) := by
  refine realises_get fun session => ?_
  refine (isDefeqDiagnosedAt_realises delta _ ctx lhs rhs).mono ?_ fun _ _ _ _ h => h
  rintro fuel ⟨_, rfl⟩
  exact Nat.lt_succ_self _

theorem isDefeqDiagnosed_mirrors (layout : Layout) (ctx : Ctx) (delta : List String) (lhs : Expr)
    (lhsOrigin : MemoExprOrigin) (rhs : Expr) (rhsOrigin : MemoExprOrigin) :
    Mirrors env (isDefeqWithRemainingFuel env layout delta ctx lhs lhsOrigin rhs rhsOrigin)
      (isDefeqWithRemainingFuelDiagnosed env ctx delta lhs rhs) :=
  mirrors_of_realises (regular_defeqSpends ctx lhs rhs)
    (isDefeqWithRemainingFuel_realises layout delta ctx lhs lhsOrigin rhs rhsOrigin)
    (isDefeqDiagnosed_realises ctx delta lhs rhs)

section Infer

variable (layout : Layout) (policy : FuelPolicy) (universeContext : UniverseContext)

theorem whnfDiagnosedQuestion_mirrors (ctx : Ctx) (origin : MemoExprOrigin) (term : Expr) :
    Mirrors env (whnfQuestion env layout policy universeContext ctx origin term)
      (whnfDiagnosedQuestion env diagnosedFuelLimits policy universeContext ctx term) :=
  mirrors_bind (mirrors_refuel policy _ _) fun _ => whnfMachine_mirrors _ _ _ _ _ _ _ _ _

theorem defeqDiagnosedQuestion_mirrors (ctx : Ctx) (lhs : Expr) (lhsOrigin : MemoExprOrigin)
    (rhs : Expr) (rhsOrigin : MemoExprOrigin) :
    Mirrors env (defeqQuestion env layout policy universeContext ctx lhs lhsOrigin rhs rhsOrigin)
      (defeqDiagnosedQuestion env diagnosedFuelLimits policy universeContext ctx lhs rhs) :=
  mirrors_bind (mirrors_refuel policy _ _) fun _ => isDefeqDiagnosed_mirrors _ _ _ _ _ _ _

theorem expectSortDiagnosedFrom_mirrors (ctx : Ctx) {x y : Op Expr} (h : Mirrors env x y) :
    Mirrors env (expectSortFrom env layout policy universeContext ctx x)
      (expectSortDiagnosedFrom env diagnosedFuelLimits policy universeContext ctx y) := by
  refine mirrors_bind h fun ty => ?_
  refine mirrors_bind (whnfDiagnosedQuestion_mirrors layout policy universeContext ctx .fresh ty) ?_
  intro actual
  cases actual with
  | sort level => exact mirrors_pure level
  | bvar _ | const _ _ | app _ _ | lam _ _ _ | pi _ _ _ => exact mirrors_fail _

theorem checkDiagnosedFrom_mirrors (ctx : Ctx) {x y : Op Expr} (h : Mirrors env x y)
    (expected : Expr) (origin : MemoExprOrigin) :
    Mirrors env (checkFrom env layout policy universeContext ctx x expected origin)
      (checkDiagnosedFrom env diagnosedFuelLimits policy universeContext ctx y expected) := by
  refine mirrors_bind h fun actual => ?_
  refine mirrors_bind (defeqDiagnosedQuestion_mirrors layout policy universeContext ctx actual
    .fresh expected origin) ?_
  intro same
  cases same with
  | true => exact mirrors_pure ()
  | false => exact mirrors_fail _

theorem inferDiagnosed_mirrors (ctx : Ctx) (term : Expr) :
    Mirrors env (inferTerm env layout policy universeContext ctx term)
      (inferDiagnosed env diagnosedFuelLimits policy universeContext ctx term) := by
  induction term generalizing ctx with
  | sort level => exact mirrors_bind (mirrors_lift _) fun _ => mirrors_pure _
  | bvar index => exact mirrors_lift _
  | const name levels => exact mirrors_lift _
  | pi binder ty body ihTy ihBody =>
    refine mirrors_bind (expectSortDiagnosedFrom_mirrors _ _ _ ctx (ihTy ctx)) fun domainSort => ?_
    refine mirrors_bind
      (expectSortDiagnosedFrom_mirrors _ _ _ _ (ihBody (ctx.pushAssumption ty))) ?_
    intro bodySort
    exact mirrors_pure _
  | lam binder ty body ihTy ihBody =>
    refine mirrors_bind (expectSortDiagnosedFrom_mirrors _ _ _ ctx (ihTy ctx)) fun _ => ?_
    refine mirrors_bind (ihBody (ctx.pushAssumption ty)) fun bodyTy => ?_
    exact mirrors_pure _
  | app fn arg ihFn ihArg =>
    refine mirrors_bind (ihFn ctx) fun fnTy => ?_
    refine mirrors_bind (whnfDiagnosedQuestion_mirrors _ _ _ ctx .fresh fnTy) fun actual => ?_
    cases actual with
    | pi binder ty body =>
      refine mirrors_bind (checkDiagnosedFrom_mirrors _ _ _ ctx (ihArg ctx) ty .retained) ?_
      exact fun _ => mirrors_lift _
    | sort _ | bvar _ | const _ _ | app _ _ | lam _ _ _ => exact mirrors_fail _

theorem universeBoundsDiagnosed_mirrors (data : InductiveDecl) (constructor : ConstructorDecl)
    (inductiveSort : Level) (domains : List Expr) (domainIndex : Nat) (ctx : Ctx) :
    Mirrors env
      (universeBoundsFrom env data constructor universeContext inductiveSort layout domains
        domainIndex ctx)
      (universeBoundsDiagnosedFrom env diagnosedFuelLimits data constructor universeContext
        inductiveSort domains domainIndex ctx) := by
  induction domains generalizing domainIndex ctx with
  | nil => exact mirrors_pure ()
  | cons domain rest ih =>
    refine mirrors_bind (expectSortDiagnosedFrom_mirrors layout .pooled universeContext ctx
      (inferDiagnosed_mirrors layout .pooled universeContext ctx domain)) fun fieldLevel => ?_
    split
    next =>
      refine mirrors_bind (mirrors_lift _) fun bounded => ?_
      exact mirrors_bind (mirrors_lift _) fun _ => ih _ _
    next => exact mirrors_bind (mirrors_pure ()) fun _ => ih _ _

end Infer

/-! ### The answers -/

theorem faithful_newMemo (options : KernelExecutionOptions) (whnfFuel conversionFuel : Nat) :
    FaithfulSession env ⟨options.newMemo, whnfFuel, conversionFuel⟩ := by
  cases options with
  | ephemeralMemo =>
    rintro _ ⟨⟩
    exact Filled.new.faithful
  | memoOff | repetitionProbe => exact faithful_none env _ _

/-- Runs that mirror each other answer the same from new sessions, whatever the options. -/
theorem Mirrors.answer {α : Type} {x y : Op α} (h : Mirrors env x y)
    (options options' : KernelExecutionOptions) (whnfFuel conversionFuel : Nat) :
    (x ⟨options.newMemo, whnfFuel, conversionFuel⟩).1 =
      (y ⟨options'.newMemo, whnfFuel, conversionFuel⟩).1 := by
  have same : SameFuel ⟨options.newMemo, whnfFuel, conversionFuel⟩
      ⟨options'.newMemo, whnfFuel, conversionFuel⟩ := ⟨rfl, rfl⟩
  exact (h _ _ same (faithful_newMemo _ _ _) (faithful_newMemo _ _ _)).1

variable (env) (alloc : Allocator)

theorem expectSortInUniverseContextDiagnosed_eq (ctx : Ctx) (universeContext : UniverseContext)
    (term : Expr) :
    expectSortInUniverseContextDiagnosed env ctx universeContext term diagnosedFuelLimits =
      env.expectSortInUniverseContext alloc ctx universeContext term :=
  ((expectSortDiagnosedFrom_mirrors _ _ _ _ (inferDiagnosed_mirrors _ _ _ _ _)).answer _ .memoOff _ _).symm

theorem checkInUniverseContextDiagnosed_eq (ctx : Ctx) (universeContext : UniverseContext)
    (term expected : Expr) :
    checkInUniverseContextDiagnosed env ctx universeContext term expected diagnosedFuelLimits =
      env.checkInUniverseContext alloc ctx universeContext term expected :=
  ((checkDiagnosedFrom_mirrors _ _ _ _ (inferDiagnosed_mirrors _ _ _ _ _) _ _).answer _ .memoOff _ _).symm

theorem whnfDiagnosed_eq (ctx : Ctx) (delta : List String) (term : Expr) :
    whnfDiagnosed env ctx delta term diagnosedFuelLimits.whnf = env.whnf alloc ctx delta term :=
  ((whnfMachine_mirrors _ _ _ _ _ _ _ _ _).answer _ .memoOff _ _).symm

theorem runDiagnosedConversion_eq (ctx : Ctx) (delta : List String) (lhs rhs : Expr) :
    runDiagnosedConversion env ctx delta lhs rhs diagnosedFuelLimits.conversion =
      env.isDefeq alloc ctx delta lhs rhs :=
  ((isDefeqDiagnosed_mirrors _ _ _ _ _ _ _).answer _ .memoOff _ _).symm

theorem ensureDefeqDiagnosedMetered_eq (ctx : Ctx) (delta : List String) (lhs rhs : Expr)
    (mismatch : Error) :
    ensureDefeqDiagnosedMetered env ctx delta lhs rhs mismatch diagnosedFuelLimits.conversion =
      (do
        let same ← env.isDefeq alloc ctx delta lhs rhs
        Result.ensure same mismatch) := by
  rw [ensureDefeqDiagnosedMetered, runDiagnosedConversion_eq env alloc]
  rcases env.isDefeq alloc ctx delta lhs rhs with _ | _ | _
  · rfl
  · rfl
  · rfl

end Questions

/-! ### The checks -/

section Checks

variable (env : Env) (alloc : Allocator)

theorem checkConstructorUniverseBoundsDiagnosed_eq (data : InductiveDecl)
    (constructor : ConstructorDecl) (domains : List Expr) (universeContext : UniverseContext) :
    checkConstructorUniverseBoundsDiagnosed env diagnosedFuelLimits data constructor domains
        universeContext =
      checkConstructorUniverseBounds env alloc data constructor domains universeContext := by
  simp only [checkConstructorUniverseBoundsDiagnosed, checkConstructorUniverseBounds]
  split
  next => rfl
  next =>
    have mirrors := @universeBoundsDiagnosed_mirrors env (alloc .new domains)
      universeContext data constructor (NpaCore.Level.normalizeLevel data.sort) domains 0 .new
    exact (mirrors _ _ (SameFuel.refl _) (faithful_none env _ _) (faithful_none env _ _)).1.symm

theorem checkConstructorDeclDiagnosed_eq (data : InductiveDecl) (constructor : ConstructorDecl)
    (universeContext : UniverseContext) :
    checkConstructorDeclDiagnosed env diagnosedFuelLimits data constructor universeContext =
      checkConstructorDecl env alloc data constructor universeContext := by
  simp only [checkConstructorDeclDiagnosed, checkConstructorDecl, checkConstructorWith,
    expectSortInUniverseContextDiagnosed_eq env alloc, whnfDiagnosed_eq env alloc,
    checkConstructorUniverseBoundsDiagnosed_eq env alloc]

theorem checkMutualConstructorDeclDiagnosed_eq (block : MutualInductiveBlock)
    (data : InductiveDecl) (constructor : ConstructorDecl) (universeContext : UniverseContext) :
    checkMutualConstructorDeclDiagnosed env diagnosedFuelLimits block data constructor
        universeContext =
      checkMutualConstructorDecl env alloc block data constructor universeContext := by
  simp only [checkMutualConstructorDeclDiagnosed, checkMutualConstructorDecl,
    checkConstructorWith, expectSortInUniverseContextDiagnosed_eq env alloc,
    whnfDiagnosed_eq env alloc, checkConstructorUniverseBoundsDiagnosed_eq env alloc]

theorem ensureDomainDefeqDiagnosed_eq (ctx : Ctx) (delta : List String) (domains : List Expr)
    (index : Nat) (expected : Expr) (mismatch : Error) :
    ensureDomainDefeqDiagnosed env diagnosedFuelLimits ctx delta domains index expected mismatch =
      (do
        let same ← match domains[index]? with
          | some domain => env.isDefeq alloc ctx delta domain expected
          | none => .ok false
        Result.ensure same mismatch) := by
  unfold ensureDomainDefeqDiagnosed
  cases domains[index]? with
  | none => rfl
  | some domain => exact ensureDefeqDiagnosedMetered_eq env alloc ctx delta domain expected mismatch

theorem recursorParamsDiagnosedFrom_eq (recursor : RecursorDecl) (domains : List Expr)
    (universeContext : UniverseContext) (params : List (Binder × Nat)) (ctx : Ctx) :
    recursorParamsDiagnosedFrom env diagnosedFuelLimits recursor domains universeContext params
        ctx =
      recursorParamsFrom env alloc recursor domains universeContext params ctx := by
  induction params generalizing ctx with
  | nil => rfl
  | cons param params ih =>
    simp only [recursorParamsDiagnosedFrom, recursorParamsFrom, ih,
      expectSortInUniverseContextDiagnosed_eq env alloc, ensureDomainDefeqDiagnosed_eq env alloc]
    cases domains[param.2]? with
    | none => rfl
    | some domain => simp only [bind_assoc]

theorem recursorIndicesDiagnosedFrom_eq (data : InductiveDecl) (recursor : RecursorDecl)
    (indexStart : Nat) (domains : List Expr) (universeContext : UniverseContext)
    (indices : List (Binder × Nat)) (sourceToTarget : List Nat) :
    recursorIndicesDiagnosedFrom env diagnosedFuelLimits data recursor indexStart domains
        universeContext indices sourceToTarget =
      recursorIndicesFrom env alloc data recursor indexStart domains universeContext indices
        sourceToTarget := by
  induction indices generalizing sourceToTarget with
  | nil => rfl
  | cons index indices ih =>
    simp only [recursorIndicesDiagnosedFrom, recursorIndicesFrom, ih,
      ensureDefeqDiagnosedMetered_eq env alloc, bind_assoc]

theorem checkRecursorParamsDiagnosed_eq (data : InductiveDecl) (recursor : RecursorDecl)
    (domains : List Expr) (universeContext : UniverseContext) :
    checkRecursorParamsDiagnosed env diagnosedFuelLimits data recursor domains universeContext =
      checkRecursorParams env alloc data recursor domains universeContext := by
  simp only [checkRecursorParamsDiagnosed, checkRecursorParams,
    recursorParamsDiagnosedFrom_eq env alloc]

theorem checkRecursorResultDiagnosed_eq (data : InductiveDecl) (recursor : RecursorDecl)
    (rules : RecursorRules) (domains : List Expr) (result : Expr)
    (universeContext : UniverseContext) :
    checkRecursorResultDiagnosed env diagnosedFuelLimits data recursor rules domains result
        universeContext =
      checkRecursorResult env alloc data recursor rules domains result universeContext := by
  simp only [checkRecursorResultDiagnosed, checkRecursorResult, checkRecursorResultWith,
    ensureDefeqDiagnosedMetered_eq env alloc]

theorem checkMutualRecursorResultDiagnosed_eq (data : InductiveDecl)
    (familyIndex indexStart : Nat) (recursor : RecursorDecl) (rules : RecursorRules)
    (domains : List Expr) (result : Expr) (universeContext : UniverseContext) :
    checkMutualRecursorResultDiagnosed env diagnosedFuelLimits data familyIndex indexStart recursor
        rules domains result universeContext =
      checkMutualRecursorResult env alloc data familyIndex indexStart recursor rules domains result
        universeContext := by
  simp only [checkMutualRecursorResultDiagnosed, checkMutualRecursorResult,
    checkRecursorResultWith, ensureDefeqDiagnosedMetered_eq env alloc]

/-- The minor premise of a constructor, in the words of the plain check. -/
theorem ensureMinorDiagnosed_eq (message : String) (recursor : RecursorDecl)
    (constructor : ConstructorDecl) (domains : List Expr) (minorIndex : Nat)
    (expectedMinor : Expr) (universeContext : UniverseContext) :
    ensureDomainDefeqDiagnosed env diagnosedFuelLimits
        (recursorPrefixCtx (domains.take minorIndex)) universeContext.params domains minorIndex
        expectedMinor (invalid [recursor.name, " minor premise for ", constructor.name, message]) =
      checkMinor env alloc message recursor constructor domains minorIndex expectedMinor
        universeContext :=
  ensureDomainDefeqDiagnosed_eq env alloc _ _ _ _ _ _

theorem checkRecursorDeclDiagnosed_eq (data : InductiveDecl) (recursor : RecursorDecl)
    (rules : RecursorRules) (universeContext : UniverseContext) :
    checkRecursorDeclDiagnosed env diagnosedFuelLimits data recursor rules universeContext =
      checkRecursorDecl env alloc data recursor rules universeContext := by
  simp only [checkRecursorDeclDiagnosed, checkRecursorDecl,
    checkRecursorParamsDiagnosed_eq env alloc, checkRecursorIndicesAtDiagnosed,
    checkRecursorIndicesAt, recursorIndicesDiagnosedFrom_eq env alloc,
    checkRecursorResultDiagnosed_eq env alloc, ensureMinorDiagnosed_eq env alloc]

theorem checkMutualRecursorDeclDiagnosed_eq (block : MutualInductiveBlock) (data : InductiveDecl)
    (recursor : RecursorDecl) (rules : RecursorRules) (universeContext : UniverseContext) :
    checkMutualRecursorDeclDiagnosed env diagnosedFuelLimits block data recursor rules
        universeContext =
      checkMutualRecursorDecl env alloc block data recursor rules universeContext := by
  simp only [checkMutualRecursorDeclDiagnosed, checkMutualRecursorDecl,
    checkRecursorParamsDiagnosed_eq env alloc, checkRecursorIndicesAtDiagnosed,
    checkRecursorIndicesAt, recursorIndicesDiagnosedFrom_eq env alloc,
    checkMutualRecursorResultDiagnosed_eq env alloc, ensureMinorDiagnosed_eq env alloc]

end Checks

/-! ### The metered methods -/

section Metered

variable (alloc : Allocator)

theorem addInductiveDiagnosedMetered_commits (data : InductiveDecl) :
    Run.Commits (EnvMut.addInductiveDiagnosedMetered diagnosedFuelLimits data) fun env =>
      env.addInductive alloc data := by
  refine Run.commits_lift fun universeContext => ?_
  refine Run.commits_lift fun _ => ?_
  refine Run.commits_ask (fun _ => rfl) fun _ => ?_
  refine Run.commits_ask
    (fun env => expectSortInUniverseContextDiagnosed_eq env alloc _ _ _) fun _ => ?_
  have constructors := fun env (constructor : ConstructorDecl) =>
    checkConstructorDeclDiagnosed_eq env alloc data constructor universeContext
  have sort := fun env (context : UniverseContext) (ty : Expr) =>
    expectSortInUniverseContextDiagnosed_eq env alloc .new context ty
  have recursors := fun env (recursor : RecursorDecl) (rules : RecursorRules) context =>
    checkRecursorDeclDiagnosed_eq env alloc data recursor rules context
  exact Run.commits_onClone (inductiveWork_leaves constructors sort recursors data)

theorem addMutualInductiveDiagnosedMetered_commits (block : MutualInductiveBlock) :
    Run.Commits (EnvMut.addMutualInductiveDiagnosedMetered diagnosedFuelLimits block) fun env =>
      env.addMutualInductive alloc block := by
  have sort : ∀ env universeContext ty,
      expectSortInUniverseContextDiagnosed env .new universeContext ty diagnosedFuelLimits =
        env.expectSortInUniverseContext alloc .new universeContext ty :=
    fun env universeContext ty => expectSortInUniverseContextDiagnosed_eq env alloc _ _ _
  refine Run.commits_lift fun first => ?_
  refine Run.commits_lift fun universeContext => ?_
  refine Run.commits_ask (fun _ => rfl) fun _ => ?_
  refine Run.commits_lift fun _ => ?_
  refine Run.commits_onClone ?_
  refine Run.leaves_bind (Run.leaves_forEach fun data => ?_) fun _ => ?_
  · exact Run.leaves_ask (fun env => sort env _ _) fun _ => Run.leaves_modify _
  refine Run.leaves_bind (Run.leaves_forEach fun data => ?_) fun _ => ?_
  · refine addConstructors_leaves ?_ data
    exact fun env constructor => checkMutualConstructorDeclDiagnosed_eq env alloc _ _ _ _
  refine Run.leaves_bind (Run.leaves_forEach fun data => ?_) fun _ => ?_
  · refine addRecursor_leaves sort ?_ _ data
    exact fun env recursor rules context => checkMutualRecursorDeclDiagnosed_eq env alloc _ _ _ _ _
  exact insertGroups_leaves _ _

theorem addDeclDiagnosedMetered_commits (declaration : Declaration) :
    Run.Commits (EnvMut.addDeclDiagnosedMetered diagnosedFuelLimits declaration) fun env =>
      env.addDecl alloc declaration := by
  cases declaration with
  | axiomDecl name universeParams universeConstraints ty =>
    refine Run.commits_ask (fun _ => rfl) fun _ => ?_
    refine Run.commits_lift fun universeContext => ?_
    refine Run.commits_ask
      (fun env => expectSortInUniverseContextDiagnosed_eq env alloc _ _ _) fun _ => ?_
    exact Run.commits_modify _
  | defDecl | theoremDecl =>
    refine Run.commits_ask (fun _ => rfl) fun _ => ?_
    refine Run.commits_lift fun universeContext => ?_
    refine Run.commits_ask
      (fun env => expectSortInUniverseContextDiagnosed_eq env alloc _ _ _) fun _ => ?_
    refine Run.commits_ask
      (fun env => checkInUniverseContextDiagnosed_eq env alloc _ _ _ _) fun _ => ?_
    exact Run.commits_modify _
  | inductiveDecl data => exact addInductiveDiagnosedMetered_commits alloc data
  | mutualInductiveBlock block => exact addMutualInductiveDiagnosedMetered_commits alloc block

theorem addDeclDiagnosedOff_commits (declaration : Declaration) :
    Run.Commits (EnvMut.addDeclDiagnosedOff alloc declaration) fun env =>
      env.addDecl alloc declaration := by
  cases declaration with
  | axiomDecl name universeParams universeConstraints ty =>
    exact EnvMut.addDecl_commits (.axiomDecl name universeParams universeConstraints ty)
  | inductiveDecl data => exact addInductive_commits data
  | mutualInductiveBlock block => exact addMutualInductive_commits block
  | defDecl | theoremDecl =>
    refine Run.commits_ask (fun _ => rfl) fun _ => ?_
    refine Run.commits_lift fun universeContext => ?_
    refine Run.commits_ask (fun _ => rfl) fun _ => ?_
    refine Run.commits_ask
      (fun env => checkInUniverseContextDiagnosed_eq env alloc _ _ _ _) fun _ => ?_
    exact Run.commits_modify _

end Metered

/-! ### The execution options -/

section Options

variable (env : Env) (options : KernelExecutionOptions) (alloc alloc' : Allocator)

theorem expectSortTerm_setOptions (layout : Layout) (policy : FuelPolicy)
    (universeContext : UniverseContext) (ctx : Ctx) (term : Expr) :
    expectSortTerm (env.setOptions options) layout policy universeContext ctx term =
      expectSortTerm env layout policy universeContext ctx term := by
  simp only [expectSortTerm, expectSortFrom, whnfQuestion, whnfMachine_setOptions,
    inferTerm_setOptions]

theorem expectSortInUniverseContext_setOptions (ctx : Ctx) (universeContext : UniverseContext)
    (term : Expr) :
    (env.setOptions options).expectSortInUniverseContext alloc ctx universeContext term =
      env.expectSortInUniverseContext alloc' ctx universeContext term := by
  rw [Env.expectSortInUniverseContext, expectSortTerm_setOptions]
  exact (expectSortFrom_mirrors _ _ _ _ _ (inferTerm_mirrors _ _ _ _ _ _)).answer _ _ _ _

theorem checkInUniverseContext_setOptions (ctx : Ctx) (universeContext : UniverseContext)
    (term expected : Expr) :
    (env.setOptions options).checkInUniverseContext alloc ctx universeContext term expected =
      env.checkInUniverseContext alloc' ctx universeContext term expected := by
  simp only [Env.checkInUniverseContext, checkTerm, checkFrom, defeqQuestion,
    isDefeqWithRemainingFuel_setOptions, inferTerm_setOptions]
  exact (checkFrom_mirrors _ _ _ _ _ (inferTerm_mirrors _ _ _ _ _ _) _ _).answer _ _ _ _

theorem whnf_setOptions (ctx : Ctx) (delta : List String) (term : Expr) :
    (env.setOptions options).whnf alloc ctx delta term = env.whnf alloc' ctx delta term := by
  rw [Env.whnf, Env.whnfWithFuel, whnfMachine_setOptions]
  exact (whnfMachine_mirrors _ _ _ _ _ _ _ _ _).answer _ _ _ _

theorem isDefeq_setOptions (ctx : Ctx) (delta : List String) (lhs rhs : Expr) :
    (env.setOptions options).isDefeq alloc ctx delta lhs rhs =
      env.isDefeq alloc' ctx delta lhs rhs := by
  rw [Env.isDefeq, Env.isDefeqWithFuel, isDefeqWithRemainingFuel_setOptions]
  exact (isDefeqWithRemainingFuel_mirrors _ _ _ _ _ _ _ _ _ _ _).answer _ _ _ _

theorem checkConstructorUniverseBounds_setOptions (data : InductiveDecl)
    (constructor : ConstructorDecl) (domains : List Expr) (universeContext : UniverseContext) :
    checkConstructorUniverseBounds (env.setOptions options) alloc data constructor domains
        universeContext =
      checkConstructorUniverseBounds env alloc' data constructor domains universeContext := by
  have loop : ∀ domains domainIndex ctx,
      universeBoundsFrom (env.setOptions options) data constructor universeContext
          (NpaCore.Level.normalizeLevel data.sort) memoFree domains domainIndex ctx =
        universeBoundsFrom env data constructor universeContext
          (NpaCore.Level.normalizeLevel data.sort) memoFree domains domainIndex ctx := by
    intro domains
    induction domains with
    | nil => exact fun _ _ => rfl
    | cons domain rest ih =>
      intro domainIndex ctx
      simp only [universeBoundsFrom, expectSortTerm_setOptions, ih]
  -- without a memo the layout is of no account
  have fixed : ∀ (alloc : Allocator) env,
      checkConstructorUniverseBounds env alloc data constructor domains universeContext =
        checkConstructorUniverseBounds env noReuse data constructor domains universeContext :=
    fun alloc env => (checkConstructorUniverseBoundsDiagnosed_eq env alloc _ _ _ _).symm.trans
      (checkConstructorUniverseBoundsDiagnosed_eq env noReuse _ _ _ _)
  rw [fixed alloc, fixed alloc', checkConstructorUniverseBounds, checkConstructorUniverseBounds]
  have layout : noReuse .new domains = memoFree := rfl
  rw [layout, loop]

theorem checkConstructorWith_setOptions (positive : Nat → Expr → Result Unit)
    (data : InductiveDecl) (constructor : ConstructorDecl) (universeContext : UniverseContext) :
    checkConstructorWith (env.setOptions options) alloc positive data constructor
        universeContext =
      checkConstructorWith env alloc' positive data constructor universeContext := by
  simp only [checkConstructorWith, expectSortInUniverseContext_setOptions env options alloc alloc',
    whnf_setOptions env options alloc alloc',
    checkConstructorUniverseBounds_setOptions env options alloc alloc']

theorem checkRecursorParams_setOptions (data : InductiveDecl) (recursor : RecursorDecl)
    (domains : List Expr) (universeContext : UniverseContext) :
    checkRecursorParams (env.setOptions options) alloc data recursor domains universeContext =
      checkRecursorParams env alloc' data recursor domains universeContext := by
  have loop : ∀ params ctx,
      recursorParamsFrom (env.setOptions options) alloc recursor domains universeContext params
          ctx =
        recursorParamsFrom env alloc' recursor domains universeContext params ctx := by
    intro params
    induction params with
    | nil => exact fun _ => rfl
    | cons param params ih =>
      intro ctx
      simp only [recursorParamsFrom, expectSortInUniverseContext_setOptions env options alloc alloc',
        isDefeq_setOptions env options alloc alloc', ih]
  simp only [checkRecursorParams, loop]

theorem checkRecursorIndicesAt_setOptions (data : InductiveDecl) (recursor : RecursorDecl)
    (indexStart : Nat) (domains : List Expr) (universeContext : UniverseContext) :
    checkRecursorIndicesAt (env.setOptions options) alloc data recursor indexStart domains
        universeContext =
      checkRecursorIndicesAt env alloc' data recursor indexStart domains universeContext := by
  have loop : ∀ indices sourceToTarget,
      recursorIndicesFrom (env.setOptions options) alloc data recursor indexStart domains
          universeContext indices sourceToTarget =
        recursorIndicesFrom env alloc' data recursor indexStart domains universeContext indices
          sourceToTarget := by
    intro indices
    induction indices with
    | nil => exact fun _ => rfl
    | cons index indices ih =>
      intro sourceToTarget
      simp only [recursorIndicesFrom, isDefeq_setOptions env options alloc alloc', ih]
  simp only [checkRecursorIndicesAt, loop]

theorem checkRecursorResultWith_setOptions (message : String) (motiveAbs indexStart : Nat)
    (data : InductiveDecl) (recursor : RecursorDecl) (rules : RecursorRules) (domains : List Expr)
    (result : Expr) (universeContext : UniverseContext) :
    checkRecursorResultWith (env.setOptions options) alloc message motiveAbs indexStart data
        recursor rules domains result universeContext =
      checkRecursorResultWith env alloc' message motiveAbs indexStart data recursor rules domains
        result universeContext := by
  simp only [checkRecursorResultWith, isDefeq_setOptions env options alloc alloc']

theorem checkMinor_setOptions (message : String) (recursor : RecursorDecl)
    (constructor : ConstructorDecl) (domains : List Expr) (minorIndex : Nat) (expectedMinor : Expr)
    (universeContext : UniverseContext) :
    checkMinor (env.setOptions options) alloc message recursor constructor domains minorIndex
        expectedMinor universeContext =
      checkMinor env alloc' message recursor constructor domains minorIndex expectedMinor
        universeContext := by
  simp only [checkMinor, isDefeq_setOptions env options alloc alloc']

theorem checkRecursorDecl_setOptions (data : InductiveDecl) (recursor : RecursorDecl)
    (rules : RecursorRules) (universeContext : UniverseContext) :
    checkRecursorDecl (env.setOptions options) alloc data recursor rules universeContext =
      checkRecursorDecl env alloc' data recursor rules universeContext := by
  simp only [checkRecursorDecl, checkRecursorResult,
    checkRecursorParams_setOptions env options alloc alloc',
    checkRecursorIndicesAt_setOptions env options alloc alloc',
    checkRecursorResultWith_setOptions env options alloc alloc',
    checkMinor_setOptions env options alloc alloc']

theorem checkMutualRecursorDecl_setOptions (block : MutualInductiveBlock) (data : InductiveDecl)
    (recursor : RecursorDecl) (rules : RecursorRules) (universeContext : UniverseContext) :
    checkMutualRecursorDecl (env.setOptions options) alloc block data recursor rules
        universeContext =
      checkMutualRecursorDecl env alloc' block data recursor rules universeContext := by
  simp only [checkMutualRecursorDecl, checkMutualRecursorResult,
    checkRecursorParams_setOptions env options alloc alloc',
    checkRecursorIndicesAt_setOptions env options alloc alloc',
    checkRecursorResultWith_setOptions env options alloc alloc',
    checkMinor_setOptions env options alloc alloc']

end Options

/-- Two ways to compute the next environment, of which the first carries other options. -/
def CarriesOptions (next next' : Env → Result Env) : Prop :=
  ∀ env options, next (env.setOptions options) = (next' env).map fun env => env.setOptions options

section Carries

theorem carries_ok (f : Env → Env)
    (same : ∀ env options, f (env.setOptions options) = (f env).setOptions options) :
    CarriesOptions (fun env => .ok (f env)) fun env => .ok (f env) := by
  intro env options
  simp only [same, Except.map]

theorem carries_ask {α : Type} {question question' : Env → Result α} {f f' : α → Env → Result Env}
    (same : ∀ env options, question (env.setOptions options) = question' env)
    (rest : ∀ a, CarriesOptions (f a) (f' a)) :
    CarriesOptions (fun env => question env >>= fun a => f a env) fun env =>
      question' env >>= fun a => f' a env := by
  intro env options
  simp only [same]
  cases question' env with
  | error e => rfl
  | ok a => exact rest a env options

theorem carries_bind {first first' second second' : Env → Result Env}
    (hfirst : CarriesOptions first first') (hsecond : CarriesOptions second second') :
    CarriesOptions (fun env => first env >>= second) fun env => first' env >>= second' := by
  intro env options
  simp only [hfirst env options]
  cases first' env with
  | error e => rfl
  | ok next => exact hsecond next options

theorem carries_foldEach {α : Type} {step step' : Env → α → Result Env} (items : List α)
    (each : ∀ item, CarriesOptions (fun env => step env item) fun env => step' env item) :
    CarriesOptions (fun env => Result.foldEach items env step) fun env =>
      Result.foldEach items env step' := by
  induction items with
  | nil => exact carries_ok id fun _ _ => rfl
  | cons item rest ih => exact carries_bind (each item) ih

theorem ensureNamesFresh_setOptions (env : Env) (options : KernelExecutionOptions)
    (names seen : List String) :
    (env.setOptions options).ensureNamesFresh seen names = env.ensureNamesFresh seen names := by
  induction names generalizing seen with
  | nil => rfl
  | cons name names ih =>
    simp only [Env.ensureNamesFresh, ih]
    rfl

theorem insertGroups_setOptions (group : MutualGroupInfo) (names : List String) (env : Env)
    (options : KernelExecutionOptions) :
    names.foldl (fun candidate name => candidate.insertGroup group name)
        (env.setOptions options) =
      (names.foldl (fun candidate name => candidate.insertGroup group name) env).setOptions
        options := by
  induction names generalizing env with
  | nil => rfl
  | cons name names ih =>
    rw [List.foldl_cons, List.foldl_cons]
    exact ih (env.insertGroup group name)

variable (alloc alloc' : Allocator)

theorem addRecursor_carries (universeConstraints : List UniverseConstraint)
    {check check' : Env → RecursorDecl → RecursorRules → UniverseContext → Result Unit}
    (same : ∀ env options recursor rules context,
      check (env.setOptions options) recursor rules context = check' env recursor rules context)
    (generated : RecursorRules) (data : InductiveDecl) :
    CarriesOptions
      (fun env => env.addRecursor alloc universeConstraints check generated data)
      (fun env => env.addRecursor alloc' universeConstraints check' generated data) := by
  unfold Env.addRecursor
  cases data.recursor with
  | none => exact carries_ok id fun _ _ => rfl
  | some recursor =>
    refine carries_ask (fun _ _ => rfl) fun context => ?_
    refine carries_ask (fun env options =>
      expectSortInUniverseContext_setOptions env options alloc alloc' _ _ _) fun _ => ?_
    refine carries_ask (fun env options => same env options recursor _ context) fun _ => ?_
    exact carries_ok (fun env => env.insertRecursor data recursor _) fun _ _ => rfl

theorem addInductive_carries (data : InductiveDecl) :
    CarriesOptions (fun env => env.addInductive alloc data) fun env =>
      env.addInductive alloc' data := by
  refine carries_ask (fun _ _ => rfl) fun universeContext => ?_
  refine carries_ask (fun _ _ => rfl) fun _ => ?_
  refine carries_ask (fun env options => ensureNamesFresh_setOptions env options _ _) fun _ => ?_
  refine carries_ask (fun env options =>
    expectSortInUniverseContext_setOptions env options alloc alloc' _ _ _) fun _ => ?_
  refine carries_bind (fun env options => ?_) (addRecursor_carries alloc alloc' _
    (fun env options => checkRecursorDecl_setOptions env options alloc alloc' data) _ data)
  refine carries_foldEach data.constructors (fun constructor => ?_) (env.insertInductive data)
    options
  refine carries_ask (fun env options => checkConstructorWith_setOptions env options alloc alloc'
    (checkConstructorDomainPositive env data constructor.name) data constructor universeContext)
    fun _ => ?_
  exact carries_ok (fun env => env.insertConstructor data constructor) fun _ _ => rfl

theorem addMutualInductive_carries (block : MutualInductiveBlock) :
    CarriesOptions (fun env => env.addMutualInductive alloc block) fun env =>
      env.addMutualInductive alloc' block := by
  refine carries_ask (fun _ _ => rfl) fun first => ?_
  refine carries_ask (fun _ _ => rfl) fun universeContext => ?_
  refine carries_ask (fun env options => ensureNamesFresh_setOptions env options _ _) fun _ => ?_
  refine carries_ask (fun _ _ => rfl) fun _ => ?_
  refine carries_bind (carries_foldEach block.inductives fun data => ?_) ?_
  · refine carries_ask (fun env options =>
      expectSortInUniverseContext_setOptions env options alloc alloc' _ _ _) fun _ => ?_
    exact carries_ok (fun env => env.insertInductive data) fun _ _ => rfl
  refine carries_bind (carries_foldEach block.inductives fun data => ?_) ?_
  · refine carries_foldEach data.constructors fun constructor => ?_
    refine carries_ask (fun env options => checkConstructorWith_setOptions env options alloc alloc'
      (checkMutualConstructorDomainPositive env block data constructor.name) data constructor
        universeContext) fun _ => ?_
    exact carries_ok (fun env => env.insertConstructor data constructor) fun _ _ => rfl
  refine carries_bind (carries_foldEach block.inductives fun data => ?_) ?_
  · exact addRecursor_carries alloc alloc' block.universeConstraints
      (fun env options => checkMutualRecursorDecl_setOptions env options alloc alloc' block data)
      (generatedMutualRecursorRules block data) data
  exact carries_ok _ (insertGroups_setOptions _ _)

theorem addDecl_carries (declaration : Declaration) :
    CarriesOptions (fun env => env.addDecl alloc declaration) fun env =>
      env.addDecl alloc' declaration := by
  cases declaration with
  | axiomDecl name universeParams universeConstraints ty =>
    refine carries_ask (fun _ _ => rfl) fun _ => ?_
    refine carries_ask (fun _ _ => rfl) fun universeContext => ?_
    refine carries_ask (fun env options =>
      expectSortInUniverseContext_setOptions env options alloc alloc' _ _ _) fun _ => ?_
    exact carries_ok (fun env => env.insertDecl name _) fun _ _ => rfl
  | defDecl name | theoremDecl name =>
    refine carries_ask (fun _ _ => rfl) fun _ => ?_
    refine carries_ask (fun _ _ => rfl) fun universeContext => ?_
    refine carries_ask (fun env options =>
      expectSortInUniverseContext_setOptions env options alloc alloc' _ _ _) fun _ => ?_
    refine carries_ask (fun env options =>
      checkInUniverseContext_setOptions env options alloc alloc' _ _ _ _) fun _ => ?_
    exact carries_ok (fun env => env.insertDecl name _) fun _ _ => rfl
  | inductiveDecl data => exact addInductive_carries alloc alloc' data
  | mutualInductiveBlock block => exact addMutualInductive_carries alloc alloc' block

theorem addDecl_keeps_options {env next : Env} {declaration : Declaration}
    (h : env.addDecl alloc declaration = .ok next) :
    next.executionOptions = env.executionOptions := by
  have carried : env.addDecl alloc declaration =
      (env.addDecl alloc declaration).map fun next => next.setOptions env.executionOptions :=
    addDecl_carries alloc alloc declaration env env.executionOptions
  rw [h, Except.map] at carried
  rw [Except.ok.inj carried]
  rfl

theorem addDeclDiagnosedUnobserved_commits (declaration : Declaration) :
    Run.Commits (EnvMut.addDeclDiagnosedUnobserved alloc declaration) fun env =>
      env.addDecl alloc declaration := by
  intro env
  have unfolded : EnvMut.addDeclDiagnosedUnobserved alloc declaration env =
      (if !env.executionOptions.needsReuseState then EnvMut.addDeclDiagnosedOff alloc declaration
      else do
        Run.modify fun self => self.setOptions .memoOff
        let result ← Run.attempt (EnvMut.addDeclDiagnosedOff alloc declaration)
        Run.modify fun candidate => candidate.setOptions env.executionOptions
        Run.lift result : EnvMut) env := rfl
  rw [unfolded]
  split
  next => exact addDeclDiagnosedOff_commits alloc declaration env
  next =>
    have restored : (do
        Run.modify fun self => self.setOptions .memoOff
        let result ← Run.attempt (EnvMut.addDeclDiagnosedOff alloc declaration)
        Run.modify fun candidate => candidate.setOptions env.executionOptions
        Run.lift result : EnvMut) env =
          ((EnvMut.addDeclDiagnosedOff alloc declaration (env.setOptions .memoOff)).1,
            (EnvMut.addDeclDiagnosedOff alloc declaration (env.setOptions .memoOff)).2.setOptions
              env.executionOptions) := rfl
    rw [restored, addDeclDiagnosedOff_commits alloc declaration (env.setOptions .memoOff),
      addDecl_carries alloc alloc declaration env .memoOff]
    dsimp only
    cases h : env.addDecl alloc declaration with
    | error e => rfl
    | ok next =>
      have options := addDecl_keeps_options alloc h
      simp only [Except.map, Env.setOptions, ← options]

end Carries

/-! ### The paths -/

/-- On every environment and for every declaration, the diagnosed method with diagnostics
    off, the diagnosed metered method and the diagnosed method with any report mode are the
    plain method: they return the same result and leave the same environment. -/
theorem admission_paths_agree (alloc alloc' : Allocator) (declaration : Declaration) :
    EnvMut.addDeclDiagnosedUnobserved alloc' declaration = EnvMut.addDecl alloc declaration ∧
    EnvMut.addDeclDiagnosedMetered diagnosedFuelLimits declaration =
      EnvMut.addDecl alloc declaration ∧
    ∀ observed fuelReport,
      EnvMut.addDeclDiagnosedWithOptions alloc' observed fuelReport declaration =
        EnvMut.addDecl alloc declaration := by
  have metered : ∀ alloc, EnvMut.addDeclDiagnosedMetered diagnosedFuelLimits declaration =
      EnvMut.addDecl alloc declaration := fun alloc =>
    (addDeclDiagnosedMetered_commits alloc declaration).unique (EnvMut.addDecl_commits declaration)
  have unobserved : EnvMut.addDeclDiagnosedUnobserved alloc' declaration =
      EnvMut.addDecl alloc declaration := by
    rw [← metered alloc, metered alloc']
    exact (addDeclDiagnosedUnobserved_commits alloc' declaration).unique
      (EnvMut.addDecl_commits declaration)
  refine ⟨unobserved, metered alloc, ?_⟩
  intro observed fuelReport
  unfold EnvMut.addDeclDiagnosedWithOptions
  split
  next => exact unobserved
  next => exact metered alloc

end NpaCore.Kernel
