import NpaCore.Kernel.PooledFuel
import NpaCore.Tactic.Extraction

/-!
# Checks that carry over

A check that succeeds also does so on more fuel, and in a later store in which the references
that it has asked for have the same answers. Both are one induction on the expression.

## Main results

* `checkProofExpr_carries`: a successful check, on more fuel and in another store.
* `inferMetaRef_extends`: references are answered alike in later stores.
-/

namespace NpaCore.Tactic

open NpaCore.Kernel (Ctx Allocator UniverseContext)

/-- So much more fuel of both kinds. -/
def TacticRunFuel.add (extra fuel : TacticRunFuel) : TacticRunFuel :=
  ⟨fuel.whnfSteps + extra.whnfSteps, fuel.conversionSteps + extra.conversionSteps⟩

/-! ### The kernel's operations -/

section Kernel

variable {env : Kernel.Env} {alloc : Allocator} {delta : List String} {metaId : MetaVarId}
  (extra : TacticRunFuel)

theorem kernelInfer_carries (ctx : Ctx) (term : Kernel.Expr) :
    Run.Carries extra.add (kernelInferWithBudget env alloc delta metaId ctx term)
      (kernelInferWithBudget env alloc delta metaId ctx term) := by
  intro fuel ty left h
  cases context : UniverseContext.fromParams delta with
  | error error =>
    simp only [kernelInferWithBudget, inferWithFuelMetered, context, Except.mapError,
      Prod.mk.injEq, reduceCtorEq, false_and] at h
  | ok universeContext =>
    simp only [kernelInferWithBudget, inferWithFuelMetered, context, Prod.mk.injEq,
      Result.mapError_eq_ok] at h ⊢
    obtain ⟨inferred, rfl⟩ := h
    obtain ⟨after, run, wider⟩ := Kernel.inferWithFuelMetered_widens alloc
      extra.whnfSteps extra.conversionSteps (Prod.ext inferred rfl)
    simp only [TacticRunFuel.add, run, wider.whnfFuel, wider.conversionFuel, and_self]

theorem kernelWhnf_carries (ctx : Ctx) (term : Kernel.Expr) :
    Run.Carries extra.add (kernelWhnfWithBudget env alloc delta metaId ctx term)
      (kernelWhnfWithBudget env alloc delta metaId ctx term) := by
  intro fuel value left h
  simp only [kernelWhnfWithBudget, Prod.mk.injEq, Result.mapError_eq_ok] at h ⊢
  obtain ⟨reduced, rfl⟩ := h
  have realised : Kernel.Realises env .whnf (fun _ => True)
      (Kernel.whnfMachine env (alloc ctx [term]) ctx delta .whnf .borrowed term) _ :=
    Kernel.whnfMachine_realises .borrowed term
  have wider : Kernel.Wider extra.whnfSteps 0 (env.newSession fuel.whnfSteps 0)
      (env.newSession (fuel.whnfSteps + extra.whnfSteps) 0) := ⟨rfl, rfl⟩
  obtain ⟨after, run, wider, _⟩ := Kernel.widens_of_realises (Kernel.regular_whnfSpends .whnf term)
    realised realised (Kernel.faithful_newSession env _ _) (Kernel.faithful_newSession env _ _) wider
    (Prod.ext reduced rfl)
  simp only [TacticRunFuel.add, run, wider.whnfFuel, and_self]

theorem kernelIsDefeq_carries (ctx : Ctx) (lhs rhs : Kernel.Expr) :
    Run.Carries extra.add (kernelIsDefeqWithBudget env alloc delta metaId ctx lhs rhs)
      (kernelIsDefeqWithBudget env alloc delta metaId ctx lhs rhs) := by
  intro fuel answer left h
  simp only [kernelIsDefeqWithBudget, Prod.mk.injEq, Result.mapError_eq_ok] at h ⊢
  obtain ⟨compared, rfl⟩ := h
  have realised : Kernel.Realises env .conversion (fun _ => True)
      (Kernel.isDefeqWithRemainingFuel env (alloc ctx [lhs, rhs]) delta ctx lhs .borrowed rhs
        .borrowed) _ :=
    Kernel.isDefeqWithRemainingFuel_realises _ delta ctx lhs .borrowed rhs .borrowed
  have wider : Kernel.Wider 0 extra.conversionSteps (env.newSession 0 fuel.conversionSteps)
      (env.newSession 0 (fuel.conversionSteps + extra.conversionSteps)) := ⟨rfl, rfl⟩
  obtain ⟨after, run, wider, _⟩ := Kernel.widens_of_realises (Kernel.regular_defeqSpends ctx lhs rhs)
    realised realised (Kernel.faithful_newSession env _ _) (Kernel.faithful_newSession env _ _) wider
    (Prod.ext compared rfl)
  simp only [TacticRunFuel.add, run, wider.conversionFuel, and_self]

theorem kernelExpectSort_carries (ctx : Ctx) (term : Kernel.Expr) :
    Run.Carries extra.add (kernelExpectSortWithBudget env alloc delta metaId ctx term)
      (kernelExpectSortWithBudget env alloc delta metaId ctx term) := by
  apply Run.carries_bind (kernelInfer_carries extra ctx term)
  intro ty
  apply Run.carries_bind (kernelWhnf_carries extra ctx ty)
  intro whnf
  cases whnf with
  | sort _ => exact Run.carries_pure ()
  | bvar _ | const _ _ | app _ _ | lam _ _ _ | pi _ _ _ => exact Run.carries_fail

theorem pushLocals_carries (names : List String) (ctx : Ctx) (locals : LocalContext) :
    Run.Carries extra.add (pushLocals env alloc delta metaId names ctx locals)
      (pushLocals env alloc delta metaId names ctx locals) := by
  induction locals generalizing names ctx with
  | nil => exact Run.carries_pure ctx
  | cons localDecl rest ih =>
    rw [pushLocals]
    split
    next => exact Run.carries_fail
    next => exact Run.carries_bind (kernelExpectSort_carries extra ctx localDecl.ty) fun _ => ih _ _

theorem localContextToCtx_carries (ctx : LocalContext) :
    Run.Carries extra.add (localContextToCtxWithBudget env alloc delta metaId ctx)
      (localContextToCtxWithBudget env alloc delta metaId ctx) := pushLocals_carries extra [] .new ctx

end Kernel

/-! ### The check -/

section Check

variable {env : Kernel.Env} {alloc : Allocator} {delta : List String} {store later : MetaVarStore}
  {new new' : List MetaVarId} {assigning : MetaVarId} (extra : TacticRunFuel)

theorem inferCore_carries (ctx : LocalContext) (core : Kernel.Expr) :
    Run.Carries extra.add (inferCore env alloc delta assigning ctx core)
      (inferCore env alloc delta assigning ctx core) := by
  apply Run.carries_bind (localContextToCtx_carries extra ctx)
  intro kernelCtx
  apply Run.carries_bind (kernelInfer_carries extra kernelCtx core)
  intro ty
  exact Run.carries_pure _

theorem resultTypeForUnresolvedDependentArg_carries (ctx : LocalContext) (argTy body : Kernel.Expr) :
    Run.Carries extra.add
      (resultTypeForUnresolvedDependentArg env alloc delta assigning ctx argTy body)
      (resultTypeForUnresolvedDependentArg env alloc delta assigning ctx argTy body) := by
  apply Run.carries_bind (Run.carries_lift fun _ h => h)
  intro bodyInExtended
  apply Run.carries_bind (Run.carries_lift fun _ h => h)
  intro hypothetical
  apply Run.carries_bind (localContextToCtx_carries extra _)
  intro extendedCtx
  apply Run.carries_bind (kernelWhnf_carries extra extendedCtx hypothetical)
  intro normalized
  exact Run.carries_lift fun _ h => h

theorem appResultType_carries (ctx : LocalContext) (ty body : Kernel.Expr) (arg : CheckedProofExpr) :
    Run.Carries extra.add (appResultType env alloc delta assigning ctx ty body arg)
      (appResultType env alloc delta assigning ctx ty body arg) := by
  rw [appResultType]
  split
  next => exact Run.carries_lift fun _ h => h
  next =>
    split
    next => exact resultTypeForUnresolvedDependentArg_carries extra ctx ty body
    next => exact Run.carries_lift fun _ h => h

theorem inferApp_carries (ctx : LocalContext) {inferFn inferFn' : TacticRun CheckedProofExpr}
    {checkArg checkArg' : Kernel.Expr → TacticRun CheckedProofExpr}
    (hfn : Run.Carries extra.add inferFn inferFn')
    (harg : ∀ ty, Run.Carries extra.add (checkArg ty) (checkArg' ty)) :
    Run.Carries extra.add (inferApp env alloc delta assigning ctx inferFn checkArg)
      (inferApp env alloc delta assigning ctx inferFn' checkArg') := by
  apply Run.carries_bind hfn
  intro fn
  apply Run.carries_bind (localContextToCtx_carries extra ctx)
  intro kernelCtx
  apply Run.carries_bind (kernelWhnf_carries extra kernelCtx fn.ty)
  intro whnf
  cases whnf with
  | pi _ ty body =>
    apply Run.carries_bind (harg ty)
    intro arg
    apply Run.carries_bind (appResultType_carries extra ctx ty body arg)
    intro resultTy
    exact Run.carries_pure _
  | sort _ | bvar _ | const _ _ | app _ _ | lam _ _ _ => exact Run.carries_fail

theorem inferLam_carries (ctx : LocalContext) (binder : String) (ty : Kernel.Expr)
    {inferBody inferBody' : LocalContext → TacticRun CheckedProofExpr}
    (hbody : ∀ ctx, Run.Carries extra.add (inferBody ctx) (inferBody' ctx)) :
    Run.Carries extra.add (inferLam env alloc delta assigning ctx binder ty inferBody)
      (inferLam env alloc delta assigning ctx binder ty inferBody') := by
  apply Run.carries_bind (localContextToCtx_carries extra ctx)
  intro kernelCtx
  apply Run.carries_bind (kernelExpectSort_carries extra kernelCtx ty)
  intro _
  apply Run.carries_bind (hbody _)
  intro body
  exact Run.carries_pure _

theorem checkInferred_carries (ctx : LocalContext) (expected : Kernel.Expr)
    {inferred inferred' : TacticRun CheckedProofExpr}
    (h : Run.Carries extra.add inferred inferred') :
    Run.Carries extra.add (checkInferred env alloc delta assigning ctx expected inferred)
      (checkInferred env alloc delta assigning ctx expected inferred') := by
  apply Run.carries_bind h
  intro checked
  apply Run.carries_bind (localContextToCtx_carries extra ctx)
  intro kernelCtx
  apply Run.carries_bind (kernelIsDefeq_carries extra kernelCtx checked.ty expected)
  intro same
  cases same with
  | true => exact Run.carries_pure checked
  | false => exact Run.carries_fail

theorem checkLamProofExpr_carries (ctx : LocalContext) (binder : String) (ty expected : Kernel.Expr)
    {checkBody checkBody' : LocalContext → Kernel.Expr → TacticRun CheckedProofExpr}
    (hbody : ∀ ctx expected, Run.Carries extra.add (checkBody ctx expected) (checkBody' ctx expected)) :
    Run.Carries extra.add
      (checkLamProofExpr env alloc delta assigning ctx binder ty expected checkBody)
      (checkLamProofExpr env alloc delta assigning ctx binder ty expected checkBody') := by
  apply Run.carries_bind (localContextToCtx_carries extra ctx)
  intro kernelCtx
  apply Run.carries_bind (kernelExpectSort_carries extra kernelCtx ty)
  intro _
  apply Run.carries_bind (kernelWhnf_carries extra kernelCtx expected)
  intro whnf
  cases whnf with
  | pi _ expectedTy expectedBody =>
    apply Run.carries_bind (kernelIsDefeq_carries extra kernelCtx ty expectedTy)
    intro same
    cases same with
    | true =>
      apply Run.carries_bind (hbody _ _)
      intro body
      exact Run.carries_pure _
    | false => exact Run.carries_fail
  | sort _ | bvar _ | const _ _ | app _ _ | lam _ _ _ => exact Run.carries_fail

/-- By induction on the expression, for the check and the inference at once. -/
theorem checkProofExpr_carries
    (answers : ∀ ctx id checked, inferMetaRef store new assigning ctx id = .ok checked →
      inferMetaRef later new' assigning ctx id = .ok checked) (expr : ProofExpr) :
    (∀ ctx expected, Run.Carries extra.add
      (checkProofExpr env alloc delta store new assigning expr ctx expected)
      (checkProofExpr env alloc delta later new' assigning expr ctx expected)) ∧
    ∀ ctx, Run.Carries extra.add (inferProofExpr env alloc delta store new assigning expr ctx)
      (inferProofExpr env alloc delta later new' assigning expr ctx) := by
  induction expr with
  | core core =>
    constructor
    · intro ctx expected
      rw [checkProofExpr, checkProofExpr]
      exact checkInferred_carries extra ctx expected (inferCore_carries extra ctx core)
    · intro ctx
      rw [inferProofExpr, inferProofExpr]
      exact inferCore_carries extra ctx core
  | metaVar id =>
    constructor
    · intro ctx expected
      rw [checkProofExpr, checkProofExpr]
      exact checkInferred_carries extra ctx expected (Run.carries_lift (answers ctx id))
    · intro ctx
      rw [inferProofExpr, inferProofExpr]
      exact Run.carries_lift (answers ctx id)
  | app fn arg ihFn ihArg =>
    have application : ∀ ctx, Run.Carries extra.add
        (inferApp env alloc delta assigning ctx
          (inferProofExpr env alloc delta store new assigning fn ctx)
          fun ty => checkProofExpr env alloc delta store new assigning arg ctx ty)
        (inferApp env alloc delta assigning ctx
          (inferProofExpr env alloc delta later new' assigning fn ctx)
          fun ty => checkProofExpr env alloc delta later new' assigning arg ctx ty) :=
      fun ctx => inferApp_carries extra ctx (ihFn.2 ctx) (ihArg.1 ctx)
    constructor
    · intro ctx expected
      rw [checkProofExpr, checkProofExpr]
      exact checkInferred_carries extra ctx expected (application ctx)
    · intro ctx
      rw [inferProofExpr, inferProofExpr]
      exact application ctx
  | lam binder ty body ih =>
    constructor
    · intro ctx expected
      rw [checkProofExpr, checkProofExpr]
      exact checkLamProofExpr_carries extra ctx binder ty expected ih.1
    · intro ctx
      rw [inferProofExpr, inferProofExpr]
      exact inferLam_carries extra ctx binder ty ih.2

end Check

/-! ### References in later stores -/

variable {ctx : LocalContext}

section References

variable {store later : MetaVarStore} {assigning : MetaVarId}

theorem expandProofExprMaybe_carries
    {inferMeta inferMeta' : LocalContext → MetaVarId → TacticResult CheckedProofExpr}
    (answers : ∀ ctx id checked, inferMeta ctx id = .ok checked → inferMeta' ctx id = .ok checked)
    {expr : ProofExpr} {result : Option Kernel.Expr}
    (h : expandProofExprMaybe inferMeta ctx expr = .ok result) :
    expandProofExprMaybe inferMeta' ctx expr = .ok result := by
  induction expr generalizing ctx result with
  | core _ => exact h
  | metaVar id =>
    simp only [expandProofExprMaybe, Result.bind_eq_ok] at h ⊢
    obtain ⟨checked, asked, rest⟩ := h
    exact ⟨checked, answers ctx id checked asked, rest⟩
  | app fn arg ihFn ihArg =>
    simp only [expandProofExprMaybe, Result.bind_eq_ok] at h ⊢
    obtain ⟨fn', hfn, arg', harg, rest⟩ := h
    exact ⟨fn', ihFn hfn, arg', ihArg harg, rest⟩
  | lam binder ty body ih =>
    simp only [expandProofExprMaybe, Result.bind_eq_ok] at h ⊢
    obtain ⟨body', hbody, rest⟩ := h
    exact ⟨body', ih hbody, rest⟩

/-- Where no metavariable is new, a reference is answered through assigned ones only. -/
theorem inferMetaRefAt_extends (kept : Extends store later) {depth depth' : Nat}
    (deeper : depth ≤ depth') {visiting : List MetaVarId} {id : MetaVarId}
    {checked : CheckedProofExpr}
    (h : inferMetaRefAt store [] assigning depth visiting ctx id = .ok checked) :
    inferMetaRefAt later [] assigning depth' visiting ctx id = .ok checked := by
  induction depth generalizing depth' visiting ctx id checked with
  | zero => cases h
  | succ depth ih =>
    obtain ⟨depth', rfl⟩ : ∃ below, depth' = below + 1 := ⟨depth' - 1, by omega⟩
    simp only [inferMetaRefAt, Result.bind_eq_ok, Result.okOr_eq_ok] at h ⊢
    obtain ⟨_, differs, found, get, _, within, target, weakened, h⟩ := h
    cases assigned : found.assignment with
    | none => simp [assigned] at h
    | some expr =>
      simp only [assigned, Result.bind_eq_ok] at h
      obtain ⟨_, unvisited, expanded, expands, h⟩ := h
      refine ⟨(), differs, found, kept.assigned get assigned, (), within, target, weakened, ?_⟩
      simp only [assigned, Result.bind_eq_ok]
      refine ⟨(), unvisited, expanded, ?_, h⟩
      apply expandProofExprMaybe_carries _ expands
      intro ctx id checked asked
      exact ih (Nat.le_of_succ_le_succ deeper) asked

theorem inferMetaRef_extends (kept : Extends store later) (len : store.len ≤ later.len)
    {id : MetaVarId} {checked : CheckedProofExpr}
    (h : inferMetaRef store [] assigning ctx id = .ok checked) :
    inferMetaRef later [] assigning ctx id = .ok checked :=
  inferMetaRefAt_extends kept (Nat.succ_le_succ len) h

/-- A later store has the metavariables of an earlier one. -/
theorem Extends.len_le (kept : Extends store later) : store.len ≤ later.len := by
  rw [← MetaVarStore.len_keys, ← MetaVarStore.len_keys]
  have nodup : store.keys.Nodup := by
    apply store.sorted.imp
    rintro id other less rfl
    rw [Nat.compare_eq_lt] at less
    exact Nat.lt_irrefl _ less
  apply (nodup.subperm _).length_le
  intro id mem
  obtain ⟨found, get⟩ := MetaVarStore.mem_keys.mp mem
  obtain ⟨entry, get', _⟩ := kept.follows id found get
  exact MetaVarStore.mem_keys.mpr ⟨entry, get'⟩

end References

/-! ### Expansions in later stores -/

section Expansions

variable {store later : MetaVarStore}

theorem expandProofExpr_carries
    {expandMeta expandMeta' : LocalContext → MetaVarId → TacticResult Kernel.Expr}
    (answers : ∀ ctx id core, expandMeta ctx id = .ok core → expandMeta' ctx id = .ok core)
    {expr : ProofExpr} {core : Kernel.Expr} (h : expandProofExpr expandMeta ctx expr = .ok core) :
    expandProofExpr expandMeta' ctx expr = .ok core := by
  induction expr generalizing ctx core with
  | core _ => exact h
  | metaVar id => exact answers ctx id core h
  | app fn arg ihFn ihArg =>
    simp only [expandProofExpr, Result.bind_eq_ok] at h ⊢
    obtain ⟨fn', hfn, arg', harg, rest⟩ := h
    exact ⟨fn', ihFn hfn, arg', ihArg harg, rest⟩
  | lam binder ty body ih =>
    simp only [expandProofExpr, Result.bind_eq_ok] at h ⊢
    obtain ⟨body', hbody, rest⟩ := h
    exact ⟨body', ih hbody, rest⟩

theorem expandMetaAt_extends (kept : Extends store later) {depth depth' : Nat}
    (deeper : depth ≤ depth') {visiting : List MetaVarId} {id : MetaVarId}
    {core : Kernel.Expr} (h : expandMetaAt store depth visiting ctx id = .ok core) :
    expandMetaAt later depth' visiting ctx id = .ok core := by
  induction depth generalizing depth' visiting ctx id core with
  | zero => cases h
  | succ depth ih =>
    obtain ⟨depth', rfl⟩ : ∃ below, depth' = below + 1 := ⟨depth' - 1, by omega⟩
    simp only [expandMetaAt, Result.bind_eq_ok, Result.okOr_eq_ok] at h ⊢
    obtain ⟨found, get, _, within, assignment, assigned, _, unvisited, expanded, expands, moved⟩ := h
    refine ⟨found, kept.assigned get assigned, (), within, assignment, assigned, (), unvisited,
      expanded, ?_, ?_⟩
    · apply expandProofExpr_carries _ expands
      intro ctx id core asked
      exact ih (Nat.le_of_succ_le_succ deeper) asked
    · exact moved

end Expansions

/-- What an expression without unassigned metavariables is expanded to, and the answer to a
    reference to an assigned metavariable, are the same in every later state. -/
theorem later_expansion {hashing : Hashing} {alloc : Allocator} {state next : MachineProofState}
    (h : Later hashing alloc state next) :
    (∀ ctx expr core, expandClosed state.metas ctx expr = .ok core →
      expandClosed next.metas ctx expr = .ok core) ∧
    ∀ assigning ctx id checked, inferMetaRef state.metas [] assigning ctx id = .ok checked →
      inferMetaRef next.metas [] assigning ctx id = .ok checked := by
  have kept := h.keeps.metas
  constructor
  · intro ctx expr core expands
    apply expandProofExpr_carries _ expands
    intro ctx id core asked
    exact expandMetaAt_extends kept (Nat.succ_le_succ kept.len_le) asked
  · intro assigning ctx id checked asked
    exact inferMetaRef_extends kept kept.len_le asked

theorem later_expansion_exampleRun : ∃ start state,
    exampleStart propSort = .ok start ∧ Later exampleHashing Kernel.noReuse start state ∧
      expandClosed state.metas [] (.core propSort) = .ok propSort := by
  obtain ⟨start, middle, state, started, _, first, second, _⟩ := exampleRuns_prop.steps
  have later := (Later.refl.step first).step second
  exact ⟨start, state, started, later, (later_expansion later).1 [] (.core propSort) propSort rfl⟩

end NpaCore.Tactic
