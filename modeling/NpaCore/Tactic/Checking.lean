import NpaCore.Tactic.Projection
import NpaCore.Tactic.State

/-!
# Checking a proof expression

`check_proof_expr` and `infer_proof_expr` of `npa-tactic/src/lib.rs`, in which the kernel's
questions share the fuel of one run. A metavariable that is assigned is read as its assignment
with the assignments in it, and one that is new has its target as its type and no expression.
-/

namespace NpaCore.Tactic

open NpaCore.Kernel (Ctx Allocator UniverseContext)

/-! ### Fuel -/

structure TacticBudget where
  maxTacticSteps : Nat
  maxWhnfSteps : Nat
  maxConversionSteps : Nat
  maxRewriteSteps : Nat
  maxMetaAllocations : Nat
  maxExprNodes : Nat
  deriving DecidableEq, Repr

/-- `TacticBudget::default`. -/
def TacticBudget.default : TacticBudget := ⟨8, 20000, 20000, 1000, 64, 100000⟩

/-- `TacticRunFuel`: two cells, which every part of a run reads and writes. -/
structure TacticRunFuel where
  whnfSteps : Nat
  conversionSteps : Nat
  deriving DecidableEq, Repr

def TacticRunFuel.new (budget : TacticBudget) : TacticRunFuel :=
  ⟨budget.maxWhnfSteps, budget.maxConversionSteps⟩

abbrev TacticRun := Run TacticRunFuel Diagnostic

def fuelExhausted (kind : TacticFuelKind) (label : String) (remaining : Nat) : Diagnostic :=
  .new (.tacticFuelExhausted kind)
    s!"tactic exhausted {label} fuel; remaining {label} fuel is {remaining}"

/-! ### Errors of the kernel -/

/-- `kernel_diag`. -/
def kernelDiag (error : Kernel.Error) : Diagnostic :=
  let rejected (message : String) : Diagnostic := (.new .kernelRejected message)
  let diagnostic : Diagnostic := match error with
    | .invalidBVar _ => .new .proofExprScopeError "kernel rejected proof expression scope"
    | .typeMismatch expected actual =>
      (Diagnostic.new .typeMismatch "kernel rejected proof expression type").withExpectedActual
        expected actual
    | .unresolvedUniverseMeta name =>
      rejected s!"kernel rejected proof expression with unresolved universe meta {name}"
    | .universeConstraintViolation _ _ =>
      rejected "kernel rejected proof expression universe constraint"
    | .constructorUniverseBoundViolation inductiveName constructor fieldIndex _ _ =>
      rejected (s!"kernel rejected constructor {constructor} of {inductiveName} field " ++
        s!"{fieldIndex} universe bound")
    | .unsupportedUniverseConstraint _ => rejected "kernel rejected unsupported universe constraint"
    | _ => rejected "kernel rejected proof expression"
  diagnostic.withKernelError error

/-- `kernel_resource_limit_diag`. -/
def kernelResourceLimitDiag (kind : Kernel.ResourceLimitKind) (fuel : TacticRunFuel)
    (metaId : MetaVarId) : Diagnostic :=
  match kind with
  | .whnf => ((fuelExhausted .whnf "WHNF" fuel.whnfSteps).withGoal metaId).withMeta metaId
  | .conversion =>
    ((fuelExhausted .conversion "conversion" fuel.conversionSteps).withGoal metaId).withMeta metaId
  | .universeConstraints => kernelDiag (.resourceLimit .universeConstraints)

/-! ### The kernel's operations on a budget -/

section Kernel

variable (env : Kernel.Env) (alloc : Allocator) (delta : List String) (metaId : MetaVarId)

/-- `infer_with_fuel_metered`. -/
def inferWithFuelMetered (ctx : Ctx) (term : Kernel.Expr) (fuel : TacticRunFuel) :
    Kernel.Result Kernel.Expr × TacticRunFuel :=
  match UniverseContext.fromParams delta with
  | .error error => (.error error, fuel)
  | .ok universeContext =>
    let run := env.inferWithFuelMeteredInUniverseContext alloc ctx universeContext term
      fuel.whnfSteps fuel.conversionSteps
    (run.1, ⟨run.2.whnfFuel, run.2.conversionFuel⟩)

def kernelInferWithBudget (ctx : Ctx) (term : Kernel.Expr) : TacticRun Kernel.Expr := fun fuel =>
  let run := inferWithFuelMetered env alloc delta ctx term fuel
  let diagnose (error : Kernel.Error) : Diagnostic := match error with
    | .resourceLimit kind => kernelResourceLimitDiag kind run.2 metaId
    | error => kernelDiag error
  (run.1.mapError diagnose, run.2)

/-- `whnf_with_fuel_metered` with the fuel of the run. -/
def kernelWhnfWithBudget (ctx : Ctx) (term : Kernel.Expr) : TacticRun Kernel.Expr := fun fuel =>
  let run := Kernel.whnfMachine env (alloc ctx [term]) ctx delta .whnf .borrowed term
    (env.newSession fuel.whnfSteps 0)
  let fuel := { fuel with whnfSteps := run.2.whnfFuel }
  let diagnose (error : Kernel.Error) : Diagnostic := match error with
    | .resourceLimit _ =>
      ((fuelExhausted .whnf "WHNF" fuel.whnfSteps).withGoal metaId).withMeta metaId
    | error => kernelDiag error
  (run.1.mapError diagnose, fuel)

/-- `is_defeq_with_fuel_metered` with the fuel of the run. -/
def kernelIsDefeqWithBudget (ctx : Ctx) (lhs rhs : Kernel.Expr) : TacticRun Bool := fun fuel =>
  let run := Kernel.isDefeqWithRemainingFuel env (alloc ctx [lhs, rhs]) delta ctx lhs .borrowed
    rhs .borrowed (env.newSession 0 fuel.conversionSteps)
  let fuel := { fuel with conversionSteps := run.2.conversionFuel }
  let diagnose (error : Kernel.Error) : Diagnostic := match error with
    | .resourceLimit _ =>
      ((fuelExhausted .conversion "conversion" fuel.conversionSteps).withGoal metaId).withMeta metaId
    | error => kernelDiag error
  (run.1.mapError diagnose, fuel)

def kernelExpectSortWithBudget (ctx : Ctx) (term : Kernel.Expr) : TacticRun Unit := do
  let ty ← kernelInferWithBudget env alloc delta metaId ctx term
  match ← kernelWhnfWithBudget env alloc delta metaId ctx ty with
  | .sort _ => pure ()
  | actual => Run.fail (kernelDiag (.expectedSort actual))

/-- The loop of `local_context_to_ctx_with_budget`, with the names so far. -/
def pushLocals (names : List String) (ctx : Ctx) : LocalContext → TacticRun Ctx
  | [] => pure ctx
  | localDecl :: rest =>
    if localDecl.name = "" ∨ localDecl.name ∈ names then
      Run.fail (.new .invalidMetaContext s!"invalid or duplicate local name {localDecl.name}")
    else do
      kernelExpectSortWithBudget env alloc delta metaId ctx localDecl.ty
      pushLocals (localDecl.name :: names) (ctx.pushAssumption localDecl.ty) rest

def localContextToCtxWithBudget (ctx : LocalContext) : TacticRun Ctx :=
  pushLocals env alloc delta metaId [] Ctx.new ctx

end Kernel

/-! ### References to metavariables -/

structure CheckedProofExpr where
  expr : Option Kernel.Expr
  ty : Kernel.Expr
  deriving DecidableEq, Repr

/-- A length cast to `i32`, as the distance of a shift. -/
def weakeningAmount (len : Nat) : Int := NpaCore.Expr.asI32 (len % 0x100000000)

/-- An expression of a context in a longer one. -/
def weakenTo (ctx : LocalContext) (found : MachineMetaVar) (expr : Kernel.Expr) :
    TacticResult Kernel.Expr :=
  (Kernel.Expr.shift expr (weakeningAmount (ctx.length - found.context.length)) 0).mapError kernelDiag

def dependencyDiag (metaId : MetaVarId) (message : String) : Diagnostic :=
  (Diagnostic.new .invalidMetaDependency message).withMeta metaId

def cycleDiag (metaId : MetaVarId) : Diagnostic :=
  dependencyDiag metaId s!"metavariable dependency cycle at meta {metaId}"

/-- `expand_proof_expr_maybe`, `inferMeta` being the call on a metavariable. -/
def expandProofExprMaybe (inferMeta : LocalContext → MetaVarId → TacticResult CheckedProofExpr) :
    LocalContext → ProofExpr → TacticResult (Option Kernel.Expr)
  | _, .core core => .ok (some core)
  | ctx, .metaVar id => do
    let checked ← inferMeta ctx id
    .ok checked.expr
  | ctx, .app fn arg => do
    let fn ← expandProofExprMaybe inferMeta ctx fn
    let arg ← expandProofExprMaybe inferMeta ctx arg
    match fn, arg with
    | some fn, some arg => .ok (some (.app fn arg))
    | _, _ => .ok none
  | ctx, .lam binder ty body => do
    let body ← expandProofExprMaybe inferMeta (ctx ++ [⟨binder, ty⟩]) body
    .ok (body.map fun body => .lam binder ty body)

section References

variable (store : MetaVarStore) (allowedNewMetas : List MetaVarId) (assigningMeta : MetaVarId)

/-- `infer_meta_ref`. A reference that is followed is not being visited, so `depth` never runs
    out when it starts above the number of the other metavariables. -/
def inferMetaRefAt : Nat → List MetaVarId → LocalContext → MetaVarId → TacticResult CheckedProofExpr
  | 0, _, _, id => .error (cycleDiag id)
  | depth + 1, visiting, ctx, id => do
    Result.ensure (id ≠ assigningMeta) (dependencyDiag id
      "proof expression cannot directly reference the metavariable being assigned")
    let found ← Result.okOr (store.get id)
      (dependencyDiag id s!"proof expression references unknown meta {id}")
    Result.ensure (machineLocalContextIsPrefix found.context ctx)
      ((Diagnostic.new .invalidMetaContext
        s!"meta {id} context is not a prefix of the current proof expression context").withMeta id)
    let target ← weakenTo ctx found found.target
    match found.assignment with
    | none =>
      -- a goal of this very step may be referred to, an older open goal may not
      if id ∈ allowedNewMetas then .ok ⟨none, target⟩
      else .error (dependencyDiag id s!"proof expression references old unresolved meta {id}")
    | some assignment => do
      Result.ensure (id ∉ visiting) (cycleDiag id)
      let expanded ← expandProofExprMaybe (inferMetaRefAt depth (id :: visiting)) found.context
        assignment
      match expanded with
      -- something below is still open: the type is known, the term is not
      | none => .ok ⟨none, target⟩
      | some expanded => do
        let expr ← weakenTo ctx found expanded
        .ok ⟨some expr, target⟩

/-- A reference met while nothing is being visited. -/
def inferMetaRef (ctx : LocalContext) (id : MetaVarId) : TacticResult CheckedProofExpr :=
  inferMetaRefAt store allowedNewMetas assigningMeta (store.len + 1) [] ctx id

end References

/-! ### Inference and checking -/

section Check

variable (env : Kernel.Env) (alloc : Allocator) (delta : List String) (store : MetaVarStore)
  (allowedNewMetas : List MetaVarId) (assigningMeta : MetaVarId)

def resultTypeForUnresolvedDependentArg (ctx : LocalContext) (argTy body : Kernel.Expr) :
    TacticRun Kernel.Expr := do
  -- the argument is a local of its own, and the type may not depend on it once it is reduced
  let extended := ctx ++ [⟨"__arg", argTy⟩]
  let bodyInExtended ← Run.lift ((Kernel.Expr.shift body 1 1).mapError kernelDiag)
  let hypothetical ←
    Run.lift ((Kernel.Expr.instantiate bodyInExtended (.bvar 0)).mapError kernelDiag)
  let extendedCtx ← localContextToCtxWithBudget env alloc delta assigningMeta extended
  let normalized ← kernelWhnfWithBudget env alloc delta assigningMeta extendedCtx hypothetical
  let refused (error : ContextProjectionError) : Diagnostic :=
    let message := match error with
      | .droppedLocal _ =>
        "dependent application result type still depends on an unresolved meta argument"
      | .outOfScope index =>
        s!"dependent application result type contains out-of-scope de Bruijn index {index}"
    ((Diagnostic.new .invalidMetaDependency message).withGoal assigningMeta).withMeta assigningMeta
  Run.lift ((projectExprToPrefixContextAt extended.length ctx.length extended.length ctx.length
    normalized).mapError refused)

def inferCore (ctx : LocalContext) (core : Kernel.Expr) : TacticRun CheckedProofExpr := do
  let kernelCtx ← localContextToCtxWithBudget env alloc delta assigningMeta ctx
  let ty ← kernelInferWithBudget env alloc delta assigningMeta kernelCtx core
  pure ⟨some core, ty⟩

/-- The type of an application, from its argument. -/
def appResultType (ctx : LocalContext) (ty body : Kernel.Expr) (arg : CheckedProofExpr) :
    TacticRun Kernel.Expr :=
  match arg.expr with
  | some argExpr => Run.lift ((Kernel.Expr.instantiate body argExpr).mapError kernelDiag)
  | none =>
    if containsBoundVar 0 body then
      resultTypeForUnresolvedDependentArg env alloc delta assigningMeta ctx ty body
    -- the body does not mention the argument, so any term takes its place
    else Run.lift ((Kernel.Expr.instantiate body (.bvar 0)).mapError kernelDiag)

def appExpr : Option Kernel.Expr → Option Kernel.Expr → Option Kernel.Expr
  | some fn, some arg => some (.app fn arg)
  | _, _ => none

/-- The application branch, from the inference of the function and the check of the argument. -/
def inferApp (ctx : LocalContext) (inferFn : TacticRun CheckedProofExpr)
    (checkArg : Kernel.Expr → TacticRun CheckedProofExpr) : TacticRun CheckedProofExpr := do
  let fn ← inferFn
  let kernelCtx ← localContextToCtxWithBudget env alloc delta assigningMeta ctx
  match ← kernelWhnfWithBudget env alloc delta assigningMeta kernelCtx fn.ty with
  | .pi _ ty body => do
    let arg ← checkArg ty
    let resultTy ← appResultType env alloc delta assigningMeta ctx ty body arg
    pure ⟨appExpr fn.expr arg.expr, resultTy⟩
  | actual => Run.fail ((Diagnostic.new .typeMismatch
      "application head is not a function").withExpectedActual fn.ty actual)

/-- The lambda branch of the inference, from the inference of the body. -/
def inferLam (ctx : LocalContext) (binder : String) (ty : Kernel.Expr)
    (inferBody : LocalContext → TacticRun CheckedProofExpr) : TacticRun CheckedProofExpr := do
  let kernelCtx ← localContextToCtxWithBudget env alloc delta assigningMeta ctx
  kernelExpectSortWithBudget env alloc delta assigningMeta kernelCtx ty
  let body ← inferBody (ctx ++ [⟨binder, ty⟩])
  pure ⟨body.expr.map fun body => .lam binder ty body, .pi binder ty body.ty⟩

/-- The comparison with the expected type, after the inference. -/
def checkInferred (ctx : LocalContext) (expected : Kernel.Expr)
    (inferred : TacticRun CheckedProofExpr) : TacticRun CheckedProofExpr := do
  let checked ← inferred
  let kernelCtx ← localContextToCtxWithBudget env alloc delta assigningMeta ctx
  if ← kernelIsDefeqWithBudget env alloc delta assigningMeta kernelCtx checked.ty expected then
    pure checked
  else Run.fail ((Diagnostic.new .typeMismatch
    "proof expression type does not match goal target").withExpectedActual expected checked.ty)

/-- `check_lam_proof_expr`, from the check of the body. Under the binder stands the domain of
    the expected type, not the annotation. -/
def checkLamProofExpr (ctx : LocalContext) (binder : String) (ty expected : Kernel.Expr)
    (checkBody : LocalContext → Kernel.Expr → TacticRun CheckedProofExpr) :
    TacticRun CheckedProofExpr := do
  let kernelCtx ← localContextToCtxWithBudget env alloc delta assigningMeta ctx
  kernelExpectSortWithBudget env alloc delta assigningMeta kernelCtx ty
  match ← kernelWhnfWithBudget env alloc delta assigningMeta kernelCtx expected with
  | .pi _ expectedTy expectedBody => do
    if ← kernelIsDefeqWithBudget env alloc delta assigningMeta kernelCtx ty expectedTy then
      -- `expectedTy`, not `ty`: the two convert and need not be the same term
      let body ← checkBody (ctx ++ [⟨binder, expectedTy⟩]) expectedBody
      pure ⟨body.expr.map fun body => .lam binder ty body, expected⟩
    else Run.fail ((Diagnostic.new .typeMismatch
      "lambda binder type does not match Pi domain").withExpectedActual expectedTy ty)
  | actual => Run.fail ((Diagnostic.new .typeMismatch
      "lambda proof expression requires a Pi goal target").withExpectedActual expected actual)

mutual

def checkProofExpr : ProofExpr → LocalContext → Kernel.Expr → TacticRun CheckedProofExpr
  | .lam binder ty body, ctx, expected =>
    checkLamProofExpr env alloc delta assigningMeta ctx binder ty expected
      fun bodyCtx expectedBody => checkProofExpr body bodyCtx expectedBody
  | .core core, ctx, expected =>
    checkInferred env alloc delta assigningMeta ctx expected
      (inferCore env alloc delta assigningMeta ctx core)
  | .metaVar id, ctx, expected =>
    checkInferred env alloc delta assigningMeta ctx expected
      (Run.lift (inferMetaRef store allowedNewMetas assigningMeta ctx id))
  | .app fn arg, ctx, expected =>
    checkInferred env alloc delta assigningMeta ctx expected
      (inferApp env alloc delta assigningMeta ctx (inferProofExpr fn ctx)
        fun ty => checkProofExpr arg ctx ty)

def inferProofExpr : ProofExpr → LocalContext → TacticRun CheckedProofExpr
  | .lam binder ty body, ctx =>
    inferLam env alloc delta assigningMeta ctx binder ty fun bodyCtx => inferProofExpr body bodyCtx
  | .core core, ctx => inferCore env alloc delta assigningMeta ctx core
  | .metaVar id, ctx => Run.lift (inferMetaRef store allowedNewMetas assigningMeta ctx id)
  | .app fn arg, ctx =>
    inferApp env alloc delta assigningMeta ctx (inferProofExpr fn ctx)
      fun ty => checkProofExpr arg ctx ty

end

end Check

end NpaCore.Tactic
