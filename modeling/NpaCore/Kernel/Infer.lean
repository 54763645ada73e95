import NpaCore.Kernel.Universe
import NpaCore.Kernel.Whnf

/-!
# Conversion and type inference

`is_defeq`, `infer` and `check` of `env.rs`. The source has each of them in four
forms: with and without the memo, and with a fresh fuel for every conversion
question or with one pool of fuel for the whole operation. Here the session holds
the memo if there is one, and `FuelPolicy` selects between the two uses of fuel.
-/

namespace NpaCore.Kernel

open NpaCore.Expr NpaCore.Level

/-! ### Definitional equality -/

section Defeq

variable (env : Env) (layout : Layout) (delta : List String)

/-- The comparison of two weak head normal forms, `compare` being the recursive call. -/
def compareWhnf (compare : Ctx → Expr → Expr → Op Bool) (ctx : Ctx) (lhs rhs : Expr) : Op Bool :=
  match lhs, rhs with
  | .sort lhs, .sort rhs => pure (levelEq lhs rhs)
  | .bvar lhs, .bvar rhs => pure (lhs = rhs)
  | .const lhsName lhsLevels, .const rhsName rhsLevels =>
    pure (decide (lhsName = rhsName) && levelsEq lhsLevels rhsLevels)
  | .app lhsFn lhsArg, .app rhsFn rhsArg => do
    if ← compare ctx lhsFn rhsFn then compare ctx lhsArg rhsArg else pure false
  | .pi _ lhsTy lhsBody, .pi _ rhsTy rhsBody => do
    if ← compare ctx lhsTy rhsTy then compare (ctx.pushAssumption lhsTy) lhsBody rhsBody
    else pure false
  | .lam _ lhsTy lhsBody, .lam _ rhsTy rhsBody => do
    if ← compare ctx lhsTy rhsTy then compare (ctx.pushAssumption lhsTy) lhsBody rhsBody
    else pure false
  | _, _ => pure false

/-- The body of a call that the memo did not answer. -/
def isDefeqBody (compare : Ctx → Expr → Expr → Op Bool) (ctx : Ctx) (lhs : Expr)
    (lhsOrigin : MemoExprOrigin) (rhs : Expr) (rhsOrigin : MemoExprOrigin) : Op Bool := do
  spendFuel .conversion
  if quickSyntacticEq lhs rhs then pure true
  else do
    let lhs ← whnfMachine env layout ctx delta .conversion lhsOrigin lhs
    let rhs ← whnfMachine env layout ctx delta .conversion rhsOrigin rhs
    compareWhnf compare ctx lhs rhs

/-- `is_defeq_with_remaining_fuel_memo`, and without a memo `is_defeq_with_remaining_fuel`.
    Every call spends fuel before it calls itself, so `depth` never runs out when it
    starts above the fuel. -/
def isDefeqAt : Nat → Ctx → Expr → MemoExprOrigin → Expr → MemoExprOrigin → Op Bool
  | 0, _, _, _, _, _ => Run.fail (.resourceLimit .conversion)
  | depth + 1, ctx, lhs, lhsOrigin, rhs, rhsOrigin => do
    let key : DefeqMemoKey := ⟨lhs, rhs, ctx, delta⟩
    let compare := fun ctx lhs rhs => isDefeqAt depth ctx lhs .retained rhs .retained
    match ← defeqLookup layout lhsOrigin rhsOrigin key with
    | .hit entry => do
      replayMemoFuel .conversion entry.fuelCost
      pure true
    | .miss => do
      let starting ← Run.get
      let result ← isDefeqBody env layout delta compare ctx lhs lhsOrigin rhs rhsOrigin
      let final ← Run.get
      if result then insertDefeq layout key (starting.conversionFuel - final.conversionFuel)
      pure result
    | .ineligible => isDefeqBody env layout delta compare ctx lhs lhsOrigin rhs rhsOrigin

def isDefeqWithRemainingFuel (ctx : Ctx) (lhs : Expr) (lhsOrigin : MemoExprOrigin) (rhs : Expr)
    (rhsOrigin : MemoExprOrigin) : Op Bool := do
  let session ← Run.get
  isDefeqAt env layout delta (session.conversionFuel + 1) ctx lhs lhsOrigin rhs rhsOrigin

end Defeq

/-! ### Constants -/

def renameViolation (name : String) : Error → Error
  | .universeConstraintViolation _ constraint => .universeConstraintViolation name constraint
  | error => error

/-- The constraints of a constant hold at the given levels. -/
def checkConstConstraints (env : Env) (universeContext : UniverseContext) (name : String)
    (decl : Decl) (levels : List Level) : Result Unit := do
  let (constraintParams, constraints) ← env.declConstraintContext decl
  if constraints.isEmpty then .ok ()
  else do
    let constraintLevels ←
      declarationConstraintLevels name decl.universeParams levels constraintParams
    let obligations ←
      universeContext.substituteConstraints constraintParams constraintLevels constraints
    (universeContext.entails obligations).mapError (renameViolation name)

def inferConstType (env : Env) (universeContext : UniverseContext) (name : String)
    (levels : List Level) : Result Expr := do
  let decl ← Result.okOr (env.decl name) (.unknownConstant name)
  Result.ensure (decl.universeParams.length == levels.length)
    (.badUniverseArity name decl.universeParams.length levels.length)
  Result.forEach levels (ensureLevelWf universeContext.params)
  checkConstConstraints env universeContext name decl levels
  .ok (decl.ty.substLevelsExpr decl.universeParams levels)

/-! ### Inference -/

inductive FuelPolicy where
  | perQuestion
  | pooled
  deriving DecidableEq, Repr

section Infer

variable (env : Env) (layout : Layout) (policy : FuelPolicy) (universeContext : UniverseContext)

/-- Under `perQuestion` a question starts with the full limit. -/
def refuel (kind : ResourceLimitKind) (limit : Nat) : Op Unit :=
  match policy with
  | .perQuestion => Run.modify fun s => s.setFuel kind limit
  | .pooled => pure ()

def whnfQuestion (ctx : Ctx) (origin : MemoExprOrigin) (term : Expr) : Op Expr := do
  refuel policy .whnf whnfFuelLimit
  whnfMachine env layout ctx universeContext.params .whnf origin term

def defeqQuestion (ctx : Ctx) (lhs : Expr) (lhsOrigin : MemoExprOrigin) (rhs : Expr)
    (rhsOrigin : MemoExprOrigin) : Op Bool := do
  refuel policy .conversion defeqFuelLimit
  isDefeqWithRemainingFuel env layout universeContext.params ctx lhs lhsOrigin rhs rhsOrigin

/-- `expect_sort`, from the inference of the term's type. -/
def expectSortFrom (ctx : Ctx) (inferred : Op Expr) : Op Level := do
  let ty ← inferred
  match ← whnfQuestion env layout policy universeContext ctx .fresh ty with
  | .sort level => pure level
  | actual => Run.fail (.expectedSort actual)

/-- `check`, from the inference of the term's type. -/
def checkFrom (ctx : Ctx) (inferred : Op Expr) (expected : Expr)
    (expectedOrigin : MemoExprOrigin) : Op Unit := do
  let actual ← inferred
  if ← defeqQuestion env layout policy universeContext ctx actual .fresh expected expectedOrigin
  then pure ()
  else Run.fail (.typeMismatch expected actual)

def inferTerm (ctx : Ctx) : Expr → Op Expr
  | .sort level => do
    Run.lift (ensureLevelWf universeContext.params level)
    pure (.sort (.succ level))
  | .bvar index => Run.lift (ctx.lookupType index)
  | .const name levels => Run.lift (inferConstType env universeContext name levels)
  | .pi _ ty body => do
    let domainSort ← expectSortFrom env layout policy universeContext ctx (inferTerm ctx ty)
    let bodyCtx := ctx.pushAssumption ty
    let bodySort ← expectSortFrom env layout policy universeContext bodyCtx (inferTerm bodyCtx body)
    pure (.sort (mkIMax domainSort bodySort))
  | .lam binder ty body => do
    let _ ← expectSortFrom env layout policy universeContext ctx (inferTerm ctx ty)
    let bodyTy ← inferTerm (ctx.pushAssumption ty) body
    pure (.pi binder ty bodyTy)
  | .app fn arg => do
    let fnTy ← inferTerm ctx fn
    match ← whnfQuestion env layout policy universeContext ctx .fresh fnTy with
    | .pi _ ty body => do
      checkFrom env layout policy universeContext ctx (inferTerm ctx arg) ty .retained
      Run.lift (Expr.instantiate body arg)
    | actual => Run.fail (.expectedPi actual)

def checkTerm (ctx : Ctx) (term expected : Expr) : Op Unit :=
  checkFrom env layout policy universeContext ctx
    (inferTerm env layout policy universeContext ctx term) expected .borrowed

def expectSortTerm (ctx : Ctx) (term : Expr) : Op Level :=
  expectSortFrom env layout policy universeContext ctx
    (inferTerm env layout policy universeContext ctx term)

end Infer

/-! ### Public operations -/

namespace Env

variable (env : Env) (alloc : Allocator)

/-- A new operation with the given fuel: its memo is created here and dropped at the end. -/
def newSession (whnfFuel conversionFuel : Nat) : Session :=
  ⟨env.executionOptions.newMemo, whnfFuel, conversionFuel⟩

/-- The fuel of the ordinary operations, which their questions replace. -/
def defaultSession : Session := env.newSession whnfFuelLimit defeqFuelLimit

def inferInUniverseContext (ctx : Ctx) (universeContext : UniverseContext) (term : Expr) :
    Result Expr :=
  (inferTerm env (alloc ctx [term]) .perQuestion universeContext ctx term env.defaultSession).1

def checkInUniverseContext (ctx : Ctx) (universeContext : UniverseContext)
    (term expected : Expr) : Result Unit :=
  (checkTerm env (alloc ctx [term, expected]) .perQuestion universeContext ctx term expected
    env.defaultSession).1

def expectSortInUniverseContext (ctx : Ctx) (universeContext : UniverseContext) (term : Expr) :
    Result Level :=
  (expectSortTerm env (alloc ctx [term]) .perQuestion universeContext ctx term
    env.defaultSession).1

def infer (ctx : Ctx) (delta : List String) (term : Expr) : Result Expr := do
  let universeContext ← UniverseContext.fromParams delta
  env.inferInUniverseContext alloc ctx universeContext term

def check (ctx : Ctx) (delta : List String) (term expected : Expr) : Result Unit := do
  let universeContext ← UniverseContext.fromParams delta
  env.checkInUniverseContext alloc ctx universeContext term expected

/-- `infer_with_fuel_metered_in_universe_context`, with the fuel it leaves. -/
def inferWithFuelMeteredInUniverseContext (ctx : Ctx) (universeContext : UniverseContext)
    (term : Expr) (whnfFuel conversionFuel : Nat) : Result Expr × Session :=
  inferTerm env (alloc ctx [term]) .pooled universeContext ctx term
    (env.newSession whnfFuel conversionFuel)

def whnfWithFuel (ctx : Ctx) (delta : List String) (term : Expr) (fuel : Nat) : Result Expr :=
  (whnfMachine env (alloc ctx [term]) ctx delta .whnf .borrowed term (env.newSession fuel 0)).1

def whnf (ctx : Ctx) (delta : List String) (term : Expr) : Result Expr :=
  env.whnfWithFuel alloc ctx delta term whnfFuelLimit

def isDefeqWithFuel (ctx : Ctx) (delta : List String) (lhs rhs : Expr) (fuel : Nat) :
    Result Bool :=
  (isDefeqWithRemainingFuel env (alloc ctx [lhs, rhs]) delta ctx lhs .borrowed rhs .borrowed
    (env.newSession 0 fuel)).1

def isDefeq (ctx : Ctx) (delta : List String) (lhs rhs : Expr) : Result Bool :=
  env.isDefeqWithFuel alloc ctx delta lhs rhs defeqFuelLimit

end Env

end NpaCore.Kernel
