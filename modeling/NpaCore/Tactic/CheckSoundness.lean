import NpaCore.Kernel.FuelLaws
import NpaCore.Kernel.Weakening
import NpaCore.Tactic.Extraction

/-!
# Soundness of the check of a proof expression

A check that succeeds says something about every later state: once the metavariables of the
expression stand for terms of their targets, the expression stands for a term of its type. The
check itself reads a new metavariable as a term of its target that it does not know.

## Main result

`check_infer_sound`: the typing of what a checked expression will stand for.
-/

namespace NpaCore.Tactic

open NpaCore.Expr
open NpaCore.Kernel (Ctx Allocator UniverseContext Conv HasType Infers RecursorsSafe EntailmentSound)

/-! ### The kernel's operations on a budget -/

/-- The environment and the universe context that questions may be asked in. -/
structure Trusted (env : Kernel.Env) (delta : List String) (universeContext : UniverseContext) :
    Prop where
  safe : RecursorsSafe env
  range : env.InRange
  closed : env.Closed
  context : UniverseContext.fromParams delta = .ok universeContext
  entailment : EntailmentSound universeContext

theorem Trusted.of_built {env : Kernel.Env} {delta : List String} {universeContext : UniverseContext}
    (built : Kernel.Built Kernel.NoLevelLeak env) (range : env.InRange)
    (context : UniverseContext.fromParams delta = .ok universeContext) :
    Trusted env delta universeContext := by
  have new : UniverseContext.new delta [] = .ok universeContext := context
  have harmless : Kernel.IMaxHarmless [] := by
    intro _ _ _ mem
    cases mem
  exact ⟨built.recursorsSafe, range, built.builtFrom.closed, context,
    Kernel.entailmentSound_of_new harmless new⟩

section Questions

variable {env : Kernel.Env} {delta : List String} {universeContext : UniverseContext}
  {alloc : Allocator} {metaId : MetaVarId} {ctx : Ctx} {term : Kernel.Expr}
  {fuel left : TacticRunFuel}

theorem kernelInfer_sound (trusted : Trusted env delta universeContext) (rangeCtx : ctx.InRange)
    (rangeTerm : term.InRange) {ty : Kernel.Expr}
    (h : kernelInferWithBudget env alloc delta metaId ctx term fuel = (.ok ty, left)) :
    Infers env universeContext ctx term ty := by
  simp only [kernelInferWithBudget, inferWithFuelMetered, trusted.context, Prod.mk.injEq,
    Result.mapError_eq_ok] at h
  have sound := Kernel.inferTerm_sound (alloc ctx [term]) .pooled trusted.safe trusted.range
    trusted.entailment rangeCtx rangeTerm
  exact sound.result h.1

theorem kernelWhnf_sound (trusted : Trusted env delta universeContext) (rangeTerm : term.InRange)
    {value : Kernel.Expr}
    (h : kernelWhnfWithBudget env alloc delta metaId ctx term fuel = (.ok value, left)) :
    Conv env term value ∧ value.InRange := by
  simp only [kernelWhnfWithBudget, Prod.mk.injEq, Result.mapError_eq_ok] at h
  have realised : Kernel.Realises env .whnf (fun _ => True)
      (Kernel.whnfMachine env (alloc ctx [term]) ctx delta .whnf .borrowed term) _ :=
    Kernel.whnfMachine_realises .borrowed term
  have sound : Kernel.Sound env _ fun value => Conv env term value ∧ value.InRange :=
    Kernel.sound_of_realises realised
      fun _ _ _ spent => spent.sound trusted.safe trusted.range rangeTerm
  exact sound.result h.1

theorem kernelIsDefeq_sound (trusted : Trusted env delta universeContext)
    {lhs rhs : Kernel.Expr} (rangeLhs : lhs.InRange) (rangeRhs : rhs.InRange)
    (h : kernelIsDefeqWithBudget env alloc delta metaId ctx lhs rhs fuel = (.ok true, left)) :
    Conv env lhs rhs := by
  simp only [kernelIsDefeqWithBudget, Prod.mk.injEq, Result.mapError_eq_ok] at h
  have realised : Kernel.Realises env .conversion (fun _ => True)
      (Kernel.isDefeqWithRemainingFuel env (alloc ctx [lhs, rhs]) delta ctx lhs .borrowed rhs
        .borrowed) _ :=
    Kernel.isDefeqWithRemainingFuel_realises _ delta ctx lhs .borrowed rhs .borrowed
  have positive : ∀ answer before after, Kernel.DefeqSpends env ctx lhs rhs before (.ok answer) after →
      answer = true → Conv env lhs rhs := by
    rintro answer _ _ spent rfl
    exact spent.sound trusted.safe trusted.range rangeLhs rangeRhs
  exact (Kernel.sound_of_realises realised positive).result h.1 rfl

theorem kernelExpectSort_sound (trusted : Trusted env delta universeContext)
    (rangeCtx : ctx.InRange) (rangeTerm : term.InRange) {u : Unit}
    (h : kernelExpectSortWithBudget env alloc delta metaId ctx term fuel = (.ok u, left)) :
    ∃ level, HasType env universeContext ctx term (.sort level) := by
  simp only [kernelExpectSortWithBudget, Run.bind_eq_ok] at h
  obtain ⟨ty, _, inferred, whnf, _, reduced, h⟩ := h
  obtain ⟨typed, rangeTy⟩ := kernelInfer_sound trusted rangeCtx rangeTerm inferred
  obtain ⟨converts, _⟩ := kernelWhnf_sound trusted rangeTy reduced
  cases whnf with
  | sort level => exact ⟨level, .conv typed converts⟩
  | bvar _ | const _ _ | app _ _ | lam _ _ _ | pi _ _ _ =>
    simp only [Run.fail_eq_ok] at h

end Questions

/-! ### Contexts -/

/-- The kernel's context of a local context. -/
def kernelCtx (ctx : LocalContext) : Ctx := ⟨ctx.map MachineLocalDecl.ty⟩

@[simp] theorem kernelCtx_concat (ctx : LocalContext) (localDecl : MachineLocalDecl) :
    kernelCtx (ctx ++ [localDecl]) = (kernelCtx ctx).pushAssumption localDecl.ty := by
  simp [kernelCtx, Ctx.pushAssumption]

def ContextInRange (ctx : LocalContext) : Prop := ∀ localDecl ∈ ctx, localDecl.ty.InRange

variable {ctx : LocalContext}

theorem ContextInRange.kernelCtx (h : ContextInRange ctx) :
    (kernelCtx ctx).InRange := by
  intro ty mem
  obtain ⟨localDecl, here, rfl⟩ := List.mem_map.mp mem
  exact h localDecl here

theorem ContextInRange.concat (h : ContextInRange ctx) {name : String}
    {ty : Kernel.Expr} (range : ty.InRange) : ContextInRange (ctx ++ [⟨name, ty⟩]) := by
  intro localDecl mem
  rcases List.mem_append.mp mem with mem | mem
  · exact h localDecl mem
  · rw [List.mem_singleton.mp mem]
    exact range

variable {fuel left : TacticRunFuel}

/-- The loop pushes the types in order. -/
theorem pushLocals_eq_ok {env : Kernel.Env} {alloc : Allocator} {delta : List String}
    {metaId : MetaVarId} {names : List String} {before pushed : Ctx}
    (h : pushLocals env alloc delta metaId names before ctx fuel = (.ok pushed, left)) :
    pushed = ⟨before.locals ++ ctx.map MachineLocalDecl.ty⟩ := by
  induction ctx generalizing names before fuel with
  | nil =>
    cases h
    simp
  | cons localDecl rest ih =>
    rw [pushLocals] at h
    split at h
    next => simp only [Run.fail_eq_ok] at h
    next =>
      simp only [Run.bind_eq_ok] at h
      obtain ⟨_, _, _, below⟩ := h
      rw [ih below]
      simp [Ctx.pushAssumption]

theorem localContextToCtx_eq_ok {env : Kernel.Env} {alloc : Allocator} {delta : List String}
    {metaId : MetaVarId} {pushed : Ctx}
    (h : localContextToCtxWithBudget env alloc delta metaId ctx fuel = (.ok pushed, left)) :
    pushed = kernelCtx ctx := pushLocals_eq_ok h

/-! ### Variables that do not occur -/

/-- Whatever takes the place of a variable that does not occur. -/
theorem substVar_absent {target : Nat} {e : Kernel.Expr} (absent : containsBoundVar target e = false)
    (value other : Kernel.Expr) : substVar value target e = substVar other target e := by
  induction e generalizing target with
  | sort _ | const _ _ => rfl
  | bvar index =>
    have differs : index ≠ target := by simpa [containsBoundVar] using absent
    simp only [substVar, if_neg differs]
  | app _ _ ihFn ihArg =>
    simp only [containsBoundVar, Bool.or_eq_false_iff] at absent
    rw [substVar, substVar, ihFn absent.1, ihArg absent.2]
  | lam _ _ _ ihTy ihBody | pi _ _ _ ihTy ihBody =>
    simp only [containsBoundVar, Bool.or_eq_false_iff] at absent
    rw [substVar, substVar, ihTy absent.1, ihBody absent.2]

/-- The body of a binder at its own variable, in the context with that variable. -/
theorem substVar_self (depth : Nat) (e : Kernel.Expr) :
    substVar (.bvar 0) depth (lift 1 (depth + 1) e) = e := by
  induction e generalizing depth with
  | sort _ | const _ _ => rfl
  | bvar index =>
    rcases Nat.lt_trichotomy index depth with less | rfl | more
    · rw [lift, if_pos (Nat.lt_succ_of_lt less), substVar, if_neg (Nat.ne_of_lt less),
        if_neg (Nat.lt_asymm less)]
    · rw [lift, if_pos (Nat.lt_succ_self index), substVar, if_pos rfl, lift, if_neg (Nat.not_lt_zero 0),
        Nat.zero_add]
    · rw [lift, if_neg (by omega), substVar, if_neg (by omega), if_pos (by omega), Nat.add_sub_cancel]
  | app _ _ ihFn ihArg => rw [lift, substVar, ihFn, ihArg]
  | lam _ _ _ ihTy ihBody | pi _ _ _ ihTy ihBody => rw [lift, substVar, ihTy, ihBody]

/-! ### References -/

variable {checked : CheckedProofExpr}

section References

variable {store later : MetaVarStore} {new : List MetaVarId} {assigning : MetaVarId}

/-- What is known of an answered reference is what the metavariable stands for. -/
def RefersRight (store : MetaVarStore)
    (inferMeta : LocalContext → MetaVarId → TacticResult CheckedProofExpr) : Prop :=
  ∀ ctx id checked core, ctx.length < 0x80000000 → inferMeta ctx id = .ok checked →
    checked.expr = some core → Denotes store ctx.length (.metaVar id) core ∧ core.InRange

theorem expandProofExprMaybe_denotes
    {inferMeta : LocalContext → MetaVarId → TacticResult CheckedProofExpr}
    (right : RefersRight store inferMeta) {expr : ProofExpr}
    {core : Kernel.Expr} (range : expr.InRange ctx.length)
    (h : expandProofExprMaybe inferMeta ctx expr = .ok (some core)) :
    Denotes store ctx.length expr core ∧ core.InRange := by
  induction expr generalizing ctx core with
  | core inner =>
    cases h
    exact ⟨.core, range⟩
  | metaVar id =>
    simp only [expandProofExprMaybe, Result.bind_eq_ok, Except.ok.injEq] at h
    obtain ⟨checked, asked, known⟩ := h
    exact right ctx id checked core range asked known
  | app fn arg ihFn ihArg =>
    simp only [expandProofExprMaybe, Result.bind_eq_ok] at h
    obtain ⟨fn', hfn, arg', harg, h⟩ := h
    cases fn' with
    | none => cases h
    | some fn' =>
      cases arg' with
      | none => cases h
      | some arg' =>
        cases h
        obtain ⟨first, firstRange⟩ := ihFn range.1 hfn
        obtain ⟨second, secondRange⟩ := ihArg range.2 harg
        exact ⟨.app first second, firstRange, secondRange⟩
  | lam binder ty body ih =>
    simp only [expandProofExprMaybe, Result.bind_eq_ok, Except.ok.injEq] at h
    obtain ⟨body', hbody, h⟩ := h
    cases body' with
    | none => cases h
    | some body' =>
      cases h
      have under : (ctx ++ [⟨binder, ty⟩] : LocalContext).length = ctx.length + 1 := by simp
      obtain ⟨inner, innerRange⟩ := ih (under ▸ range.2) hbody
      exact ⟨.lam (under ▸ inner), range.1, innerRange⟩

theorem inferMetaRefAt_denotes (range : store.InRange) (depth : Nat) (visiting : List MetaVarId) :
    RefersRight store (inferMetaRefAt store new assigning depth visiting) := by
  induction depth generalizing visiting with
  | zero =>
    intro ctx id checked core _ h
    cases h
  | succ depth ih =>
    intro ctx id checked core small h known
    simp only [inferMetaRefAt, Result.bind_eq_ok, Result.ensure_eq_ok, Result.okOr_eq_ok,
      machineLocalContextIsPrefix_iff] at h
    obtain ⟨_, _, found, get, _, within, target, _, h⟩ := h
    cases assigned : found.assignment with
    | none =>
      -- an open metavariable is answered without a term, or refused
      simp only [assigned] at h
      split at h
      next =>
        cases h
        cases known
      next => cases h
    | some assignment =>
      simp only [assigned, Result.bind_eq_ok, Result.ensure_eq_ok] at h
      obtain ⟨_, _, expanded, expands, h⟩ := h
      cases expanded with
      | none =>
        cases h
        cases known
      | some expanded =>
        simp only [Result.bind_eq_ok, Except.ok.injEq] at h
        obtain ⟨moved, weakened, rfl⟩ := h
        cases known
        have inRange := (range id found get).assignment assignment assigned
        obtain ⟨denotes, expandedRange⟩ :=
          expandProofExprMaybe_denotes (ih (id :: visiting)) inRange expands
        obtain ⟨rfl, movedRange⟩ := weakenTo_eq small expandedRange weakened
        exact ⟨.metaVar get within.length_le assigned denotes, movedRange⟩

/-- The type of a reference is the target, moved out of the shorter context. -/
theorem inferMetaRef_type (range : store.InRange) {id : MetaVarId} (small : ctx.length < 0x80000000)
    (h : inferMetaRef store new assigning ctx id = .ok checked) :
    ∃ found, store.get id = some found ∧ found.context <+: ctx ∧
      checked.ty = lift (ctx.length - found.context.length) 0 found.target ∧ checked.ty.InRange := by
  simp only [inferMetaRef, inferMetaRefAt, Result.bind_eq_ok, Result.ensure_eq_ok,
    Result.okOr_eq_ok, machineLocalContextIsPrefix_iff] at h
  obtain ⟨_, _, found, get, _, within, target, weakened, h⟩ := h
  obtain ⟨rfl, inRange⟩ := weakenTo_eq small (range id found get).target weakened
  have same : checked.ty = lift (ctx.length - found.context.length) 0 found.target := by
    cases assigned : found.assignment with
    | none =>
      simp only [assigned] at h
      split at h
      next =>
        cases h
        rfl
      next => cases h
    | some assignment =>
      simp only [assigned, Result.bind_eq_ok] at h
      obtain ⟨_, _, expanded, _, h⟩ := h
      cases expanded with
      | none =>
        cases h
        rfl
      | some expanded =>
        simp only [Result.bind_eq_ok, Except.ok.injEq] at h
        obtain ⟨_, _, rfl⟩ := h
        rfl
  exact ⟨found, get, within, same, same ▸ inRange⟩

end References

/-! ### The check -/

section Check

variable {env : Kernel.Env} {delta : List String} {universeContext : UniverseContext}
  {alloc : Allocator} {store later : MetaVarStore} {new : List MetaVarId} {assigning : MetaVarId}

/-- The metavariable stands for a term of its target. -/
def WellTyped (env : Kernel.Env) (universeContext : UniverseContext) (later : MetaVarStore)
    (id : MetaVarId) : Prop :=
  ∃ found core, later.get id = some found ∧
    Denotes later found.context.length (.metaVar id) core ∧
    HasType env universeContext (kernelCtx found.context) core found.target

/-- What is known of a checked expression is what it stands for later, and once its
    metavariables stand for terms of their targets it stands for a term of the type. -/
structure Justified (env : Kernel.Env) (universeContext : UniverseContext) (later : MetaVarStore)
    (ctx : LocalContext) (expr : ProofExpr) (known : Option Kernel.Expr) (ty : Kernel.Expr) :
    Prop where
  known : ∀ core, known = some core → Denotes later ctx.length expr core ∧ core.InRange
  typed : (∀ id ∈ expr.metas, WellTyped env universeContext later id) →
    ∃ core, Denotes later ctx.length expr core ∧
      HasType env universeContext (kernelCtx ctx) core ty

theorem Justified.conv {expr : ProofExpr} {known : Option Kernel.Expr}
    {ty ty' : Kernel.Expr} (h : Justified env universeContext later ctx expr known ty)
    (converts : Conv env ty ty') : Justified env universeContext later ctx expr known ty' := by
  refine ⟨h.known, fun metas => ?_⟩
  obtain ⟨core, denotes, typed⟩ := h.typed metas
  exact ⟨core, denotes, .conv typed converts⟩

theorem inferCore_sound (trusted : Trusted env delta universeContext) {core : Kernel.Expr}
    (rangeCtx : ContextInRange ctx) (range : core.InRange)
    (h : inferCore env alloc delta assigning ctx core fuel = (.ok checked, left)) :
    Justified env universeContext later ctx (.core core) checked.expr checked.ty ∧
      checked.ty.InRange := by
  simp only [inferCore, Run.bind_eq_ok, Run.pure_eq_ok] at h
  obtain ⟨pushed, _, context, ty, _, inferred, rfl, rfl⟩ := h
  obtain rfl := localContextToCtx_eq_ok context
  obtain ⟨typed, rangeTy⟩ := kernelInfer_sound trusted rangeCtx.kernelCtx range inferred
  refine ⟨⟨?_, fun _ => ⟨core, .core, typed⟩⟩, rangeTy⟩
  rintro _ ⟨⟩
  exact ⟨.core, range⟩

theorem inferMetaRef_sound (closed : env.Closed) (kept : Extends store later)
    (range : store.InRange) {id : MetaVarId}
    (small : ctx.length < 0x80000000) (h : inferMetaRef store new assigning ctx id = .ok checked) :
    Justified env universeContext later ctx (.metaVar id) checked.expr checked.ty ∧
      checked.ty.InRange := by
  obtain ⟨found, get, ⟨extra, rfl⟩, ty, inRange⟩ := inferMetaRef_type range small h
  refine ⟨⟨?_, ?_⟩, inRange⟩
  · intro core known
    obtain ⟨denotes, coreRange⟩ :=
      inferMetaRefAt_denotes range _ _ _ id checked core small h known
    exact ⟨denotes.extends kept, coreRange⟩
  · intro metas
    obtain ⟨entry, core, get', denotes, typed⟩ := metas id (List.mem_singleton_self id)
    obtain ⟨_, here, follows⟩ := kept.follows id found get
    obtain rfl := Option.some.inj (get'.symm.trans here)
    -- the metavariable's own context comes first, and the typing is weakened by the rest
    rw [follows.context, follows.target] at typed
    have weakened := HasType.weaken closed typed (extra.map MachineLocalDecl.ty)
    have length : (found.context ++ extra).length - found.context.length = extra.length := by simp
    rw [length] at ty
    rw [List.length_map, ← ty] at weakened
    cases denotes with
    | metaVar other _ assigned below =>
      obtain rfl := Option.some.inj (get'.symm.trans other)
      rw [Nat.sub_self, lift_zero] at weakened
      refine ⟨_, .metaVar get' ?_ assigned below, ?_⟩
      · rw [follows.context, List.length_append]
        exact Nat.le_add_right _ _
      · rw [follows.context, length]
        simpa [kernelCtx] using weakened

/-! ### Applications and lambdas -/

/-- The type of an application whose argument is not known, at any argument: the context of the
    argument is left by the projection, and conversion follows the substitution. -/
theorem resultTypeForUnresolvedDependentArg_sound (trusted : Trusted env delta universeContext)
    {ty body result : Kernel.Expr} (range : body.InRange)
    (h : resultTypeForUnresolvedDependentArg env alloc delta assigning ctx ty body fuel =
      (.ok result, left)) (arg : Kernel.Expr) :
    Conv env (instVar body arg) result ∧ result.InRange := by
  simp only [resultTypeForUnresolvedDependentArg, Run.bind_eq_ok, Run.lift_eq_ok,
    Result.mapError_eq_ok] at h
  obtain ⟨lifted, _, ⟨shifted, _⟩, hypothetical, _, ⟨instantiated, _⟩, pushed, _, _, normalized, _,
    reduced, projected, _⟩ := h
  have byOne : NpaCore.Expr.shift Kernel.Error.invalidBVar body ((1 : Nat) : Int) 1 = .ok lifted :=
    shifted
  obtain ⟨rfl, liftedRange⟩ := shift_eq range byOne
  have variable_ : (NpaCore.Expr.bvar 0 : Kernel.Expr).InRange := by decide
  obtain ⟨rfl, hypotheticalRange⟩ := instantiate_eq liftedRange variable_ instantiated
  rw [instVar, substVar_self] at reduced hypotheticalRange
  obtain ⟨converts, normalRange⟩ := kernelWhnf_sound trusted hypotheticalRange reduced
  rw [List.length_append, List.length_singleton] at projected
  -- the projection has dropped the local, so the type is one of the shorter context, lifted
  obtain ⟨_, rfl⟩ := @projectExpr_eq_lift _ _ 0 _ _ projected
  have atArg := converts.instVar trusted.closed arg
  rw [instVar, instVar, substVar_lift (b := 0) arg (Nat.le_refl 0) (Nat.le_refl 0), lift_zero] at atArg
  exact ⟨atArg, inRange_of_lift normalRange⟩

theorem appResultType_sound (trusted : Trusted env delta universeContext)
    {ty body result : Kernel.Expr} {arg : CheckedProofExpr}
    (range : body.InRange) (known : ∀ core, arg.expr = some core → core.InRange)
    (h : appResultType env alloc delta assigning ctx ty body arg fuel = (.ok result, left)) :
    result.InRange ∧ ∀ core, (∀ other, arg.expr = some other → other = core) →
      Conv env (instVar body core) result := by
  have variable_ : (NpaCore.Expr.bvar 0 : Kernel.Expr).InRange := by decide
  cases found : arg.expr with
  | some argExpr =>
    simp only [appResultType, found, Run.lift_eq_ok, Result.mapError_eq_ok] at h
    obtain ⟨rfl, inRange⟩ := instantiate_eq range (known argExpr found) h.1
    refine ⟨inRange, fun core same => ?_⟩
    rw [same argExpr rfl]
    exact .refl _
  | none =>
    by_cases occurs : containsBoundVar 0 body = true
    · simp only [appResultType, found, if_pos occurs] at h
      have sound := resultTypeForUnresolvedDependentArg_sound trusted range h
      exact ⟨(sound (.bvar 0)).2, fun core _ => (sound core).1⟩
    · simp only [appResultType, found, if_neg occurs, Run.lift_eq_ok, Result.mapError_eq_ok] at h
      obtain ⟨rfl, inRange⟩ := instantiate_eq range variable_ h.1
      refine ⟨inRange, fun core _ => ?_⟩
      rw [instVar, instVar, substVar_absent (by simpa using occurs) core (.bvar 0)]
      exact .refl _

theorem inferApp_sound (trusted : Trusted env delta universeContext)
    {fn arg : ProofExpr} {inferFn : TacticRun CheckedProofExpr}
    {checkArg : Kernel.Expr → TacticRun CheckedProofExpr}
    (hfn : ∀ checked fuel left, inferFn fuel = (.ok checked, left) →
      Justified env universeContext later ctx fn checked.expr checked.ty ∧ checked.ty.InRange)
    (harg : ∀ ty checked fuel left, ty.InRange → checkArg ty fuel = (.ok checked, left) →
      Justified env universeContext later ctx arg checked.expr ty)
    (h : inferApp env alloc delta assigning ctx inferFn checkArg fuel = (.ok checked, left)) :
    Justified env universeContext later ctx (.app fn arg) checked.expr checked.ty ∧
      checked.ty.InRange := by
  simp only [inferApp, Run.bind_eq_ok] at h
  obtain ⟨fnChecked, _, first, _, _, _, whnf, _, reduced, h⟩ := h
  obtain ⟨fnJustified, fnRange⟩ := hfn _ _ _ first
  obtain ⟨converts, whnfRange⟩ := kernelWhnf_sound trusted fnRange reduced
  cases whnf with
  | pi binder ty body =>
    simp only [Run.bind_eq_ok, Run.pure_eq_ok] at h
    obtain ⟨argChecked, _, second, result, _, resultType, rfl, rfl⟩ := h
    have argJustified := harg _ _ _ _ whnfRange.1 second
    obtain ⟨resultRange, resultConverts⟩ := appResultType_sound trusted whnfRange.2
      (fun core known => (argJustified.known core known).2) resultType
    refine ⟨⟨?_, ?_⟩, resultRange⟩
    · intro core known
      cases fnKnown : fnChecked.expr with
      | none =>
        rw [fnKnown] at known
        cases known
      | some fnCore =>
        cases argKnown : argChecked.expr with
        | none =>
          rw [fnKnown, argKnown] at known
          cases known
        | some argCore =>
          rw [fnKnown, argKnown] at known
          cases known
          obtain ⟨fnDenotes, fnCoreRange⟩ := fnJustified.known fnCore fnKnown
          obtain ⟨argDenotes, argCoreRange⟩ := argJustified.known argCore argKnown
          exact ⟨.app fnDenotes argDenotes, fnCoreRange, argCoreRange⟩
    · intro metas
      obtain ⟨fnCore, fnDenotes, fnTyped⟩ :=
        fnJustified.typed fun id mem => metas id (List.mem_append_left _ mem)
      obtain ⟨argCore, argDenotes, argTyped⟩ :=
        argJustified.typed fun id mem => metas id (List.mem_append_right _ mem)
      have typed := HasType.app (.conv fnTyped converts) argTyped
      -- a known argument is the one that is denoted, an unknown one may be any
      refine ⟨_, .app fnDenotes argDenotes, .conv typed (resultConverts argCore ?_)⟩
      intro other known
      exact (argJustified.known other known).1.unique argDenotes
  | sort _ | bvar _ | const _ _ | app _ _ | lam _ _ _ => simp only [Run.fail_eq_ok] at h

theorem Justified.lam {binder : String} {ty annotation bodyTy : Kernel.Expr}
    {body : ProofExpr} {known : Option Kernel.Expr} {level : Kernel.Level} (closed : env.Closed)
    (range : annotation.InRange)
    (sorted : HasType env universeContext (kernelCtx ctx) annotation (.sort level))
    (same : Conv env annotation ty)
    (h : Justified env universeContext later (ctx ++ [⟨binder, ty⟩]) body known bodyTy) :
    Justified env universeContext later ctx (.lam binder annotation body)
      (known.map fun body => .lam binder annotation body) (.pi binder annotation bodyTy) := by
  have under : (ctx ++ [⟨binder, ty⟩] : LocalContext).length = ctx.length + 1 := by simp
  constructor
  · intro core found
    obtain ⟨inner, innerKnown, rfl⟩ := Option.map_eq_some_iff.mp found
    obtain ⟨denotes, inRange⟩ := h.known inner innerKnown
    exact ⟨.lam (under ▸ denotes), range, inRange⟩
  · intro metas
    obtain ⟨core, denotes, typed⟩ := h.typed metas
    rw [kernelCtx_concat] at typed
    -- the local's type is exchanged for one that converts to it
    have changed : HasType env universeContext ((kernelCtx ctx).pushAssumption annotation) core bodyTy :=
      typed.changeContext closed (List.rel_append (Conv.forall₂_refl _) (.cons same.symm .nil))
    exact ⟨_, .lam (under ▸ denotes), .lam sorted changed⟩

theorem inferLam_sound (trusted : Trusted env delta universeContext)
    {binder : String} {ty : Kernel.Expr} {body : ProofExpr}
    {inferBody : LocalContext → TacticRun CheckedProofExpr}
    (rangeCtx : ContextInRange ctx) (range : ty.InRange)
    (hbody : ∀ checked fuel left, inferBody (ctx ++ [⟨binder, ty⟩]) fuel = (.ok checked, left) →
      Justified env universeContext later (ctx ++ [⟨binder, ty⟩]) body checked.expr checked.ty ∧
        checked.ty.InRange)
    (h : inferLam env alloc delta assigning ctx binder ty inferBody fuel = (.ok checked, left)) :
    Justified env universeContext later ctx (.lam binder ty body) checked.expr checked.ty ∧
      checked.ty.InRange := by
  simp only [inferLam, Run.bind_eq_ok, Run.pure_eq_ok] at h
  obtain ⟨pushed, _, context, _, _, sorted, inner, _, below, rfl, rfl⟩ := h
  obtain rfl := localContextToCtx_eq_ok context
  obtain ⟨level, typed⟩ := kernelExpectSort_sound trusted rangeCtx.kernelCtx range sorted
  obtain ⟨justified, innerRange⟩ := hbody _ _ _ below
  exact ⟨justified.lam trusted.closed range typed (.refl ty), range, innerRange⟩

theorem checkInferred_sound (trusted : Trusted env delta universeContext)
    {expr : ProofExpr} {expected : Kernel.Expr}
    {inferred : TacticRun CheckedProofExpr} (rangeExpected : expected.InRange)
    (hinferred : ∀ checked fuel left, inferred fuel = (.ok checked, left) →
      Justified env universeContext later ctx expr checked.expr checked.ty ∧ checked.ty.InRange)
    (h : checkInferred env alloc delta assigning ctx expected inferred fuel = (.ok checked, left)) :
    Justified env universeContext later ctx expr checked.expr expected := by
  simp only [checkInferred, Run.bind_eq_ok] at h
  obtain ⟨found, _, first, _, _, _, same, _, compared, h⟩ := h
  obtain ⟨justified, rangeTy⟩ := hinferred _ _ _ first
  cases same with
  | true =>
    simp only [if_true, Run.pure_eq_ok] at h
    obtain ⟨rfl, rfl⟩ := h
    exact justified.conv (kernelIsDefeq_sound trusted rangeTy rangeExpected compared)
  | false => simp [Run.fail_eq_ok] at h

theorem checkLamProofExpr_sound (trusted : Trusted env delta universeContext)
    {binder : String} {ty expected : Kernel.Expr} {body : ProofExpr}
    {checkBody : LocalContext → Kernel.Expr → TacticRun CheckedProofExpr}
    (rangeCtx : ContextInRange ctx) (range : ty.InRange) (rangeExpected : expected.InRange)
    (hbody : ∀ domain bodyTy checked fuel left, domain.InRange → bodyTy.InRange →
      checkBody (ctx ++ [⟨binder, domain⟩]) bodyTy fuel = (.ok checked, left) →
      Justified env universeContext later (ctx ++ [⟨binder, domain⟩]) body checked.expr bodyTy)
    (h : checkLamProofExpr env alloc delta assigning ctx binder ty expected checkBody fuel =
      (.ok checked, left)) :
    Justified env universeContext later ctx (.lam binder ty body) checked.expr expected := by
  simp only [checkLamProofExpr, Run.bind_eq_ok] at h
  obtain ⟨pushed, _, context, _, _, sorted, whnf, _, reduced, h⟩ := h
  obtain rfl := localContextToCtx_eq_ok context
  obtain ⟨level, typed⟩ := kernelExpectSort_sound trusted rangeCtx.kernelCtx range sorted
  obtain ⟨converts, whnfRange⟩ := kernelWhnf_sound trusted rangeExpected reduced
  cases whnf with
  | pi other domain codomain =>
    simp only [Run.bind_eq_ok] at h
    obtain ⟨same, _, compared, h⟩ := h
    cases same with
    | true =>
      simp only [if_true, Run.bind_eq_ok, Run.pure_eq_ok] at h
      obtain ⟨inner, _, below, rfl, rfl⟩ := h
      have domains := kernelIsDefeq_sound trusted range whnfRange.1 compared
      have justified := hbody _ _ _ _ _ whnfRange.1 whnfRange.2 below
      -- the annotation stands in the term, the domain in the context of the body
      exact (justified.lam trusted.closed range typed domains).conv
        (.trans (.pi domains (.refl codomain)) converts.symm)
    | false => simp [Run.fail_eq_ok] at h
  | sort _ | bvar _ | const _ _ | app _ _ | lam _ _ _ => simp only [Run.fail_eq_ok] at h

/-- By induction on the expression, for the check and the inference at once. -/
theorem check_infer_sound (trusted : Trusted env delta universeContext) (kept : Extends store later)
    (rangeStore : store.InRange) (expr : ProofExpr) :
    (∀ ctx expected checked fuel left, ContextInRange ctx → expr.InRange ctx.length →
      expected.InRange →
      checkProofExpr env alloc delta store new assigning expr ctx expected fuel =
        (.ok checked, left) →
      Justified env universeContext later ctx expr checked.expr expected) ∧
    ∀ ctx checked fuel left, ContextInRange ctx → expr.InRange ctx.length →
      inferProofExpr env alloc delta store new assigning expr ctx fuel = (.ok checked, left) →
      Justified env universeContext later ctx expr checked.expr checked.ty ∧
        checked.ty.InRange := by
  induction expr with
  | core core =>
    have inferred : ∀ ctx checked fuel left, ContextInRange ctx → core.InRange →
        inferCore env alloc delta assigning ctx core fuel = (.ok checked, left) →
        Justified env universeContext later ctx (.core core) checked.expr checked.ty ∧
          checked.ty.InRange :=
      fun ctx checked fuel left rangeCtx range h => inferCore_sound trusted rangeCtx range h
    constructor
    · intro ctx expected checked fuel left rangeCtx range rangeExpected h
      rw [checkProofExpr] at h
      exact checkInferred_sound trusted rangeExpected
        (fun checked fuel left => inferred ctx checked fuel left rangeCtx range) h
    · intro ctx checked fuel left rangeCtx range h
      rw [inferProofExpr] at h
      exact inferred ctx checked fuel left rangeCtx range h
  | metaVar id =>
    have inferred : ∀ (ctx : LocalContext) checked (fuel left : TacticRunFuel),
        ctx.length < 0x80000000 →
        (Run.lift (inferMetaRef store new assigning ctx id) : TacticRun _) fuel =
          (.ok checked, left) →
        Justified env universeContext later ctx (.metaVar id) checked.expr checked.ty ∧
          checked.ty.InRange := by
      intro ctx checked fuel left small h
      rw [Run.lift_eq_ok] at h
      exact inferMetaRef_sound trusted.closed kept rangeStore small h.1
    constructor
    · intro ctx expected checked fuel left _ range rangeExpected h
      rw [checkProofExpr] at h
      exact checkInferred_sound trusted rangeExpected
        (fun checked fuel left => inferred ctx checked fuel left range) h
    · intro ctx checked fuel left _ range h
      rw [inferProofExpr] at h
      exact inferred ctx checked fuel left range h
  | app fn arg ihFn ihArg =>
    have inferred : ∀ ctx checked fuel left, ContextInRange ctx →
        (ProofExpr.app fn arg).InRange ctx.length →
        inferApp env alloc delta assigning ctx
          (inferProofExpr env alloc delta store new assigning fn ctx)
          (fun ty => checkProofExpr env alloc delta store new assigning arg ctx ty) fuel =
            (.ok checked, left) →
        Justified env universeContext later ctx (.app fn arg) checked.expr checked.ty ∧
          checked.ty.InRange := by
      intro ctx checked fuel left rangeCtx range h
      refine inferApp_sound trusted ?_ ?_ h
      · intro checked fuel left inferred
        exact ihFn.2 ctx checked fuel left rangeCtx range.1 inferred
      · intro ty checked fuel left rangeTy checkedArg
        exact ihArg.1 ctx ty checked fuel left rangeCtx range.2 rangeTy checkedArg
    constructor
    · intro ctx expected checked fuel left rangeCtx range rangeExpected h
      rw [checkProofExpr] at h
      exact checkInferred_sound trusted rangeExpected
        (fun checked fuel left => inferred ctx checked fuel left rangeCtx range) h
    · intro ctx checked fuel left rangeCtx range h
      rw [inferProofExpr] at h
      exact inferred ctx checked fuel left rangeCtx range h
  | lam binder ty body ih =>
    have under : ∀ (ctx : LocalContext) domain,
        (ctx ++ [⟨binder, domain⟩] : LocalContext).length = ctx.length + 1 := by simp
    constructor
    · intro ctx expected checked fuel left rangeCtx range rangeExpected h
      rw [checkProofExpr] at h
      refine checkLamProofExpr_sound trusted rangeCtx range.1 rangeExpected ?_ h
      intro domain bodyTy checked fuel left rangeDomain rangeBody below
      exact ih.1 _ bodyTy checked fuel left (rangeCtx.concat rangeDomain)
        (by rw [under]; exact range.2) rangeBody below
    · intro ctx checked fuel left rangeCtx range h
      rw [inferProofExpr] at h
      refine inferLam_sound trusted rangeCtx range.1 ?_ h
      intro checked fuel left below
      exact ih.2 _ checked fuel left (rangeCtx.concat range.1) (by rw [under]; exact range.2) below

end Check

end NpaCore.Tactic
