import NpaCore.Kernel.DisplayNames
import NpaCore.Kernel.Evaluation
import NpaCore.Kernel.FuelLaws

/-!
# Display names are invisible

Change the display names of the binders in an environment, in a context and in a term, and
every operation of the kernel does the same as before, at the same cost.

Reduction is a machine, so the change of names is a translation of one machine into another,
and what reduction and conversion spend is translated with it. Inference and checking, whose
errors carry terms, are shown to succeed or fail together.

## Main results

- `DefeqSpends.relabel`: conversion answers the same, at the same cost.
- `inferTerm_follows`: inference in the two environments goes side by side.
- `addDef_names`, `addTheorem_names`: a declaration is accepted exactly when it is accepted with
  other display names, in an environment with other display names.
-/

namespace NpaCore.Kernel

open NpaCore.Expr NpaCore.Level

/-! ### The reduction machine -/

section Machine

variable (f : String → String)

def ReductionFrame.relabel : ReductionFrame → ReductionFrame
  | .apply argument => .apply (NpaCore.Expr.relabel f argument)
  | .recursorMajor application inductiveName rules =>
    .recursorMajor (NpaCore.Expr.relabel f application) inductiveName rules

def ReductionControl.relabel : ReductionControl → ReductionControl
  | .reduce current => .reduce (NpaCore.Expr.relabel f current)
  | .complete value => .complete (NpaCore.Expr.relabel f value)
  | .resume value => .resume (NpaCore.Expr.relabel f value)

def ReductionState.relabel (state : ReductionState) : ReductionState :=
  ⟨state.control.relabel f, state.frames.map (ReductionFrame.relabel f)⟩

variable {f} {env : Env} {ctx : Ctx}

theorem isLam_relabel {e : Expr} : IsLam (NpaCore.Expr.relabel f e) ↔ IsLam e := by
  cases e <;> exact Iff.rfl

theorem ensureBound_relabel (index : Nat) :
    (ctx.relabel f).ensureBound index = ctx.ensureBound index :=
  ensureBound_congr (relabel_length f ctx) index

theorem nextOrFail_translate {α α' : Type} {g : α → α'} {next : α → ReductionState}
    {next' : α' → ReductionState} (same : ∀ a, next' (g a) = (next a).relabel f) (x : Result α) :
    nextOrFail (x.map g) next' =
      (nextOrFail x next).map (ReductionState.relabel f) (NpaCore.Expr.relabel f) := by
  cases x with
  | error e => rfl
  | ok a => exact congrArg Move.next (same a)

theorem reduceMove_relabel (current : Expr) (frames : List ReductionFrame) :
    reduceMove (env.relabel f) (ctx.relabel f) (NpaCore.Expr.relabel f current)
        (frames.map (ReductionFrame.relabel f)) =
      (reduceMove env ctx current frames).map (ReductionState.relabel f)
        (NpaCore.Expr.relabel f) := by
  cases current with
  | bvar index =>
    simp only [relabel_bvar, reduceMove, ensureBound_relabel]
    cases ctx.ensureBound index <;> rfl
  | const name levels =>
    simp only [relabel_const, reduceMove, unfoldDefinition_relabel]
    cases unfoldDefinition env name levels <;> rfl
  | app _ _ | sort _ | lam _ _ _ | pi _ _ _ => rfl

theorem applyMove_relabel (argument value : Expr) (frames : List ReductionFrame) :
    applyMove (env.relabel f) (NpaCore.Expr.relabel f argument) (NpaCore.Expr.relabel f value)
        (frames.map (ReductionFrame.relabel f)) =
      (applyMove env argument value frames).map (ReductionState.relabel f)
        (NpaCore.Expr.relabel f) := by
  by_cases lambda : IsLam value
  · cases value with
    | lam _ _ body =>
      simp only [relabel_lam, applyMove]
      rw [show Expr.instantiate (NpaCore.Expr.relabel f body) (NpaCore.Expr.relabel f argument) =
        (Expr.instantiate body argument).map (NpaCore.Expr.relabel f) from
          instantiate_relabel f _ body argument]
      cases Expr.instantiate body argument <;> rfl
    | sort _ | bvar _ | const _ _ | app _ _ | pi _ _ _ => exact lambda.elim
  · rw [applyMove_of_not_lam lambda, applyMove_of_not_lam (isLam_relabel.not.mpr lambda),
      ← relabel_app, resolveRecursor_relabel]
    cases resolveRecursor env (.app value argument) <;> rfl

theorem resumeMove_relabel (value : Expr) (frames : List ReductionFrame) :
    resumeMove (env.relabel f) (NpaCore.Expr.relabel f value)
        (frames.map (ReductionFrame.relabel f)) =
      (resumeMove env value frames).map (ReductionState.relabel f) (NpaCore.Expr.relabel f) := by
  cases frames with
  | nil => rfl
  | cons frame frames =>
    cases frame with
    | apply argument => exact applyMove_relabel argument value frames
    | recursorMajor application inductiveName rules =>
      simp only [List.map_cons, ReductionFrame.relabel, resumeMove,
        finishRecursorReduction_relabel]
      refine nextOrFail_translate (fun found => ?_) _
      cases found <;> rfl

theorem reductionMachine_translates :
    Machine.Translates (reductionMachine env ctx)
      (reductionMachine (env.relabel f) (ctx.relabel f)) (ReductionState.relabel f)
      (NpaCore.Expr.relabel f) where
  paid := by
    rintro ⟨control, frames⟩
    cases control <;> rfl
  move := by
    rintro ⟨control, frames⟩
    cases control with
    | reduce current => exact reduceMove_relabel current frames
    | complete value => rfl
    | resume value => exact resumeMove_relabel value frames

theorem WhnfSpends.relabel {kind : ResourceLimitKind} {term : Expr} {fuel left : Nat}
    {r : Result Expr} (h : WhnfSpends env ctx kind term fuel r left) :
    WhnfSpends (env.relabel f) (ctx.relabel f) kind (NpaCore.Expr.relabel f term) fuel
      (r.map (NpaCore.Expr.relabel f)) left :=
  reductionMachine_translates.finishes h

/-! ### Conversion -/

/-- A sequence of two spendings, the first of which is translated. -/
theorem bind_translated {α α' β : Type} {g : α → α'} {x : Spending Error α}
    {x' : Spending Error α'} {k : α → Spending Error β} {k' : α' → Spending Error β}
    (first : ∀ {fuel r left}, x fuel r left → x' fuel (r.map g) left)
    (rest : ∀ a {fuel r left}, k a fuel r left → k' (g a) fuel r left)
    {fuel : Nat} {r : Result β} {left : Nat} (h : x.bind k fuel r left) :
    x'.bind k' fuel r left := by
  rcases h with ⟨e, failed, rfl⟩ | ⟨a, middle, done, h⟩
  · exact .inl ⟨e, first failed, rfl⟩
  · exact .inr ⟨g a, middle, first done, rest a h⟩

theorem compareSpends_relabel {compare compare' : Ctx → Expr → Expr → Spending Error Bool}
    (same : ∀ {ctx lhs rhs fuel r left}, compare ctx lhs rhs fuel r left →
      compare' (Ctx.relabel f ctx) (NpaCore.Expr.relabel f lhs) (NpaCore.Expr.relabel f rhs) fuel r
        left)
    {lhs rhs : Expr} {fuel left : Nat} {r : Result Bool}
    (h : compareSpends compare ctx lhs rhs fuel r left) :
    compareSpends compare' (ctx.relabel f) (NpaCore.Expr.relabel f lhs)
      (NpaCore.Expr.relabel f rhs) fuel r left := by
  have pushed : ∀ {ty lhs rhs fuel r left},
      compare (ctx.pushAssumption ty) lhs rhs fuel r left →
      compare' ((ctx.relabel f).pushAssumption (NpaCore.Expr.relabel f ty))
        (NpaCore.Expr.relabel f lhs) (NpaCore.Expr.relabel f rhs) fuel r left := by
    intro ty lhs rhs fuel r left h
    rw [← relabel_pushAssumption]
    exact same h
  -- terms of different shapes stay so
  cases lhs with
  | sort _ | bvar _ | const _ _ => cases rhs <;> exact h
  | app _ _ =>
    cases rhs with
    | app _ _ => exact Spending.both_mono same same h
    | sort _ | bvar _ | const _ _ | lam _ _ _ | pi _ _ _ => exact h
  | lam _ _ _ =>
    cases rhs with
    | lam _ _ _ => exact Spending.both_mono same pushed h
    | sort _ | bvar _ | const _ _ | app _ _ | pi _ _ _ => exact h
  | pi _ _ _ =>
    cases rhs with
    | pi _ _ _ => exact Spending.both_mono same pushed h
    | sort _ | bvar _ | const _ _ | app _ _ | lam _ _ _ => exact h

theorem defeqSpendsWithin_relabel (depth : Nat) {lhs rhs : Expr} {fuel left : Nat}
    {r : Result Bool} (h : DefeqSpendsWithin env depth ctx lhs rhs fuel r left) :
    DefeqSpendsWithin (env.relabel f) depth (ctx.relabel f) (NpaCore.Expr.relabel f lhs)
      (NpaCore.Expr.relabel f rhs) fuel r left := by
  induction depth generalizing ctx lhs rhs fuel r left with
  | zero => exact h.elim
  | succ depth ih =>
    refine Spending.bind_mono (fun h => h) (fun _ {fuel r left} h => ?_) h
    rw [quickSyntacticEq_relabel]
    by_cases quick : quickSyntacticEq lhs rhs = true
    · rw [if_pos quick] at h ⊢
      exact h
    · rw [if_neg quick] at h ⊢
      refine bind_translated (x := WhnfSpends env ctx .conversion lhs) WhnfSpends.relabel ?_ h
      intro lhsWhnf fuel r left h
      refine bind_translated (x := WhnfSpends env ctx .conversion rhs) WhnfSpends.relabel ?_ h
      intro rhsWhnf fuel r left h
      exact compareSpends_relabel ih h

theorem DefeqSpends.relabel {lhs rhs : Expr} {fuel left : Nat} {r : Result Bool}
    (h : DefeqSpends env ctx lhs rhs fuel r left) :
    DefeqSpends (env.relabel f) (ctx.relabel f) (NpaCore.Expr.relabel f lhs)
      (NpaCore.Expr.relabel f rhs) fuel r left := by
  obtain ⟨depth, h⟩ := h
  exact ⟨depth, defeqSpendsWithin_relabel depth h⟩

end Machine

/-! ### Runs in two environments -/

/-- From sessions with the same fuel, each with a memo that is faithful to its environment, both
    runs fail or both succeed, the second with what the first returns translated; they leave the
    same fuel and faithful memos. -/
def Follows (env env' : Env) {α β : Type} (g : α → β) (x : Op α) (y : Op β) : Prop :=
  ∀ s t, SameFuel s t → FaithfulSession env s → FaithfulSession env' t →
    Result.Matches (fun a b => b = g a) (x s).1 (y t).1 ∧ SameFuel (x s).2 (y t).2 ∧
      FaithfulSession env (x s).2 ∧ FaithfulSession env' (y t).2

section Follows

variable {env env' : Env} {α β γ δ : Type} {g : α → β} {h : γ → δ}

theorem matches_map (x : Result α) : Result.Matches (fun a b => b = g a) x (x.map g) := by
  cases x with
  | error e => trivial
  | ok a => exact rfl

theorem matches_self (x : Result α) : Result.Matches (fun a b => b = id a) x x := by
  cases x with
  | error e => trivial
  | ok a => exact rfl

theorem follows_lift {x : Result α} {y : Result β}
    (same : Result.Matches (fun a b => b = g a) x y) :
    Follows env env' g (Run.lift x) (Run.lift y) :=
  fun _ _ fuel hs ht => ⟨same, fuel, hs, ht⟩

theorem follows_pure (a : α) : Follows env env' g (pure a) (pure (g a)) :=
  follows_lift (x := .ok a) (y := .ok (g a)) rfl

theorem follows_fail (error error' : Error) :
    Follows env env' g (Run.fail error) (Run.fail error') :=
  follows_lift (x := .error error) (y := .error error') trivial

theorem follows_bind {x : Op α} {y : Op β} {k : α → Op γ} {k' : β → Op δ}
    (first : Follows env env' g x y) (rest : ∀ a, Follows env env' h (k a) (k' (g a))) :
    Follows env env' h (x >>= k) (y >>= k') := by
  intro s t same hs ht
  obtain ⟨result, fuel, kept, kept'⟩ := first s t same hs ht
  have left : (x >>= k) s = Run.bind x k s := rfl
  have right : (y >>= k') t = Run.bind y k' t := rfl
  rw [left, right, Run.bind, Run.bind]
  rcases hx : x s with ⟨r, s'⟩
  rcases hy : y t with ⟨r', t'⟩
  rw [hx] at result fuel kept
  rw [hy] at result fuel kept'
  cases r with
  | error e =>
    cases r' with
    | error e' => exact ⟨trivial, fuel, kept, kept'⟩
    | ok b => exact result.elim
  | ok a =>
    cases r' with
    | error e' => exact result.elim
    | ok b =>
      cases (result : b = g a)
      exact rest a s' t' fuel kept kept'

theorem follows_of_realises {kind : ResourceLimitKind} {x : Op α} {y : Op β}
    {P : Spending Error α} {P' : Spending Error β} {limit : Error} (regular : P'.Regular limit)
    (hx : Realises env kind (fun _ => True) x P) (hy : Realises env' kind (fun _ => True) y P')
    (translated : ∀ {fuel r left}, P fuel r left → P' fuel (r.map g) left) :
    Follows env env' g x y := by
  intro s t same hs ht
  obtain ⟨left, found, fuel, kept⟩ := hx s hs trivial
  obtain ⟨left', found', fuel', kept'⟩ := hy t ht trivial
  rw [← same.fuel kind] at found'
  obtain ⟨result, rfl⟩ := regular.deterministic found' (translated found)
  refine ⟨?_, fuel.trans ((same.setFuel kind left').trans fuel'.symm), kept, kept'⟩
  rw [result]
  exact matches_map _

theorem follows_refuel (policy : FuelPolicy) (kind : ResourceLimitKind) (limit : Nat) :
    Follows env env' id (refuel policy kind limit) (refuel policy kind limit) := by
  cases policy with
  | perQuestion =>
    intro s t same hs ht
    exact ⟨rfl, same.setFuel kind limit, hs.setFuel _, ht.setFuel _⟩
  | pooled => exact follows_pure ()

end Follows

/-! ### Inference -/

section Infer

variable (f : String → String) {env : Env} (layout layout' : Layout) (policy : FuelPolicy)
  (universeContext : UniverseContext)

theorem lookupType_relabel (ctx : Ctx) (index : Nat) :
    (ctx.relabel f).lookupType index = (ctx.lookupType index).map (NpaCore.Expr.relabel f) := by
  have found : (ctx.relabel f).lookup index = (ctx.lookup index).map (NpaCore.Expr.relabel f) := by
    rw [Ctx.lookup, Ctx.lookup, relabel_length, ← Result.okOr_translate]
    congr 1
    split
    · exact List.getElem?_map
    · rfl
  rw [Ctx.lookupType, Ctx.lookupType, found]
  exact Result.bind_translate fun ty => shift_relabel f _ ty _ 0

theorem inferConstType_relabel (name : String) (levels : List Level) :
    inferConstType (env.relabel f) universeContext name levels =
      (inferConstType env universeContext name levels).map (NpaCore.Expr.relabel f) := by
  rw [inferConstType, inferConstType, decl_relabel, Result.okOr_translate]
  refine Result.bind_translate fun decl => ?_
  have constraints : checkConstConstraints (env.relabel f) universeContext name (decl.relabel f)
      levels = checkConstConstraints env universeContext name decl levels := by
    simp only [checkConstConstraints, declConstraintContext_relabel, relabel_universeParams]
  simp only [relabel_universeParams, relabel_ty, constraints, substLevelsExpr_relabel]
  cases Result.ensure (decl.universeParams.length == levels.length)
      (Error.badUniverseArity name decl.universeParams.length levels.length) with
  | error e => rfl
  | ok _ =>
    cases Result.forEach levels (ensureLevelWf universeContext.params) with
    | error e => rfl
    | ok _ => cases checkConstConstraints env universeContext name decl levels <;> rfl

theorem whnfQuestion_follows (ctx : Ctx) (origin : MemoExprOrigin) (term : Expr) :
    Follows env (env.relabel f) (NpaCore.Expr.relabel f)
      (whnfQuestion env layout policy universeContext ctx origin term)
      (whnfQuestion (env.relabel f) layout' policy universeContext (ctx.relabel f) origin
        (NpaCore.Expr.relabel f term)) :=
  follows_bind (follows_refuel policy _ _) fun _ =>
    follows_of_realises (regular_whnfSpends .whnf _) (whnfMachine_realises origin term)
      (whnfMachine_realises origin _) WhnfSpends.relabel

theorem defeqQuestion_follows (ctx : Ctx) (lhs : Expr) (lhsOrigin : MemoExprOrigin) (rhs : Expr)
    (rhsOrigin : MemoExprOrigin) :
    Follows env (env.relabel f) id
      (defeqQuestion env layout policy universeContext ctx lhs lhsOrigin rhs rhsOrigin)
      (defeqQuestion (env.relabel f) layout' policy universeContext (ctx.relabel f)
        (NpaCore.Expr.relabel f lhs) lhsOrigin (NpaCore.Expr.relabel f rhs) rhsOrigin) := by
  refine follows_bind (follows_refuel policy _ _) fun _ => ?_
  refine follows_of_realises (regular_defeqSpends _ _ _)
    (isDefeqWithRemainingFuel_realises layout _ ctx lhs lhsOrigin rhs rhsOrigin)
    (isDefeqWithRemainingFuel_realises layout' _ _ _ lhsOrigin _ rhsOrigin) ?_
  intro fuel r left h
  have unchanged : r.map id = r := by cases r <;> rfl
  rw [unchanged]
  exact h.relabel

theorem expectSortFrom_follows (ctx : Ctx) {x y : Op Expr}
    (h : Follows env (env.relabel f) (NpaCore.Expr.relabel f) x y) :
    Follows env (env.relabel f) id (expectSortFrom env layout policy universeContext ctx x)
      (expectSortFrom (env.relabel f) layout' policy universeContext (ctx.relabel f) y) := by
  refine follows_bind h fun ty => ?_
  refine follows_bind (whnfQuestion_follows f layout layout' policy universeContext ctx .fresh ty) ?_
  intro actual
  cases actual with
  | sort level => exact follows_pure level
  | bvar _ | const _ _ | app _ _ | lam _ _ _ | pi _ _ _ => exact follows_fail _ _

theorem checkFrom_follows (ctx : Ctx) {x y : Op Expr}
    (h : Follows env (env.relabel f) (NpaCore.Expr.relabel f) x y) (expected : Expr)
    (origin : MemoExprOrigin) :
    Follows env (env.relabel f) id (checkFrom env layout policy universeContext ctx x expected origin)
      (checkFrom (env.relabel f) layout' policy universeContext (ctx.relabel f) y
        (NpaCore.Expr.relabel f expected) origin) := by
  refine follows_bind h fun actual => ?_
  refine follows_bind (defeqQuestion_follows f layout layout' policy universeContext ctx actual
    .fresh expected origin) ?_
  intro same
  cases same with
  | true => exact follows_pure ()
  | false => exact follows_fail _ _

theorem inferTerm_follows (ctx : Ctx) (term : Expr) :
    Follows env (env.relabel f) (NpaCore.Expr.relabel f)
      (inferTerm env layout policy universeContext ctx term)
      (inferTerm (env.relabel f) layout' policy universeContext (ctx.relabel f)
        (NpaCore.Expr.relabel f term)) := by
  induction term generalizing ctx with
  | sort level => exact follows_bind (follows_lift (matches_self _)) fun _ => follows_pure _
  | bvar index =>
    refine follows_lift ?_
    rw [lookupType_relabel]
    exact matches_map _
  | const name levels =>
    refine follows_lift ?_
    rw [inferConstType_relabel]
    exact matches_map _
  | pi binder ty body ihTy ihBody =>
    refine follows_bind (expectSortFrom_follows f _ _ _ _ ctx (ihTy ctx)) fun domainSort => ?_
    have inBody := ihBody (ctx.pushAssumption ty)
    rw [relabel_pushAssumption] at inBody
    have bodySort := expectSortFrom_follows f layout layout' policy universeContext
      (ctx.pushAssumption ty) inBody
    rw [relabel_pushAssumption] at bodySort
    exact follows_bind bodySort fun bodySort => follows_pure _
  | lam binder ty body ihTy ihBody =>
    refine follows_bind (expectSortFrom_follows f _ _ _ _ ctx (ihTy ctx)) fun _ => ?_
    have inBody := ihBody (ctx.pushAssumption ty)
    rw [relabel_pushAssumption] at inBody
    exact follows_bind inBody fun bodyTy => follows_pure _
  | app fn arg ihFn ihArg =>
    refine follows_bind (ihFn ctx) fun fnTy => ?_
    refine follows_bind (whnfQuestion_follows f _ _ _ _ ctx .fresh fnTy) fun actual => ?_
    cases actual with
    | pi binder ty body =>
      refine follows_bind (checkFrom_follows f _ _ _ _ ctx (ihArg ctx) ty .retained) fun _ => ?_
      refine follows_lift ?_
      rw [show Expr.instantiate (NpaCore.Expr.relabel f body) (NpaCore.Expr.relabel f arg) =
        (Expr.instantiate body arg).map (NpaCore.Expr.relabel f) from
          instantiate_relabel f _ body arg]
      exact matches_map _
    | sort _ | bvar _ | const _ _ | app _ _ | lam _ _ _ => exact follows_fail _ _

end Infer

/-! ### Public operations -/

section Public

variable (f : String → String) (env : Env) (alloc alloc' : Allocator)

/-- What two runs return that start as operations of their environments. -/
theorem Follows.returns {α β : Type} {g : α → β} {x : Op α} {y : Op β}
    (h : Follows env (env.relabel f) g x y) (whnfFuel conversionFuel : Nat) :
    Result.Matches (fun a b => b = g a) (x (env.newSession whnfFuel conversionFuel)).1
      (y ((env.relabel f).newSession whnfFuel conversionFuel)).1 :=
  (h _ _ ⟨rfl, rfl⟩ (faithful_newSession env _ _) (faithful_newSession (env.relabel f) _ _)).1

theorem infer_relabel (ctx : Ctx) (delta : List String) (term : Expr) :
    Result.Matches (fun ty ty' => ty' = NpaCore.Expr.relabel f ty)
      (env.infer alloc ctx delta term)
      ((env.relabel f).infer alloc' (ctx.relabel f) delta (NpaCore.Expr.relabel f term)) := by
  refine Result.matches_bind (matches_self _) ?_
  rintro _ universeContext _ _ rfl
  exact (inferTerm_follows f _ _ _ _ ctx term).returns f env _ _

theorem whnf_relabel (ctx : Ctx) (delta : List String) (term : Expr) :
    Result.Matches (fun value value' => value' = NpaCore.Expr.relabel f value)
      (env.whnf alloc ctx delta term)
      ((env.relabel f).whnf alloc' (ctx.relabel f) delta (NpaCore.Expr.relabel f term)) := by
  have follows : Follows env (env.relabel f) (NpaCore.Expr.relabel f)
      (whnfMachine env (alloc ctx [term]) ctx delta .whnf .borrowed term)
      (whnfMachine (env.relabel f) (alloc' (ctx.relabel f) [NpaCore.Expr.relabel f term])
        (ctx.relabel f) delta .whnf .borrowed (NpaCore.Expr.relabel f term)) :=
    follows_of_realises (regular_whnfSpends .whnf _) (whnfMachine_realises .borrowed term)
      (whnfMachine_realises .borrowed _) WhnfSpends.relabel
  exact follows.returns f env _ _

theorem expectSort_relabel (ctx : Ctx) (universeContext : UniverseContext) (term : Expr) :
    Result.Matches (fun level level' => level' = id level)
      (env.expectSortInUniverseContext alloc ctx universeContext term)
      ((env.relabel f).expectSortInUniverseContext alloc' (ctx.relabel f) universeContext
        (NpaCore.Expr.relabel f term)) :=
  (expectSortFrom_follows f _ _ _ _ ctx (inferTerm_follows f _ _ _ _ ctx term)).returns f env _ _

theorem checkInUniverseContext_relabel (ctx : Ctx) (universeContext : UniverseContext)
    (term expected : Expr) :
    Result.Matches (fun done done' => done' = id done)
      (env.checkInUniverseContext alloc ctx universeContext term expected)
      ((env.relabel f).checkInUniverseContext alloc' (ctx.relabel f) universeContext
        (NpaCore.Expr.relabel f term) (NpaCore.Expr.relabel f expected)) :=
  (checkFrom_follows f _ _ _ _ ctx (inferTerm_follows f _ _ _ _ ctx term) expected
    .borrowed).returns f env _ _

theorem check_relabel (ctx : Ctx) (delta : List String) (term expected : Expr) :
    Result.Matches (fun done done' => done' = id done)
      (env.check alloc ctx delta term expected)
      ((env.relabel f).check alloc' (ctx.relabel f) delta (NpaCore.Expr.relabel f term)
        (NpaCore.Expr.relabel f expected)) := by
  refine Result.matches_bind (matches_self _) ?_
  rintro _ universeContext _ _ rfl
  exact checkInUniverseContext_relabel f env alloc alloc' ctx universeContext term expected

variable (name : String) (universeParams : List String)
  (universeConstraints : List UniverseConstraint)

theorem addDef_relabel (ty value : Expr) (reducibility : Reducibility) :
    Result.Matches (fun next next' => next' = next.relabel f)
      (env.addDefWithUniverseConstraints alloc name universeParams universeConstraints ty value
        reducibility)
      ((env.relabel f).addDefWithUniverseConstraints alloc' name universeParams universeConstraints
        (NpaCore.Expr.relabel f ty) (NpaCore.Expr.relabel f value) reducibility) := by
  refine Result.matches_bind (R := fun done done' => done' = id done) ?_ fun _ _ _ _ _ => ?_
  · rw [ensureFresh_relabel]
    exact matches_self _
  refine Result.matches_bind (matches_self _) ?_
  rintro _ universeContext _ _ rfl
  refine Result.matches_bind (expectSort_relabel f env alloc alloc' .new universeContext ty) ?_
  intro _ _ _ _ _
  refine Result.matches_bind
    (checkInUniverseContext_relabel f env alloc alloc' .new universeContext value ty) ?_
  intro _ _ _ _ _
  exact rfl

theorem addTheorem_relabel (ty proof : Expr) :
    Result.Matches (fun next next' => next' = next.relabel f)
      (env.addTheoremWithUniverseConstraints alloc name universeParams universeConstraints ty proof)
      ((env.relabel f).addTheoremWithUniverseConstraints alloc' name universeParams
        universeConstraints (NpaCore.Expr.relabel f ty) (NpaCore.Expr.relabel f proof)) := by
  refine Result.matches_bind (R := fun done done' => done' = id done) ?_ fun _ _ _ _ _ => ?_
  · rw [ensureFresh_relabel]
    exact matches_self _
  refine Result.matches_bind (matches_self _) ?_
  rintro _ universeContext _ _ rfl
  refine Result.matches_bind (expectSort_relabel f env alloc alloc' .new universeContext ty) ?_
  intro _ _ _ _ _
  refine Result.matches_bind
    (checkInUniverseContext_relabel f env alloc alloc' .new universeContext proof ty) ?_
  intro _ _ _ _ _
  exact rfl

theorem exposeCheckedOpaqueDefinition_relabel :
    EnvMut.exposeCheckedOpaqueDefinition name (env.relabel f) =
      ((EnvMut.exposeCheckedOpaqueDefinition name env).1,
        (EnvMut.exposeCheckedOpaqueDefinition name env).2.relabel f) := by
  rw [EnvMut.exposeCheckedOpaqueDefinition, EnvMut.exposeCheckedOpaqueDefinition, decl_relabel]
  cases env.decl name with
  | none => rfl
  | some decl =>
    cases decl with
    | defDecl _ _ _ _ _ reducibility => cases reducibility <;> rfl
    | axiomDecl | theoremDecl | inductiveDecl | constructorDecl | recursorDecl => rfl

end Public

/-! ### Environments that differ in their names -/

/-- Two results that are translated to one. -/
theorem matches_meet {α β : Type} {g : α → β} {x y : Result α} {z : Result β}
    (left : Result.Matches (fun a b => b = g a) x z)
    (right : Result.Matches (fun a b => b = g a) y z) :
    Result.Matches (fun a b => g a = g b) x y := by
  cases z with
  | error _ =>
    cases x with
    | ok _ => exact left.elim
    | error _ =>
      cases y with
      | ok _ => exact right.elim
      | error _ => trivial
  | ok c =>
    cases x with
    | error _ => exact left.elim
    | ok _ =>
      cases y with
      | error _ => exact right.elim
      | ok _ => exact left.symm.trans right

section Names

variable {f : String → String} {env env' : Env} {ctx ctx' : Ctx} (alloc alloc' : Allocator)
  (delta : List String) {term term' : Expr} (sameEnv : env.relabel f = env'.relabel f)
include sameEnv

theorem infer_names (sameCtx : ctx.relabel f = ctx'.relabel f)
    (sameTerm : NpaCore.Expr.relabel f term = NpaCore.Expr.relabel f term') :
    Result.Matches (fun ty ty' => NpaCore.Expr.relabel f ty = NpaCore.Expr.relabel f ty')
      (env.infer alloc ctx delta term) (env'.infer alloc' ctx' delta term') := by
  have other := infer_relabel f env' alloc' alloc' ctx' delta term'
  rw [← sameEnv, ← sameCtx, ← sameTerm] at other
  exact matches_meet (infer_relabel f env alloc alloc' ctx delta term) other

theorem whnf_names (sameCtx : ctx.relabel f = ctx'.relabel f)
    (sameTerm : NpaCore.Expr.relabel f term = NpaCore.Expr.relabel f term') :
    Result.Matches (fun value value' => NpaCore.Expr.relabel f value = NpaCore.Expr.relabel f value')
      (env.whnf alloc ctx delta term) (env'.whnf alloc' ctx' delta term') := by
  have other := whnf_relabel f env' alloc' alloc' ctx' delta term'
  rw [← sameEnv, ← sameCtx, ← sameTerm] at other
  exact matches_meet (whnf_relabel f env alloc alloc' ctx delta term) other

theorem check_names {expected expected' : Expr} (sameCtx : ctx.relabel f = ctx'.relabel f)
    (sameTerm : NpaCore.Expr.relabel f term = NpaCore.Expr.relabel f term')
    (sameType : NpaCore.Expr.relabel f expected = NpaCore.Expr.relabel f expected') :
    Result.Matches (fun done done' => id done = id done')
      (env.check alloc ctx delta term expected) (env'.check alloc' ctx' delta term' expected') := by
  have other := check_relabel f env' alloc' alloc' ctx' delta term' expected'
  rw [← sameEnv, ← sameCtx, ← sameTerm, ← sameType] at other
  exact matches_meet (check_relabel f env alloc alloc' ctx delta term expected) other

variable (name : String) (universeParams : List String)
  (universeConstraints : List UniverseConstraint) {ty ty' value value' : Expr}
  (sameType : NpaCore.Expr.relabel f ty = NpaCore.Expr.relabel f ty')
  (sameValue : NpaCore.Expr.relabel f value = NpaCore.Expr.relabel f value')
include sameType sameValue

theorem addDef_names (reducibility : Reducibility) :
    Result.Matches (fun next next' => next.relabel f = next'.relabel f)
      (env.addDefWithUniverseConstraints alloc name universeParams universeConstraints ty value
        reducibility)
      (env'.addDefWithUniverseConstraints alloc' name universeParams universeConstraints ty' value'
        reducibility) := by
  have other := addDef_relabel f env' alloc' alloc' name universeParams universeConstraints ty'
    value' reducibility
  rw [← sameEnv, ← sameType, ← sameValue] at other
  exact matches_meet (addDef_relabel f env alloc alloc' name universeParams universeConstraints ty
    value reducibility) other

theorem addTheorem_names :
    Result.Matches (fun next next' => next.relabel f = next'.relabel f)
      (env.addTheoremWithUniverseConstraints alloc name universeParams universeConstraints ty value)
      (env'.addTheoremWithUniverseConstraints alloc' name universeParams universeConstraints ty'
        value') := by
  have other := addTheorem_relabel f env' alloc' alloc' name universeParams universeConstraints ty'
    value'
  rw [← sameEnv, ← sameType, ← sameValue] at other
  exact matches_meet (addTheorem_relabel f env alloc alloc' name universeParams universeConstraints
    ty value) other

end Names

/-! ### Declarations -/

def MutualInductiveBlock.relabel (f : String → String) (block : MutualInductiveBlock) :
    MutualInductiveBlock :=
  { block with inductives := block.inductives.map (InductiveDecl.relabel f) }

def Declaration.relabel (f : String → String) : Declaration → Declaration
  | .axiomDecl name universeParams universeConstraints ty =>
    .axiomDecl name universeParams universeConstraints (NpaCore.Expr.relabel f ty)
  | .defDecl name universeParams universeConstraints ty value reducibility =>
    .defDecl name universeParams universeConstraints (NpaCore.Expr.relabel f ty)
      (NpaCore.Expr.relabel f value) reducibility
  | .theoremDecl name universeParams universeConstraints ty proof =>
    .theoremDecl name universeParams universeConstraints (NpaCore.Expr.relabel f ty)
      (NpaCore.Expr.relabel f proof)
  | .inductiveDecl data => .inductiveDecl (data.relabel f)
  | .mutualInductiveBlock block => .mutualInductiveBlock (block.relabel f)

/-- One name for every binder. -/
def forgetNames (_ : String) : String := ""

/-- Equality up to the display names of binders. -/
def Declaration.SameUpToNames (decl decl' : Declaration) : Prop :=
  decl.relabel forgetNames = decl'.relabel forgetNames

end NpaCore.Kernel
