import NpaCore.Kernel.Evaluation
import NpaCore.Kernel.FuelLaws

/-!
# Inference on a pool of fuel

An inference that succeeds on a pool of fuel succeeds in the same way on a larger pool, and what
the larger one has more is left over. The questions of the inference share the pool, so the law
is carried from question to question.

## Main result

`inferWithFuelMetered_widens`: the law for the metered inference.
-/

namespace NpaCore.Kernel

/-- The second session has so much more fuel. -/
structure Wider (whnf conversion : Nat) (s t : Session) : Prop where
  whnfFuel : t.whnfFuel = s.whnfFuel + whnf
  conversionFuel : t.conversionFuel = s.conversionFuel + conversion

/-- Where the first run succeeds, the second one does from a wider session, with the same
    result, and leaves as much more. -/
def Widens (env : Env) (whnf conversion : Nat) {α : Type} (x y : Op α) : Prop :=
  ∀ ⦃s t s' : Session⦄ ⦃a : α⦄, FaithfulSession env s → FaithfulSession env t →
    Wider whnf conversion s t → x s = (.ok a, s') →
    ∃ t', y t = (.ok a, t') ∧ Wider whnf conversion s' t' ∧ FaithfulSession env s' ∧
      FaithfulSession env t'

section Widens

variable {env : Env} {whnf conversion : Nat} {α β : Type}

theorem widens_lift (x : Result α) : Widens env whnf conversion (Run.lift x) (Run.lift x) := by
  intro s t s' a hs ht wider h
  cases h
  exact ⟨t, rfl, wider, hs, ht⟩

theorem widens_pure (a : α) : Widens env whnf conversion (pure a) (pure a) := widens_lift (.ok a)

theorem widens_fail (error : Error) :
    Widens env whnf conversion (Run.fail error : Op α) (Run.fail error) := widens_lift (.error error)

theorem widens_bind {x y : Op α} {f g : α → Op β} (first : Widens env whnf conversion x y)
    (rest : ∀ a, Widens env whnf conversion (f a) (g a)) :
    Widens env whnf conversion (x >>= f) (y >>= g) := by
  intro s t s' b hs ht wider h
  obtain ⟨a, m, hx, hf⟩ := Run.bind_eq_ok.mp h
  obtain ⟨n, hy, wider, hm, hn⟩ := first hs ht wider hx
  obtain ⟨t', hg, wider, hs', ht'⟩ := rest a hm hn wider hf
  exact ⟨t', Run.bind_eq_ok.mpr ⟨a, n, hy, hg⟩, wider, hs', ht'⟩

theorem Wider.setFuel {s t : Session} (wider : Wider whnf conversion s t) (left : Nat) :
    ∀ kind, Wider whnf conversion (s.setFuel kind left)
      (t.setFuel kind (left + (t.fuel kind - s.fuel kind))) := by
  have whnfFuel := wider.whnfFuel
  have conversionFuel := wider.conversionFuel
  intro kind
  cases kind with
  | whnf => exact ⟨by simp only [Session.setFuel, Session.fuel]; omega, conversionFuel⟩
  | conversion | universeConstraints =>
    exact ⟨whnfFuel, by simp only [Session.setFuel, Session.fuel]; omega⟩

/-- A run that spends of one fuel succeeds from every supply above its cost. -/
theorem widens_of_realises {kind : ResourceLimitKind} {x y : Op α} {P : Spending Error α}
    {limit : Error} (regular : P.Regular limit) (hx : Realises env kind (fun _ => True) x P)
    (hy : Realises env kind (fun _ => True) y P) : Widens env whnf conversion x y := by
  intro s t s' a hs ht wider h
  obtain ⟨left, found, fuel, kept⟩ := hx s hs trivial
  obtain ⟨left', found', fuel', kept'⟩ := hy t ht trivial
  rw [h] at found fuel kept
  have le : s.fuel kind ≤ t.fuel kind := by
    cases kind with
    | whnf => exact (Nat.le_add_right _ _).trans_eq wider.whnfFuel.symm
    | conversion | universeConstraints =>
      exact (Nat.le_add_right _ _).trans_eq wider.conversionFuel.symm
  have more := regular.add found (t.fuel kind - s.fuel kind)
  rw [Nat.add_sub_cancel' le] at more
  obtain ⟨result, rfl⟩ := regular.deterministic found' more
  have after := wider.setFuel left kind
  refine ⟨(y t).2, Prod.ext result rfl, ⟨?_, ?_⟩, kept, kept'⟩
  · rw [fuel'.1, fuel.1, after.whnfFuel]
  · rw [fuel'.2, fuel.2, after.conversionFuel]

variable (layout layout' : Layout) (universeContext : UniverseContext)

theorem whnfQuestion_widens (ctx : Ctx) (origin : MemoExprOrigin) (term : Expr) :
    Widens env whnf conversion (whnfQuestion env layout .pooled universeContext ctx origin term)
      (whnfQuestion env layout' .pooled universeContext ctx origin term) :=
  widens_bind (widens_pure ()) fun _ =>
    widens_of_realises (regular_whnfSpends .whnf term) (whnfMachine_realises origin term)
      (whnfMachine_realises origin term)

theorem defeqQuestion_widens (ctx : Ctx) (lhs : Expr) (lhsOrigin : MemoExprOrigin) (rhs : Expr)
    (rhsOrigin : MemoExprOrigin) :
    Widens env whnf conversion
      (defeqQuestion env layout .pooled universeContext ctx lhs lhsOrigin rhs rhsOrigin)
      (defeqQuestion env layout' .pooled universeContext ctx lhs lhsOrigin rhs rhsOrigin) :=
  widens_bind (widens_pure ()) fun _ =>
    widens_of_realises (regular_defeqSpends ctx lhs rhs)
      (isDefeqWithRemainingFuel_realises _ _ _ _ _ _ _)
      (isDefeqWithRemainingFuel_realises _ _ _ _ _ _ _)

theorem expectSortFrom_widens (ctx : Ctx) {x y : Op Expr} (h : Widens env whnf conversion x y) :
    Widens env whnf conversion (expectSortFrom env layout .pooled universeContext ctx x)
      (expectSortFrom env layout' .pooled universeContext ctx y) := by
  apply widens_bind h
  intro ty
  apply widens_bind (whnfQuestion_widens layout layout' universeContext ctx .fresh ty)
  intro actual
  cases actual with
  | sort level => exact widens_pure level
  | bvar _ | const _ _ | app _ _ | lam _ _ _ | pi _ _ _ => exact widens_fail _

theorem checkFrom_widens (ctx : Ctx) {x y : Op Expr} (h : Widens env whnf conversion x y)
    (expected : Expr) (origin : MemoExprOrigin) :
    Widens env whnf conversion (checkFrom env layout .pooled universeContext ctx x expected origin)
      (checkFrom env layout' .pooled universeContext ctx y expected origin) := by
  apply widens_bind h
  intro actual
  apply widens_bind (defeqQuestion_widens layout layout' universeContext ctx actual .fresh expected
    origin)
  intro same
  cases same with
  | true => exact widens_pure ()
  | false => exact widens_fail _

theorem inferTerm_widens (ctx : Ctx) (term : Expr) :
    Widens env whnf conversion (inferTerm env layout .pooled universeContext ctx term)
      (inferTerm env layout' .pooled universeContext ctx term) := by
  induction term generalizing ctx with
  | sort level => exact widens_bind (widens_lift _) fun _ => widens_pure _
  | bvar index => exact widens_lift _
  | const name levels => exact widens_lift _
  | pi binder ty body ihTy ihBody =>
    apply widens_bind (expectSortFrom_widens _ _ _ ctx (ihTy ctx))
    intro domainSort
    apply widens_bind (expectSortFrom_widens _ _ _ _ (ihBody (ctx.pushAssumption ty)))
    intro bodySort
    exact widens_pure _
  | lam binder ty body ihTy ihBody =>
    apply widens_bind (expectSortFrom_widens _ _ _ ctx (ihTy ctx))
    intro _
    apply widens_bind (ihBody (ctx.pushAssumption ty))
    intro bodyTy
    exact widens_pure _
  | app fn arg ihFn ihArg =>
    apply widens_bind (ihFn ctx)
    intro fnTy
    apply widens_bind (whnfQuestion_widens _ _ _ ctx .fresh fnTy)
    intro actual
    cases actual with
    | pi binder ty body =>
      apply widens_bind (checkFrom_widens _ _ _ ctx (ihArg ctx) ty .retained)
      intro _
      exact widens_lift _
    | sort _ | bvar _ | const _ _ | app _ _ | lam _ _ _ => exact widens_fail _

end Widens

/-- A new operation on a larger pool. -/
theorem inferWithFuelMetered_widens {env : Env} {alloc : Allocator} (alloc' : Allocator) {ctx : Ctx}
    {universeContext : UniverseContext} {term ty : Expr} {whnfFuel conversionFuel : Nat}
    (whnf conversion : Nat) {left : Session}
    (h : env.inferWithFuelMeteredInUniverseContext alloc ctx universeContext term whnfFuel
      conversionFuel = (.ok ty, left)) :
    ∃ left', env.inferWithFuelMeteredInUniverseContext alloc' ctx universeContext term
        (whnfFuel + whnf) (conversionFuel + conversion) = (.ok ty, left') ∧
      Wider whnf conversion left left' := by
  have wider : Wider whnf conversion (env.newSession whnfFuel conversionFuel)
      (env.newSession (whnfFuel + whnf) (conversionFuel + conversion)) := ⟨rfl, rfl⟩
  obtain ⟨left', run, wider, _⟩ := inferTerm_widens _ (alloc' ctx [term]) universeContext ctx term
    (faithful_newSession env _ _) (faithful_newSession env _ _) wider h
  exact ⟨left', run, wider⟩

end NpaCore.Kernel
