import NpaCore.Kernel.MemoInvisible

/-!
# Laws of fuel and conversion

More fuel changes no answer and is all left over, and conversion does not notice which
of its two terms stands on the left. Both are laws of what a call spends, so they hold
with and without a memo and across sessions with different memos.

The comparison of two binders is made in a context with the left type. Reduction looks
at a context only to see whether a variable is bound, so contexts of one length are
interchangeable for it.
-/

namespace NpaCore.Kernel

open NpaCore.Expr NpaCore.Level

section Contexts

variable {env : Env} {ctx ctx' : Ctx}

theorem ensureBound_congr (same : ctx.locals.length = ctx'.locals.length) (index : Nat) :
    ctx.ensureBound index = ctx'.ensureBound index := by
  unfold Ctx.ensureBound Ctx.lookup
  by_cases bound : index < ctx.locals.length
  · have inside : ctx.locals.length - 1 - index < ctx.locals.length := by omega
    have inside' : ctx'.locals.length - 1 - index < ctx'.locals.length := by omega
    rw [if_pos bound, if_pos (same ▸ bound), List.getElem?_eq_getElem inside,
      List.getElem?_eq_getElem inside']
    rfl
  · rw [if_neg bound, if_neg (same ▸ bound)]

/-- Reduction only asks a context for its length. -/
theorem reductionMachine_congr (same : ctx.locals.length = ctx'.locals.length) :
    reductionMachine env ctx = reductionMachine env ctx' := by
  have reduce : ∀ current frames, reduceMove env ctx current frames =
      reduceMove env ctx' current frames := by
    intro current frames
    cases current with
    | bvar index => simp only [reduceMove, ensureBound_congr same]
    | sort _ | const _ _ | app _ _ | lam _ _ _ | pi _ _ _ => rfl
  have moves : reductionMove env ctx = reductionMove env ctx' := by
    funext state
    obtain ⟨control, frames⟩ := state
    cases control with
    | reduce current => exact reduce current frames
    | complete _ | resume _ => rfl
  simp only [reductionMachine, moves]

theorem whnfSpends_congr (same : ctx.locals.length = ctx'.locals.length)
    (kind : ResourceLimitKind) (term : Expr) :
    WhnfSpends env ctx kind term = WhnfSpends env ctx' kind term := by
  simp only [WhnfSpends, reductionMachine_congr same]

end Contexts

/-! ### Symmetry -/

section Symmetry

variable {env : Env} {ctx ctx' : Ctx} {lhs rhs : Expr} {fuel left : Nat} {answer : Bool}

/-- Two questions are symmetric when both are. -/
theorem both_symm {x y x' y' : Spending Error Bool}
    (hx : ∀ {fuel answer left}, x fuel (.ok answer) left → x' fuel (.ok answer) left)
    (hy : ∀ {fuel answer left}, y fuel (.ok answer) left → y' fuel (.ok answer) left)
    (h : x.both y fuel (.ok answer) left) : x'.both y' fuel (.ok answer) left := by
  rcases h with ⟨e, _, failed⟩ | ⟨yes, middle, first, rest⟩
  · cases failed
  · refine .inr ⟨yes, middle, hx first, ?_⟩
    cases yes with
    | true => exact hy rest
    | false => exact rest

/-- The comparison of two weak head normal forms is symmetric when the recursive comparisons
    are. -/
theorem compareSpends_symm {compare : Ctx → Expr → Expr → Spending Error Bool}
    (ih : ∀ {ctx ctx' : Ctx} {lhs rhs fuel answer left},
      ctx.locals.length = ctx'.locals.length →
      compare ctx lhs rhs fuel (.ok answer) left → compare ctx' rhs lhs fuel (.ok answer) left)
    (same : ctx.locals.length = ctx'.locals.length)
    (h : compareSpends compare ctx lhs rhs fuel (.ok answer) left) :
    compareSpends compare ctx' rhs lhs fuel (.ok answer) left := by
  have pushed : ∀ ty ty', (ctx.pushAssumption ty).locals.length =
      (ctx'.pushAssumption ty').locals.length := by
    intro ty ty'
    simp only [Ctx.pushAssumption, List.length_append, List.length_cons, List.length_nil, same]
  -- terms of different shapes are not equal, in either order
  cases lhs with
  | sort l =>
    cases rhs with
    | sort r =>
      simp only [compareSpends] at h ⊢
      rwa [levelEq_comm]
    | _ => exact h
  | bvar l =>
    cases rhs with
    | bvar r =>
      simp only [compareSpends] at h ⊢
      rwa [decide_eq_decide.mpr eq_comm]
    | _ => exact h
  | const l lhsLevels =>
    cases rhs with
    | const r rhsLevels =>
      simp only [compareSpends] at h ⊢
      rwa [decide_eq_decide.mpr eq_comm, levelsEq_comm]
    | _ => exact h
  | app lhsFn lhsArg =>
    cases rhs with
    | app rhsFn rhsArg => exact both_symm (ih same) (ih same) h
    | _ => exact h
  | pi _ lhsTy lhsBody =>
    cases rhs with
    | pi _ rhsTy rhsBody => exact both_symm (ih same) (ih (pushed lhsTy rhsTy)) h
    | _ => exact h
  | lam _ lhsTy lhsBody =>
    cases rhs with
    | lam _ rhsTy rhsBody => exact both_symm (ih same) (ih (pushed lhsTy rhsTy)) h
    | _ => exact h

theorem defeqSpendsWithin_symm (depth : Nat) (same : ctx.locals.length = ctx'.locals.length)
    (h : DefeqSpendsWithin env depth ctx lhs rhs fuel (.ok answer) left) :
    DefeqSpendsWithin env depth ctx' rhs lhs fuel (.ok answer) left := by
  induction depth generalizing ctx ctx' lhs rhs fuel answer left with
  | zero => exact h.elim
  | succ depth ih =>
    rcases h with ⟨e, _, failed⟩ | ⟨u, supply, spent, h⟩
    · cases failed
    · refine .inr ⟨u, supply, spent, ?_⟩
      rw [quickSyntacticEq_comm]
      by_cases quick : quickSyntacticEq lhs rhs = true
      · rw [if_pos quick] at h ⊢
        exact h
      · rw [if_neg quick] at h ⊢
        rcases h with ⟨e, _, failed⟩ | ⟨lhsWhnf, middle, way, h⟩
        · cases failed
        · rcases h with ⟨e, _, failed⟩ | ⟨rhsWhnf, rest, way', compared⟩
          · cases failed
          · -- the two reductions change places, and the comparison starts with the same rest
            obtain ⟨between, first, second⟩ := (regular_whnfSpends .conversion lhs).swap
              (regular_whnfSpends .conversion rhs) way way'
            rw [whnfSpends_congr same] at first second
            exact .inr ⟨rhsWhnf, between, first, .inr ⟨lhsWhnf, rest, second,
              compareSpends_symm ih same compared⟩⟩

theorem defeqSpends_symm (h : DefeqSpends env ctx lhs rhs fuel (.ok answer) left) :
    DefeqSpends env ctx rhs lhs fuel (.ok answer) left := by
  obtain ⟨depth, h⟩ := h
  exact ⟨depth, defeqSpendsWithin_symm depth rfl h⟩

end Symmetry

/-! ### Sessions -/

/-- The session has no memo, or one that calls have filled. -/
def OwnMemo (env : Env) (session : Session) : Prop :=
  ∀ memo, session.memo = some memo → Filled env memo

theorem OwnMemo.faithful {env : Env} {session : Session} (own : OwnMemo env session) :
    FaithfulSession env session :=
  fun memo h => (own memo h).faithful

section Laws

variable {env : Env} {kind : ResourceLimitKind} {α : Type} {x y : Op α} {P Q : Spending Error α}
  {limit : Error} {s t : Session} {value : α}

/-- Two runs with one answer: when what the first spends for a success is, from the supply of
    the second, what that one spends, then the second succeeds too and leaves as much. -/
theorem answers_alike (hx : Realises env kind (fun _ => True) x P)
    (hy : Realises env kind (fun _ => True) y Q) (regular : Q.Regular limit)
    (hs : OwnMemo env s) (ht : OwnMemo env t) {k : Nat}
    (alike : ∀ {left}, P (s.fuel kind) (.ok value) left →
      Q (t.fuel kind) (.ok value) (left + k))
    (h : (x s).1 = .ok value) :
    (y t).1 = .ok value ∧ (y t).2.fuel kind = (x s).2.fuel kind + k := by
  obtain ⟨left, found, fuel, _⟩ := hx s hs.faithful trivial
  obtain ⟨left', found', fuel', _⟩ := hy t ht.faithful trivial
  rw [h] at found
  obtain ⟨result, rest⟩ := regular.deterministic found' (alike found)
  rw [fuel.fuel kind, fuel'.fuel kind, Session.fuel_setFuel, Session.fuel_setFuel]
  exact ⟨result, rest⟩

end Laws

/-- More fuel gives the same answer and is left over, for weak head reduction and for
    conversion, and a comparison that ends gives the same answer, at the same cost, with its
    terms exchanged. The runs may differ in their memos, their addresses and the declared
    universe parameters. -/
theorem fuel_laws (env : Env) {s t : Session} (hs : OwnMemo env s) (ht : OwnMemo env t)
    (layout layout' : Layout) (ctx : Ctx) (delta delta' : List String)
    (origin origin' other other' : MemoExprOrigin) (k : Nat) :
    (∀ kind term value, t.fuel kind = s.fuel kind + k →
      (whnfMachine env layout ctx delta kind origin term s).1 = .ok value →
      (whnfMachine env layout' ctx delta' kind origin' term t).1 = .ok value ∧
        (whnfMachine env layout' ctx delta' kind origin' term t).2.fuel kind =
          (whnfMachine env layout ctx delta kind origin term s).2.fuel kind + k) ∧
    (∀ a b answer, t.conversionFuel = s.conversionFuel + k →
      (isDefeqWithRemainingFuel env layout delta ctx a origin b other s).1 = .ok answer →
      (isDefeqWithRemainingFuel env layout' delta' ctx a origin' b other' t).1 = .ok answer ∧
        (isDefeqWithRemainingFuel env layout' delta' ctx a origin' b other' t).2.conversionFuel =
          (isDefeqWithRemainingFuel env layout delta ctx a origin b other s).2.conversionFuel +
            k) ∧
    (∀ a b answer, t.conversionFuel = s.conversionFuel →
      (isDefeqWithRemainingFuel env layout delta ctx a origin b other s).1 = .ok answer →
      (isDefeqWithRemainingFuel env layout' delta' ctx b other' a origin' t).1 = .ok answer ∧
        (isDefeqWithRemainingFuel env layout' delta' ctx b other' a origin' t).2.conversionFuel =
          (isDefeqWithRemainingFuel env layout delta ctx a origin b other s).2.conversionFuel) := by
  refine ⟨?_, ?_, ?_⟩
  · intro kind term value more h
    refine answers_alike (whnfMachine_realises origin term) (whnfMachine_realises origin' term)
      (regular_whnfSpends kind term) hs ht ?_ h
    intro left found
    rw [more]
    exact (regular_whnfSpends kind term).add found k
  · intro a b answer more h
    refine answers_alike
      (isDefeqWithRemainingFuel_realises layout delta ctx a origin b other)
      (isDefeqWithRemainingFuel_realises layout' delta' ctx a origin' b other')
      (regular_defeqSpends ctx a b) hs ht ?_ h
    intro left found
    have supply : t.fuel .conversion = s.fuel .conversion + k := more
    rw [supply]
    exact (regular_defeqSpends ctx a b).add found k
  · intro a b answer equal h
    refine answers_alike (k := 0)
      (isDefeqWithRemainingFuel_realises layout delta ctx a origin b other)
      (isDefeqWithRemainingFuel_realises layout' delta' ctx b other' a origin')
      (regular_defeqSpends ctx b a) hs ht ?_ h
    intro left found
    have supply : t.fuel .conversion = s.fuel .conversion := equal
    rw [supply]
    exact defeqSpends_symm found

/-- The comparison of `(fun x => x) Prop` with `Prop`, or the other way round, without a memo. -/
def identityComparison (exchanged : Bool) (fuel : Nat) : Result Bool × Session :=
  let applied : Expr := .app (.lam "x" (.sort (.succ .zero)) (.bvar 0)) (.sort .zero)
  let (a, b) := if exchanged then (.sort .zero, applied) else (applied, .sort .zero)
  isDefeqWithRemainingFuel Env.new lastEntry [] .new a .borrowed b .borrowed ⟨none, 0, fuel⟩

/-- The comparison costs five units, so of seven two are left. -/
theorem fuel_laws_at_identity :
    (identityComparison false 7).1 = .ok true ∧
      (identityComparison false 7).2.conversionFuel = 2 ∧
      (identityComparison true 5).1 = .ok true ∧
      (identityComparison true 5).2.conversionFuel = 0 := by
  have own : ∀ fuel, OwnMemo Env.new ⟨none, 0, fuel⟩ := fun fuel memo h => nomatch h
  have equal : (identityComparison false 5).1 = .ok true := Result.ok_of_toOption (by decide +kernel)
  have left : (identityComparison false 5).2.conversionFuel = 0 := by decide +kernel
  have more := (fuel_laws Env.new (own 5) (own 7) lastEntry lastEntry .new [] [] .borrowed
    .borrowed .borrowed .borrowed 2).2.1 _ _ true rfl equal
  have exchanged := (fuel_laws Env.new (own 5) (own 5) lastEntry lastEntry .new [] [] .borrowed
    .borrowed .borrowed .borrowed 0).2.2 _ _ true rfl equal
  exact ⟨more.1, more.2.trans (congrArg (· + 2) left), exchanged.1, exchanged.2.trans left⟩

/-! ### Inference -/

/-- Two runs that both succeed return the same, whatever their fuel. -/
def Agree (env : Env) {α : Type} (x y : Op α) : Prop :=
  ∀ ⦃s t s' t' : Session⦄ ⦃a b : α⦄, FaithfulSession env s → FaithfulSession env t →
    x s = (.ok a, s') → y t = (.ok b, t') →
    a = b ∧ FaithfulSession env s' ∧ FaithfulSession env t'

section Agree

variable {env : Env} {α β : Type}

theorem agree_lift (x : Result α) : Agree env (Run.lift x) (Run.lift x) := by
  intro s t s' t' a b hs ht hx hy
  cases hx
  cases hy
  exact ⟨rfl, hs, ht⟩

theorem agree_pure (a : α) : Agree env (pure a) (pure a) := agree_lift (.ok a)

theorem agree_fail (error : Error) : Agree env (Run.fail error : Op α) (Run.fail error) :=
  agree_lift (.error error)

theorem agree_bind {x y : Op α} {f g : α → Op β} (first : Agree env x y)
    (rest : ∀ a, Agree env (f a) (g a)) : Agree env (x >>= f) (y >>= g) := by
  intro s t s' t' a b hs ht hx hy
  obtain ⟨c, m, hx, hf⟩ := Run.bind_eq_ok.mp hx
  obtain ⟨d, n, hy, hg⟩ := Run.bind_eq_ok.mp hy
  obtain ⟨rfl, hm, hn⟩ := first hs ht hx hy
  exact rest c hm hn hf hg

/-- A success is the one of every supply above its cost. -/
theorem agree_of_realises {kind : ResourceLimitKind} {x y : Op α} {P : Spending Error α}
    {limit : Error} (regular : P.Regular limit) (hx : Realises env kind (fun _ => True) x P)
    (hy : Realises env kind (fun _ => True) y P) : Agree env x y := by
  intro s t s' t' a b hs ht runX runY
  obtain ⟨left, found, _, kept⟩ := hx s hs trivial
  obtain ⟨left', found', _, kept'⟩ := hy t ht trivial
  rw [runX] at found kept
  rw [runY] at found' kept'
  -- both successes from the sum of the two supplies
  have more := regular.add found (t.fuel kind)
  have more' := regular.add found' (s.fuel kind)
  rw [Nat.add_comm] at more'
  cases (regular.deterministic more more').1
  exact ⟨rfl, kept, kept'⟩

variable (layout layout' : Layout) (policy policy' : FuelPolicy)
  (universeContext : UniverseContext)

theorem agree_refuel (kind : ResourceLimitKind) (limit : Nat) :
    Agree env (refuel policy kind limit) (refuel policy' kind limit) := by
  have kept : ∀ (policy : FuelPolicy) (s s' : Session), FaithfulSession env s →
      refuel policy kind limit s = (.ok (), s') → FaithfulSession env s' := by
    intro policy s s' hs h
    cases policy with
    | perQuestion =>
      cases h
      exact hs.setFuel limit
    | pooled =>
      cases h
      exact hs
  intro s t s' t' a b hs ht hx hy
  exact ⟨rfl, kept policy s s' hs hx, kept policy' t t' ht hy⟩

theorem whnfQuestion_agree (ctx : Ctx) (origin : MemoExprOrigin) (term : Expr) :
    Agree env (whnfQuestion env layout policy universeContext ctx origin term)
      (whnfQuestion env layout' policy' universeContext ctx origin term) :=
  agree_bind (agree_refuel policy policy' _ _) fun _ =>
    agree_of_realises (regular_whnfSpends .whnf term) (whnfMachine_realises origin term)
      (whnfMachine_realises origin term)

theorem defeqQuestion_agree (ctx : Ctx) (lhs : Expr) (lhsOrigin : MemoExprOrigin) (rhs : Expr)
    (rhsOrigin : MemoExprOrigin) :
    Agree env (defeqQuestion env layout policy universeContext ctx lhs lhsOrigin rhs rhsOrigin)
      (defeqQuestion env layout' policy' universeContext ctx lhs lhsOrigin rhs rhsOrigin) :=
  agree_bind (agree_refuel policy policy' _ _) fun _ =>
    agree_of_realises (regular_defeqSpends ctx lhs rhs)
      (isDefeqWithRemainingFuel_realises _ _ _ _ _ _ _)
      (isDefeqWithRemainingFuel_realises _ _ _ _ _ _ _)

theorem expectSortFrom_agree (ctx : Ctx) {x y : Op Expr} (h : Agree env x y) :
    Agree env (expectSortFrom env layout policy universeContext ctx x)
      (expectSortFrom env layout' policy' universeContext ctx y) := by
  refine agree_bind h fun ty => ?_
  refine agree_bind (whnfQuestion_agree layout layout' policy policy' universeContext ctx .fresh ty) ?_
  intro actual
  cases actual with
  | sort level => exact agree_pure level
  | bvar _ | const _ _ | app _ _ | lam _ _ _ | pi _ _ _ => exact agree_fail _

theorem checkFrom_agree (ctx : Ctx) {x y : Op Expr} (h : Agree env x y) (expected : Expr)
    (origin : MemoExprOrigin) :
    Agree env (checkFrom env layout policy universeContext ctx x expected origin)
      (checkFrom env layout' policy' universeContext ctx y expected origin) := by
  refine agree_bind h fun actual => ?_
  refine agree_bind (defeqQuestion_agree layout layout' policy policy' universeContext ctx actual
    .fresh expected origin) fun same => ?_
  cases same with
  | true => exact agree_pure ()
  | false => exact agree_fail _

/-- Inference finds one type, with whatever fuel it succeeds. -/
theorem inferTerm_agree (ctx : Ctx) (term : Expr) :
    Agree env (inferTerm env layout policy universeContext ctx term)
      (inferTerm env layout' policy' universeContext ctx term) := by
  induction term generalizing ctx with
  | sort level => exact agree_bind (agree_lift _) fun _ => agree_pure _
  | bvar index => exact agree_lift _
  | const name levels => exact agree_lift _
  | pi binder ty body ihTy ihBody =>
    refine agree_bind (expectSortFrom_agree _ _ _ _ _ ctx (ihTy ctx)) fun domainSort => ?_
    refine agree_bind (expectSortFrom_agree _ _ _ _ _ _ (ihBody (ctx.pushAssumption ty))) ?_
    intro bodySort
    exact agree_pure _
  | lam binder ty body ihTy ihBody =>
    refine agree_bind (expectSortFrom_agree _ _ _ _ _ ctx (ihTy ctx)) fun _ => ?_
    refine agree_bind (ihBody (ctx.pushAssumption ty)) fun bodyTy => ?_
    exact agree_pure _
  | app fn arg ihFn ihArg =>
    refine agree_bind (ihFn ctx) fun fnTy => ?_
    refine agree_bind (whnfQuestion_agree _ _ _ _ _ ctx .fresh fnTy) fun actual => ?_
    cases actual with
    | pi binder ty body =>
      refine agree_bind (checkFrom_agree _ _ _ _ _ ctx (ihArg ctx) ty .retained) fun _ => ?_
      exact agree_lift _
    | sort _ | bvar _ | const _ _ | app _ _ | lam _ _ _ => exact agree_fail _

theorem expectSortTerm_agree (ctx : Ctx) (term : Expr) :
    Agree env (expectSortTerm env layout policy universeContext ctx term)
      (expectSortTerm env layout' policy' universeContext ctx term) :=
  expectSortFrom_agree _ _ _ _ _ ctx (inferTerm_agree _ _ _ _ _ ctx term)

end Agree

end NpaCore.Kernel
