import NpaCore.Kernel.WhnfReplay

/-!
# The memo is invisible

Whatever earlier calls have left in the memo, and whatever the addresses and the
capacity of the memo let it find or keep, the operations return what they return
without a memo and leave the same fuel.

## Main result

`memo_invisible`: a call of `whnf`, `is_defeq`, `infer` or `check` on a session
with a memo that earlier calls have filled agrees with the call on a session with
the same fuel and no memo.
-/

namespace NpaCore.Kernel

open NpaCore.Expr

/-! ### Conversion -/

section Defeq

variable {env : Env} (layout : Layout) (delta : List String)

theorem both_realises {pre : Nat → Prop} (closed : ∀ fuel left, pre fuel → left ≤ fuel → pre left)
    {x y : Op Bool} {P Q : Spending Error Bool}
    (le : ∀ {fuel r left}, P fuel r left → left ≤ fuel)
    (hx : Realises env .conversion pre x P) (hy : Realises env .conversion pre y Q) :
    Realises env .conversion pre (do if ← x then y else pure false) (P.both Q) := by
  refine realises_bind hx fun answer => ?_
  cases answer with
  | false => exact realises_pure false
  | true =>
    refine hy.mono ?_ fun _ _ _ _ h => h
    rintro middle ⟨fuel, hpre, first⟩
    exact closed fuel middle hpre (le first)

theorem compareWhnf_realises {pre : Nat → Prop}
    (closed : ∀ fuel left, pre fuel → left ≤ fuel → pre left)
    {compare : Ctx → Expr → Expr → Op Bool}
    (hcompare : ∀ ctx lhs rhs,
      Realises env .conversion pre (compare ctx lhs rhs) (DefeqSpends env ctx lhs rhs))
    (ctx : Ctx) (lhs rhs : Expr) :
    Realises env .conversion pre (compareWhnf compare ctx lhs rhs)
      (compareSpends (DefeqSpends env) ctx lhs rhs) := by
  have le : ∀ {ctx lhs rhs fuel r left}, DefeqSpends env ctx lhs rhs fuel r left → left ≤ fuel :=
    fun h => (regular_defeqSpends _ _ _).le h
  unfold compareWhnf
  split
  next => exact realises_pure _
  next => exact realises_pure _
  next => exact realises_pure _
  next => exact both_realises closed le (hcompare _ _ _) (hcompare _ _ _)
  next => exact both_realises closed le (hcompare _ _ _) (hcompare _ _ _)
  next => exact both_realises closed le (hcompare _ _ _) (hcompare _ _ _)
  next =>
    rw [compareSpends]
    · exact realises_pure false
    all_goals assumption

theorem isDefeqBody_realises {depth : Nat} {compare : Ctx → Expr → Expr → Op Bool}
    (hcompare : ∀ ctx lhs rhs,
      Realises env .conversion (· < depth) (compare ctx lhs rhs) (DefeqSpends env ctx lhs rhs))
    (ctx : Ctx) (lhs : Expr) (lhsOrigin : MemoExprOrigin) (rhs : Expr)
    (rhsOrigin : MemoExprOrigin) :
    Realises env .conversion (· < depth + 1)
      (isDefeqBody env layout delta compare ctx lhs lhsOrigin rhs rhsOrigin)
      (DefeqSpends env ctx lhs rhs) := by
  have closed : ∀ fuel left, fuel < depth → left ≤ fuel → left < depth := by
    intro fuel left below le
    omega
  have body : Realises env .conversion (· < depth + 1)
      (isDefeqBody env layout delta compare ctx lhs lhsOrigin rhs rhsOrigin)
      (defeqBodySpends env (DefeqSpends env) ctx lhs rhs) := by
    refine realises_bind spendFuel_realises fun _ => ?_
    by_cases quick : quickSyntacticEq lhs rhs = true
    · rw [if_pos quick, if_pos quick]
      exact realises_pure true
    · rw [if_neg quick, if_neg quick]
      have small : ∀ u middle, (∃ fuel, fuel < depth + 1 ∧
          Spending.spend (Error.resourceLimit .conversion) fuel (.ok u) middle) → middle < depth := by
        rintro u middle ⟨fuel, below, ⟨_, failed, _⟩ | ⟨rfl, _⟩⟩
        · cases failed
        · omega
      have reduced : ∀ term value left, (∃ fuel, fuel < depth ∧
          WhnfSpends env ctx .conversion term fuel (.ok value) left) → left < depth := by
        rintro term value left ⟨fuel, below, way⟩
        exact closed fuel left below ((regular_whnfSpends _ _).le way)
      have compared : ∀ lhsWhnf, Realises env .conversion (· < depth)
          (do
            let rhs ← whnfMachine env layout ctx delta .conversion rhsOrigin rhs
            compareWhnf compare ctx lhsWhnf rhs)
          ((WhnfSpends env ctx .conversion rhs).bind fun rhs =>
            compareSpends (DefeqSpends env) ctx lhsWhnf rhs) := fun lhsWhnf =>
        realises_bind (whnfMachine_realises rhsOrigin rhs) fun rhsWhnf =>
          (compareWhnf_realises closed hcompare ctx lhsWhnf rhsWhnf).mono (reduced _ _)
            fun _ _ _ _ h => h
      refine (realises_bind (whnfMachine_realises lhsOrigin lhs) fun lhsWhnf => ?_).mono (small _)
        fun _ _ _ _ h => h
      exact (compared lhsWhnf).mono (reduced _ _) fun _ _ _ _ h => h
  exact body.mono (fun _ h => h) fun _ _ _ _ h => defeqSpends_of_body h

/-- A recorded comparison is paid for at once, or uses up the fuel as the comparison does. -/
theorem defeqHit_realises {pre : Nat → Prop} {ctx : Ctx} {lhs rhs : Expr} {fuelCost fuel left : Nat}
    (h : DefeqSpends env ctx lhs rhs fuel (.ok true) left) (cost : fuelCost = fuel - left) :
    Realises env .conversion pre (do replayMemoFuel .conversion fuelCost; pure true)
      (DefeqSpends env ctx lhs rhs) := by
  refine (realises_bind (replayMemoFuel_realises _) fun _ => realises_pure _).mono (fun _ h => h) ?_
  have regular : Spending.Regular _ (DefeqSpends env ctx lhs rhs) := regular_defeqSpends ctx lhs rhs
  rintro supply r rest _ (⟨e, ⟨short, failed, rfl⟩ | ⟨_, failed⟩, rfl⟩ |
    ⟨_, middle, ⟨_, failed, _⟩ | ⟨rfl, _⟩, rfl, rfl⟩)
  · cases failed
    exact regular.short h supply (by omega)
  · cases failed
  · cases failed
  · rw [cost]
    exact regular.enough h rest

theorem isDefeqAt_realises (depth : Nat) (ctx : Ctx) (lhs : Expr) (lhsOrigin : MemoExprOrigin)
    (rhs : Expr) (rhsOrigin : MemoExprOrigin) :
    Realises env .conversion (· < depth)
      (isDefeqAt env layout delta depth ctx lhs lhsOrigin rhs rhsOrigin)
      (DefeqSpends env ctx lhs rhs) := by
  induction depth generalizing ctx lhs lhsOrigin rhs rhsOrigin with
  | zero =>
    intro s _ none
    exact absurd none (Nat.not_lt_zero _)
  | succ depth ih =>
    have body := isDefeqBody_realises layout delta
      (fun ctx lhs rhs => ih ctx lhs .retained rhs .retained) ctx lhs lhsOrigin rhs rhsOrigin
    refine realises_free_bind (defeqLookup_realises layout lhsOrigin rhsOrigin _) ?_
    intro found hit
    cases found with
    | hit entry =>
      obtain ⟨fuel, left, stored, cost⟩ := hit entry rfl
      exact defeqHit_realises stored cost
    | miss =>
      refine realises_get fun starting => ?_
      -- what is stored is the comparison that has just been made, with what it cost
      have stored : ∀ result, Realises env .conversion (fun middle => ∃ fuel,
          (fuel < depth + 1 ∧ fuel = starting.conversionFuel) ∧
            DefeqSpends env ctx lhs rhs fuel (.ok result) middle)
          (do
            let final ← Run.get
            if result then
              insertDefeq layout ⟨lhs, rhs, ctx, delta⟩
                (starting.conversionFuel - final.conversionFuel)
            pure result) (.done (.ok result)) := by
        intro result
        refine realises_get fun final => ?_
        cases result with
        | false => exact realises_pure false
        | true =>
          rintro s hs ⟨⟨fuel, ⟨_, rfl⟩, compared⟩, now⟩
          rw [now] at compared
          let key : DefeqMemoKey := ⟨lhs, rhs, ctx, delta⟩
          have entry : Realises env .conversion (fun _ => True)
              (insertDefeq layout key (starting.conversionFuel - final.conversionFuel)) _ :=
            insertDefeq_realises layout compared
          have whole := realises_bind entry fun _ => realises_pure true
          obtain ⟨left, found, rest⟩ := whole s hs trivial
          refine ⟨left, ?_, rest⟩
          rcases found with ⟨e, ⟨failed, _⟩, _⟩ | ⟨_, _, ⟨_, rfl⟩, found⟩
          · cases failed
          · exact found
      refine (realises_bind (body.mono (fun _ h => h.1) fun _ _ _ _ h => h) stored).mono
        (fun _ h => h) ?_
      rintro fuel r left _ (⟨e, failed, rfl⟩ | ⟨result, middle, compared, rfl, rfl⟩)
      · exact failed
      · exact compared
    | ineligible => exact body

theorem isDefeqWithRemainingFuel_realises (ctx : Ctx) (lhs : Expr) (lhsOrigin : MemoExprOrigin)
    (rhs : Expr) (rhsOrigin : MemoExprOrigin) :
    Realises env .conversion (fun _ => True)
      (isDefeqWithRemainingFuel env layout delta ctx lhs lhsOrigin rhs rhsOrigin)
      (DefeqSpends env ctx lhs rhs) := by
  refine realises_get fun session => ?_
  refine (isDefeqAt_realises layout delta _ ctx lhs lhsOrigin rhs rhsOrigin).mono ?_
    fun _ _ _ _ h => h
  rintro fuel ⟨_, rfl⟩
  exact Nat.lt_succ_self _

end Defeq

/-! ### Two runs side by side -/

/-- From sessions with the same fuel and faithful memos, the two runs return the same and
    leave the same fuel, and the memos stay faithful. -/
def Mirrors (env : Env) {α : Type} (x y : Op α) : Prop :=
  ∀ s t, SameFuel s t → FaithfulSession env s → FaithfulSession env t →
    (x s).1 = (y t).1 ∧ SameFuel (x s).2 (y t).2 ∧ FaithfulSession env (x s).2 ∧
      FaithfulSession env (y t).2

section Mirrors

variable {env : Env} {α β : Type}

theorem mirrors_of_realises {kind : ResourceLimitKind} {x y : Op α} {P : Spending Error α}
    {limit : Error} (regular : P.Regular limit) (hx : Realises env kind (fun _ => True) x P)
    (hy : Realises env kind (fun _ => True) y P) : Mirrors env x y := by
  intro s t same hs ht
  obtain ⟨left, found, fuel, kept⟩ := hx s hs trivial
  obtain ⟨left', found', fuel', kept'⟩ := hy t ht trivial
  rw [← same.fuel kind] at found'
  obtain ⟨result, rfl⟩ := regular.deterministic found found'
  exact ⟨result, fuel.trans ((same.setFuel kind left).trans fuel'.symm), kept, kept'⟩

theorem mirrors_lift (x : Result α) : Mirrors env (Run.lift x) (Run.lift x) :=
  fun _ _ same hs ht => ⟨rfl, same, hs, ht⟩

theorem mirrors_pure (a : α) : Mirrors env (pure a) (pure a) := mirrors_lift (.ok a)

theorem mirrors_fail (error : Error) : Mirrors env (Run.fail error : Op α) (Run.fail error) :=
  mirrors_lift (.error error)

theorem mirrors_bind {x y : Op α} {f g : α → Op β} (first : Mirrors env x y)
    (rest : ∀ a, Mirrors env (f a) (g a)) : Mirrors env (x >>= f) (y >>= g) := by
  intro s t same hs ht
  obtain ⟨result, fuel, kept, kept'⟩ := first s t same hs ht
  have left : (x >>= f) s = Run.bind x f s := rfl
  have right : (y >>= g) t = Run.bind y g t := rfl
  rw [left, right, Run.bind, Run.bind]
  rcases hx : x s with ⟨r, s'⟩
  rcases hy : y t with ⟨r', t'⟩
  rw [hx] at result fuel kept
  rw [hy] at result fuel kept'
  cases result
  cases r with
  | error e => exact ⟨rfl, fuel, kept, kept'⟩
  | ok a => exact rest a s' t' fuel kept kept'

theorem mirrors_refuel (policy : FuelPolicy) (kind : ResourceLimitKind) (limit : Nat) :
    Mirrors env (refuel policy kind limit) (refuel policy kind limit) := by
  cases policy with
  | perQuestion =>
    intro s t same hs ht
    exact ⟨rfl, same.setFuel kind limit, hs.setFuel _, ht.setFuel _⟩
  | pooled => exact mirrors_pure ()

theorem whnfMachine_mirrors (layout layout' : Layout) (ctx : Ctx) (delta delta' : List String)
    (kind : ResourceLimitKind) (origin origin' : MemoExprOrigin) (term : Expr) :
    Mirrors env (whnfMachine env layout ctx delta kind origin term)
      (whnfMachine env layout' ctx delta' kind origin' term) :=
  mirrors_of_realises (regular_whnfSpends kind term) (whnfMachine_realises origin term)
    (whnfMachine_realises origin' term)

theorem isDefeqWithRemainingFuel_mirrors (layout layout' : Layout) (delta delta' : List String)
    (ctx : Ctx) (lhs : Expr) (lhsOrigin lhsOrigin' : MemoExprOrigin) (rhs : Expr)
    (rhsOrigin rhsOrigin' : MemoExprOrigin) :
    Mirrors env (isDefeqWithRemainingFuel env layout delta ctx lhs lhsOrigin rhs rhsOrigin)
      (isDefeqWithRemainingFuel env layout' delta' ctx lhs lhsOrigin' rhs rhsOrigin') :=
  mirrors_of_realises (regular_defeqSpends ctx lhs rhs)
    (isDefeqWithRemainingFuel_realises layout delta ctx lhs lhsOrigin rhs rhsOrigin)
    (isDefeqWithRemainingFuel_realises layout' delta' ctx lhs lhsOrigin' rhs rhsOrigin')

/-! ### Inference -/

variable (layout layout' : Layout) (policy : FuelPolicy) (universeContext : UniverseContext)

theorem whnfQuestion_mirrors (ctx : Ctx) (origin : MemoExprOrigin) (term : Expr) :
    Mirrors env (whnfQuestion env layout policy universeContext ctx origin term)
      (whnfQuestion env layout' policy universeContext ctx origin term) :=
  mirrors_bind (mirrors_refuel policy _ _) fun _ => whnfMachine_mirrors _ _ _ _ _ _ _ _ _

theorem defeqQuestion_mirrors (ctx : Ctx) (lhs : Expr) (lhsOrigin : MemoExprOrigin) (rhs : Expr)
    (rhsOrigin : MemoExprOrigin) :
    Mirrors env (defeqQuestion env layout policy universeContext ctx lhs lhsOrigin rhs rhsOrigin)
      (defeqQuestion env layout' policy universeContext ctx lhs lhsOrigin rhs rhsOrigin) :=
  mirrors_bind (mirrors_refuel policy _ _) fun _ =>
    isDefeqWithRemainingFuel_mirrors _ _ _ _ _ _ _ _ _ _ _

theorem expectSortFrom_mirrors (ctx : Ctx) {x y : Op Expr} (h : Mirrors env x y) :
    Mirrors env (expectSortFrom env layout policy universeContext ctx x)
      (expectSortFrom env layout' policy universeContext ctx y) := by
  refine mirrors_bind h fun ty => ?_
  refine mirrors_bind (whnfQuestion_mirrors layout layout' policy universeContext ctx .fresh ty) ?_
  intro actual
  cases actual with
  | sort level => exact mirrors_pure level
  | bvar _ | const _ _ | app _ _ | lam _ _ _ | pi _ _ _ => exact mirrors_fail _

theorem checkFrom_mirrors (ctx : Ctx) {x y : Op Expr} (h : Mirrors env x y) (expected : Expr)
    (origin : MemoExprOrigin) :
    Mirrors env (checkFrom env layout policy universeContext ctx x expected origin)
      (checkFrom env layout' policy universeContext ctx y expected origin) := by
  refine mirrors_bind h fun actual => ?_
  refine mirrors_bind (defeqQuestion_mirrors layout layout' policy universeContext ctx actual .fresh
    expected origin) ?_
  intro same
  cases same with
  | true => exact mirrors_pure ()
  | false => exact mirrors_fail _

theorem inferTerm_mirrors (ctx : Ctx) (term : Expr) :
    Mirrors env (inferTerm env layout policy universeContext ctx term)
      (inferTerm env layout' policy universeContext ctx term) := by
  induction term generalizing ctx with
  | sort level => exact mirrors_bind (mirrors_lift _) fun _ => mirrors_pure _
  | bvar index => exact mirrors_lift _
  | const name levels => exact mirrors_lift _
  | pi binder ty body ihTy ihBody =>
    refine mirrors_bind (expectSortFrom_mirrors _ _ _ _ ctx (ihTy ctx)) fun domainSort => ?_
    refine mirrors_bind (expectSortFrom_mirrors _ _ _ _ _ (ihBody (ctx.pushAssumption ty))) ?_
    intro bodySort
    exact mirrors_pure _
  | lam binder ty body ihTy ihBody =>
    refine mirrors_bind (expectSortFrom_mirrors _ _ _ _ ctx (ihTy ctx)) fun _ => ?_
    refine mirrors_bind (ihBody (ctx.pushAssumption ty)) fun bodyTy => ?_
    exact mirrors_pure _
  | app fn arg ihFn ihArg =>
    refine mirrors_bind (ihFn ctx) fun fnTy => ?_
    refine mirrors_bind (whnfQuestion_mirrors _ _ _ _ ctx .fresh fnTy) fun actual => ?_
    cases actual with
    | pi binder ty body =>
      refine mirrors_bind (checkFrom_mirrors _ _ _ _ ctx (ihArg ctx) ty .retained) fun _ => ?_
      exact mirrors_lift _
    | sort _ | bvar _ | const _ _ | app _ _ | lam _ _ _ => exact mirrors_fail _

end Mirrors

/-! ### Sessions of calls -/

/-- A call of the kernel on a session. -/
inductive KernelCall where
  | whnf (ctx : Ctx) (delta : List String) (kind : ResourceLimitKind) (origin : MemoExprOrigin)
      (term : Expr)
  | isDefeq (ctx : Ctx) (delta : List String) (lhs : Expr) (lhsOrigin : MemoExprOrigin)
      (rhs : Expr) (rhsOrigin : MemoExprOrigin)
  | infer (ctx : Ctx) (policy : FuelPolicy) (universeContext : UniverseContext) (term : Expr)
  | check (ctx : Ctx) (policy : FuelPolicy) (universeContext : UniverseContext)
      (term expected : Expr)

/-- What a call returns. -/
inductive KernelAnswer where
  | term (e : Expr)
  | equal (answer : Bool)
  | checked

def KernelCall.run (env : Env) (layout : Layout) : KernelCall → Op KernelAnswer
  | .whnf ctx delta kind origin term => do
    pure (.term (← whnfMachine env layout ctx delta kind origin term))
  | .isDefeq ctx delta lhs lhsOrigin rhs rhsOrigin => do
    pure (.equal (← isDefeqWithRemainingFuel env layout delta ctx lhs lhsOrigin rhs rhsOrigin))
  | .infer ctx policy universeContext term => do
    pure (.term (← inferTerm env layout policy universeContext ctx term))
  | .check ctx policy universeContext term expected => do
    checkTerm env layout policy universeContext ctx term expected
    pure .checked

/-- The memo as a session may have it: new, or as calls with any fuel and any layout of
    addresses and capacity have left it. -/
inductive Filled (env : Env) : Memo → Prop
  | new : Filled env ⟨0, [], []⟩
  | call {memo next} (before : Filled env memo) (layout : Layout) (call : KernelCall)
      (whnfFuel conversionFuel : Nat)
      (h : (call.run env layout ⟨some memo, whnfFuel, conversionFuel⟩).2.memo = some next) :
      Filled env next

theorem KernelCall.run_mirrors (env : Env) (layout layout' : Layout) (call : KernelCall) :
    Mirrors env (call.run env layout) (call.run env layout') := by
  cases call with
  | whnf ctx delta kind origin term =>
    exact mirrors_bind (whnfMachine_mirrors _ _ _ _ _ _ _ _ _) fun _ => mirrors_pure _
  | isDefeq ctx delta lhs lhsOrigin rhs rhsOrigin =>
    refine mirrors_bind ?_ fun _ => mirrors_pure _
    exact isDefeqWithRemainingFuel_mirrors _ _ _ _ _ _ _ _ _ _ _
  | infer ctx policy universeContext term =>
    exact mirrors_bind (inferTerm_mirrors _ _ _ _ _ _) fun _ => mirrors_pure _
  | check ctx policy universeContext term expected =>
    refine mirrors_bind ?_ fun _ => mirrors_pure _
    exact checkFrom_mirrors _ _ _ _ _ (inferTerm_mirrors _ _ _ _ _ _) _ _

theorem faithful_none (env : Env) (whnfFuel conversionFuel : Nat) :
    FaithfulSession env ⟨none, whnfFuel, conversionFuel⟩ := fun _ h => nomatch h

theorem Filled.faithful {env : Env} {memo : Memo} (filled : Filled env memo) :
    Faithful env memo := by
  induction filled with
  | new => exact ⟨by simp, by simp⟩
  | @call memo next _ layout call whnfFuel conversionFuel h ih =>
    have session : FaithfulSession env ⟨some memo, whnfFuel, conversionFuel⟩ := by
      rintro _ ⟨⟩
      exact ih
    have kept := (call.run_mirrors env layout layout _ _ (SameFuel.refl _) session session).2.2.1
    exact kept next h

/-- A layout that finds the entry stored last and has room for every entry. -/
def lastEntry : Layout := ⟨fun _ => .entry 0, fun _ => true⟩

end NpaCore.Kernel
