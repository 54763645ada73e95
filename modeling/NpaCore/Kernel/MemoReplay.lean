import NpaCore.Kernel.Infer
import NpaCore.Kernel.Reduction

/-!
# What the memo may contain

An entry of the memo is right when its result and its fuel cost are those of the
computation it stands for. The computations are stated as `Spending`s without a
memo: a run with a memo whose entries are right does what the `Spending` says, and
the entries that it adds are right.
-/

namespace NpaCore.Kernel

open NpaCore.Expr NpaCore.Level

/-! ### Conversion without a memo -/

/-- `compareWhnf`, over what the recursive comparisons spend. -/
def compareSpends (compare : Ctx → Expr → Expr → Spending Error Bool) (ctx : Ctx)
    (lhs rhs : Expr) : Spending Error Bool :=
  match lhs, rhs with
  | .sort lhs, .sort rhs => .done (.ok (levelEq lhs rhs))
  | .bvar lhs, .bvar rhs => .done (.ok (lhs = rhs))
  | .const lhsName lhsLevels, .const rhsName rhsLevels =>
    .done (.ok (decide (lhsName = rhsName) && levelsEq lhsLevels rhsLevels))
  | .app lhsFn lhsArg, .app rhsFn rhsArg =>
    Spending.both (compare ctx lhsFn rhsFn) (compare ctx lhsArg rhsArg)
  | .pi _ lhsTy lhsBody, .pi _ rhsTy rhsBody =>
    Spending.both (compare ctx lhsTy rhsTy) (compare (ctx.pushAssumption lhsTy) lhsBody rhsBody)
  | .lam _ lhsTy lhsBody, .lam _ rhsTy rhsBody =>
    Spending.both (compare ctx lhsTy rhsTy) (compare (ctx.pushAssumption lhsTy) lhsBody rhsBody)
  | _, _ => .done (.ok false)

def defeqBodySpends (env : Env) (compare : Ctx → Expr → Expr → Spending Error Bool) (ctx : Ctx)
    (lhs rhs : Expr) : Spending Error Bool :=
  (Spending.spend (.resourceLimit .conversion)).bind fun _ =>
    if quickSyntacticEq lhs rhs then .done (.ok true)
    else
      (WhnfSpends env ctx .conversion lhs).bind fun lhs =>
        (WhnfSpends env ctx .conversion rhs).bind fun rhs => compareSpends compare ctx lhs rhs

/-- Comparisons with at most so many calls inside each other. -/
def DefeqSpendsWithin (env : Env) : Nat → Ctx → Expr → Expr → Spending Error Bool
  | 0, _, _, _ => fun _ _ _ => False
  | depth + 1, ctx, lhs, rhs => defeqBodySpends env (DefeqSpendsWithin env depth) ctx lhs rhs

/-- What a comparison returns and leaves. -/
def DefeqSpends (env : Env) (ctx : Ctx) (lhs rhs : Expr) : Spending Error Bool :=
  fun fuel r left => ∃ depth, DefeqSpendsWithin env depth ctx lhs rhs fuel r left

section Defeq

variable {env : Env}

theorem regular_compareSpends {compare : Ctx → Expr → Expr → Spending Error Bool}
    (hcompare : ∀ ctx lhs rhs,
      Spending.Regular (.resourceLimit .conversion) (compare ctx lhs rhs))
    (ctx : Ctx) (lhs rhs : Expr) :
    Spending.Regular (.resourceLimit .conversion) (compareSpends compare ctx lhs rhs) := by
  unfold compareSpends
  split
  next => exact Spending.regular_done _
  next => exact Spending.regular_done _
  next => exact Spending.regular_done _
  next => exact Spending.regular_both (hcompare _ _ _) (hcompare _ _ _)
  next => exact Spending.regular_both (hcompare _ _ _) (hcompare _ _ _)
  next => exact Spending.regular_both (hcompare _ _ _) (hcompare _ _ _)
  next => exact Spending.regular_done _

theorem regular_defeqSpendsWithin (depth : Nat) (ctx : Ctx) (lhs rhs : Expr) :
    Spending.Regular (.resourceLimit .conversion) (DefeqSpendsWithin env depth ctx lhs rhs) := by
  induction depth generalizing ctx lhs rhs with
  | zero => exact ⟨fun h => h.elim, fun h => h.elim, fun h => h.elim, fun h => h.elim⟩
  | succ depth ih =>
    refine Spending.regular_bind Spending.regular_spend fun _ => ?_
    split
    · exact Spending.regular_done _
    · refine Spending.regular_bind (regular_whnfSpends _ _) fun lhs => ?_
      exact Spending.regular_bind (regular_whnfSpends _ _) fun rhs =>
        regular_compareSpends ih ctx lhs rhs

variable {r : Result Bool} {lhs rhs : Expr}

theorem compareSpends_mono {compare compare' : Ctx → Expr → Expr → Spending Error Bool}
    (h : ∀ ctx lhs rhs {fuel r left}, compare ctx lhs rhs fuel r left →
      compare' ctx lhs rhs fuel r left) {ctx : Ctx} {fuel : Nat}
    {left : Nat} (found : compareSpends compare ctx lhs rhs fuel r left) :
    compareSpends compare' ctx lhs rhs fuel r left := by
  unfold compareSpends at found ⊢
  split at found
  next => exact found
  next => exact found
  next => exact found
  next => exact Spending.both_mono (h _ _ _) (h _ _ _) found
  next => exact Spending.both_mono (h _ _ _) (h _ _ _) found
  next => exact Spending.both_mono (h _ _ _) (h _ _ _) found
  next => exact found

theorem defeqBodySpends_mono {compare compare' : Ctx → Expr → Expr → Spending Error Bool}
    (h : ∀ ctx lhs rhs {fuel r left}, compare ctx lhs rhs fuel r left →
      compare' ctx lhs rhs fuel r left) {ctx : Ctx} {fuel : Nat}
    {left : Nat} (found : defeqBodySpends env compare ctx lhs rhs fuel r left) :
    defeqBodySpends env compare' ctx lhs rhs fuel r left := by
  unfold defeqBodySpends at found ⊢
  refine Spending.bind_mono (fun spent => spent) (fun _ {fuel r left} => ?_) found
  split
  · exact fun done => done
  · exact fun rest => Spending.bind_mono (fun way => way)
      (fun _ {_ _ _} rest => Spending.bind_mono (fun way => way)
        (fun _ {_ _ _} compared => compareSpends_mono h compared) rest) rest

theorem defeqSpendsWithin_succ {depth : Nat} {ctx : Ctx} {fuel : Nat}
    {left : Nat} (h : DefeqSpendsWithin env depth ctx lhs rhs fuel r left) :
    DefeqSpendsWithin env (depth + 1) ctx lhs rhs fuel r left := by
  induction depth generalizing ctx lhs rhs fuel r left with
  | zero => exact h.elim
  | succ depth ih => exact defeqBodySpends_mono (fun _ _ _ {_ _ _} => ih) h

theorem defeqSpendsWithin_le {depth depth' : Nat} (le : depth ≤ depth') {ctx : Ctx}
    {fuel : Nat} {left : Nat} (h : DefeqSpendsWithin env depth ctx lhs rhs fuel r left) :
    DefeqSpendsWithin env depth' ctx lhs rhs fuel r left := by
  induction le with
  | refl => exact h
  | step _ ih => exact defeqSpendsWithin_succ ih

theorem regular_defeqSpends (ctx : Ctx) (lhs rhs : Expr) :
    Spending.Regular (.resourceLimit .conversion) (DefeqSpends env ctx lhs rhs) where
  deterministic := by
    rintro fuel r left r' left' ⟨depth, h⟩ ⟨depth', h'⟩
    exact (regular_defeqSpendsWithin (max depth depth') ctx lhs rhs).deterministic
      (defeqSpendsWithin_le (Nat.le_max_left _ _) h) (defeqSpendsWithin_le (Nat.le_max_right _ _) h')
  le := by
    rintro fuel r left ⟨depth, h⟩
    exact (regular_defeqSpendsWithin depth ctx lhs rhs).le h
  enough := by
    rintro fuel a left ⟨depth, h⟩ other
    exact ⟨depth, (regular_defeqSpendsWithin depth ctx lhs rhs).enough h other⟩
  short := by
    rintro fuel a left ⟨depth, h⟩ other below
    exact ⟨depth, (regular_defeqSpendsWithin depth ctx lhs rhs).short h other below⟩

/-- A comparison is its body, with comparisons for the recursive calls. -/
theorem defeqSpends_of_body {ctx : Ctx} {fuel : Nat}
    {left : Nat} (h : defeqBodySpends env (DefeqSpends env) ctx lhs rhs fuel r left) :
    DefeqSpends env ctx lhs rhs fuel r left := by
  -- the at most two recursive calls are within the greater of their depths
  have both : ∀ {ctx ctx' : Ctx} {lhs lhs' rhs rhs' : Expr} {fuel : Nat} {r : Result Bool}
      {left : Nat}, (DefeqSpends env ctx lhs rhs).both (DefeqSpends env ctx' lhs' rhs') fuel r left →
      ∃ depth, (DefeqSpendsWithin env depth ctx lhs rhs).both
        (DefeqSpendsWithin env depth ctx' lhs' rhs') fuel r left := by
    rintro ctx ctx' lhs lhs' rhs rhs' fuel r left (⟨e, ⟨depth, first⟩, rfl⟩ | ⟨a, m, ⟨depth, first⟩, rest⟩)
    · exact ⟨depth, .inl ⟨e, first, rfl⟩⟩
    · cases a with
      | false => exact ⟨depth, .inr ⟨false, m, first, rest⟩⟩
      | true =>
        obtain ⟨depth', rest⟩ := rest
        exact ⟨max depth depth', .inr ⟨true, m, defeqSpendsWithin_le (Nat.le_max_left _ _) first,
          defeqSpendsWithin_le (Nat.le_max_right _ _) rest⟩⟩
  have compared : ∀ {ctx : Ctx} {lhs rhs : Expr} {fuel : Nat} {r : Result Bool} {left : Nat},
      compareSpends (DefeqSpends env) ctx lhs rhs fuel r left →
      ∃ depth, compareSpends (DefeqSpendsWithin env depth) ctx lhs rhs fuel r left := by
    intro ctx lhs rhs fuel r left h
    unfold compareSpends at h ⊢
    split at h
    next => exact ⟨0, h⟩
    next => exact ⟨0, h⟩
    next => exact ⟨0, h⟩
    next => exact both h
    next => exact both h
    next => exact both h
    next => exact ⟨0, h⟩
  rcases h with ⟨e, spent, rfl⟩ | ⟨u, m, spent, h⟩
  · exact ⟨1, .inl ⟨e, spent, rfl⟩⟩
  · by_cases quick : quickSyntacticEq lhs rhs = true
    · rw [if_pos quick] at h
      refine ⟨1, .inr ⟨u, m, spent, ?_⟩⟩
      rwa [if_pos quick]
    · rw [if_neg quick] at h
      have rebuild : ∀ depth, ((WhnfSpends env ctx .conversion lhs).bind fun lhs =>
          (WhnfSpends env ctx .conversion rhs).bind fun rhs =>
            compareSpends (DefeqSpendsWithin env depth) ctx lhs rhs) m r left →
          DefeqSpends env ctx lhs rhs fuel r left := by
        intro depth inner
        refine ⟨depth + 1, .inr ⟨u, m, spent, ?_⟩⟩
        rwa [if_neg quick]
      rcases h with ⟨e, way, rfl⟩ | ⟨lhsWhnf, m', way, h⟩
      · exact rebuild 0 (.inl ⟨e, way, rfl⟩)
      · rcases h with ⟨e, way', rfl⟩ | ⟨rhsWhnf, m'', way', h⟩
        · exact rebuild 0 (.inr ⟨lhsWhnf, m', way, .inl ⟨e, way', rfl⟩⟩)
        · obtain ⟨depth, h⟩ := compared h
          exact rebuild depth (.inr ⟨lhsWhnf, m', way, .inr ⟨rhsWhnf, m'', way', h⟩⟩)

end Defeq

/-! ### Sessions -/

def SameFuel (s t : Session) : Prop :=
  s.whnfFuel = t.whnfFuel ∧ s.conversionFuel = t.conversionFuel

namespace SameFuel

theorem refl (s : Session) : SameFuel s s := ⟨rfl, rfl⟩

theorem symm {s t : Session} (h : SameFuel s t) : SameFuel t s := ⟨h.1.symm, h.2.symm⟩

theorem trans {s t u : Session} (first : SameFuel s t) (second : SameFuel t u) : SameFuel s u :=
  ⟨first.1.trans second.1, first.2.trans second.2⟩

theorem fuel {s t : Session} (h : SameFuel s t) (kind : ResourceLimitKind) :
    s.fuel kind = t.fuel kind := by
  cases kind with
  | whnf => exact h.1
  | conversion | universeConstraints => exact h.2

theorem setFuel {s t : Session} (h : SameFuel s t) (kind : ResourceLimitKind) (fuel : Nat) :
    SameFuel (s.setFuel kind fuel) (t.setFuel kind fuel) := by
  cases kind with
  | whnf => exact ⟨rfl, h.2⟩
  | conversion | universeConstraints => exact ⟨h.1, rfl⟩

theorem setFuel_fuel (s : Session) (kind : ResourceLimitKind) :
    SameFuel s (s.setFuel kind (s.fuel kind)) := by
  cases kind <;> exact ⟨rfl, rfl⟩

end SameFuel

@[simp] theorem Session.fuel_setFuel (s : Session) (kind : ResourceLimitKind) (fuel : Nat) :
    (s.setFuel kind fuel).fuel kind = fuel := by
  cases kind <;> rfl

@[simp] theorem Session.setFuel_setFuel (s : Session) (kind : ResourceLimitKind) (a b : Nat) :
    (s.setFuel kind a).setFuel kind b = s.setFuel kind b := by
  cases kind <;> rfl

/-- The entries are results of the computations they stand for, with their cost. -/
structure Faithful (env : Env) (memo : Memo) : Prop where
  whnf : ∀ entry ∈ memo.whnf,
    ReducesTo env entry.key.context entry.key.expr entry.fuelCost entry.result
  defeq : ∀ entry ∈ memo.defeq, ∃ fuel left,
    DefeqSpends env entry.key.context entry.key.lhs entry.key.rhs fuel (.ok true) left ∧
      entry.fuelCost = fuel - left

def FaithfulSession (env : Env) (session : Session) : Prop :=
  ∀ memo, session.memo = some memo → Faithful env memo

/-! ### Runs that do what a `Spending` says -/

/-- From a session with a faithful memo and fuel as in `pre`, the run returns and leaves what
    `spec` says, whatever the memo answers, touches no other fuel and keeps the memo faithful. -/
def Realises (env : Env) (kind : ResourceLimitKind) (pre : Nat → Prop) {α : Type} (run : Op α)
    (spec : Spending Error α) : Prop :=
  ∀ s, FaithfulSession env s → pre (s.fuel kind) → ∃ left,
    spec (s.fuel kind) (run s).1 left ∧ SameFuel (run s).2 (s.setFuel kind left) ∧
      FaithfulSession env (run s).2

section Realises

variable {env : Env} {kind : ResourceLimitKind} {pre : Nat → Prop} {α β : Type}

theorem FaithfulSession.setFuel {s : Session} (h : FaithfulSession env s) (fuel : Nat) :
    FaithfulSession env (s.setFuel kind fuel) := by
  intro memo hmemo
  rw [Session.setFuel_memo] at hmemo
  exact h memo hmemo

theorem Realises.mono {run : Op α} {spec spec' : Spending Error α} {pre' : Nat → Prop}
    (h : Realises env kind pre run spec) (weaken : ∀ fuel, pre' fuel → pre fuel)
    (imp : ∀ fuel r left, pre' fuel → spec fuel r left → spec' fuel r left) :
    Realises env kind pre' run spec' := by
  intro s hs hpre
  obtain ⟨left, found, same, kept⟩ := h s hs (weaken _ hpre)
  exact ⟨left, imp _ _ _ hpre found, same, kept⟩

theorem realises_lift (x : Result α) : Realises env kind pre (Run.lift x) (.done x) := by
  intro s hs _
  exact ⟨s.fuel kind, ⟨rfl, rfl⟩, SameFuel.setFuel_fuel s kind, hs⟩

theorem realises_pure (a : α) : Realises env kind pre (pure a) (.done (.ok a)) :=
  realises_lift (.ok a)

variable {P : Spending Error α}

theorem realises_bind {x : Op α} {f : α → Op β} {Q : α → Spending Error β}
    (hx : Realises env kind pre x P)
    (hf : ∀ a, Realises env kind (fun middle => ∃ fuel, pre fuel ∧ P fuel (.ok a) middle) (f a)
      (Q a)) :
    Realises env kind pre (x >>= f) (P.bind Q) := by
  intro s hs hpre
  obtain ⟨middle, first, same, kept⟩ := hx s hs hpre
  have run : (x >>= f) s = Run.bind x f s := rfl
  rw [run, Run.bind]
  rcases hfirst : x s with ⟨_ | a, t⟩
  next e =>
    rw [hfirst] at first same kept
    exact ⟨middle, .inl ⟨e, first, rfl⟩, same, kept⟩
  next =>
    rw [hfirst] at first same kept
    have supply : t.fuel kind = middle := by
      rw [same.fuel kind, Session.fuel_setFuel]
    obtain ⟨left, rest, same', kept'⟩ := hf a t kept ⟨_, hpre, supply ▸ first⟩
    refine ⟨left, .inr ⟨a, middle, first, supply ▸ rest⟩, same'.trans ?_, kept'⟩
    have both := same.setFuel kind left
    rwa [Session.setFuel_setFuel] at both

/-- A step that neither spends nor looks at the session. -/
theorem realises_lift_bind {x : Result α} {f : α → Op β} {P : Spending Error β}
    (failed : ∀ e fuel, x = .error e → pre fuel → P fuel (.error e) fuel)
    (h : ∀ a, x = .ok a → Realises env kind pre (f a) P) :
    Realises env kind pre (Run.lift x >>= f) P := by
  intro s hs hpre
  cases x with
  | error e => exact ⟨s.fuel kind, failed e _ rfl hpre, SameFuel.setFuel_fuel s kind, hs⟩
  | ok a => exact h a rfl s hs hpre

/-- A value at no cost. -/
theorem realises_value {a : α}
    (h : ∀ fuel, pre fuel → P fuel (.ok a) fuel) : Realises env kind pre (pure a) P := by
  intro s hs hpre
  exact ⟨s.fuel kind, h _ hpre, SameFuel.setFuel_fuel s kind, hs⟩

/-- A look at the session tells the fuel. -/
theorem realises_get {f : Session → Op α}
    (h : ∀ session, Realises env kind (fun fuel => pre fuel ∧ fuel = session.fuel kind)
      (f session) P) :
    Realises env kind pre (Run.get >>= f) P := by
  intro s hs hpre
  exact h s s hs ⟨hpre, rfl⟩

theorem spendFuel_realises :
    Realises env kind pre (spendFuel kind) (.spend (.resourceLimit kind)) := by
  intro s hs _
  have run : spendFuel kind s = if s.fuel kind = 0 then (.error (.resourceLimit kind), s)
      else (.ok (), s.setFuel kind (s.fuel kind - 1)) := by
    simp only [spendFuel]
    by_cases empty : s.fuel kind = 0
    · simp [empty, Run.get, Run.fail, Bind.bind, Run.bind]
    · simp [empty, Run.get, Run.modify, Bind.bind, Run.bind]
  rw [run]
  split
  next empty =>
    have unchanged := SameFuel.setFuel_fuel s kind
    rw [empty] at unchanged ⊢
    exact ⟨0, .inl ⟨rfl, rfl, rfl⟩, unchanged, hs⟩
  next some =>
    exact ⟨s.fuel kind - 1, .inr ⟨by omega, rfl⟩, SameFuel.refl _, hs.setFuel _⟩

/-- A unit is spent before the rest, which is judged from the fuel before it. -/
theorem realises_spend {rest : Op α} (h : Realises env kind (fun middle => pre (middle + 1)) rest
      fun middle r left => P (middle + 1) r left)
    (exhausted : pre 0 → P 0 (.error (.resourceLimit kind)) 0) :
    Realises env kind pre (do spendFuel kind; rest) P := by
  refine (realises_bind spendFuel_realises fun _ => h.mono ?_ fun _ _ _ _ found => found).mono
    (fun _ hpre => hpre) ?_
  · rintro middle ⟨fuel, hpre, ⟨_, failed, _⟩ | ⟨rfl, _⟩⟩
    · cases failed
    · exact hpre
  · rintro fuel r left hpre (⟨e, ⟨rfl, failed, rfl⟩ | ⟨_, failed⟩, rfl⟩ |
      ⟨_, middle, ⟨_, failed, _⟩ | ⟨rfl, _⟩, found⟩)
    · cases failed
      exact exhausted hpre
    · cases failed
    · cases failed
    · exact found

/-- The whole cost at once, or the end of the supply. -/
def replaySpends (kind : ResourceLimitKind) (fuelCost : Nat) : Spending Error Unit :=
  fun fuel r left => (fuel < fuelCost ∧ r = .error (.resourceLimit kind) ∧ left = 0) ∨
    (fuel = left + fuelCost ∧ r = .ok ())

theorem replayMemoFuel_realises (fuelCost : Nat) :
    Realises env kind pre (replayMemoFuel kind fuelCost) (replaySpends kind fuelCost) := by
  intro s hs _
  have run : replayMemoFuel kind fuelCost s =
      if s.fuel kind < fuelCost then (.error (.resourceLimit kind), s.setFuel kind 0)
      else (.ok (), s.setFuel kind (s.fuel kind - fuelCost)) := by
    simp only [replayMemoFuel]
    by_cases short : s.fuel kind < fuelCost
    · simp [short, Run.get, Run.fail, Run.modify, Bind.bind, Run.bind]
    · simp [short, Run.get, Run.modify, Bind.bind, Run.bind]
  rw [run]
  split
  next short => exact ⟨0, .inl ⟨short, rfl, rfl⟩, SameFuel.refl _, hs.setFuel _⟩
  next enough =>
    exact ⟨s.fuel kind - fuelCost, .inr ⟨by omega, rfl⟩, SameFuel.refl _, hs.setFuel _⟩

/-- The run succeeds with a value that has the property and costs nothing. -/
def freeSpends (Q : α → Prop) : Spending Error α := fun fuel r left =>
  left = fuel ∧ ∃ a, r = .ok a ∧ Q a

theorem memoIdentity_realises (layout : Layout) (eligible : Bool) :
    Realises env kind pre (memoIdentity layout eligible)
      (freeSpends fun found => Faithful env found.2) := by
  have none_faithful : Faithful env ⟨0, [], []⟩ := ⟨by simp, by simp⟩
  intro s hs _
  have unchanged := SameFuel.setFuel_fuel s kind
  cases hmemo : s.memo with
  | none =>
    have run : memoIdentity layout eligible s = (.ok (.ineligible, ⟨0, [], []⟩), s) := by
      simp [memoIdentity, hmemo, Run.get, Bind.bind, Run.bind]
    rw [run]
    exact ⟨_, ⟨rfl, _, rfl, none_faithful⟩, unchanged, hs⟩
  | some memo =>
    have entries := hs memo hmemo
    cases eligible with
    | false =>
      have run : memoIdentity layout false s = (.ok (.ineligible, memo), s) := by
        simp [memoIdentity, hmemo, Run.get, Bind.bind, Run.bind]
      rw [run]
      exact ⟨_, ⟨rfl, _, rfl, entries⟩, unchanged, hs⟩
    | true =>
      have run : memoIdentity layout true s = (.ok (layout.identity memo.clock, memo),
          { s with memo := some { memo with clock := memo.clock + 1 } }) := by
        simp [memoIdentity, hmemo, Run.get, Run.modify, Bind.bind, Run.bind]
      rw [run]
      refine ⟨_, ⟨rfl, _, rfl, entries⟩, unchanged, ?_⟩
      rintro _ ⟨⟩
      exact ⟨entries.whnf, entries.defeq⟩

theorem realises_free_bind {x : Op α} {f : α → Op β} {Q : α → Prop} {P : Spending Error β}
    (hx : Realises env kind pre x (freeSpends Q))
    (hf : ∀ a, Q a → Realises env kind pre (f a) P) : Realises env kind pre (x >>= f) P := by
  have spec : ∀ a, Realises env kind
      (fun middle => ∃ fuel, pre fuel ∧ freeSpends Q fuel (.ok a) middle) (f a)
      (fun fuel r left => Q a ∧ P fuel r left) := by
    rintro a s hs ⟨fuel, hpre, rfl, _, ⟨⟩, ha⟩
    obtain ⟨left, found, rest⟩ := hf a ha s hs hpre
    exact ⟨left, ⟨ha, found⟩, rest⟩
  refine (realises_bind hx spec).mono (fun _ h => h) ?_
  rintro fuel r left _ (⟨e, ⟨_, _, failed, _⟩, _⟩ | ⟨a, middle, ⟨rfl, _⟩, _, found⟩)
  · cases failed
  · exact found

theorem whnfLookup_realises (layout : Layout) (origin : MemoExprOrigin) (key : WhnfMemoKey) :
    Realises env kind pre (whnfLookup layout origin key) (freeSpends fun found =>
      ∀ entry, found = .hit entry →
        ReducesTo env key.context key.expr entry.fuelCost entry.result) := by
  have noHit : ∀ found : MemoLookup WhnfMemoEntry, (∀ entry, found ≠ .hit entry) →
      Realises env kind pre (pure found) (freeSpends fun found => ∀ entry, found = .hit entry →
        ReducesTo env key.context key.expr entry.fuelCost entry.result) := by
    intro found other s hs _
    exact ⟨_, ⟨rfl, found, rfl, fun entry hit => absurd hit (other entry)⟩,
      SameFuel.setFuel_fuel s kind, hs⟩
  refine realises_free_bind (memoIdentity_realises layout _) ?_
  rintro ⟨identity, memo⟩ entries
  cases identity with
  | ineligible => exact noHit _ fun _ h => nomatch h
  | miss => exact noHit _ fun _ h => nomatch h
  | entry index =>
    dsimp only
    split
    next => exact noHit _ fun _ h => nomatch h
    next stored hstored =>
      split
      next same =>
        intro s hs _
        refine ⟨_, ⟨rfl, _, rfl, ?_⟩, SameFuel.setFuel_fuel s kind, hs⟩
        rintro entry ⟨⟩
        rw [← same]
        exact entries.whnf _ (List.mem_of_getElem? hstored)
      next => exact noHit _ fun _ h => nomatch h

theorem defeqLookup_realises (layout : Layout) (lhsOrigin rhsOrigin : MemoExprOrigin)
    (key : DefeqMemoKey) :
    Realises env kind pre (defeqLookup layout lhsOrigin rhsOrigin key) (freeSpends fun found =>
      ∀ entry, found = .hit entry → ∃ fuel left,
        DefeqSpends env key.context key.lhs key.rhs fuel (.ok true) left ∧
          entry.fuelCost = fuel - left) := by
  have noHit : ∀ found : MemoLookup DefeqMemoEntry, (∀ entry, found ≠ .hit entry) →
      Realises env kind pre (pure found) (freeSpends fun found => ∀ entry, found = .hit entry →
        ∃ fuel left, DefeqSpends env key.context key.lhs key.rhs fuel (.ok true) left ∧
          entry.fuelCost = fuel - left) := by
    intro found other s hs _
    exact ⟨_, ⟨rfl, found, rfl, fun entry hit => absurd hit (other entry)⟩,
      SameFuel.setFuel_fuel s kind, hs⟩
  refine realises_free_bind (memoIdentity_realises layout _) ?_
  rintro ⟨identity, memo⟩ entries
  cases identity with
  | ineligible => exact noHit _ fun _ h => nomatch h
  | miss => exact noHit _ fun _ h => nomatch h
  | entry index =>
    dsimp only
    split
    next => exact noHit _ fun _ h => nomatch h
    next stored hstored =>
      split
      next same =>
        intro s hs _
        refine ⟨_, ⟨rfl, _, rfl, ?_⟩, SameFuel.setFuel_fuel s kind, hs⟩
        rintro entry ⟨⟩
        rw [← same]
        exact entries.defeq _ (List.mem_of_getElem? hstored)
      next => exact noHit _ fun _ h => nomatch h

theorem insertMemo_realises (layout : Layout) (fuelCost : Nat) {insert : Memo → Memo}
    (h : ∀ memo, Faithful env memo → Faithful env (insert memo)) :
    Realises env kind pre (insertMemo layout fuelCost insert) (.done (.ok ())) := by
  intro s hs _
  refine ⟨s.fuel kind, ⟨rfl, rfl⟩, ?_, ?_⟩
  · have unchanged := SameFuel.setFuel_fuel s kind
    simp only [insertMemo, Run.modify]
    split
    · exact unchanged
    · split
      · exact unchanged
      · exact unchanged
  · simp only [insertMemo, Run.modify]
    split
    · exact hs
    next memo hmemo =>
      split
      · exact hs
      · rintro _ ⟨⟩
        have kept := h memo (hs memo hmemo)
        exact ⟨kept.whnf, kept.defeq⟩

theorem insertWhnf_realises (layout : Layout) {key : WhnfMemoKey} {result : Expr} {fuelCost : Nat}
    (h : ReducesTo env key.context key.expr fuelCost result) :
    Realises env kind pre (insertWhnf layout key result fuelCost) (.done (.ok ())) := by
  refine insertMemo_realises layout _ fun memo entries => ⟨?_, entries.defeq⟩
  intro entry hentry
  rcases List.mem_cons.mp hentry with rfl | hentry
  · exact h
  · exact entries.whnf entry hentry

theorem insertDefeq_realises (layout : Layout) {key : DefeqMemoKey} {fuel left : Nat}
    (h : DefeqSpends env key.context key.lhs key.rhs fuel (.ok true) left) :
    Realises env kind pre (insertDefeq layout key (fuel - left)) (.done (.ok ())) := by
  refine insertMemo_realises layout _ fun memo entries => ⟨entries.whnf, ?_⟩
  intro entry hentry
  rcases List.mem_cons.mp hentry with rfl | hentry
  · exact ⟨fuel, left, h, rfl⟩
  · exact entries.defeq entry hentry

end Realises

end NpaCore.Kernel
