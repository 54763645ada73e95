import NpaCore.Kernel.WhnfReplay

/-!
# Evaluation to weak head normal form

Weak head reduction as a relation between a term, what the reduction costs and the
form it comes to, with one rule for each way in which the machine treats a term.
What is proved of weak head normal forms is proved by induction on this relation.

## Main results

- `reducesTo_iff`: evaluation is what the machine does.
- `Env.whnfWithFuel_eq_ok`: `whnf` succeeds exactly when the fuel covers the cost.
-/

namespace NpaCore.Kernel

open NpaCore.Expr

def IsLam : Expr → Prop
  | .lam _ _ _ => True
  | _ => False

/-- The term comes to the form at the end, and the machine pays that many steps. -/
inductive Evaluates (env : Env) (ctx : Ctx) : Expr → Nat → Expr → Prop
  | sort {level} : Evaluates env ctx (.sort level) 1 (.sort level)
  | lam {binder ty body} : Evaluates env ctx (.lam binder ty body) 1 (.lam binder ty body)
  | pi {binder ty body} : Evaluates env ctx (.pi binder ty body) 1 (.pi binder ty body)
  | bvar {index} (bound : ctx.ensureBound index = .ok ()) :
      Evaluates env ctx (.bvar index) 1 (.bvar index)
  | const {name levels} (stuck : unfoldDefinition env name levels = none) :
      Evaluates env ctx (.const name levels) 1 (.const name levels)
  | delta {name levels value k result} (unfolds : unfoldDefinition env name levels = some value)
      (rest : Evaluates env ctx value k result) :
      Evaluates env ctx (.const name levels) (1 + k) result
  | beta {fn arg binder ty body current j k result}
      (function : Evaluates env ctx fn j (.lam binder ty body))
      (instantiated : Expr.instantiate body arg = .ok current)
      (rest : Evaluates env ctx current k result) :
      Evaluates env ctx (.app fn arg) (1 + j + k) result
  | neutral {fn arg value j} (function : Evaluates env ctx fn j value) (other : ¬ IsLam value)
      (stuck : resolveRecursor env (.app value arg) = none) :
      Evaluates env ctx (.app fn arg) (1 + j) (.app value arg)
  | iota {fn arg value inductiveName rules major majorWhnf reduced j k l result}
      (function : Evaluates env ctx fn j value) (other : ¬ IsLam value)
      (resolved : resolveRecursor env (.app value arg) = some (inductiveName, rules, major))
      (premise : Evaluates env ctx major k majorWhnf)
      (finished : finishRecursorReduction env (.app value arg) inductiveName rules majorWhnf =
        .ok (some reduced))
      (rest : Evaluates env ctx reduced l result) :
      Evaluates env ctx (.app fn arg) (1 + j + (k + l)) result
  | blocked {fn arg value inductiveName rules major majorWhnf j k}
      (function : Evaluates env ctx fn j value) (other : ¬ IsLam value)
      (resolved : resolveRecursor env (.app value arg) = some (inductiveName, rules, major))
      (premise : Evaluates env ctx major k majorWhnf)
      (finished : finishRecursorReduction env (.app value arg) inductiveName rules majorWhnf =
        .ok none) :
      Evaluates env ctx (.app fn arg) (1 + j + k) (.app value arg)

variable {env : Env} {ctx : Ctx}

/-! ### From evaluation to the machine -/

variable {frames : List ReductionFrame}

theorem applyMove_of_not_lam {argument value : Expr} (other : ¬ IsLam value) :
    applyMove env argument value frames =
      match resolveRecursor env (.app value argument) with
      | some (inductiveName, rules, major) =>
        .next ⟨.reduce major, .recursorMajor (.app value argument) inductiveName rules :: frames⟩
      | none => .next ⟨.complete (.app value argument), frames⟩ := by
  cases value with
  | lam _ _ _ => exact absurd trivial other
  | sort _ | bvar _ | const _ _ | app _ _ | pi _ _ _ => rfl

theorem reaches_completed (value : Expr) (below : List ReductionFrame) :
    (reductionMachine env ctx).Reaches ⟨.complete value, below⟩ 0 ⟨.resume value, below⟩ :=
  .step rfl (.refl _)

/-- One paid step to a state from which the machine goes on. -/
theorem reaches_reduce {term : Expr} {below : List ReductionFrame} {next last : ReductionState}
    {k : Nat} (move : reduceMove env ctx term below = .next next)
    (rest : (reductionMachine env ctx).Reaches next k last) :
    (reductionMachine env ctx).Reaches ⟨.reduce term, below⟩ (1 + k) last :=
  .step move rest

theorem reaches_resume {value : Expr} {next last : ReductionState}
    {k : Nat} (move : resumeMove env value frames = .next next)
    (rest : (reductionMachine env ctx).Reaches next k last) :
    (reductionMachine env ctx).Reaches ⟨.resume value, frames⟩ k last := by
  rw [← Nat.zero_add k]
  exact .step move rest

theorem reaches_major {value arg major : Expr} {inductiveName : String} {rules : RecursorRules}
    {below : List ReductionFrame} {last : ReductionState} {k : Nat} (other : ¬ IsLam value)
    (resolved : resolveRecursor env (.app value arg) = some (inductiveName, rules, major))
    (rest : (reductionMachine env ctx).Reaches
      ⟨.reduce major, .recursorMajor (.app value arg) inductiveName rules :: below⟩ k last) :
    (reductionMachine env ctx).Reaches ⟨.resume value, .apply arg :: below⟩ k last := by
  refine reaches_resume ?_ rest
  simp only [resumeMove, applyMove_of_not_lam other, resolved]

theorem Evaluates.reaches {term value : Expr} {cost : Nat} (h : Evaluates env ctx term cost value)
    (below : List ReductionFrame) :
    (reductionMachine env ctx).Reaches ⟨.reduce term, below⟩ cost ⟨.resume value, below⟩ := by
  induction h generalizing below with
  | sort | lam | pi => exact reaches_reduce rfl (reaches_completed _ _)
  | bvar bound =>
    refine reaches_reduce ?_ (reaches_completed _ _)
    exact nextOrFail_eq_next.mpr ⟨(), bound, rfl⟩
  | const stuck =>
    refine reaches_reduce ?_ (reaches_completed _ _)
    simp only [reduceMove, stuck]
  | delta unfolds _ ih =>
    refine reaches_reduce ?_ (ih below)
    simp only [reduceMove, unfolds]
  | @beta fn arg _ _ _ _ _ _ _ _ instantiated _ ihFn ih =>
    rw [Nat.add_assoc]
    refine reaches_reduce rfl ((ihFn (.apply arg :: below)).trans ?_)
    exact reaches_resume (nextOrFail_eq_next.mpr ⟨_, instantiated, rfl⟩) (ih below)
  | @neutral fn arg _ _ _ other stuck ihFn =>
    refine reaches_reduce rfl ((ihFn (.apply arg :: below)).trans (k := _) (l := 0) ?_)
    refine reaches_resume ?_ (reaches_completed _ _)
    simp only [resumeMove, applyMove_of_not_lam other, stuck]
  | @iota fn arg _ _ _ _ _ _ _ _ _ _ _ other resolved _ finished _ ihFn ihMajor ih =>
    rw [Nat.add_assoc]
    refine reaches_reduce rfl ((ihFn (.apply arg :: below)).trans ?_)
    refine reaches_major other resolved ((ihMajor _).trans ?_)
    refine reaches_resume ?_ (ih below)
    exact nextOrFail_eq_next.mpr ⟨_, finished, rfl⟩
  | @blocked fn arg _ _ _ _ _ _ _ _ other resolved _ finished ihFn ihMajor =>
    rw [Nat.add_assoc]
    refine reaches_reduce rfl ((ihFn (.apply arg :: below)).trans ?_)
    refine reaches_major other resolved ((ihMajor _).trans (l := 0) ?_)
    refine reaches_resume ?_ (reaches_completed _ _)
    exact nextOrFail_eq_next.mpr ⟨_, finished, rfl⟩

/-! ### From the machine to evaluation -/

/-- What is left of an application when its function has come to a value. -/
def AppliesTo (env : Env) (ctx : Ctx) (value arg : Expr) (cost : Nat) (result : Expr) : Prop :=
  ∀ fn j, Evaluates env ctx fn j value → Evaluates env ctx (.app fn arg) (1 + j + cost) result

/-- What is left of an application of a recursor when the major premise has come to a value. -/
def FinishesTo (env : Env) (ctx : Ctx) (application : Expr) (inductiveName : String)
    (rules : RecursorRules) (majorWhnf : Expr) (cost : Nat) (result : Expr) : Prop :=
  ∀ fn arg value major j k, application = .app value arg → Evaluates env ctx fn j value →
    ¬ IsLam value → resolveRecursor env application = some (inductiveName, rules, major) →
    Evaluates env ctx major k majorWhnf →
    Evaluates env ctx (.app fn arg) (1 + j + (k + cost)) result

/-- The frames hand a value on until the last one returns. -/
inductive Unwinds (env : Env) (ctx : Ctx) : List ReductionFrame → Expr → Nat → Expr → Prop
  | nil {value} : Unwinds env ctx [] value 0 value
  | apply {arg frames value middle result j k} (here : AppliesTo env ctx value arg j middle)
      (rest : Unwinds env ctx frames middle k result) :
      Unwinds env ctx (.apply arg :: frames) value (j + k) result
  | recursorMajor {application inductiveName rules frames value middle result j k}
      (here : FinishesTo env ctx application inductiveName rules value j middle)
      (rest : Unwinds env ctx frames middle k result) :
      Unwinds env ctx (.recursorMajor application inductiveName rules :: frames) value (j + k)
        result

/-- What the machine still does from a state, as evaluation. -/
def Continues (env : Env) (ctx : Ctx) (result : Expr) : ReductionState → Nat → Prop
  | ⟨.reduce current, frames⟩, cost => ∃ value j k, Evaluates env ctx current j value ∧
      Unwinds env ctx frames value k result ∧ cost = j + k
  | ⟨.complete value, frames⟩, cost => Unwinds env ctx frames value cost result
  | ⟨.resume value, frames⟩, cost => Unwinds env ctx frames value cost result

theorem continues_applied {value arg current result : Expr}
    {cost : Nat} (applies : ∀ j middle, Evaluates env ctx current j middle →
      AppliesTo env ctx value arg j middle)
    (rest : Continues env ctx result ⟨.reduce current, frames⟩ cost) :
    Unwinds env ctx (.apply arg :: frames) value cost result := by
  obtain ⟨middle, j, k, evaluates, unwinds, rfl⟩ := rest
  exact .apply (applies j middle evaluates) unwinds

/-- One step back: what continues from the next state continues from this one. -/
theorem continues_step {state next : ReductionState} {result : Expr} {cost : Nat}
    (move : reductionMove env ctx state = .next next)
    (rest : Continues env ctx result next cost) :
    Continues env ctx result state ((reductionMachine env ctx).cost state + cost) := by
  obtain ⟨control, frames⟩ := state
  cases control with
  | reduce current =>
    have paid : (reductionMachine env ctx).cost ⟨.reduce current, frames⟩ = 1 := rfl
    rw [paid]
    cases current with
    | bvar index =>
      obtain ⟨_, bound, rfl⟩ := nextOrFail_eq_next.mp move
      exact ⟨_, 1, cost, .bvar bound, rest, rfl⟩
    | const name levels =>
      simp only [reductionMove, reduceMove] at move
      split at move
      next value unfolds =>
        cases move
        obtain ⟨result, j, k, evaluates, unwinds, rfl⟩ := rest
        exact ⟨result, 1 + j, k, .delta unfolds evaluates, unwinds, (Nat.add_assoc 1 j k).symm⟩
      next stuck =>
        cases move
        exact ⟨_, 1, cost, .const stuck, rest, rfl⟩
    | app fn arg =>
      -- the frame that the step has pushed is the first one to be unwound
      cases move
      obtain ⟨value, j, _, evaluates, unwinds, rfl⟩ := rest
      cases unwinds with
      | @apply _ _ _ middle _ i k here unwinds =>
        exact ⟨middle, 1 + j + i, k, here fn j evaluates, unwinds, by omega⟩
    | sort _ =>
      cases move
      exact ⟨_, 1, cost, .sort, rest, rfl⟩
    | lam _ _ _ =>
      cases move
      exact ⟨_, 1, cost, .lam, rest, rfl⟩
    | pi _ _ _ =>
      cases move
      exact ⟨_, 1, cost, .pi, rest, rfl⟩
  | complete value =>
    cases move
    rw [show (reductionMachine env ctx).cost ⟨.complete value, frames⟩ = 0 from rfl, Nat.zero_add]
    exact rest
  | resume value =>
    rw [cost_resume, Nat.zero_add]
    cases frames with
    | nil => cases move
    | cons frame frames =>
      cases frame with
      | apply arg =>
        simp only [reductionMove, resumeMove] at move
        cases value with
        | lam binder ty body =>
          obtain ⟨current, instantiated, rfl⟩ := nextOrFail_eq_next.mp move
          exact continues_applied
            (fun j middle evaluates fn i function => .beta function instantiated evaluates) rest
        | sort _ | bvar _ | const _ _ | app _ _ | pi _ _ _ =>
          -- no lambda: a recursor goes on with its major premise, all else is neutral
          rw [applyMove_of_not_lam (by exact fun h => h)] at move
          split at move
          next inductiveName rules major resolved =>
            cases move
            obtain ⟨majorWhnf, j, _, evaluates, unwinds, rfl⟩ := rest
            cases unwinds with
            | @recursorMajor _ _ _ _ _ middle _ i k here unwinds =>
              rw [← Nat.add_assoc]
              refine .apply ?_ unwinds
              intro fn l function
              exact here fn arg _ major l j rfl function (fun h => h) resolved evaluates
          next stuck =>
            cases move
            rw [← Nat.zero_add cost]
            refine .apply ?_ rest
            intro fn j function
            exact .neutral function (fun h => h) stuck
      | recursorMajor application inductiveName rules =>
        simp only [reductionMove, resumeMove] at move
        obtain ⟨found, finished, rfl⟩ := nextOrFail_eq_next.mp move
        cases found with
        | some reduced =>
          obtain ⟨middle, j, k, evaluates, unwinds, rfl⟩ := rest
          refine .recursorMajor ?_ unwinds
          rintro fn arg value major i l rfl function other resolved premise
          exact .iota function other resolved premise finished evaluates
        | none =>
          rw [← Nat.zero_add cost]
          refine .recursorMajor ?_ rest
          rintro fn arg value major i l rfl function other resolved premise
          exact .blocked function other resolved premise finished

theorem continues_of_reaches {state : ReductionState} {cost : Nat} {result : Expr}
    (h : (reductionMachine env ctx).Reaches state cost ⟨.resume result, []⟩) :
    Continues env ctx result state cost := by
  generalize hlast : (⟨.resume result, []⟩ : ReductionState) = last at h
  induction h with
  | refl =>
    subst hlast
    exact .nil
  | step move _ ih => exact continues_step move (ih hlast)

theorem reducesTo_iff {term value : Expr} {cost : Nat} :
    ReducesTo env ctx term cost value ↔ Evaluates env ctx term cost value := by
  constructor
  · intro h
    obtain ⟨_, j, k, evaluates, unwinds, rfl⟩ := continues_of_reaches h
    cases unwinds
    exact evaluates
  · intro h
    exact h.reaches []

/-! ### `whnf` -/

theorem whnfSpends_iff {kind : ResourceLimitKind} {term value : Expr} {fuel left : Nat} :
    WhnfSpends env ctx kind term fuel (.ok value) left ↔
      ∃ cost, fuel = cost + left ∧ Evaluates env ctx term cost value := by
  constructor
  · intro h
    obtain ⟨reduces, le⟩ := h.reducesTo
    exact ⟨fuel - left, by omega, reducesTo_iff.mp reduces⟩
  · rintro ⟨cost, rfl, evaluates⟩
    have last : (reductionMachine env ctx).Finishes (.resourceLimit kind) ⟨.resume value, []⟩
        (0 + left) (.ok value) left := .done rfl
    have finished := (evaluates.reaches []).finishes last
    rwa [Nat.zero_add] at finished

theorem Evaluates.deterministic {term value value' : Expr} {cost cost' : Nat}
    (h : Evaluates env ctx term cost value) (h' : Evaluates env ctx term cost' value') :
    value = value' ∧ cost = cost' := by
  have first : WhnfSpends env ctx .whnf term (cost + cost') (.ok value) cost' :=
    whnfSpends_iff.mpr ⟨cost, rfl, h⟩
  have second : WhnfSpends env ctx .whnf term (cost + cost') (.ok value') cost :=
    whnfSpends_iff.mpr ⟨cost', Nat.add_comm cost cost', h'⟩
  obtain ⟨same, left⟩ := (regular_whnfSpends .whnf term).deterministic first second
  cases same
  exact ⟨rfl, left.symm⟩

theorem faithful_newSession (env : Env) (whnfFuel conversionFuel : Nat) :
    FaithfulSession env (env.newSession whnfFuel conversionFuel) := by
  intro memo hmemo
  simp only [Env.newSession] at hmemo
  cases options : env.executionOptions with
  | ephemeralMemo =>
    rw [options] at hmemo
    cases hmemo
    exact ⟨by simp, by simp⟩
  | memoOff | repetitionProbe =>
    rw [options] at hmemo
    cases hmemo

theorem Env.whnfWithFuel_eq_ok {alloc : Allocator} {delta : List String} {term value : Expr}
    {fuel : Nat} :
    env.whnfWithFuel alloc ctx delta term fuel = .ok value ↔
      ∃ cost ≤ fuel, Evaluates env ctx term cost value := by
  have realised : Realises env .whnf (fun _ => True)
      (whnfMachine env (alloc ctx [term]) ctx delta .whnf .borrowed term)
      (WhnfSpends env ctx .whnf term) := whnfMachine_realises .borrowed term
  obtain ⟨left, spends, _⟩ := realised (env.newSession fuel 0) (faithful_newSession env fuel 0) trivial
  change WhnfSpends env ctx .whnf term fuel (env.whnfWithFuel alloc ctx delta term fuel) left at spends
  constructor
  · intro returned
    rw [returned] at spends
    obtain ⟨cost, supply, evaluates⟩ := whnfSpends_iff.mp spends
    exact ⟨cost, by omega, evaluates⟩
  · rintro ⟨cost, le, evaluates⟩
    have enough : WhnfSpends env ctx .whnf term fuel (.ok value) (fuel - cost) :=
      whnfSpends_iff.mpr ⟨cost, by omega, evaluates⟩
    exact ((regular_whnfSpends .whnf term).deterministic spends enough).1

end NpaCore.Kernel
