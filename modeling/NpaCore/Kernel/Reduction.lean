import NpaCore.Lib.Fuel
import NpaCore.Kernel.Whnf

/-!
# Reduction without fuel and memo

What `whnf_machine` does to terms: the same frames and the same steps, without the
calls that the memo records and without the counter of fuel. A step is paid where
the source spends fuel. Everything about the terms that weak head reduction can
reach is proved for this machine.
-/

namespace NpaCore.Kernel

open NpaCore.Expr

inductive ReductionFrame where
  | apply (argument : Expr)
  | recursorMajor (application : Expr) (inductiveName : String) (rules : RecursorRules)

inductive ReductionControl where
  | reduce (current : Expr)
  | complete (value : Expr)
  | resume (value : Expr)

structure ReductionState where
  control : ReductionControl
  frames : List ReductionFrame

abbrev ReductionMove := Move ReductionState Error Expr

/-- Continue with the value of a fallible step. -/
def nextOrFail {α : Type} (x : Result α) (next : α → ReductionState) : ReductionMove :=
  match x with
  | .ok a => .next (next a)
  | .error e => .fail e

section Moves

variable (env : Env) (ctx : Ctx)

def reduceMove (current : Expr) (frames : List ReductionFrame) : ReductionMove :=
  match current with
  | .bvar index => nextOrFail (ctx.ensureBound index) fun _ => ⟨.complete (.bvar index), frames⟩
  | .const name levels =>
    match unfoldDefinition env name levels with
    | some value => .next ⟨.reduce value, frames⟩
    | none => .next ⟨.complete (.const name levels), frames⟩
  | .app fn argument => .next ⟨.reduce fn, .apply argument :: frames⟩
  | current => .next ⟨.complete current, frames⟩

def applyMove (argument value : Expr) (frames : List ReductionFrame) : ReductionMove :=
  match value with
  | .lam _ _ body => nextOrFail (Expr.instantiate body argument) fun current =>
      ⟨.reduce current, frames⟩
  | value =>
    let application := .app value argument
    match resolveRecursor env application with
    | some (inductiveName, rules, major) =>
      .next ⟨.reduce major, .recursorMajor application inductiveName rules :: frames⟩
    | none => .next ⟨.complete application, frames⟩

def resumeMove (value : Expr) : List ReductionFrame → ReductionMove
  | [] => .done value
  | .apply argument :: frames => applyMove env argument value frames
  | .recursorMajor application inductiveName rules :: frames =>
    nextOrFail (finishRecursorReduction env application inductiveName rules value) fun
      | some reduced => ⟨.reduce reduced, frames⟩
      | none => ⟨.complete application, frames⟩

def reductionMove : ReductionState → ReductionMove
  | ⟨.reduce current, frames⟩ => reduceMove env ctx current frames
  | ⟨.complete value, frames⟩ => .next ⟨.resume value, frames⟩
  | ⟨.resume value, frames⟩ => resumeMove env value frames

def reductionMachine : Machine ReductionState Error Expr where
  paid
    | ⟨.reduce _, _⟩ => true
    | _ => false
  move := reductionMove env ctx

/-- The call for a term comes to a value, at that cost. -/
def ReducesTo (term : Expr) (cost : Nat) (value : Expr) : Prop :=
  (reductionMachine env ctx).Reaches ⟨.reduce term, []⟩ cost ⟨.resume value, []⟩

/-- The whole reduction of a term, with fuel of the given kind. -/
def WhnfSpends (kind : ResourceLimitKind) (term : Expr) : Spending Error Expr :=
  (reductionMachine env ctx).Finishes (.resourceLimit kind) ⟨.reduce term, []⟩

end Moves

/-! ### Frames below -/

variable {env : Env} {ctx : Ctx}

def ReductionState.over (state : ReductionState) (below : List ReductionFrame) : ReductionState :=
  ⟨state.control, state.frames ++ below⟩

theorem nextOrFail_eq_next {α : Type} {x : Result α} {next : α → ReductionState}
    {t : ReductionState} : nextOrFail x next = .next t ↔ ∃ a, x = .ok a ∧ t = next a := by
  cases x with
  | ok a => simp [nextOrFail, eq_comm]
  | error e => simp [nextOrFail]

/-- A step only looks at the top frame, so it is the same over other frames. -/
theorem reductionMove_over {s t : ReductionState} (below : List ReductionFrame)
    (h : reductionMove env ctx s = .next t) :
    reductionMove env ctx (s.over below) = .next (t.over below) := by
  obtain ⟨control, frames⟩ := s
  cases control with
  | reduce current =>
    cases current with
    | bvar index =>
      obtain ⟨u, bound, rfl⟩ := nextOrFail_eq_next.mp h
      exact nextOrFail_eq_next.mpr ⟨u, bound, rfl⟩
    | const name levels =>
      simp only [reductionMove, ReductionState.over, reduceMove] at h ⊢
      cases unfolds : unfoldDefinition env name levels with
      | some value =>
        rw [unfolds] at h
        cases h
        rfl
      | none =>
        rw [unfolds] at h
        cases h
        rfl
    | app _ _ | sort _ | lam _ _ _ | pi _ _ _ =>
      cases h
      rfl
  | complete value =>
    cases h
    rfl
  | resume value =>
    cases frames with
    | nil => cases h
    | cons frame frames =>
      simp only [reductionMove, ReductionState.over, List.cons_append] at h ⊢
      cases frame with
      | apply argument =>
        cases value with
        | lam binder ty body =>
          obtain ⟨current, instantiated, rfl⟩ := nextOrFail_eq_next.mp h
          exact nextOrFail_eq_next.mpr ⟨current, instantiated, rfl⟩
        | sort _ | bvar _ | const _ _ | app _ _ | pi _ _ _ =>
          simp only [resumeMove, applyMove] at h ⊢
          split at h
          next resolved =>
            cases h
            rfl
          next stuck =>
            cases h
            rfl
      | recursorMajor application inductiveName rules =>
        simp only [resumeMove] at h ⊢
        obtain ⟨found, finished, rfl⟩ := nextOrFail_eq_next.mp h
        refine nextOrFail_eq_next.mpr ⟨found, finished, ?_⟩
        cases found <;> rfl

theorem nextOrFail_eq_fail {α : Type} {x : Result α} {next : α → ReductionState} {e : Error} :
    nextOrFail x next = .fail e ↔ x = .error e := by
  cases x with
  | ok a => simp [nextOrFail]
  | error found => simp [nextOrFail]

/-- A step that fails does so over other frames too. -/
theorem reductionMove_over_fail {s : ReductionState} {e : Error} (below : List ReductionFrame)
    (h : reductionMove env ctx s = .fail e) : reductionMove env ctx (s.over below) = .fail e := by
  obtain ⟨control, frames⟩ := s
  cases control with
  | reduce current =>
    cases current with
    | bvar index => exact nextOrFail_eq_fail.mpr (nextOrFail_eq_fail.mp h)
    | const name levels =>
      simp only [reductionMove, reduceMove] at h
      split at h <;> cases h
    | app _ _ | sort _ | lam _ _ _ | pi _ _ _ => cases h
  | complete value => cases h
  | resume value =>
    cases frames with
    | nil => cases h
    | cons frame frames =>
      simp only [reductionMove, ReductionState.over, List.cons_append] at h ⊢
      cases frame with
      | apply argument =>
        cases value with
        | lam binder ty body => exact nextOrFail_eq_fail.mpr (nextOrFail_eq_fail.mp h)
        | sort _ | bvar _ | const _ _ | app _ _ | pi _ _ _ =>
          simp only [resumeMove, applyMove] at h
          split at h <;> cases h
      | recursorMajor application inductiveName rules =>
        exact nextOrFail_eq_fail.mpr (nextOrFail_eq_fail.mp h)

theorem paid_over (s : ReductionState) (below : List ReductionFrame) :
    (reductionMachine env ctx).paid (s.over below) = (reductionMachine env ctx).paid s := by
  obtain ⟨control, frames⟩ := s
  cases control <;> rfl

theorem cost_over (s : ReductionState) (below : List ReductionFrame) :
    (reductionMachine env ctx).cost (s.over below) = (reductionMachine env ctx).cost s := by
  simp only [Machine.cost, paid_over]

theorem reaches_over {s t : ReductionState} {k : Nat} (below : List ReductionFrame)
    (h : (reductionMachine env ctx).Reaches s k t) :
    (reductionMachine env ctx).Reaches (s.over below) k (t.over below) := by
  induction h with
  | refl => exact .refl _
  | step move _ ih =>
    rw [← cost_over _ below]
    exact .step (reductionMove_over below move) ih

theorem ReducesTo.over {term value : Expr} {cost : Nat} (h : ReducesTo env ctx term cost value)
    (below : List ReductionFrame) :
    (reductionMachine env ctx).Reaches ⟨.reduce term, below⟩ cost ⟨.resume value, below⟩ :=
  reaches_over below h

/-- A run that fails does so with frames below it. -/
theorem finishes_over_error {limit : Error} {s : ReductionState} {e : Error} {fuel left : Nat}
    (below : List ReductionFrame)
    (h : (reductionMachine env ctx).Finishes limit s fuel (.error e) left) :
    (reductionMachine env ctx).Finishes limit (s.over below) fuel (.error e) left := by
  generalize result : (.error e : Result Expr) = r at h
  induction h with
  | exhausted paid =>
    refine .exhausted ?_
    rwa [paid_over]
  | done => cases result
  | fail move =>
    cases result
    rw [← cost_over _ below]
    exact .fail (reductionMove_over_fail below move)
  | next move _ ih =>
    rw [← cost_over _ below]
    exact .next (reductionMove_over below move) (ih result)

/-- Whatever returns from a call is what the call comes to. -/
theorem WhnfSpends.reducesTo {kind : ResourceLimitKind} {term value : Expr} {fuel left : Nat}
    (h : WhnfSpends env ctx kind term fuel (.ok value) left) :
    ReducesTo env ctx term (fuel - left) value ∧ left ≤ fuel := by
  obtain ⟨last, cost, way, stop, supply⟩ := h.reaches
  have final : last = ⟨.resume value, []⟩ := by
    obtain ⟨control, frames⟩ := last
    cases control with
    | reduce current =>
      simp only [reductionMachine, reductionMove, reduceMove, nextOrFail] at stop
      split at stop
      · split at stop <;> cases stop
      · split at stop <;> cases stop
      · cases stop
      · cases stop
    | complete value => cases stop
    | resume found =>
      cases frames with
      | nil =>
        cases stop
        rfl
      | cons frame frames =>
        cases frame with
        | apply argument =>
          simp only [reductionMachine, reductionMove, resumeMove, applyMove, nextOrFail] at stop
          split at stop
          · split at stop <;> cases stop
          · split at stop <;> cases stop
        | recursorMajor application inductiveName rules =>
          simp only [reductionMachine, reductionMove, resumeMove, nextOrFail] at stop
          split at stop <;> cases stop
  subst final
  have free : (reductionMachine env ctx).cost ⟨.resume value, []⟩ = 0 := rfl
  have same : fuel - left = cost := by omega
  refine ⟨?_, by omega⟩
  rw [same]
  exact way

/-- A reduction under frames is the reduction of the term and then what the frames do with its
    value. -/
theorem whnfSpends_under {kind : ResourceLimitKind} {term : Expr} {below : List ReductionFrame}
    {fuel left : Nat} {r : Result Expr}
    (h : (WhnfSpends env ctx kind term).bind (fun value =>
      (reductionMachine env ctx).Finishes (.resourceLimit kind) ⟨.resume value, below⟩) fuel r left) :
    (reductionMachine env ctx).Finishes (.resourceLimit kind) ⟨.reduce term, below⟩ fuel r left := by
  rcases h with ⟨e, failed, rfl⟩ | ⟨value, middle, way, rest⟩
  · exact finishes_over_error below failed
  · obtain ⟨reduces, le⟩ := way.reducesTo
    have finished := (reduces.over below).finishes rest
    rwa [Nat.sub_add_cancel le] at finished

theorem regular_whnfSpends (kind : ResourceLimitKind) (term : Expr) :
    Spending.Regular (.resourceLimit kind) (WhnfSpends env ctx kind term) :=
  Machine.regular_finishes _

end NpaCore.Kernel
