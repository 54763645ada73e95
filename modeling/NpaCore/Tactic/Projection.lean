import NpaCore.Syntax.ClosedTerms
import NpaCore.Tactic.ProofExpr

/-!
# Projection to a prefix of the context

`project_expr_to_prefix_context_at` of `npa-tactic/src/lib.rs` moves an expression from a
context to a prefix of it, unless the expression mentions a local that the prefix does not
have. It counts locals from the outside, in the lengths of the two contexts.

## Main result

`projectExpr_exact`: the projection undoes the weakening by the dropped locals where there is
something to undo, and names a dropped local that occurs where there is not.
-/

namespace NpaCore.Tactic

inductive ContextProjectionError where
  | droppedLocal (abs : Nat)
  | outOfScope (index : Nat)
  deriving DecidableEq, Repr

/-- Where a variable of the source context stands in the target context. -/
def projectIndex (sourceBaseLen keepPrefixLen sourceCtxLen targetCtxLen index : Nat) :
    Except ContextProjectionError Nat :=
  if sourceCtxLen ≤ index then .error (.outOfScope index)
  else
    let sourceAbs := sourceCtxLen - 1 - index
    let place (targetAbs : Nat) : Except ContextProjectionError Nat :=
      -- `checked_sub`
      if 1 + targetAbs ≤ targetCtxLen then .ok (targetCtxLen - (1 + targetAbs))
      else .error (.outOfScope index)
    if sourceAbs < sourceBaseLen then
      if sourceAbs < keepPrefixLen then place sourceAbs else .error (.droppedLocal sourceAbs)
    else place (keepPrefixLen + (sourceAbs - sourceBaseLen))

/-- `project_expr_to_prefix_context_at`; both contexts grow under a binder. -/
def projectExprToPrefixContextAt (sourceBaseLen keepPrefixLen : Nat) :
    Nat → Nat → Kernel.Expr → Except ContextProjectionError Kernel.Expr
  | _, _, .sort level => .ok (.sort level)
  | sourceCtxLen, targetCtxLen, .bvar index =>
    (projectIndex sourceBaseLen keepPrefixLen sourceCtxLen targetCtxLen index).map .bvar
  | _, _, .const name levels => .ok (.const name levels)
  | sourceCtxLen, targetCtxLen, .app fn arg => do
    let fn ← projectExprToPrefixContextAt sourceBaseLen keepPrefixLen sourceCtxLen targetCtxLen fn
    let arg ← projectExprToPrefixContextAt sourceBaseLen keepPrefixLen sourceCtxLen targetCtxLen arg
    .ok (.app fn arg)
  | sourceCtxLen, targetCtxLen, .lam binder ty body => do
    let ty ← projectExprToPrefixContextAt sourceBaseLen keepPrefixLen sourceCtxLen targetCtxLen ty
    let body ← projectExprToPrefixContextAt sourceBaseLen keepPrefixLen (sourceCtxLen + 1)
      (targetCtxLen + 1) body
    .ok (.lam binder ty body)
  | sourceCtxLen, targetCtxLen, .pi binder ty body => do
    let ty ← projectExprToPrefixContextAt sourceBaseLen keepPrefixLen sourceCtxLen targetCtxLen ty
    let body ← projectExprToPrefixContextAt sourceBaseLen keepPrefixLen (sourceCtxLen + 1)
      (targetCtxLen + 1) body
    .ok (.pi binder ty body)

/-! ### The projection undoes a weakening -/

section Inverse

variable {keep dropped : Nat}

/-- The place of a variable under `depth` binders, where the two contexts have grown alike. -/
theorem projectIndex_eq_ok {depth index target : Nat} :
    projectIndex (keep + dropped) keep (keep + dropped + depth) (keep + depth) index = .ok target ↔
      index < depth ∧ target = index ∨
        depth + dropped ≤ index ∧ index < keep + dropped + depth ∧ target = index - dropped := by
  simp only [projectIndex]
  by_cases outside : keep + dropped + depth ≤ index
  · rw [if_pos outside]
    simp only [reduceCtorEq, false_iff]
    omega
  · rw [if_neg outside]
    by_cases base : keep + dropped + depth - 1 - index < keep + dropped
    · rw [if_pos base]
      by_cases kept : keep + dropped + depth - 1 - index < keep
      · rw [if_pos kept, if_pos (by omega)]
        simp only [Except.ok.injEq]
        omega
      · rw [if_neg kept]
        simp only [reduceCtorEq, false_iff]
        omega
    · rw [if_neg base, if_pos (by omega)]
      simp only [Except.ok.injEq]
      omega

theorem projectExpr_eq_lift {depth : Nat} {e result : Kernel.Expr}
    (h : projectExprToPrefixContextAt (keep + dropped) keep (keep + dropped + depth) (keep + depth) e =
      .ok result) :
    result.ClosedAt (keep + depth) ∧ e = NpaCore.Expr.lift dropped depth result := by
  induction e generalizing depth result with
  | sort _ | const _ _ =>
    cases h
    exact ⟨trivial, rfl⟩
  | bvar index =>
    obtain ⟨target, place, rfl⟩ := Result.map_eq_ok.mp h
    rcases projectIndex_eq_ok.mp place with ⟨bound, rfl⟩ | ⟨beyond, inside, rfl⟩
    · rw [NpaCore.Expr.lift, if_pos bound]
      exact ⟨Nat.lt_of_lt_of_le bound (Nat.le_add_left _ _), rfl⟩
    · have within : index - dropped < keep + depth := by omega
      rw [NpaCore.Expr.lift, if_neg (by omega), Nat.sub_add_cancel (by omega)]
      exact ⟨within, rfl⟩
  | app fn arg ihFn ihArg =>
    simp only [projectExprToPrefixContextAt, Result.bind_eq_ok, Except.ok.injEq] at h
    obtain ⟨fn', hfn, arg', harg, rfl⟩ := h
    obtain ⟨closedFn, rfl⟩ := ihFn hfn
    obtain ⟨closedArg, rfl⟩ := ihArg harg
    exact ⟨⟨closedFn, closedArg⟩, rfl⟩
  | lam binder ty body ihTy ihBody | pi binder ty body ihTy ihBody =>
    simp only [projectExprToPrefixContextAt, Result.bind_eq_ok, Except.ok.injEq,
      Nat.add_assoc _ depth 1] at h
    obtain ⟨ty', hty, body', hbody, rfl⟩ := h
    obtain ⟨closedTy, rfl⟩ := ihTy hty
    obtain ⟨closedBody, rfl⟩ := ihBody hbody
    exact ⟨⟨closedTy, closedBody⟩, rfl⟩

theorem projectExpr_lift {depth : Nat} {result : Kernel.Expr}
    (closed : result.ClosedAt (keep + depth)) :
    projectExprToPrefixContextAt (keep + dropped) keep (keep + dropped + depth) (keep + depth)
      (NpaCore.Expr.lift dropped depth result) = .ok result := by
  induction result generalizing depth with
  | sort _ | const _ _ => rfl
  | bvar index =>
    have inside : index < keep + depth := closed
    rw [NpaCore.Expr.lift]
    split
    next bound => exact Result.map_eq_ok.mpr ⟨index, projectIndex_eq_ok.mpr (.inl ⟨bound, rfl⟩), rfl⟩
    next free =>
      have place : projectIndex (keep + dropped) keep (keep + dropped + depth) (keep + depth)
          (index + dropped) = .ok index :=
        projectIndex_eq_ok.mpr (.inr ⟨by omega, by omega, by omega⟩)
      exact Result.map_eq_ok.mpr ⟨index, place, rfl⟩
  | app _ _ ihFn ihArg =>
    rw [NpaCore.Expr.lift, projectExprToPrefixContextAt, ihFn closed.1, Result.ok_bind,
      ihArg closed.2, Result.ok_bind]
  | lam _ _ _ ihTy ihBody | pi _ _ _ ihTy ihBody =>
    rw [NpaCore.Expr.lift, projectExprToPrefixContextAt, ihTy closed.1, Result.ok_bind,
      Nat.add_assoc, Nat.add_assoc keep depth 1, ihBody closed.2, Result.ok_bind]

/-! ### What is refused -/

/-- A variable of the longer context that has no place is one of the dropped locals. -/
theorem projectIndex_eq_error {depth index : Nat} {error : ContextProjectionError}
    (inside : index < keep + dropped + depth)
    (h : projectIndex (keep + dropped) keep (keep + dropped + depth) (keep + depth) index =
      .error error) :
    ∃ abs, error = .droppedLocal abs ∧ keep ≤ abs ∧ abs < keep + dropped ∧
      index = keep + dropped - 1 - abs + depth := by
  simp only [projectIndex, if_neg (Nat.not_le.mpr inside)] at h
  split at h
  next base =>
    split at h
    next kept =>
      rw [if_pos (by omega)] at h
      cases h
    next lost =>
      cases h
      exact ⟨_, rfl, Nat.le_of_not_lt lost, base, by omega⟩
  next =>
    rw [if_pos (by omega)] at h
    cases h

theorem projectExpr_eq_error {depth : Nat} {e : Kernel.Expr} {error : ContextProjectionError}
    (closed : e.ClosedAt (keep + dropped + depth))
    (h : projectExprToPrefixContextAt (keep + dropped) keep (keep + dropped + depth) (keep + depth) e =
      .error error) :
    ∃ abs, error = .droppedLocal abs ∧ keep ≤ abs ∧ abs < keep + dropped ∧
      containsBoundVar (keep + dropped - 1 - abs + depth) e = true := by
  induction e generalizing depth with
  | sort _ | const _ _ => cases h
  | bvar index =>
    rw [projectExprToPrefixContextAt] at h
    cases place : projectIndex (keep + dropped) keep (keep + dropped + depth) (keep + depth) index with
    | ok _ =>
      rw [place] at h
      cases h
    | error refused =>
      rw [place] at h
      cases h
      obtain ⟨abs, rfl, low, high, here⟩ := projectIndex_eq_error closed place
      exact ⟨abs, rfl, low, high, by simp [containsBoundVar, here]⟩
  | app fn arg ihFn ihArg =>
    simp only [projectExprToPrefixContextAt, Result.bind_eq_error] at h
    simp only [containsBoundVar, Bool.or_eq_true]
    rcases h with h | ⟨_, _, h | ⟨_, _, h⟩⟩
    · obtain ⟨abs, rfl, low, high, occurs⟩ := ihFn closed.1 h
      exact ⟨abs, rfl, low, high, .inl occurs⟩
    · obtain ⟨abs, rfl, low, high, occurs⟩ := ihArg closed.2 h
      exact ⟨abs, rfl, low, high, .inr occurs⟩
    · cases h
  | lam binder ty body ihTy ihBody | pi binder ty body ihTy ihBody =>
    simp only [projectExprToPrefixContextAt, Result.bind_eq_error, Nat.add_assoc _ depth 1] at h
    simp only [containsBoundVar, Bool.or_eq_true]
    rcases h with h | ⟨_, _, h | ⟨_, _, h⟩⟩
    · obtain ⟨abs, rfl, low, high, occurs⟩ := ihTy closed.1 h
      exact ⟨abs, rfl, low, high, .inl occurs⟩
    · obtain ⟨abs, rfl, low, high, occurs⟩ := ihBody closed.2 h
      exact ⟨abs, rfl, low, high, .inr occurs⟩
    · cases h

/-- Under any number of binders and for any number of dropped locals: the projection of an
    expression of the longer context is the expression of which that is the weakening, and where
    there is none, a dropped local that occurs in the expression is named. -/
theorem projectExpr_exact {depth : Nat} {e : Kernel.Expr}
    (closed : e.ClosedAt (keep + dropped + depth)) :
    (∃ result, projectExprToPrefixContextAt (keep + dropped) keep (keep + dropped + depth)
        (keep + depth) e = .ok result ∧
      result.ClosedAt (keep + depth) ∧ e = NpaCore.Expr.lift dropped depth result) ∨
    ∃ abs, projectExprToPrefixContextAt (keep + dropped) keep (keep + dropped + depth)
        (keep + depth) e = .error (.droppedLocal abs) ∧
      keep ≤ abs ∧ abs < keep + dropped ∧
      containsBoundVar (keep + dropped - 1 - abs + depth) e = true ∧
      ∀ result, e ≠ NpaCore.Expr.lift dropped depth result ∨ ¬ result.ClosedAt (keep + depth) := by
  cases projected : projectExprToPrefixContextAt (keep + dropped) keep (keep + dropped + depth)
      (keep + depth) e with
  | ok result => exact .inl ⟨result, rfl, projectExpr_eq_lift projected⟩
  | error refused =>
    obtain ⟨abs, rfl, low, high, occurs⟩ := projectExpr_eq_error closed projected
    refine .inr ⟨abs, rfl, low, high, occurs, fun result => ?_⟩
    by_contra both
    rw [not_or, not_not, not_not] at both
    obtain ⟨rfl, within⟩ := both
    rw [projectExpr_lift within] at projected
    cases projected

/-- In `a, b, c ⊢ b c` both locals are dropped. -/
theorem projectExpr_exact_dropped : ∃ abs,
    projectExprToPrefixContextAt 3 1 3 1 (.app (.bvar 1) (.bvar 0)) = .error (.droppedLocal abs) ∧
      1 ≤ abs ∧ abs < 3 := by
  have closed : (NpaCore.Expr.app (.bvar 1) (.bvar 0) : Kernel.Expr).ClosedAt (1 + 2 + 0) :=
    ⟨show 1 < 3 by decide, show 0 < 3 by decide⟩
  rcases projectExpr_exact closed with ⟨result, ok, _⟩ | ⟨abs, refused, low, high, _⟩
  · cases ok
  · exact ⟨abs, refused, low, high⟩

end Inverse

end NpaCore.Tactic
