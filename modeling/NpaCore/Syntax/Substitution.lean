import NpaCore.Syntax.Expr

/-!
# Substitution of de Bruijn variables

Shifting and substitution as they are meant: total functions on terms with indices
of any size. `subst.rs` reads an index as an `i32` when it shifts it, so it agrees
with them on the terms whose indices are below `2147483648`, and there only.

## Main result

`instantiate_eq`: on terms in range `instantiate` of the source is substitution, and what
it returns is in range.
-/

namespace NpaCore.Expr

variable {κ ν β ε : Type}

/-! ### The operations -/

/-- The variables from `cutoff` on moved up by `amount`. -/
def lift (amount cutoff : Nat) : Expr κ ν β → Expr κ ν β
  | sort level => sort level
  | bvar index => if index < cutoff then bvar index else bvar (index + amount)
  | const name levels => const name levels
  | app fn arg => app (lift amount cutoff fn) (lift amount cutoff arg)
  | lam binder ty body => lam binder (lift amount cutoff ty) (lift amount (cutoff + 1) body)
  | pi binder ty body => pi binder (lift amount cutoff ty) (lift amount (cutoff + 1) body)

/-- The variable `target` replaced by `value`, which lives outside the `target` binders, and
    the variables above it lowered. -/
def substVar (value : Expr κ ν β) (target : Nat) : Expr κ ν β → Expr κ ν β
  | sort level => sort level
  | bvar index =>
    if index = target then lift target 0 value
    else if target < index then bvar (index - 1)
    else bvar index
  | const name levels => const name levels
  | app fn arg => app (substVar value target fn) (substVar value target arg)
  | lam binder ty body => lam binder (substVar value target ty) (substVar value (target + 1) body)
  | pi binder ty body => pi binder (substVar value target ty) (substVar value (target + 1) body)

/-- The body of a binder at an argument. -/
def instVar (body value : Expr κ ν β) : Expr κ ν β := substVar value 0 body

/-- The variables outside `depth` binders replaced by the arguments, the last of which belongs
    to the innermost variable. -/
def instTelescope (args : List (Expr κ ν β)) (depth : Nat) : Expr κ ν β → Expr κ ν β
  | sort level => sort level
  | bvar index =>
    if index < depth then bvar index
    else if index - depth < args.length then
      lift depth 0 ((args[args.length - 1 - (index - depth)]?).getD (bvar index))
    else bvar (index - args.length)
  | const name levels => const name levels
  | app fn arg => app (instTelescope args depth fn) (instTelescope args depth arg)
  | lam binder ty body =>
    lam binder (instTelescope args depth ty) (instTelescope args (depth + 1) body)
  | pi binder ty body =>
    pi binder (instTelescope args depth ty) (instTelescope args (depth + 1) body)

/-! ### Terms in range -/

/-- No variable of the term has an index from `2147483648` on. -/
def InRange : Expr κ ν β → Prop
  | sort _ => True
  | bvar index => index < 0x80000000
  | const _ _ => True
  | app fn arg => InRange fn ∧ InRange arg
  | lam _ ty body => InRange ty ∧ InRange body
  | pi _ ty body => InRange ty ∧ InRange body

instance decidableInRange : (e : Expr κ ν β) → Decidable e.InRange
  | sort _ => isTrue trivial
  | bvar index => inferInstanceAs (Decidable (index < 0x80000000))
  | const _ _ => isTrue trivial
  | app fn arg =>
    have := decidableInRange fn
    have := decidableInRange arg
    inferInstanceAs (Decidable (fn.InRange ∧ arg.InRange))
  | lam _ ty body =>
    have := decidableInRange ty
    have := decidableInRange body
    inferInstanceAs (Decidable (ty.InRange ∧ body.InRange))
  | pi _ ty body =>
    have := decidableInRange ty
    have := decidableInRange body
    inferInstanceAs (Decidable (ty.InRange ∧ body.InRange))

theorem inRange_apps {fn : Expr κ ν β} {args : List (Expr κ ν β)} :
    (apps fn args).InRange ↔ fn.InRange ∧ ∀ arg ∈ args, arg.InRange := by
  induction args using List.reverseRecOn with
  | nil => simp
  | append_singleton front last ih =>
    rw [apps_concat]
    simp only [InRange, ih, List.mem_append, List.mem_singleton, or_imp, forall_and, forall_eq,
      and_assoc]

theorem InRange.collectApps {e : Expr κ ν β} (h : e.InRange) :
    e.collectApps.1.InRange ∧ ∀ arg ∈ e.collectApps.2, arg.InRange := by
  rw [← inRange_apps, apps_collectApps]
  exact h

theorem InRange.domains {e : Expr κ ν β} (h : e.InRange) :
    ∀ domain ∈ e.peelPiDomains.1, domain.InRange := by
  induction e with
  | pi binder ty body _ ih =>
    intro domain mem
    rcases List.mem_cons.mp mem with rfl | mem
    · exact h.1
    · exact ih h.2 domain mem
  | sort _ | bvar _ | const _ _ | app _ _ _ _ | lam _ _ _ _ _ => simp [peelPiDomains]

theorem inRange_substLevelsExpr [DecidableEq ν] [Ord ν] {names : List ν} {levels : List (Level ν)}
    {e : Expr κ ν β} : (e.substLevelsExpr names levels).InRange ↔ e.InRange := by
  induction e with
  | sort _ | bvar _ | const _ _ => rfl
  | app _ _ ihFn ihArg => exact and_congr ihFn ihArg
  | lam _ _ _ ihTy ihBody | pi _ _ _ ihTy ihBody => exact and_congr ihTy ihBody

/-! ### The operations of the source on terms in range -/

theorem asI32_of_lt {index : Nat} (small : index < 0x80000000) : asI32 index = index :=
  if_pos small

theorem shiftIndex_eq {index amount shifted : Nat} (small : index < 0x80000000)
    (h : shiftIndex index (amount : Int) = some shifted) :
    shifted = index + amount ∧ shifted < 0x80000000 := by
  simp only [shiftIndex, asI32_of_lt small] at h
  split at h
  next range =>
    cases h
    omega
  next => cases h

@[simp] theorem lift_zero (cutoff : Nat) (e : Expr κ ν β) : lift 0 cutoff e = e := by
  induction e generalizing cutoff with
  | sort _ | const _ _ => rfl
  | bvar index => simp [lift]
  | app _ _ ihFn ihArg => rw [lift, ihFn, ihArg]
  | lam _ _ _ ihTy ihBody | pi _ _ _ ihTy ihBody => rw [lift, ihTy, ihBody]

variable {invalid : Nat → ε}

theorem shiftAt_eq {amount cutoff : Nat} {e result : Expr κ ν β}
    (range : e.InRange) (h : shiftAt invalid amount cutoff e = .ok result) :
    result = lift amount cutoff e ∧ result.InRange := by
  induction e generalizing cutoff result with
  | sort _ | const _ _ =>
    cases h
    exact ⟨rfl, trivial⟩
  | bvar index =>
    simp only [shiftAt] at h
    simp only [lift]
    split at h
    next below =>
      cases h
      rw [if_pos below]
      exact ⟨rfl, range⟩
    next above =>
      cases found : shiftIndex index (amount : Int) with
      | none =>
        rw [found] at h
        cases h
      | some shifted =>
        rw [found] at h
        cases h
        obtain ⟨rfl, small⟩ := shiftIndex_eq range found
        rw [if_neg above]
        exact ⟨rfl, small⟩
  | app fn arg ihFn ihArg =>
    simp only [shiftAt, Result.bind_eq_ok, Except.ok.injEq] at h
    obtain ⟨fn', hfn, arg', harg, rfl⟩ := h
    obtain ⟨rfl, rangeFn⟩ := ihFn range.1 hfn
    obtain ⟨rfl, rangeArg⟩ := ihArg range.2 harg
    exact ⟨rfl, rangeFn, rangeArg⟩
  | lam binder ty body ihTy ihBody | pi binder ty body ihTy ihBody =>
    simp only [shiftAt, Result.bind_eq_ok, Except.ok.injEq] at h
    obtain ⟨ty', hty, body', hbody, rfl⟩ := h
    obtain ⟨rfl, rangeTy⟩ := ihTy range.1 hty
    obtain ⟨rfl, rangeBody⟩ := ihBody range.2 hbody
    exact ⟨rfl, rangeTy, rangeBody⟩

theorem shift_eq {amount cutoff : Nat} {e result : Expr κ ν β}
    (range : e.InRange) (h : shift invalid e amount cutoff = .ok result) :
    result = lift amount cutoff e ∧ result.InRange := by
  simp only [shift] at h
  split at h
  next zero =>
    cases h
    obtain rfl : amount = 0 := by omega
    exact ⟨(lift_zero cutoff e).symm, range⟩
  next => exact shiftAt_eq range h

theorem subst_eq {value : Expr κ ν β} {target : Nat} {e result : Expr κ ν β}
    (rangeValue : value.InRange) (range : e.InRange)
    (h : subst invalid value target e = .ok result) :
    result = substVar value target e ∧ result.InRange := by
  induction e generalizing target result with
  | sort _ | const _ _ =>
    cases h
    exact ⟨rfl, trivial⟩
  | bvar index =>
    simp only [subst] at h
    simp only [substVar]
    split at h
    next same =>
      -- the target is an index of the term, so it is in range itself
      subst same
      rw [asI32_of_lt range] at h
      rw [if_pos rfl]
      exact shift_eq rangeValue h
    next other =>
      rw [if_neg other]
      split at h
      next above =>
        cases h
        rw [if_pos above]
        exact ⟨rfl, Nat.lt_of_le_of_lt (Nat.sub_le _ _) range⟩
      next below =>
        cases h
        rw [if_neg below]
        exact ⟨rfl, range⟩
  | app fn arg ihFn ihArg =>
    simp only [subst, Result.bind_eq_ok, Except.ok.injEq] at h
    obtain ⟨fn', hfn, arg', harg, rfl⟩ := h
    obtain ⟨rfl, rangeFn⟩ := ihFn range.1 hfn
    obtain ⟨rfl, rangeArg⟩ := ihArg range.2 harg
    exact ⟨rfl, rangeFn, rangeArg⟩
  | lam binder ty body ihTy ihBody | pi binder ty body ihTy ihBody =>
    simp only [subst, Result.bind_eq_ok, Except.ok.injEq] at h
    obtain ⟨ty', hty, body', hbody, rfl⟩ := h
    obtain ⟨rfl, rangeTy⟩ := ihTy range.1 hty
    obtain ⟨rfl, rangeBody⟩ := ihBody range.2 hbody
    exact ⟨rfl, rangeTy, rangeBody⟩

theorem instantiate_eq {body value result : Expr κ ν β}
    (range : body.InRange) (rangeValue : value.InRange)
    (h : instantiate invalid body value = .ok result) :
    result = instVar body value ∧ result.InRange := subst_eq rangeValue range h

end NpaCore.Expr
