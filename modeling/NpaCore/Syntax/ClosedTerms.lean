import NpaCore.Syntax.DeBruijn

/-!
# Closed terms and operations on free variables

What the operations on free variables have in common: they pass every constructor, leave bound
variables alone, and commute with lifting and with putting an argument in the place of the
innermost variable. Lifting and substitution are two of them, at every depth under binders.
-/

namespace NpaCore.Expr

variable {κ ν β : Type}

/-! ### Closed terms -/

/-- The free variables of the term are among the innermost `depth`. -/
def ClosedAt (depth : Nat) : Expr κ ν β → Prop
  | sort _ => True
  | bvar index => index < depth
  | const _ _ => True
  | app fn arg => ClosedAt depth fn ∧ ClosedAt depth arg
  | lam _ ty body => ClosedAt depth ty ∧ ClosedAt (depth + 1) body
  | pi _ ty body => ClosedAt depth ty ∧ ClosedAt (depth + 1) body

variable {e : Expr κ ν β}

theorem ClosedAt.mono {depth depth' : Nat} (h : e.ClosedAt depth)
    (le : depth ≤ depth') : e.ClosedAt depth' := by
  induction e generalizing depth depth' with
  | sort _ | const _ _ => trivial
  | bvar index => exact Nat.lt_of_lt_of_le h le
  | app _ _ ihFn ihArg => exact ⟨ihFn h.1 le, ihArg h.2 le⟩
  | lam _ _ _ ihTy ihBody | pi _ _ _ ihTy ihBody =>
    exact ⟨ihTy h.1 le, ihBody h.2 (Nat.succ_le_succ le)⟩

theorem closedAt_apps {depth : Nat} {fn : Expr κ ν β} {args : List (Expr κ ν β)} :
    (apps fn args).ClosedAt depth ↔ fn.ClosedAt depth ∧ ∀ arg ∈ args, arg.ClosedAt depth := by
  induction args using List.reverseRecOn with
  | nil => simp
  | append_singleton front last ih =>
    rw [apps_concat]
    simp only [ClosedAt, ih, List.mem_append, List.mem_singleton, or_imp, forall_and, forall_eq,
      and_assoc]

theorem ClosedAt.collectApps {depth : Nat} (h : e.ClosedAt depth) :
    e.collectApps.1.ClosedAt depth ∧ ∀ arg ∈ e.collectApps.2, arg.ClosedAt depth := by
  rw [← closedAt_apps, apps_collectApps]
  exact h

/-- A domain of a telescope is closed under the domains before it. -/
theorem ClosedAt.domain {depth index : Nat} {e domain : Expr κ ν β} (h : e.ClosedAt depth)
    (found : e.peelPiDomains.1[index]? = some domain) : domain.ClosedAt (depth + index) := by
  induction e generalizing depth index with
  | pi binder ty body _ ih =>
    cases index with
    | zero =>
      cases found
      exact h.1
    | succ index =>
      rw [← Nat.succ_add_eq_add_succ]
      exact ih h.2 found
  | sort _ | bvar _ | const _ _ | app _ _ _ _ | lam _ _ _ _ _ => simp [peelPiDomains] at found

theorem closedAt_substLevelsExpr [DecidableEq ν] [Ord ν] {names : List ν} {levels : List (Level ν)}
    {depth : Nat} :
    (e.substLevelsExpr names levels).ClosedAt depth ↔ e.ClosedAt depth := by
  induction e generalizing depth with
  | sort _ | bvar _ | const _ _ => rfl
  | app _ _ ihFn ihArg => exact and_congr ihFn ihArg
  | lam _ _ _ ihTy ihBody | pi _ _ _ ihTy ihBody => exact and_congr ihTy ihBody

/-! ### Operations on free variables -/

/-- `op depth` works on the variables outside `depth` binders. -/
structure ActsOnFree (op : Nat → Expr κ ν β → Expr κ ν β) : Prop where
  sort : ∀ depth level, op depth (sort level) = sort level
  const : ∀ depth name levels, op depth (const name levels) = const name levels
  app : ∀ depth fn arg, op depth (app fn arg) = app (op depth fn) (op depth arg)
  lam : ∀ depth binder ty body,
    op depth (lam binder ty body) = lam binder (op depth ty) (op (depth + 1) body)
  pi : ∀ depth binder ty body,
    op depth (pi binder ty body) = pi binder (op depth ty) (op (depth + 1) body)
  bound : ∀ depth index, index < depth → op depth (bvar index) = bvar index
  lift : ∀ depth amount e, op (depth + amount) (lift amount 0 e) = lift amount 0 (op depth e)
  instVar : ∀ depth body arg,
    op depth (instVar body arg) = instVar (op (depth + 1) body) (op depth arg)

theorem actsOnFree_lift (amount cutoff : Nat) :
    ActsOnFree fun depth (e : Expr κ ν β) => lift amount (cutoff + depth) e := by
  constructor
  case sort | const | app | lam | pi => intros; rfl
  case bound =>
    intro depth index inside
    exact if_pos (Nat.lt_of_lt_of_le inside (Nat.le_add_left _ _))
  case lift =>
    intro depth other e
    rw [← Nat.add_assoc]
    exact lift_lift_above (Nat.zero_le _) e
  case instVar =>
    intro depth body arg
    exact lift_substVar_above arg (Nat.zero_le (cutoff + depth)) body

theorem actsOnFree_substVar (value : Expr κ ν β) (target : Nat) :
    ActsOnFree fun depth => substVar value (target + depth) := by
  constructor
  case sort | const | app | lam | pi => intros; rfl
  case bound =>
    intro depth index inside
    have below : index < target + depth := Nat.lt_of_lt_of_le inside (Nat.le_add_left _ _)
    simp only [substVar, if_neg (Nat.ne_of_lt below), if_neg (Nat.lt_asymm below)]
  case lift =>
    intro depth amount e
    rw [← Nat.add_assoc]
    exact (lift_substVar_below value (Nat.zero_le _) e).symm
  case instVar =>
    intro depth body arg
    exact substVar_substVar arg value (Nat.zero_le (target + depth)) body

namespace ActsOnFree

variable {op : Nat → Expr κ ν β → Expr κ ν β}

theorem apps (acts : ActsOnFree op) (depth : Nat) (fn : Expr κ ν β) (args : List (Expr κ ν β)) :
    op depth (fn.apps args) = (op depth fn).apps (args.map (op depth)) := by
  induction args using List.reverseRecOn with
  | nil => rfl
  | append_singleton front last ih =>
    rw [apps_concat, acts.app, ih, List.map_append, List.map_singleton, apps_concat]

/-- Closed terms have nothing to work on. -/
theorem closed (acts : ActsOnFree op) {depth : Nat} (h : e.ClosedAt depth) :
    op depth e = e := by
  induction e generalizing depth with
  | sort _ => exact acts.sort _ _
  | const _ _ => exact acts.const _ _ _
  | bvar _ => exact acts.bound _ _ h
  | app _ _ ihFn ihArg => rw [acts.app, ihFn h.1, ihArg h.2]
  | lam _ _ _ ihTy ihBody => rw [acts.lam, ihTy h.1, ihBody h.2]
  | pi _ _ _ ihTy ihBody => rw [acts.pi, ihTy h.1, ihBody h.2]

/-- Where the arguments take the place of all free variables, only the arguments are changed. -/
theorem instTelescope (acts : ActsOnFree op) (args : List (Expr κ ν β)) {depth under : Nat}
    (h : e.ClosedAt (under + args.length)) :
    op (depth + under) (instTelescope args under e) =
      Expr.instTelescope (args.map (op depth)) under e := by
  induction e generalizing under with
  | sort _ => exact acts.sort _ _
  | const _ _ => exact acts.const _ _ _
  | bvar index =>
    by_cases bound : index < under
    · simp only [Expr.instTelescope, if_pos bound]
      exact acts.bound _ _ (Nat.lt_of_lt_of_le bound (Nat.le_add_left _ _))
    · have inside : index - under < args.length := by
        have := h
        simp only [ClosedAt] at this
        omega
      have position : args.length - 1 - (index - under) < args.length := by omega
      simp only [Expr.instTelescope, if_neg bound, if_pos inside, List.length_map,
        List.getElem?_map, List.getElem?_eq_getElem position, Option.map_some, Option.getD_some]
      exact acts.lift _ _ _
  | app _ _ ihFn ihArg => rw [Expr.instTelescope, acts.app, ihFn h.1, ihArg h.2, Expr.instTelescope]
  | lam _ _ body ihTy ihBody =>
    have inner : body.ClosedAt (under + 1 + args.length) := Nat.add_right_comm _ _ _ ▸ h.2
    rw [Expr.instTelescope, acts.lam, ihTy h.1, Nat.add_assoc depth under 1, ihBody inner,
      Expr.instTelescope]
  | pi _ _ body ihTy ihBody =>
    have inner : body.ClosedAt (under + 1 + args.length) := Nat.add_right_comm _ _ _ ▸ h.2
    rw [Expr.instTelescope, acts.pi, ihTy h.1, Nat.add_assoc depth under 1, ihBody inner,
      Expr.instTelescope]

end ActsOnFree

theorem lift_closed {amount cutoff : Nat} (h : e.ClosedAt cutoff) :
    lift amount cutoff e = e := by
  have same := (actsOnFree_lift amount 0).closed h
  rwa [Nat.zero_add] at same

/-- Lifting only moves indices up. -/
theorem inRange_of_lift {amount cutoff : Nat} (h : (lift amount cutoff e).InRange) :
    e.InRange := by
  induction e generalizing cutoff with
  | sort _ | const _ _ => trivial
  | bvar index =>
    rw [lift] at h
    split at h
    next => exact h
    next => exact Nat.lt_of_le_of_lt (Nat.le_add_right index amount) h
  | app _ _ ihFn ihArg => exact ⟨ihFn h.1, ihArg h.2⟩
  | lam _ _ _ ihTy ihBody | pi _ _ _ ihTy ihBody => exact ⟨ihTy h.1, ihBody h.2⟩

end NpaCore.Expr
