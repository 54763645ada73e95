import NpaCore.Syntax.Substitution

/-!
# Laws of de Bruijn substitution

How `lift` and `substVar` pass each other. Every law is one induction over the term: at a
variable the two sides are compared by the place of its index, and under a binder the
cutoffs and targets on both sides grow by one.

`relocate` is `lift` with an amount that may be negative, as `shift` of the source takes it.
-/

namespace NpaCore.Expr

variable {κ ν β : Type}

/-! ### Lifting twice -/

/-- The second lift moves all that the first one moved. -/
theorem lift_lift_within {a b c d : Nat} (below : d ≤ c) (within : c ≤ d + b) (e : Expr κ ν β) :
    lift a c (lift b d e) = lift (a + b) d e := by
  induction e generalizing c d with
  | sort _ | const _ _ => rfl
  | bvar index =>
    by_cases free : index < d
    · simp only [lift, if_pos free, if_pos (Nat.lt_of_lt_of_le free below)]
    · simp only [lift, if_neg free, if_neg (show ¬index + b < c by omega)]
      rw [Nat.add_assoc, Nat.add_comm b a]
  | app _ _ ihFn ihArg => simp only [lift, ihFn below within, ihArg below within]
  | lam _ _ _ ihTy ihBody | pi _ _ _ ihTy ihBody =>
    simp only [lift, ihTy below within, ihBody (Nat.succ_le_succ below) (by omega)]

/-- The lifts move different variables. -/
theorem lift_lift_above {a b c d : Nat} (above : d ≤ c) (e : Expr κ ν β) :
    lift a (c + b) (lift b d e) = lift b d (lift a c e) := by
  induction e generalizing c d with
  | sort _ | const _ _ => rfl
  | bvar index =>
    by_cases free : index < d
    · simp only [lift, if_pos free, if_pos (show index < c + b by omega),
        if_pos (show index < c by omega)]
    · by_cases low : index < c
      · simp only [lift, if_neg free, if_pos low, if_pos (show index + b < c + b by omega)]
      · simp only [lift, if_neg free, if_neg low, if_neg (show ¬index + b < c + b by omega),
          if_neg (show ¬index + a < d by omega)]
        rw [Nat.add_right_comm]
  | app _ _ ihFn ihArg => simp only [lift, ihFn above, ihArg above]
  | lam _ _ _ ihTy ihBody | pi _ _ _ ihTy ihBody =>
    simp only [lift, ihTy above, Nat.add_right_comm c b 1, ihBody (Nat.succ_le_succ above)]

/-! ### Substitution and lifting -/

/-- No variable of a lifted term is the target, so the substitution only closes the gap. -/
theorem substVar_lift {b c t : Nat} (v : Expr κ ν β) (below : c ≤ t) (within : t ≤ c + b)
    (e : Expr κ ν β) : substVar v t (lift (b + 1) c e) = lift b c e := by
  induction e generalizing c t with
  | sort _ | const _ _ => rfl
  | bvar index =>
    by_cases free : index < c
    · simp only [lift, substVar, if_pos free, if_neg (show ¬index = t by omega),
        if_neg (show ¬t < index by omega)]
    · simp only [lift, substVar, if_neg free, if_neg (show ¬index + (b + 1) = t by omega),
        if_pos (show t < index + (b + 1) by omega)]
      rfl
  | app _ _ ihFn ihArg => simp only [lift, substVar, ihFn below within, ihArg below within]
  | lam _ _ _ ihTy ihBody | pi _ _ _ ihTy ihBody =>
    simp only [lift, substVar, ihTy below within, ihBody (Nat.succ_le_succ below) (by omega)]

/-- The lift moves the target and all variables of the value. -/
theorem lift_substVar_below {a c t : Nat} (v : Expr κ ν β) (below : c ≤ t) (e : Expr κ ν β) :
    lift a c (substVar v t e) = substVar v (t + a) (lift a c e) := by
  induction e generalizing c t with
  | sort _ | const _ _ => rfl
  | bvar index =>
    rcases Nat.lt_trichotomy index t with less | rfl | more
    · by_cases free : index < c
      · simp only [lift, substVar, if_pos free, if_neg (Nat.ne_of_lt less), if_neg (Nat.lt_asymm less),
          if_neg (show ¬index = t + a by omega), if_neg (show ¬t + a < index by omega)]
      · simp only [lift, substVar, if_neg free, if_neg (Nat.ne_of_lt less), if_neg (Nat.lt_asymm less),
          if_neg (show ¬index + a = t + a by omega), if_neg (show ¬t + a < index + a by omega)]
    · simp only [lift, substVar, if_neg (Nat.not_lt.mpr below), if_true]
      rw [lift_lift_within (Nat.zero_le _) (by omega), Nat.add_comm]
    · simp only [lift, substVar, if_neg (show ¬index < c by omega), if_neg (Nat.ne_of_gt more),
        if_pos more, if_neg (show ¬index - 1 < c by omega),
        if_neg (show ¬index + a = t + a by omega), if_pos (show t + a < index + a by omega)]
      rw [Nat.sub_add_comm (by omega)]
  | app _ _ ihFn ihArg => simp only [lift, substVar, ihFn below, ihArg below]
  | lam _ _ _ ihTy ihBody | pi _ _ _ ihTy ihBody =>
    simp only [lift, substVar, ihTy below, Nat.add_right_comm t a 1, ihBody (Nat.succ_le_succ below)]

/-- The lift moves none of the variables up to the target. -/
theorem lift_substVar_above {a c t : Nat} (v : Expr κ ν β) (above : t ≤ c) (e : Expr κ ν β) :
    lift a c (substVar v t e) = substVar (lift a (c - t) v) t (lift a (c + 1) e) := by
  induction e generalizing c t with
  | sort _ | const _ _ => rfl
  | bvar index =>
    rcases Nat.lt_trichotomy index t with less | rfl | more
    · simp only [lift, substVar, if_neg (Nat.ne_of_lt less), if_neg (Nat.lt_asymm less),
        if_pos (show index < c by omega), if_pos (show index < c + 1 by omega)]
    · simp only [lift, substVar, if_true, if_pos (show index < c + 1 by omega)]
      rw [← lift_lift_above (Nat.zero_le _), Nat.sub_add_cancel above]
    · by_cases low : index < c + 1
      · simp only [lift, substVar, if_neg (Nat.ne_of_gt more), if_pos more, if_pos low,
          if_pos (show index - 1 < c by omega)]
      · simp only [lift, substVar, if_neg (Nat.ne_of_gt more), if_pos more, if_neg low,
          if_neg (show ¬index - 1 < c by omega), if_neg (show ¬index + a = t by omega),
          if_pos (show t < index + a by omega)]
        rw [Nat.sub_add_comm (by omega)]
  | app _ _ ihFn ihArg => simp only [lift, substVar, ihFn above, ihArg above]
  | lam _ _ _ ihTy ihBody | pi _ _ _ ihTy ihBody =>
    simp only [lift, substVar, ihTy above, ihBody (Nat.succ_le_succ above), Nat.succ_sub_succ,
      Nat.succ_eq_add_one]

/-! ### Substituting twice -/

/-- The outer target is not below the inner one, so the outer value goes into the inner one too. -/
theorem substVar_substVar {k n : Nat} (v w : Expr κ ν β) (order : k ≤ n) (e : Expr κ ν β) :
    substVar w n (substVar v k e) =
      substVar (substVar w (n - k) v) k (substVar w (n + 1) e) := by
  induction e generalizing k n with
  | sort _ | const _ _ => rfl
  | bvar index =>
    rcases Nat.lt_trichotomy index k with less | rfl | more
    · simp only [substVar, if_neg (Nat.ne_of_lt less), if_neg (Nat.lt_asymm less),
        if_neg (show ¬index = n by omega), if_neg (show ¬n < index by omega),
        if_neg (show ¬index = n + 1 by omega), if_neg (show ¬n + 1 < index by omega)]
    · -- the value is lifted past `index` binders, and the outer target with it
      simp only [substVar, if_true, if_neg (show ¬index = n + 1 by omega),
        if_neg (show ¬n + 1 < index by omega)]
      rw [lift_substVar_below w (Nat.zero_le _), Nat.sub_add_cancel order]
    · rcases Nat.lt_trichotomy index (n + 1) with less' | rfl | more'
      · simp only [substVar, if_neg (Nat.ne_of_gt more), if_pos more, if_neg (Nat.ne_of_lt less'),
          if_neg (Nat.lt_asymm less'), if_neg (show ¬index - 1 = n by omega),
          if_neg (show ¬n < index - 1 by omega)]
      · simp only [substVar, if_neg (Nat.ne_of_gt more), if_pos more, if_true, Nat.add_sub_cancel]
        rw [substVar_lift _ (Nat.zero_le _) (by omega)]
      · simp only [substVar, if_neg (Nat.ne_of_gt more), if_pos more, if_neg (Nat.ne_of_gt more'),
          if_pos more', if_neg (show ¬index - 1 = n by omega), if_pos (show n < index - 1 by omega),
          if_neg (show ¬index - 1 = k by omega), if_pos (show k < index - 1 by omega)]
  | app _ _ ihFn ihArg => simp only [substVar, ihFn order, ihArg order]
  | lam _ _ _ ihTy ihBody | pi _ _ _ ihTy ihBody =>
    simp only [substVar, ihTy order, ihBody (Nat.succ_le_succ order), Nat.succ_sub_succ,
      Nat.succ_eq_add_one]

/-! ### Moving by an integer -/

/-- The variables from `cutoff` on moved by `amount`, which may be negative. -/
def relocate (amount : Int) (cutoff : Nat) : Expr κ ν β → Expr κ ν β
  | sort level => sort level
  | bvar index => if index < cutoff then bvar index else bvar (index + amount).toNat
  | const name levels => const name levels
  | app fn arg => app (relocate amount cutoff fn) (relocate amount cutoff arg)
  | lam binder ty body => lam binder (relocate amount cutoff ty) (relocate amount (cutoff + 1) body)
  | pi binder ty body => pi binder (relocate amount cutoff ty) (relocate amount (cutoff + 1) body)

theorem relocate_eq_lift (amount cutoff : Nat) (e : Expr κ ν β) :
    relocate amount cutoff e = lift amount cutoff e := by
  induction e generalizing cutoff with
  | sort _ | const _ _ => rfl
  | bvar index =>
    have sum : ((index : Int) + amount).toNat = index + amount := by omega
    simp only [relocate, lift, sum]
  | app _ _ ihFn ihArg => rw [relocate, lift, ihFn, ihArg]
  | lam _ _ _ ihTy ihBody | pi _ _ _ ihTy ihBody => rw [relocate, lift, ihTy, ihBody]

end NpaCore.Expr
