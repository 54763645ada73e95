import NpaCore.Syntax.DeBruijn
import NpaCore.Syntax.LevelLoops
import NpaCore.Syntax.Occurrences

/-!
# Substitution that shares what it does not change

The functions of `subst.rs` return `None` for a part that they leave as it is, and their
callers keep that part. `Syntax.Expr` has the functions without the sharing; here they are as
the source has them, `shift_changed`, `subst_changed` and `subst_levels_expr_changed`.

## Main results

`deBruijn_laws`: on terms in range `shift` and `subst` return exactly when every index they
move stays in range, what they return is the textbook operation, and they obey its laws.
`universeSubstitution_laws`: both substitutions of universe parameters compose the valuation
with the levels, agree up to `level_eq`, and pass `shift` and `instantiate`.
-/

namespace NpaCore.Expr

variable {κ ν β ε : Type}

/-! ### The functions of the source -/

/-- A node over two parts, or `none` when neither has changed. -/
def rebuild {α : Type} (make : α → α → α) (first second : α) (newFirst newSecond : Option α) :
    Option α :=
  if newFirst.isNone && newSecond.isNone then none
  else some (make (newFirst.getD first) (newSecond.getD second))

theorem rebuild_getD {α : Type} (make : α → α → α) (first second : α)
    (newFirst newSecond : Option α) :
    (rebuild make first second newFirst newSecond).getD (make first second) =
      make (newFirst.getD first) (newSecond.getD second) := by
  cases newFirst <;> cases newSecond <;> rfl

/-- `shift_changed`. A cutoff past the range of `u32` needs as many nested binders. -/
def shiftChanged (invalid : Nat → ε) (amount : Int) (cutoff : Nat) :
    Expr κ ν β → Except ε (Option (Expr κ ν β))
  | sort _ => .ok none
  | const _ _ => .ok none
  | bvar index =>
    if index < cutoff then .ok none
    else match shiftIndex index amount with
      | none => .error (invalid index)
      | some shifted => .ok (some (bvar shifted))
  | app fn arg => do
    let newFn ← shiftChanged invalid amount cutoff fn
    let newArg ← shiftChanged invalid amount cutoff arg
    .ok (rebuild app fn arg newFn newArg)
  | lam binder ty body => do
    let newTy ← shiftChanged invalid amount cutoff ty
    let newBody ← shiftChanged invalid amount (cutoff + 1) body
    .ok (rebuild (lam binder) ty body newTy newBody)
  | pi binder ty body => do
    let newTy ← shiftChanged invalid amount cutoff ty
    let newBody ← shiftChanged invalid amount (cutoff + 1) body
    .ok (rebuild (pi binder) ty body newTy newBody)

/-- `shift`, sharing. -/
def shiftShared (invalid : Nat → ε) (e : Expr κ ν β) (amount : Int) (cutoff : Nat) :
    Except ε (Expr κ ν β) :=
  if amount = 0 then .ok e
  else do
    let changed ← shiftChanged invalid amount cutoff e
    .ok (changed.getD e)

/-- `subst_changed`. -/
def substChanged (invalid : Nat → ε) (replacement : Expr κ ν β) (target : Nat) :
    Expr κ ν β → Except ε (Option (Expr κ ν β))
  | sort _ => .ok none
  | const _ _ => .ok none
  | bvar index =>
    if index = target then do
      let shifted ← shiftShared invalid replacement (asI32 target) 0
      .ok (some shifted)
    else if target < index then .ok (some (bvar (index - 1)))
    else .ok none
  | app fn arg => do
    let newFn ← substChanged invalid replacement target fn
    let newArg ← substChanged invalid replacement target arg
    .ok (rebuild app fn arg newFn newArg)
  | lam binder ty body => do
    let newTy ← substChanged invalid replacement target ty
    let newBody ← substChanged invalid replacement (target + 1) body
    .ok (rebuild (lam binder) ty body newTy newBody)
  | pi binder ty body => do
    let newTy ← substChanged invalid replacement target ty
    let newBody ← substChanged invalid replacement (target + 1) body
    .ok (rebuild (pi binder) ty body newTy newBody)

/-- `subst`, sharing. -/
def substShared (invalid : Nat → ε) (e : Expr κ ν β) (target : Nat) (replacement : Expr κ ν β) :
    Except ε (Expr κ ν β) := do
  let changed ← substChanged invalid replacement target e
  .ok (changed.getD e)

/-- `instantiate`, sharing. -/
def instantiateShared (invalid : Nat → ε) (body value : Expr κ ν β) : Except ε (Expr κ ν β) :=
  substShared invalid body 0 value

/-- One turn of the loop over the levels `us` of a constant. The vector of results begins at
    the first level that changes, with a copy of the levels before it. -/
def substLevelsTurn [DecidableEq ν] [Ord ν] (names : List ν) (levels us : List (Level ν))
    (substituted : Option (List (Level ν))) (place : Level ν × Nat) : Option (List (Level ν)) :=
  match Level.substLevelChanged names levels place.1 with
  | some level => some (substituted.getD (us.take place.2) ++ [level])
  | none => substituted.map (· ++ [place.1])

/-- The loop over the levels of a constant. -/
def substLevelsChanged [DecidableEq ν] [Ord ν] (names : List ν) (levels us : List (Level ν)) :
    Option (List (Level ν)) :=
  us.zipIdx.foldl (substLevelsTurn names levels us) none

/-- `subst_levels_expr_changed`. -/
def substLevelsExprChanged [DecidableEq ν] [Ord ν] (names : List ν) (levels : List (Level ν)) :
    Expr κ ν β → Option (Expr κ ν β)
  | sort level => (Level.substLevelChanged names levels level).map sort
  | bvar _ => none
  | const name us => (substLevelsChanged names levels us).map (const name)
  | app fn arg =>
    rebuild app fn arg (substLevelsExprChanged names levels fn)
      (substLevelsExprChanged names levels arg)
  | lam binder ty body =>
    rebuild (lam binder) ty body (substLevelsExprChanged names levels ty)
      (substLevelsExprChanged names levels body)
  | pi binder ty body =>
    rebuild (pi binder) ty body (substLevelsExprChanged names levels ty)
      (substLevelsExprChanged names levels body)

/-- `subst_levels_expr`, sharing. -/
def substLevelsExprShared [DecidableEq ν] [Ord ν] (names : List ν) (levels : List (Level ν))
    (e : Expr κ ν β) : Expr κ ν β :=
  if names.isEmpty then e else (substLevelsExprChanged names levels e).getD e

/-! ### Sharing changes no result -/

theorem shiftChanged_getD (invalid : Nat → ε) (amount : Int) (cutoff : Nat) (e : Expr κ ν β) :
    (shiftChanged invalid amount cutoff e).map (·.getD e) = shiftAt invalid amount cutoff e := by
  induction e generalizing cutoff with
  | sort _ | const _ _ => rfl
  | bvar index =>
    simp only [shiftChanged, shiftAt]
    split
    next => rfl
    next => cases shiftIndex index amount <;> rfl
  | app fn arg ihFn ihArg =>
    rw [shiftAt, ← ihFn, ← ihArg, shiftChanged]
    rcases shiftChanged invalid amount cutoff fn with _ | newFn
    · rfl
    · rcases shiftChanged invalid amount cutoff arg with _ | newArg
      · rfl
      · exact congrArg Except.ok (rebuild_getD _ _ _ _ _)
  | lam binder ty body ihTy ihBody | pi binder ty body ihTy ihBody =>
    rw [shiftAt, ← ihTy, ← ihBody, shiftChanged]
    rcases shiftChanged invalid amount cutoff ty with _ | newTy
    · rfl
    · rcases shiftChanged invalid amount (cutoff + 1) body with _ | newBody
      · rfl
      · exact congrArg Except.ok (rebuild_getD _ _ _ _ _)

theorem shiftShared_eq (invalid : Nat → ε) (e : Expr κ ν β) (amount : Int) (cutoff : Nat) :
    shiftShared invalid e amount cutoff = shift invalid e amount cutoff := by
  rw [shiftShared, shift, ← shiftChanged_getD]
  rcases shiftChanged invalid amount cutoff e with _ | _ <;> rfl

theorem substChanged_getD (invalid : Nat → ε) (replacement : Expr κ ν β) (target : Nat)
    (e : Expr κ ν β) :
    (substChanged invalid replacement target e).map (·.getD e) =
      subst invalid replacement target e := by
  induction e generalizing target with
  | sort _ | const _ _ => rfl
  | bvar index =>
    simp only [substChanged, subst]
    split
    next =>
      rw [shiftShared_eq]
      rcases shift invalid replacement (asI32 target) 0 with _ | _ <;> rfl
    next => split <;> rfl
  | app fn arg ihFn ihArg =>
    rw [subst, ← ihFn, ← ihArg, substChanged]
    rcases substChanged invalid replacement target fn with _ | newFn
    · rfl
    · rcases substChanged invalid replacement target arg with _ | newArg
      · rfl
      · exact congrArg Except.ok (rebuild_getD _ _ _ _ _)
  | lam binder ty body ihTy ihBody | pi binder ty body ihTy ihBody =>
    rw [subst, ← ihTy, ← ihBody, substChanged]
    rcases substChanged invalid replacement target ty with _ | newTy
    · rfl
    · rcases substChanged invalid replacement (target + 1) body with _ | newBody
      · rfl
      · exact congrArg Except.ok (rebuild_getD _ _ _ _ _)

theorem substShared_eq (invalid : Nat → ε) (e : Expr κ ν β) (target : Nat)
    (replacement : Expr κ ν β) :
    substShared invalid e target replacement = subst invalid replacement target e := by
  rw [substShared, ← substChanged_getD]
  rcases substChanged invalid replacement target e with _ | _ <;> rfl

theorem instantiateShared_eq (invalid : Nat → ε) (body value : Expr κ ν β) :
    instantiateShared invalid body value = instantiate invalid body value :=
  substShared_eq invalid body 0 value

section Levels

variable [DecidableEq ν] [Ord ν]

/-- The loop over the levels after a first part: the vector holds the results of that part if
    one of its levels has changed. -/
theorem substLevelsChanged_loop (names : List ν) (levels : List (Level ν))
    (first rest : List (Level ν)) (state : Option (List (Level ν)))
    (here : state.getD first = first.map (Level.substLevel names levels)) :
    ((rest.zipIdx first.length).foldl (substLevelsTurn names levels (first ++ rest)) state).getD
        (first ++ rest) = (first ++ rest).map (Level.substLevel names levels) := by
  induction rest generalizing first state with
  | nil => simpa using here
  | cons level rest ih =>
    have next := ih (first ++ [level])
    simp only [List.append_assoc, List.singleton_append, List.length_append, List.length_singleton]
      at next
    rw [List.zipIdx_cons, List.foldl_cons]
    refine next _ ?_
    simp only [List.map_append, List.map_cons, List.map_nil, ← here, Level.substLevel,
      substLevelsTurn]
    cases changed : Level.substLevelChanged names levels level with
    | some level => simp
    | none => cases state <;> simp

theorem substLevelsChanged_getD (names : List ν) (levels us : List (Level ν)) :
    (substLevelsChanged names levels us).getD us = us.map (Level.substLevel names levels) :=
  substLevelsChanged_loop names levels [] us none rfl

theorem substLevelsExprChanged_getD (names : List ν) (levels : List (Level ν)) (e : Expr κ ν β) :
    (substLevelsExprChanged names levels e).getD e = e.substLevelsExpr names levels := by
  induction e with
  | sort level =>
    rw [substLevelsExprChanged, substLevelsExpr, Level.substLevel]
    cases Level.substLevelChanged names levels level <;> rfl
  | bvar _ => rfl
  | const name us =>
    rw [substLevelsExprChanged, substLevelsExpr, ← substLevelsChanged_getD]
    cases substLevelsChanged names levels us <;> rfl
  | app fn arg ihFn ihArg =>
    rw [substLevelsExprChanged, rebuild_getD, ihFn, ihArg, substLevelsExpr]
  | lam binder ty body ihTy ihBody | pi binder ty body ihTy ihBody =>
    rw [substLevelsExprChanged, rebuild_getD, ihTy, ihBody, substLevelsExpr]

theorem substLevelChanged_nil (levels : List (Level ν)) (level : Level ν) :
    Level.substLevelChanged [] levels level = none := by
  induction level with
  | zero | param _ => rfl
  | succ inner ih => rw [Level.substLevelChanged, ih]; rfl
  | max lhs rhs ihl ihr | imax lhs rhs ihl ihr => rw [Level.substLevelChanged, ihl, ihr]

theorem substLevelsExpr_nil (levels : List (Level ν)) (e : Expr κ ν β) :
    e.substLevelsExpr [] levels = e := by
  have unchanged : Level.substLevel [] levels = id := by
    funext level
    rw [Level.substLevel, substLevelChanged_nil]
    rfl
  induction e with
  | sort _ | const _ _ => simp [substLevelsExpr, unchanged]
  | bvar _ => rfl
  | app _ _ ihFn ihArg => rw [substLevelsExpr, ihFn, ihArg]
  | lam _ _ _ ihTy ihBody | pi _ _ _ ihTy ihBody => rw [substLevelsExpr, ihTy, ihBody]

theorem substLevelsExprShared_eq (names : List ν) (levels : List (Level ν)) (e : Expr κ ν β) :
    substLevelsExprShared names levels e = e.substLevelsExpr names levels := by
  cases names with
  | nil => exact (substLevelsExpr_nil levels e).symm
  | cons name names => exact substLevelsExprChanged_getD (name :: names) levels e

end Levels

/-! ### When the operations return -/

/-- Every index from `cutoff` on stays an index below `2147483648` when it is moved. -/
def StaysInRange (amount : Int) (cutoff : Nat) : Expr κ ν β → Prop
  | sort _ => True
  | bvar index => index < cutoff ∨ (0 ≤ index + amount ∧ index + amount < 0x80000000)
  | const _ _ => True
  | app fn arg => StaysInRange amount cutoff fn ∧ StaysInRange amount cutoff arg
  | lam _ ty body => StaysInRange amount cutoff ty ∧ StaysInRange amount (cutoff + 1) body
  | pi _ ty body => StaysInRange amount cutoff ty ∧ StaysInRange amount (cutoff + 1) body

/-- Wherever the target occurs, the value can be moved under the binders around it. -/
def ValueFits (value : Expr κ ν β) (target : Nat) : Expr κ ν β → Prop
  | sort _ => True
  | bvar index => index = target → StaysInRange target 0 value
  | const _ _ => True
  | app fn arg => ValueFits value target fn ∧ ValueFits value target arg
  | lam _ ty body => ValueFits value target ty ∧ ValueFits value (target + 1) body
  | pi _ ty body => ValueFits value target ty ∧ ValueFits value (target + 1) body

theorem InRange.staysInRange_zero {e : Expr κ ν β} (range : e.InRange) (cutoff : Nat) :
    StaysInRange 0 cutoff e := by
  induction e generalizing cutoff with
  | sort _ | const _ _ => trivial
  | bvar index =>
    have small : index < 0x80000000 := range
    exact .inr (by omega)
  | app _ _ ihFn ihArg => exact ⟨ihFn range.1 cutoff, ihArg range.2 cutoff⟩
  | lam _ _ _ ihTy ihBody | pi _ _ _ ihTy ihBody =>
    exact ⟨ihTy range.1 cutoff, ihBody range.2 (cutoff + 1)⟩

theorem relocate_zero (cutoff : Nat) (e : Expr κ ν β) : relocate 0 cutoff e = e := by
  rw [← Int.natCast_zero, relocate_eq_lift, lift_zero]

theorem shiftAt_iff {invalid : Nat → ε} {amount : Int} {cutoff : Nat} {e result : Expr κ ν β}
    (range : e.InRange) : shiftAt invalid amount cutoff e = .ok result ↔
      StaysInRange amount cutoff e ∧ result = relocate amount cutoff e := by
  induction e generalizing cutoff result with
  | sort _ | const _ _ => simp [shiftAt, StaysInRange, relocate, eq_comm]
  | bvar index =>
    simp only [shiftAt, StaysInRange, relocate, shiftIndex, asI32_of_lt range]
    by_cases free : index < cutoff
    · simp [free, eq_comm]
    · by_cases fits : 0 ≤ (index : Int) + amount ∧ (index : Int) + amount < 0x80000000
      · simp [free, fits, Result.okOr, Except.map, eq_comm]
      · simp [free, fits, Result.okOr, Except.map]
  | app _ _ ihFn ihArg =>
    simp only [shiftAt, Result.bind_eq_ok, ihFn range.1, ihArg range.2, Except.ok.injEq,
      StaysInRange, relocate]
    constructor
    · rintro ⟨_, ⟨first, rfl⟩, _, ⟨second, rfl⟩, rfl⟩
      exact ⟨⟨first, second⟩, rfl⟩
    · rintro ⟨⟨first, second⟩, rfl⟩
      exact ⟨_, ⟨first, rfl⟩, _, ⟨second, rfl⟩, rfl⟩
  | lam _ _ _ ihTy ihBody | pi _ _ _ ihTy ihBody =>
    simp only [shiftAt, Result.bind_eq_ok, ihTy range.1, ihBody range.2, Except.ok.injEq,
      StaysInRange, relocate]
    constructor
    · rintro ⟨_, ⟨first, rfl⟩, _, ⟨second, rfl⟩, rfl⟩
      exact ⟨⟨first, second⟩, rfl⟩
    · rintro ⟨⟨first, second⟩, rfl⟩
      exact ⟨_, ⟨first, rfl⟩, _, ⟨second, rfl⟩, rfl⟩

theorem shift_iff {invalid : Nat → ε} {amount : Int} {cutoff : Nat} {e result : Expr κ ν β}
    (range : e.InRange) : shift invalid e amount cutoff = .ok result ↔
      StaysInRange amount cutoff e ∧ result = relocate amount cutoff e := by
  rw [shift]
  split
  next zero =>
    subst zero
    rw [relocate_zero, Except.ok.injEq]
    exact ⟨fun same => ⟨range.staysInRange_zero cutoff, same.symm⟩, fun h => h.2.symm⟩
  next => exact shiftAt_iff range

theorem subst_iff {invalid : Nat → ε} {value : Expr κ ν β} {target : Nat} {e result : Expr κ ν β}
    (rangeValue : value.InRange) (range : e.InRange) :
    subst invalid value target e = .ok result ↔
      ValueFits value target e ∧ result = substVar value target e := by
  induction e generalizing target result with
  | sort _ | const _ _ => simp [subst, ValueFits, substVar, eq_comm]
  | bvar index =>
    simp only [subst, ValueFits, substVar]
    by_cases same : index = target
    · -- the target is an index of the term, so it is in range itself
      subst same
      have small : index < 0x80000000 := range
      simp only [if_true, asI32_of_lt small, shift_iff rangeValue, relocate_eq_lift, true_imp_iff]
    · by_cases above : target < index
      · simp [same, above, eq_comm]
      · simp [same, above, eq_comm]
  | app _ _ ihFn ihArg =>
    simp only [subst, Result.bind_eq_ok, ihFn range.1, ihArg range.2, Except.ok.injEq,
      ValueFits, substVar]
    constructor
    · rintro ⟨_, ⟨first, rfl⟩, _, ⟨second, rfl⟩, rfl⟩
      exact ⟨⟨first, second⟩, rfl⟩
    · rintro ⟨⟨first, second⟩, rfl⟩
      exact ⟨_, ⟨first, rfl⟩, _, ⟨second, rfl⟩, rfl⟩
  | lam _ _ _ ihTy ihBody | pi _ _ _ ihTy ihBody =>
    simp only [subst, Result.bind_eq_ok, ihTy range.1, ihBody range.2, Except.ok.injEq,
      ValueFits, substVar]
    constructor
    · rintro ⟨_, ⟨first, rfl⟩, _, ⟨second, rfl⟩, rfl⟩
      exact ⟨⟨first, second⟩, rfl⟩
    · rintro ⟨⟨first, second⟩, rfl⟩
      exact ⟨_, ⟨first, rfl⟩, _, ⟨second, rfl⟩, rfl⟩

/-- No variable of a lifted term is the target. -/
theorem valueFits_lift {b c t : Nat} {value : Expr κ ν β} (below : c ≤ t) (within : t ≤ c + b)
    (e : Expr κ ν β) : ValueFits value t (lift (b + 1) c e) := by
  induction e generalizing c t with
  | sort _ | const _ _ => trivial
  | bvar index =>
    by_cases free : index < c
    · simp only [lift, if_pos free, ValueFits]
      omega
    · simp only [lift, if_neg free, ValueFits]
      omega
  | app _ _ ihFn ihArg => exact ⟨ihFn below within, ihArg below within⟩
  | lam _ _ _ ihTy ihBody | pi _ _ _ ihTy ihBody =>
    exact ⟨ihTy below within, ihBody (Nat.succ_le_succ below) (by omega)⟩

/-! ### The laws of substitution -/

/-- What the operations of the source do on three terms in range. A law compares two ways to
    compute a term, where both of them return. -/
structure DeBruijnLaws (invalid : Nat → ε) (e v w : Expr κ ν β) : Prop where
  shift_textbook : ∀ amount cutoff result, shiftShared invalid e amount cutoff = .ok result ↔
    StaysInRange amount cutoff e ∧ result = relocate amount cutoff e
  subst_textbook : ∀ target result, substShared invalid e target v = .ok result ↔
    ValueFits v target e ∧ result = substVar v target e
  instantiate_shift : ∀ shifted, shiftShared invalid e 1 0 = .ok shifted →
    instantiateShared invalid shifted v = .ok e
  shift_subst_below : ∀ (amount cutoff target : Nat), cutoff ≤ target → ∀ x y,
    (do
      let result ← substShared invalid e target v
      shiftShared invalid result amount cutoff) = .ok x →
    (do
      let shifted ← shiftShared invalid e amount cutoff
      substShared invalid shifted (target + amount) v) = .ok y → x = y
  shift_subst_above : ∀ (amount cutoff target : Nat), target ≤ cutoff → ∀ x y,
    (do
      let result ← substShared invalid e target v
      shiftShared invalid result amount cutoff) = .ok x →
    (do
      let shifted ← shiftShared invalid e amount (cutoff + 1)
      let value ← shiftShared invalid v amount (cutoff - target)
      substShared invalid shifted target value) = .ok y → x = y
  instantiate_instantiate : ∀ x y,
    (do
      let result ← instantiateShared invalid e v
      instantiateShared invalid result w) = .ok x →
    (do
      let outer ← substShared invalid e 1 w
      let value ← instantiateShared invalid v w
      instantiateShared invalid outer value) = .ok y → x = y

theorem deBruijn_laws (invalid : Nat → ε) {e v w : Expr κ ν β} (he : e.InRange) (hv : v.InRange)
    (hw : w.InRange) : DeBruijnLaws invalid e v w where
  shift_textbook amount cutoff result := by rw [shiftShared_eq, shift_iff he]
  subst_textbook target result := by rw [substShared_eq, subst_iff hv he]
  instantiate_shift shifted h := by
    rw [shiftShared_eq, ← Int.natCast_one] at h
    obtain ⟨rfl, range⟩ := shift_eq he h
    rw [instantiateShared_eq, instantiate, subst_iff hv range]
    refine ⟨valueFits_lift (Nat.zero_le _) (Nat.zero_le _) e, ?_⟩
    rw [substVar_lift v (Nat.zero_le _) (Nat.zero_le _), lift_zero]
  shift_subst_below amount cutoff target order x y hx hy := by
    simp only [Result.bind_eq_ok, shiftShared_eq, substShared_eq] at hx hy
    obtain ⟨result, substituted, moved⟩ := hx
    obtain ⟨rfl, range⟩ := subst_eq hv he substituted
    obtain ⟨rfl, -⟩ := shift_eq range moved
    obtain ⟨shifted, moved', substituted'⟩ := hy
    obtain ⟨rfl, range'⟩ := shift_eq he moved'
    obtain ⟨rfl, -⟩ := subst_eq hv range' substituted'
    exact lift_substVar_below v order e
  shift_subst_above amount cutoff target order x y hx hy := by
    simp only [Result.bind_eq_ok, shiftShared_eq, substShared_eq] at hx hy
    obtain ⟨result, substituted, moved⟩ := hx
    obtain ⟨rfl, range⟩ := subst_eq hv he substituted
    obtain ⟨rfl, -⟩ := shift_eq range moved
    obtain ⟨shifted, moved', value, moved'', substituted'⟩ := hy
    obtain ⟨rfl, range'⟩ := shift_eq he moved'
    obtain ⟨rfl, range''⟩ := shift_eq hv moved''
    obtain ⟨rfl, -⟩ := subst_eq range'' range' substituted'
    exact lift_substVar_above v order e
  instantiate_instantiate x y hx hy := by
    simp only [Result.bind_eq_ok, instantiateShared_eq, substShared_eq] at hx hy
    obtain ⟨result, inner, outer⟩ := hx
    obtain ⟨rfl, range⟩ := instantiate_eq he hv inner
    obtain ⟨rfl, -⟩ := instantiate_eq range hw outer
    obtain ⟨first, outer', value, inner', last⟩ := hy
    obtain ⟨rfl, range'⟩ := subst_eq hw he outer'
    obtain ⟨rfl, range''⟩ := instantiate_eq hv hw inner'
    obtain ⟨rfl, -⟩ := instantiate_eq range' range'' last
    exact substVar_substVar v w (Nat.le_refl 0) e

/-- Under a binder of each kind, with a variable below the target, the target and one above. -/
theorem deBruijn_laws_at_binders :
    DeBruijnLaws (κ := String) (ν := String) (β := String) id
      (lam "x" (bvar 0) (pi "y" (bvar 1) (app (app (bvar 0) (bvar 2)) (bvar 3))))
      (app (bvar 0) (bvar 1)) (sort .zero) :=
  deBruijn_laws id (by decide) (by decide) (by decide)

/-! ### The laws of universe substitution -/

section Universe

variable [DecidableEq ν] [Ord ν]

theorem shiftAt_substLevelsExpr (invalid : Nat → ε) (names : List ν) (levels : List (Level ν))
    (amount : Int) (cutoff : Nat) (e : Expr κ ν β) :
    shiftAt invalid amount cutoff (e.substLevelsExpr names levels) =
      (shiftAt invalid amount cutoff e).map (substLevelsExpr names levels) := by
  induction e generalizing cutoff with
  | sort _ | const _ _ => rfl
  | bvar index =>
    simp only [shiftAt, substLevelsExpr]
    split
    next => rfl
    next => cases shiftIndex index amount <;> rfl
  | app fn arg ihFn ihArg =>
    rw [substLevelsExpr, shiftAt, ihFn, ihArg, shiftAt]
    rcases shiftAt invalid amount cutoff fn with _ | _
    · rfl
    · rcases shiftAt invalid amount cutoff arg with _ | _ <;> rfl
  | lam binder ty body ihTy ihBody | pi binder ty body ihTy ihBody =>
    rw [substLevelsExpr, shiftAt, ihTy, ihBody, shiftAt]
    rcases shiftAt invalid amount cutoff ty with _ | _
    · rfl
    · rcases shiftAt invalid amount (cutoff + 1) body with _ | _ <;> rfl

theorem shift_substLevelsExpr (invalid : Nat → ε) (names : List ν) (levels : List (Level ν))
    (amount : Int) (cutoff : Nat) (e : Expr κ ν β) :
    shift invalid (e.substLevelsExpr names levels) amount cutoff =
      (shift invalid e amount cutoff).map (substLevelsExpr names levels) := by
  rw [shift, shift]
  split
  · rfl
  · exact shiftAt_substLevelsExpr invalid names levels amount cutoff e

theorem subst_substLevelsExpr (invalid : Nat → ε) (names : List ν) (levels : List (Level ν))
    (value : Expr κ ν β) (target : Nat) (e : Expr κ ν β) :
    subst invalid (value.substLevelsExpr names levels) target (e.substLevelsExpr names levels) =
      (subst invalid value target e).map (substLevelsExpr names levels) := by
  induction e generalizing target with
  | sort _ | const _ _ => rfl
  | bvar index =>
    simp only [subst, substLevelsExpr]
    split
    next => exact shift_substLevelsExpr invalid names levels _ _ value
    next => split <;> rfl
  | app fn arg ihFn ihArg =>
    rw [substLevelsExpr, subst, ihFn, ihArg, subst]
    rcases subst invalid value target fn with _ | _
    · rfl
    · rcases subst invalid value target arg with _ | _ <;> rfl
  | lam binder ty body ihTy ihBody | pi binder ty body ihTy ihBody =>
    rw [substLevelsExpr, subst, ihTy, ihBody, subst]
    rcases subst invalid value target ty with _ | _
    · rfl
    · rcases subst invalid value (target + 1) body with _ | _ <;> rfl

end Universe

/-- Both substitutions of universe parameters mean the composition of the valuation with the
levels; the one for types and the one for constraints give levels that `level_eq` identifies;
and in a term it is the levels that are substituted, whatever is done to the variables. -/
theorem universeSubstitution_laws (invalid : Nat → ε) (names : List String)
    (levels : List (Level String)) :
    (∀ (level : Level String) ρ, (level.substLevel names levels).eval ρ =
        level.eval (Level.substValuation names levels ρ)) ∧
      (∀ (level : Level String) ρ, (level.substituteLevelLoop names levels).eval ρ =
        level.eval (Level.substValuation names levels ρ)) ∧
      (∀ level : Level String, Level.levelEqLoop (level.substLevel names levels)
        (level.substituteLevelLoop names levels) = true) ∧
      (∀ e : Expr κ String β, substLevelsExprShared names levels e =
        e.mapLevels (Level.substLevel names levels)) ∧
      (∀ (e : Expr κ String β) amount cutoff,
        shiftShared invalid (substLevelsExprShared names levels e) amount cutoff =
          (shiftShared invalid e amount cutoff).map (substLevelsExprShared names levels)) ∧
      ∀ body value : Expr κ String β,
        instantiateShared invalid (substLevelsExprShared names levels body)
            (substLevelsExprShared names levels value) =
          (instantiateShared invalid body value).map (substLevelsExprShared names levels) := by
  have shared : substLevelsExprShared (κ := κ) (β := β) names levels =
      substLevelsExpr names levels := funext (substLevelsExprShared_eq names levels)
  refine ⟨fun level ρ => Level.substLevel_eval names levels ρ level, fun level ρ => ?_,
    fun level => ?_, fun e => ?_, fun e amount cutoff => ?_, fun body value => ?_⟩
  · rw [Level.substituteLevelLoop_eq, Level.substituteLevel_eval]
  · rw [Level.substituteLevelLoop_eq, Level.levelEqLoop_eq]
    exact Level.levelEq_substLevel_substituteLevel names levels level
  · rw [shared, mapLevels_substLevel]
  · rw [shared, shiftShared_eq, shiftShared_eq, shift_substLevelsExpr]
  · rw [shared, instantiateShared_eq, instantiateShared_eq]
    exact subst_substLevelsExpr invalid names levels value 0 body

end NpaCore.Expr
