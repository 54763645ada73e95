import NpaCore.Kernel.ClosedDeclarations

/-!
# Conversion and typing under changes of the context

Conversion does not read the context, so it is kept by every operation on free variables, in
environments whose stored terms are closed. Typing is kept when assumptions are inserted and
when assumptions are replaced by convertible ones.

## Main results

* `Conv.onFree`: convertible terms stay convertible under an operation on free variables.
* `HasType.weaken`: a typing holds in every longer context.
* `HasType.changeContext`: a typing holds under convertible assumptions.
-/

namespace NpaCore.Kernel

open NpaCore.Expr

/-! ### Conversion -/

section Operations

variable {env : Env} {op : Nat → Expr → Expr}

theorem ActsOnFree.substLevels (acts : ActsOnFree op) {e : Expr} (h : e.ClosedAt 0)
    (depth : Nat) (names : List String) (levels : List Level) :
    op depth (e.substLevelsExpr names levels) = e.substLevelsExpr names levels := by
  have closed : (e.substLevelsExpr names levels).ClosedAt depth :=
    (closedAt_substLevelsExpr.mpr h).mono (Nat.zero_le depth)
  exact acts.closed closed

/-- The spine with the operation done in its arguments. -/
def IotaSpine.map (f : Expr → Expr) (spine : IotaSpine) : IotaSpine :=
  { spine with
    prefixArgs := spine.prefixArgs.map f
    constructorArgs := spine.constructorArgs.map f }

/-- The index arguments that are found in a closed domain are closed. -/
theorem directRecursiveIndexArgs_closed {data : InductiveDecl} {domain : Expr} {ctxLen : Nat}
    {indices : List Expr} (closed : domain.ClosedAt ctxLen)
    (h : directRecursiveIndexArgs data domain ctxLen = .ok indices) :
    ∀ index ∈ indices, index.ClosedAt ctxLen := by
  simp only [directRecursiveIndexArgs, Result.bind_eq_ok, Result.okOr_eq_ok, familyArgs,
    Except.ok.injEq] at h
  obtain ⟨args, family, _, _, _, _, rfl⟩ := h
  have spine := closed.collectApps
  split at family
  next name levels found heq =>
    rw [heq] at spine
    split at family
    next =>
      cases family
      exact fun index mem => spine.2 index (List.mem_of_mem_drop mem)
    next => cases family
  next => cases family

theorem IotaField.onFree (acts : ActsOnFree op) {spine : IotaSpine} {domain field : Expr}
    {ctxLen : Nat} {minorArgs : List Expr} (closed : domain.ClosedAt ctxLen)
    (inside : ctxLen ≤ spine.constructorArgs.length)
    (h : IotaField env spine domain field ctxLen minorArgs) (depth : Nat) :
    IotaField env (spine.map (op depth)) domain (op depth field) ctxLen
      (minorArgs.map (op depth)) := by
  cases h with
  | plain other => exact .plain other
  | @recursive data recursorName indices family occurrence =>
    have below := directRecursiveIndexArgs_closed closed occurrence
    -- the indices are stated over the arguments before the field, and over nothing else
    have instances : (spine.instances ctxLen indices).map (op depth) =
        (spine.map (op depth)).instances ctxLen indices := by
      simp only [IotaSpine.instances, IotaSpine.map, List.map_map, ← List.map_take]
      refine List.map_congr_left fun index mem => ?_
      have enough : (index.substLevelsExpr spine.universeParams spine.levels).ClosedAt
          (0 + (spine.constructorArgs.take ctxLen).length) := by
        rw [Nat.zero_add, List.length_take, Nat.min_eq_left inside]
        exact closedAt_substLevelsExpr.mpr (below index mem)
      exact acts.instTelescope _ enough
    have call : op depth (apps (.const recursorName spine.levels)
        (spine.prefixArgs ++ spine.instances ctxLen indices ++ [field])) =
        apps (.const recursorName (spine.map (op depth)).levels)
          ((spine.map (op depth)).prefixArgs ++
            (spine.map (op depth)).instances ctxLen indices ++ [op depth field]) := by
      rw [acts.apps, acts.const, List.map_append, List.map_append, instances]
      rfl
    rw [List.map_cons, List.map_singleton, call]
    exact .recursive family occurrence

theorem IotaFields.onFree (acts : ActsOnFree op) {spine : IotaSpine} {ctxLen : Nat}
    {fields : List (Expr × Expr)} {minorArgs : List Expr}
    (closed : ∀ index (field : Expr × Expr), fields[index]? = some field →
      field.2.ClosedAt (ctxLen + index))
    (inside : ctxLen + fields.length ≤ spine.constructorArgs.length)
    (h : IotaFields env spine ctxLen fields minorArgs) (depth : Nat) :
    IotaFields env (spine.map (op depth)) ctxLen
      (fields.map fun field => (op depth field.1, field.2)) (minorArgs.map (op depth)) := by
  induction h with
  | nil => exact .nil
  | @cons ctxLen field domain rest first others head tail ih =>
    rw [List.map_cons, List.map_append]
    rw [List.length_cons] at inside
    apply IotaFields.cons
    · exact head.onFree acts (closed 0 (field, domain) rfl) (by omega) depth
    · apply ih
      · intro index other found
        rw [Nat.add_right_comm, Nat.add_assoc]
        exact closed (index + 1) other found
      · omega

theorem Iota.onFree (acts : ActsOnFree op) (closed : env.Closed) {lhs rhs : Expr}
    (h : Iota env lhs rhs) (depth : Nat) : Iota env (op depth lhs) (op depth rhs) := by
  cases h with
  | @intro recursorName inductiveName universeParams declName ty rules levels constructorLevels data
      constructor constructorIndex offset args constructorArgs minorArgs minor recursor family owned
      major position premise params saturated fields =>
    have fieldsClosed : ∀ index (field : Expr × Expr),
        ((constructorArgs.drop data.params.length).zip
          (constructor.ty.peelPiDomains.1.drop data.params.length))[index]? = some field →
        field.2.ClosedAt (data.params.length + index) := by
      intro index field found
      have here := (List.getElem?_zip_eq_some.mp found).2
      rw [List.getElem?_drop] at here
      have constructorClosed := closed.constructor family (List.mem_of_getElem? owned)
      simpa using constructorClosed.domain here
    have inside : data.params.length + ((constructorArgs.drop data.params.length).zip
        (constructor.ty.peelPiDomains.1.drop data.params.length)).length ≤
        constructorArgs.length := by
      rw [List.length_zip, List.length_drop]
      omega
    have mapped := fields.onFree acts fieldsClosed inside depth
    have major' : (args.map (op depth))[rules.majorIndex]? = some (apps
        (.const constructor.name constructorLevels) (constructorArgs.map (op depth))) := by
      rw [List.getElem?_map, major, Option.map_some, acts.apps, acts.const]
    have premise' : (args.map (op depth))[rules.minorStart + offset + constructorIndex]? =
        some (op depth minor) := by
      rw [List.getElem?_map, premise, Option.map_some]
    rw [acts.apps, acts.apps, acts.apps, acts.const, List.map_drop]
    apply Iota.intro recursor family owned major' position premise'
    · rwa [List.length_map]
    · rwa [← List.map_drop, List.length_map]
    · rw [← List.map_drop, List.zip_map_left, ← List.map_take]
      exact mapped

/-- Conversion does not depend on what the free variables stand for. -/
theorem Conv.onFree (acts : ActsOnFree op) (closed : env.Closed) {a b : Expr} (h : Conv env a b)
    (depth : Nat) : Conv env (op depth a) (op depth b) := by
  induction h generalizing depth with
  | refl e => exact .refl _
  | symm _ ih => exact .symm (ih depth)
  | trans _ _ ih ih' => exact .trans (ih depth) (ih' depth)
  | sort same =>
    rw [acts.sort, acts.sort]
    exact .sort same
  | const same =>
    rw [acts.const, acts.const]
    exact .const same
  | app _ _ ihFn ihArg =>
    rw [acts.app, acts.app]
    exact .app (ihFn depth) (ihArg depth)
  | lam _ _ ihTy ihBody =>
    rw [acts.lam, acts.lam]
    exact .lam (ihTy depth) (ihBody (depth + 1))
  | pi _ _ ihTy ihBody =>
    rw [acts.pi, acts.pi]
    exact .pi (ihTy depth) (ihBody (depth + 1))
  | beta =>
    rw [acts.app, acts.lam, acts.instVar]
    exact .beta
  | delta declared =>
    rw [acts.const, ActsOnFree.substLevels acts (closed.value declared)]
    exact .delta declared
  | iota step => exact .iota (step.onFree acts closed depth)

end Operations

theorem Conv.lift {env : Env} (closed : env.Closed) {a b : Expr} (h : Conv env a b)
    (amount cutoff : Nat) :
    Conv env (NpaCore.Expr.lift amount cutoff a) (NpaCore.Expr.lift amount cutoff b) :=
  h.onFree (actsOnFree_lift amount cutoff) closed 0

theorem Conv.instVar {env : Env} (closed : env.Closed) {a b : Expr} (h : Conv env a b)
    (arg : Expr) : Conv env (NpaCore.Expr.instVar a arg) (NpaCore.Expr.instVar b arg) :=
  h.onFree (actsOnFree_substVar arg 0) closed 0

/-! ### Contexts -/

section Contexts

variable {env : Env} {universeContext : UniverseContext}

theorem Ctx.lookup_eq_ok {ctx : Ctx} {index : Nat} {ty : Expr} :
    ctx.lookup index = .ok ty ↔
      index < ctx.locals.length ∧ ctx.locals[ctx.locals.length - 1 - index]? = some ty := by
  simp only [Ctx.lookup, Result.okOr_eq_ok]
  constructor
  · intro h
    split at h
    next inside => exact ⟨inside, h⟩
    next => cases h
  · rintro ⟨inside, found⟩
    rw [if_pos inside, found]

/-- The assumptions `inner`, once `amount` assumptions are inserted before them. -/
def liftLocals (amount : Nat) (inner : List Expr) : List Expr :=
  inner.mapIdx fun position ty => NpaCore.Expr.lift amount position ty

theorem liftLocals_concat (amount : Nat) (inner : List Expr) (ty : Expr) :
    liftLocals amount (inner ++ [ty]) =
      liftLocals amount inner ++ [NpaCore.Expr.lift amount inner.length ty] :=
  List.mapIdx_concat

theorem pushAssumption_liftLocals (base extra inner : List Expr) (ty : Expr) :
    Ctx.pushAssumption ⟨base ++ extra ++ liftLocals extra.length inner⟩
        (NpaCore.Expr.lift extra.length inner.length ty) =
      ⟨base ++ extra ++ liftLocals extra.length (inner ++ [ty])⟩ := by
  rw [liftLocals_concat, ← List.append_assoc]
  rfl

/-- The type of a variable, after assumptions have been inserted. -/
theorem lookup_weaken (extra : List Expr) {base inner : List Expr} {index : Nat} {ty : Expr}
    (found : Ctx.lookup ⟨base ++ inner⟩ index = .ok ty) :
    (index < inner.length ∧ Ctx.lookup ⟨base ++ extra ++ liftLocals extra.length inner⟩ index =
        .ok (NpaCore.Expr.lift extra.length (inner.length - 1 - index) ty)) ∨
      (inner.length ≤ index ∧ Ctx.lookup ⟨base ++ extra ++ liftLocals extra.length inner⟩
        (index + extra.length) = .ok ty) := by
  obtain ⟨inside, found⟩ := Ctx.lookup_eq_ok.mp found
  simp only [List.length_append] at inside found
  have total : (liftLocals extra.length inner).length = inner.length := List.length_mapIdx
  by_cases within : index < inner.length
  · left
    refine ⟨within, Ctx.lookup_eq_ok.mpr ⟨?_, ?_⟩⟩
    · simp only [List.length_append, total]
      omega
    · rw [List.getElem?_append_right (by omega)] at found
      simp only [List.length_append, total]
      rw [List.getElem?_append_right (by simp only [List.length_append]; omega)]
      have place : base.length + extra.length + inner.length - 1 - index -
          (base ++ extra).length = inner.length - 1 - index := by
        simp only [List.length_append]
        omega
      have old : base.length + inner.length - 1 - index - base.length =
          inner.length - 1 - index := by omega
      rw [old] at found
      rw [place, liftLocals, List.getElem?_mapIdx, found]
      rfl
  · right
    refine ⟨Nat.le_of_not_lt within, Ctx.lookup_eq_ok.mpr ⟨?_, ?_⟩⟩
    · simp only [List.length_append, total]
      omega
    · rw [List.getElem?_append_left (by omega)] at found
      simp only [List.length_append, total]
      have place : base.length + extra.length + inner.length - 1 - (index + extra.length) =
          base.length + inner.length - 1 - index := by omega
      rw [place, List.append_assoc, List.getElem?_append_left (by omega)]
      exact found

/-! ### Typing -/

theorem HasType.weakenUnder (closed : env.Closed) {base inner : List Expr} {e ty : Expr}
    (extra : List Expr) (h : HasType env universeContext ⟨base ++ inner⟩ e ty) :
    HasType env universeContext ⟨base ++ extra ++ liftLocals extra.length inner⟩
      (NpaCore.Expr.lift extra.length inner.length e)
      (NpaCore.Expr.lift extra.length inner.length ty) := by
  generalize hctx : (Ctx.mk (base ++ inner)) = ctx at h
  induction h generalizing inner with
  | sort scope => exact .sort scope
  | @bvar ctx index ty found =>
    subst hctx
    rcases lookup_weaken extra found with ⟨within, moved⟩ | ⟨beyond, moved⟩
    · have typed : HasType env universeContext _ _ _ := .bvar moved
      have place : inner.length = inner.length - 1 - index + (index + 1) := by omega
      rw [← lift_lift_above (Nat.zero_le _), ← place] at typed
      rwa [NpaCore.Expr.lift, if_pos within]
    · have typed : HasType env universeContext _ _ _ := .bvar moved
      rw [NpaCore.Expr.lift, if_neg (Nat.not_lt.mpr beyond),
        lift_lift_within (Nat.zero_le _) (by omega)]
      rwa [Nat.add_right_comm, Nat.add_comm (index + 1)] at typed
  | const declared arity wellFormed constraints =>
    rw [lift_closed ((closedAt_substLevelsExpr.mpr (closed.type declared)).mono (Nat.zero_le _))]
    exact .const declared arity wellFormed constraints
  | @pi ctx binder ty body u v _ _ ihDomain ihCodomain =>
    subst hctx
    have under := @ihCodomain (inner ++ [ty]) (by simp [Ctx.pushAssumption])
    rw [← pushAssumption_liftLocals, List.length_append, List.length_singleton] at under
    exact .pi (ihDomain rfl) under
  | @lam ctx binder ty body bodyTy u _ _ ihDomain ihCodomain =>
    subst hctx
    have under := @ihCodomain (inner ++ [ty]) (by simp [Ctx.pushAssumption])
    rw [← pushAssumption_liftLocals, List.length_append, List.length_singleton] at under
    exact .lam (ihDomain rfl) under
  | @app ctx fn arg binder ty body _ _ ihFn ihArg =>
    have inst := lift_substVar_above (a := extra.length) arg (Nat.zero_le inner.length) body
    rw [NpaCore.Expr.instVar, inst]
    exact .app (ihFn hctx) (ihArg hctx)
  | conv _ converts ih => exact .conv (ih hctx) (converts.lift closed _ _)

/-- A typing holds after more assumptions. -/
theorem HasType.weaken (closed : env.Closed) {locals : List Expr} {e ty : Expr}
    (h : HasType env universeContext ⟨locals⟩ e ty) (extra : List Expr) :
    HasType env universeContext ⟨locals ++ extra⟩ (NpaCore.Expr.lift extra.length 0 e)
      (NpaCore.Expr.lift extra.length 0 ty) := by
  have whole : HasType env universeContext ⟨locals ++ []⟩ e ty := by rwa [List.append_nil]
  simpa [liftLocals] using HasType.weakenUnder closed extra whole

theorem forall₂_getElem?_eq_some {α : Type} {R : α → α → Prop} {xs ys : List α} (h : List.Forall₂ R xs ys)
    {index : Nat} {x : α} (found : xs[index]? = some x) : ∃ y, ys[index]? = some y ∧ R x y := by
  induction h generalizing index with
  | nil => simp at found
  | cons head _ ih =>
    cases index with
    | zero =>
      cases found
      exact ⟨_, rfl, head⟩
    | succ index => exact ih (by simpa using found)

/-- Assumptions may be replaced by convertible ones. -/
theorem HasType.changeContext (closed : env.Closed) {ctx ctx' : Ctx} {e ty : Expr}
    (h : HasType env universeContext ctx e ty)
    (same : List.Forall₂ (Conv env) ctx.locals ctx'.locals) :
    HasType env universeContext ctx' e ty := by
  have push : ∀ {ctx ctx' : Ctx}, List.Forall₂ (Conv env) ctx.locals ctx'.locals → ∀ ty,
      List.Forall₂ (Conv env) (ctx.pushAssumption ty).locals (ctx'.pushAssumption ty).locals := by
    intro ctx ctx' same ty
    exact List.rel_append same (.cons (.refl ty) .nil)
  induction h generalizing ctx' with
  | sort scope => exact .sort scope
  | bvar found =>
    obtain ⟨inside, found⟩ := Ctx.lookup_eq_ok.mp found
    rw [same.length_eq] at inside found
    obtain ⟨ty', found', converts⟩ := forall₂_getElem?_eq_some same found
    exact .conv (.bvar (Ctx.lookup_eq_ok.mpr ⟨inside, found'⟩)) (converts.lift closed _ _).symm
  | const declared arity wellFormed constraints => exact .const declared arity wellFormed constraints
  | pi _ _ ihDomain ihCodomain => exact .pi (ihDomain same) (ihCodomain (push same _))
  | lam _ _ ihDomain ihCodomain => exact .lam (ihDomain same) (ihCodomain (push same _))
  | app _ _ ihFn ihArg => exact .app (ihFn same) (ihArg same)
  | conv _ converts ih => exact .conv (ih same) converts

end Contexts

end NpaCore.Kernel
