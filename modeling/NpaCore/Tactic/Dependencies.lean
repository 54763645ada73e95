import NpaCore.Tactic.History

/-!
# Dependencies between metavariables

An assigned metavariable depends on those its expression mentions. A step may mention the
metavariables it makes, which nothing else depends on yet, and old ones only when everything
they depend on is assigned. So there is never a cycle, and once no goal is open every
metavariable stands for an expression without metavariables.

## Main results

* `Reachable.founded`: in every state that a proof reaches, dependencies are well founded.
* `Reachable.resolved`: when no goal is open, every metavariable is resolved.
-/

namespace NpaCore.Tactic

open NpaCore.Kernel (Allocator)

/-- The metavariable is assigned, and so is all that its assignment depends on. -/
inductive Resolved (store : MetaVarStore) : MetaVarId → Prop
  | intro {id found expr} : store.get id = some found → found.assignment = some expr →
    (∀ other ∈ expr.metas, Resolved store other) → Resolved store id

/-- The metavariable exists, and no chain of dependencies from it goes on without end. -/
inductive Founded (store : MetaVarStore) : MetaVarId → Prop
  | isOpen {id found} : store.get id = some found → found.assignment = none → Founded store id
  | assigned {id found expr} : store.get id = some found → found.assignment = some expr →
    (∀ other ∈ expr.metas, Founded store other) → Founded store id

section Store

variable {store later : MetaVarStore} {id : MetaVarId}

theorem Resolved.founded (h : Resolved store id) : Founded store id := by
  induction h with
  | intro get assigned _ ih => exact .assigned get assigned ih

theorem Founded.mem_keys (h : Founded store id) : id ∈ store.keys := by
  cases h with
  | isOpen get _ => exact MetaVarStore.mem_keys.mpr ⟨_, get⟩
  | assigned get _ _ => exact MetaVarStore.mem_keys.mpr ⟨_, get⟩

/-- Where nothing is unassigned, a chain of dependencies ends in core expressions. -/
theorem Founded.resolved (h : Founded store id)
    (closed : ∀ id found, store.get id = some found → found.assignment ≠ none) :
    Resolved store id := by
  induction h with
  | isOpen get unassigned => exact absurd unassigned (closed _ _ get)
  | assigned get assigned _ ih => exact .intro get assigned ih

/-- What a metavariable depends on, directly or through others. -/
inductive Reaches (store : MetaVarStore) : MetaVarId → MetaVarId → Prop
  | direct {id found expr other} : store.get id = some found → found.assignment = some expr →
    other ∈ expr.metas → Reaches store id other
  | trans {id middle other} : Reaches store id middle → Reaches store middle other →
    Reaches store id other

theorem Reaches.founded {other : MetaVarId} (h : Reaches store id other)
    (founded : Founded store id) : Founded store other := by
  induction h with
  | direct get assigned mem =>
    cases founded with
    | isOpen get' unassigned =>
      obtain rfl := Option.some.inj (get.symm.trans get')
      rw [assigned] at unassigned
      cases unassigned
    | assigned get' assigned' below =>
      obtain rfl := Option.some.inj (get.symm.trans get')
      obtain rfl := Option.some.inj (assigned.symm.trans assigned')
      exact below _ mem
  | trans _ _ ih ih' => exact ih' (ih founded)

/-- Every chain starts with one dependency. -/
theorem Reaches.first {other : MetaVarId} (h : Reaches store id other) :
    ∃ found expr next, store.get id = some found ∧ found.assignment = some expr ∧
      next ∈ expr.metas ∧ (next = other ∨ Reaches store next other) := by
  induction h with
  | direct get assigned mem => exact ⟨_, _, _, get, assigned, mem, .inl rfl⟩
  | trans _ second ih _ =>
    obtain ⟨found, expr, next, get, assigned, mem, rfl | rest⟩ := ih
    · exact ⟨found, expr, next, get, assigned, mem, .inr second⟩
    · exact ⟨found, expr, next, get, assigned, mem, .inr (rest.trans second)⟩

/-- No metavariable depends on itself. -/
theorem Founded.acyclic (h : Founded store id) : ¬ Reaches store id id := by
  induction h with
  | isOpen get unassigned =>
    intro cycle
    obtain ⟨_, _, _, get', assigned, _⟩ := cycle.first
    obtain rfl := Option.some.inj (get.symm.trans get')
    rw [assigned] at unassigned
    cases unassigned
  | assigned get assigned _ ih =>
    intro cycle
    obtain ⟨_, _, next, get', assigned', mem, rest⟩ := cycle.first
    obtain rfl := Option.some.inj (get.symm.trans get')
    obtain rfl := Option.some.inj (assigned.symm.trans assigned')
    -- the cycle passes through the first dependency, so it is one of that too
    rcases rest with rfl | rest
    · exact ih _ mem cycle
    · exact ih next mem (rest.trans (.direct get assigned mem))

end Store

/-! ### What a check establishes -/

variable {id : MetaVarId}

section Check

variable {store : MetaVarStore} {allowedNewMetas : List MetaVarId} {assigningMeta : MetaVarId}

/-- An expansion asks for every metavariable of the expression. -/
theorem expandProofExprMaybe_metas
    {inferMeta : LocalContext → MetaVarId → TacticResult CheckedProofExpr} {ctx : LocalContext}
    {expr : ProofExpr} {result : Option Kernel.Expr}
    (h : expandProofExprMaybe inferMeta ctx expr = .ok result)
    (mem : id ∈ expr.metas) : ∃ inner checked, inferMeta inner id = .ok checked := by
  induction expr generalizing ctx result with
  | core core => cases mem
  | metaVar other =>
    obtain rfl := List.mem_singleton.mp mem
    simp only [expandProofExprMaybe, Result.bind_eq_ok] at h
    obtain ⟨checked, asked, _⟩ := h
    exact ⟨ctx, checked, asked⟩
  | app fn arg ihFn ihArg =>
    simp only [expandProofExprMaybe, Result.bind_eq_ok] at h
    obtain ⟨_, first, _, second, _⟩ := h
    rcases List.mem_append.mp mem with mem | mem
    · exact ihFn first mem
    · exact ihArg second mem
  | lam binder ty body ih =>
    simp only [expandProofExprMaybe, Result.bind_eq_ok] at h
    obtain ⟨_, inner, _⟩ := h
    exact ih inner mem

/-- What a reference that is answered has found. -/
theorem inferMetaRefAt_eq_ok {depth : Nat} {visiting : List MetaVarId} {ctx : LocalContext}
    {checked : CheckedProofExpr}
    (h : inferMetaRefAt store allowedNewMetas assigningMeta (depth + 1) visiting ctx id =
      .ok checked) :
    ∃ found, store.get id = some found ∧ id ≠ assigningMeta ∧ found.context <+: ctx ∧
      (found.assignment = none ∧ id ∈ allowedNewMetas ∨
        ∃ expr result, found.assignment = some expr ∧ id ∉ visiting ∧
          expandProofExprMaybe (inferMetaRefAt store allowedNewMetas assigningMeta depth
            (id :: visiting)) found.context expr = .ok result) := by
  simp only [inferMetaRefAt, Result.bind_eq_ok, Result.ensure_eq_ok, Result.okOr_eq_ok,
    decide_eq_true_eq, machineLocalContextIsPrefix_iff] at h
  obtain ⟨_, differs, found, get, _, within, _, _, h⟩ := h
  refine ⟨found, get, differs, within, ?_⟩
  cases assignment : found.assignment with
  | none =>
    simp only [assignment] at h
    split at h
    next allowed => exact .inl ⟨rfl, allowed⟩
    next => cases h
  | some expr =>
    simp only [assignment, Result.bind_eq_ok, Result.ensure_eq_ok, decide_eq_true_eq] at h
    obtain ⟨_, unvisited, result, expanded, _⟩ := h
    exact .inr ⟨expr, result, rfl, unvisited, expanded⟩

/-- Where no assignment mentions a new metavariable, an answered reference is to a new one or to
    a resolved one. -/
theorem inferMetaRefAt_resolved
    (older : ∀ id found expr, store.get id = some found → found.assignment = some expr →
      ∀ other ∈ expr.metas, other ∉ allowedNewMetas)
    {depth : Nat} {visiting : List MetaVarId} {ctx : LocalContext} {checked : CheckedProofExpr}
    (h : inferMetaRefAt store allowedNewMetas assigningMeta depth visiting ctx id = .ok checked) :
    id ∈ allowedNewMetas ∨ Resolved store id := by
  induction depth generalizing visiting ctx id checked with
  | zero => cases h
  | succ depth ih =>
    obtain ⟨found, get, _, _, ⟨_, allowed⟩ | ⟨expr, result, assigned, _, expanded⟩⟩ :=
      inferMetaRefAt_eq_ok h
    · exact .inl allowed
    · right
      refine .intro get assigned fun other mem => ?_
      -- the reference was followed, so what it mentions was asked for one level below
      obtain ⟨inner, answered, asked⟩ := expandProofExprMaybe_metas expanded mem
      exact (ih asked).resolve_left (older id found expr get assigned other mem)

variable {env : Kernel.Env} {alloc : Allocator} {delta : List String}

/-- Every metavariable of an expression has been answered. -/
def Answered (store : MetaVarStore) (allowedNewMetas : List MetaVarId) (assigningMeta : MetaVarId)
    (expr : ProofExpr) : Prop :=
  ∀ id ∈ expr.metas, ∃ ctx checked,
    inferMetaRef store allowedNewMetas assigningMeta ctx id = .ok checked

theorem Answered.app {fn arg : ProofExpr} (hfn : Answered store allowedNewMetas assigningMeta fn)
    (harg : Answered store allowedNewMetas assigningMeta arg) :
    Answered store allowedNewMetas assigningMeta (.app fn arg) := by
  intro id mem
  rcases List.mem_append.mp mem with mem | mem
  · exact hfn id mem
  · exact harg id mem

/-- Checking and inference ask for every metavariable of the expression; by induction on it, for
    both at once. -/
theorem check_answered (expr : ProofExpr) :
    (∀ ctx expected fuel result left,
      checkProofExpr env alloc delta store allowedNewMetas assigningMeta expr ctx expected fuel =
        (.ok result, left) → Answered store allowedNewMetas assigningMeta expr) ∧
    ∀ ctx fuel result left,
      inferProofExpr env alloc delta store allowedNewMetas assigningMeta expr ctx fuel =
        (.ok result, left) → Answered store allowedNewMetas assigningMeta expr := by
  induction expr with
  | core core =>
    constructor
    · intro ctx expected fuel result left _ id mem
      cases mem
    · intro ctx fuel result left _ id mem
      cases mem
  | metaVar id =>
    have answered : ∀ ctx checked,
        inferMetaRef store allowedNewMetas assigningMeta ctx id = .ok checked →
        Answered store allowedNewMetas assigningMeta (.metaVar id) := by
      intro ctx checked asked other mem
      obtain rfl := List.mem_singleton.mp mem
      exact ⟨ctx, checked, asked⟩
    constructor
    · intro ctx expected fuel result left h
      simp only [checkProofExpr, checkInferred, Run.bind_eq_ok, Run.lift_eq_ok] at h
      obtain ⟨checked, _, ⟨asked, _⟩, _⟩ := h
      exact answered ctx checked asked
    · intro ctx fuel result left h
      simp only [inferProofExpr, Run.lift_eq_ok] at h
      exact answered ctx result h.1
  | app fn arg ihFn ihArg =>
    have application : ∀ ctx fuel result left,
        inferApp env alloc delta assigningMeta ctx
          (inferProofExpr env alloc delta store allowedNewMetas assigningMeta fn ctx)
          (fun ty => checkProofExpr env alloc delta store allowedNewMetas assigningMeta arg ctx ty)
          fuel = (.ok result, left) → Answered store allowedNewMetas assigningMeta (.app fn arg) := by
      intro ctx fuel result left h
      simp only [inferApp, Run.bind_eq_ok] at h
      obtain ⟨_, _, first, _, _, _, whnf, _, _, h⟩ := h
      refine (ihFn.2 _ _ _ _ first).app ?_
      cases whnf with
      | pi binder ty body =>
        simp only [Run.bind_eq_ok] at h
        obtain ⟨_, _, second, _⟩ := h
        exact ihArg.1 _ _ _ _ _ second
      | sort _ | bvar _ | const _ _ | app _ _ | lam _ _ _ =>
        simp only [Run.fail_eq_ok] at h
    constructor
    · intro ctx expected fuel result left h
      simp only [checkProofExpr, checkInferred, Run.bind_eq_ok] at h
      obtain ⟨_, _, first, _⟩ := h
      exact application _ _ _ _ first
    · intro ctx fuel result left h
      rw [inferProofExpr] at h
      exact application _ _ _ _ h
  | lam binder ty body ih =>
    constructor
    · intro ctx expected fuel result left h
      simp only [checkProofExpr, checkLamProofExpr, Run.bind_eq_ok] at h
      obtain ⟨_, _, _, _, _, _, whnf, _, _, h⟩ := h
      cases whnf with
      | pi other domain codomain =>
        simp only [Run.bind_eq_ok] at h
        obtain ⟨same, _, _, h⟩ := h
        cases same with
        | true =>
          simp only [if_pos, Run.bind_eq_ok] at h
          obtain ⟨_, _, inner, _⟩ := h
          exact ih.1 _ _ _ _ _ inner
        | false => simp [Run.fail_eq_ok] at h
      | sort _ | bvar _ | const _ _ | app _ _ | lam _ _ _ =>
        simp only [Run.fail_eq_ok] at h
    · intro ctx fuel result left h
      simp only [inferProofExpr, inferLam, Run.bind_eq_ok] at h
      obtain ⟨_, _, _, _, _, _, _, _, inner, _⟩ := h
      exact ih.2 _ _ _ _ inner

end Check

/-! ### Every reachable state -/

section Steps

variable {hashing : Hashing} {alloc : Allocator} {state next : MachineProofState}
  {goalId : GoalId} {proofExpr : ProofExpr} {specs : List MachineNewGoalSpec}
  {allocated : MetaVarStore} {before after : List GoalId} {found : MachineMetaVar}

/-- Assigning a metavariable leaves alone what does not depend on it. -/
theorem Resolved.assign {store : MetaVarStore} (h : Resolved store id)
    (here : store.get goalId = some found) (unassigned : found.assignment = none) :
    Resolved (store.assign goalId proofExpr) id := by
  induction h with
  | @intro id entry expr get assigned _ ih =>
    -- what is resolved is assigned already
    have differs : id ≠ goalId := by
      rintro rfl
      obtain rfl := Option.some.inj (here.symm.trans get)
      rw [unassigned] at assigned
      cases assigned
    exact .intro ((MetaVarStore.get_assign_of_ne differs).trans get) assigned ih

/-- A new metavariable is unassigned after the step. -/
theorem Effect.new_unassigned
    (effect : Effect hashing alloc state next goalId proofExpr specs allocated before after found)
    (new : id ∈ List.range' state.metas.nextId specs.length) :
    ∃ entry, next.metas.get id = some entry ∧ entry.assignment = none := by
  have old := effect.consistent.bounded goalId (MetaVarStore.mem_keys.mpr ⟨found, effect.get_eq⟩)
  obtain ⟨index, inside, rfl⟩ := List.mem_range'.mp new
  rw [Nat.one_mul]
  have get := effect.allocates.new index inside _ (List.getElem?_eq_getElem inside)
  have differs : state.metas.nextId + index ≠ goalId :=
    Nat.ne_of_gt (Nat.lt_of_lt_of_le old (Nat.le_add_right _ _))
  obtain rfl := effect.next_eq
  exact ⟨_, (MetaVarStore.get_assign_of_ne differs).trans get, rfl⟩

/-- What an assigned expression mentions is new or resolved. -/
theorem Effect.mentions
    (effect : Effect hashing alloc state next goalId proofExpr specs allocated before after found)
    (founded : ∀ id ∈ state.metas.keys, Founded state.metas id) :
    ∀ id ∈ proofExpr.metas,
      id ∈ List.range' state.metas.nextId specs.length ∨ Resolved allocated id := by
  obtain ⟨fuel, left, result, checked⟩ := effect.checked
  have consistent := effect.consistent
  intro id mem
  obtain ⟨ctx, answer, asked⟩ := (check_answered proofExpr).1 _ _ _ _ _ checked id mem
  refine inferMetaRefAt_resolved ?_ asked
  intro other entry expr get assigned dependency mem' new
  rcases effect.allocates.get_cases consistent.bounded get with ⟨_, old⟩ | ⟨_, spec, _, rfl⟩
  · -- an old assignment mentions old metavariables only
    have other_founded := founded other (MetaVarStore.mem_keys.mpr ⟨entry, old⟩)
    have below := (Reaches.direct old assigned mem').founded other_founded
    have inside := consistent.bounded dependency below.mem_keys
    exact Nat.lt_irrefl _ (Nat.lt_of_lt_of_le inside (List.mem_range'_1.mp new).1)
  · cases assigned

theorem Effect.founded
    (effect : Effect hashing alloc state next goalId proofExpr specs allocated before after found)
    (founded : ∀ id ∈ state.metas.keys, Founded state.metas id) :
    ∀ id ∈ next.metas.keys, Founded next.metas id := by
  have consistent := effect.consistent
  have old := consistent.bounded goalId (MetaVarStore.mem_keys.mpr ⟨found, effect.get_eq⟩)
  have here : allocated.get goalId = some found :=
    (effect.allocates.old goalId old).trans effect.get_eq
  have mentions := effect.mentions founded
  have new : ∀ id ∈ List.range' state.metas.nextId specs.length, Founded next.metas id := by
    intro id mem
    obtain ⟨entry, get, unassigned⟩ := effect.new_unassigned mem
    exact .isOpen get unassigned
  obtain rfl := effect.next_eq
  -- the goal depends on new metavariables, which are open, and on resolved ones
  have self : Founded (allocated.assign goalId proofExpr) goalId := by
    apply Founded.assigned (MetaVarStore.get_assign_self.trans (by rw [here]; rfl)) rfl
    intro other mem
    rcases mentions other mem with isNew | resolved
    · exact new other isNew
    · exact (resolved.assign here effect.unassigned).founded
  have kept : ∀ id, Founded state.metas id → Founded (allocated.assign goalId proofExpr) id := by
    intro id h
    -- the chain of an old metavariable may now go on through the goal
    induction h with
    | @isOpen id entry get unassigned =>
      by_cases same : id = goalId
      · exact same ▸ self
      · have inside := consistent.bounded id (MetaVarStore.mem_keys.mpr ⟨entry, get⟩)
        refine .isOpen ?_ unassigned
        rw [MetaVarStore.get_assign_of_ne same, effect.allocates.old id inside, get]
    | @assigned id entry expr get assigned _ ih =>
      by_cases same : id = goalId
      · exact same ▸ self
      · have inside := consistent.bounded id (MetaVarStore.mem_keys.mpr ⟨entry, get⟩)
        refine .assigned ?_ assigned ih
        rw [MetaVarStore.get_assign_of_ne same, effect.allocates.old id inside, get]
  intro id mem
  obtain ⟨entry, get⟩ := MetaVarStore.mem_keys.mp mem
  rcases get_assigned_cases consistent.bounded effect.allocates effect.get_eq get with
    ⟨rfl, _⟩ | ⟨_, _, get⟩ | ⟨_, isNew, _⟩
  · exact self
  · exact kept id (founded id (MetaVarStore.mem_keys.mpr ⟨entry, get⟩))
  · exact new id isNew

end Steps

theorem Reachable.founded {hashing : Hashing} {alloc : Allocator} {state : MachineProofState}
    (h : Reachable hashing alloc state) : ∀ id ∈ state.metas.keys, Founded state.metas id := by
  obtain ⟨spec, env, first, started, later⟩ := h
  induction later with
  | refl =>
    intro id mem
    simp only [startMachineProof, Result.bind_eq_ok, Except.ok.injEq] at started
    obtain ⟨_, _, _, _, _, _, rfl⟩ := started
    -- the only metavariable is the theorem's goal
    obtain rfl : id = 0 := List.mem_singleton.mp mem
    have get : (initialState spec env zeroHash).metas.get 0 =
        some ⟨0, 0, [], spec.theoremType, none, 0⟩ := rfl
    exact .isOpen get rfl
  | step _ now ih =>
    obtain ⟨goalId, proofExpr, specs, allocated, before, after, found, effect⟩ := now.effect
    exact effect.founded ih

/-- Where no goal is open, every metavariable stands for an expression without metavariables. -/
theorem Reachable.resolved {hashing : Hashing} {alloc : Allocator} {state : MachineProofState}
    (h : Reachable hashing alloc state) (closed : state.openGoals = []) :
    ∀ id ∈ state.metas.keys, Resolved state.metas id := by
  intro id mem
  apply (h.founded id mem).resolved
  intro other found get unassigned
  have listed := (h.invariant.consistent.isOpen other).mpr ⟨found, get, unassigned⟩
  rw [closed] at listed
  cases listed

/-- In every state that a proof reaches, no metavariable depends on itself, however indirectly;
    what a metavariable depends on exists; and once no goal is open every metavariable has an
    assignment that rests on assigned ones only. -/
theorem reachable_acyclic {hashing : Hashing} {alloc : Allocator} {state : MachineProofState}
    (h : Reachable hashing alloc state) :
    (∀ id, ¬ Reaches state.metas id id) ∧
      (∀ id other, Reaches state.metas id other → other ∈ state.metas.keys) ∧
      (state.openGoals = [] → ∀ id ∈ state.metas.keys, Resolved state.metas id) := by
  have founded : ∀ id other, Reaches state.metas id other → Founded state.metas id := by
    intro id other reaches
    obtain ⟨found, _, _, get, _⟩ := reaches.first
    exact h.founded id (MetaVarStore.mem_keys.mpr ⟨found, get⟩)
  refine ⟨?_, ?_, h.resolved⟩
  · intro id cycle
    exact (founded id id cycle).acyclic cycle
  · intro id other reaches
    exact (reaches.founded (founded id other reaches)).mem_keys

theorem reachable_acyclic_exampleRun : ∃ state,
    Reachable exampleHashing Kernel.noReuse state ∧ Resolved state.metas 0 := by
  obtain ⟨state, _, reachable, openGoals, metas⟩ := exampleRuns_prop.reachable
  obtain ⟨_, _, resolved⟩ := reachable_acyclic reachable
  exact ⟨state, reachable, resolved openGoals 0 (metas ▸ by decide)⟩

end NpaCore.Tactic
