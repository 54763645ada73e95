import NpaCore.Tactic.CheckSoundness

/-!
# Soundness of machine proofs

Every assignment of a proof state was checked once, in an earlier store. As assignments stay,
what was checked then holds of what the expressions stand for now.

## Main results

* `Reachable.checkedOnce`: the check that stands behind an assignment.
* `Reachable.wellTyped`: what a resolved metavariable stands for has its target as its type.
* `closedProof_sound`: a proof without open goals stands for a proof of the theorem.
-/

namespace NpaCore.Tactic

open NpaCore.Kernel (Ctx Allocator UniverseContext HasType)

variable {hashing : Hashing} {alloc : Allocator} {state : MachineProofState}

/-! ### The check behind an assignment -/

/-- The expression was checked against the metavariable in a store that the present one extends. -/
def CheckedOnce (alloc : Allocator) (state : MachineProofState) (id : MetaVarId)
    (found : MachineMetaVar) (expr : ProofExpr) : Prop :=
  ∃ store new fuel checked left, Extends store state.metas ∧
    checkProofExpr state.env.kernelEnv alloc state.root.universeParams store new id expr
      found.context found.target fuel = (.ok checked, left)

theorem Reachable.checkedOnce (h : Reachable hashing alloc state) {id : MetaVarId}
    {found : MachineMetaVar} {expr : ProofExpr} (get : state.metas.get id = some found)
    (assigned : found.assignment = some expr) : CheckedOnce alloc state id found expr := by
  obtain ⟨spec, env, first, started, later⟩ := h
  induction later generalizing id found expr with
  | refl =>
    -- at the start there is one metavariable, and it is not assigned
    have invariant := Invariant.start started
    have listed : first.openGoals = [0] := by
      simp only [startMachineProof, Result.bind_eq_ok, Except.ok.injEq] at started
      obtain ⟨_, _, _, _, _, _, rfl⟩ := started
      rfl
    have keys : first.metas.keys = [0] := by
      simp only [startMachineProof, Result.bind_eq_ok, Except.ok.injEq] at started
      obtain ⟨_, _, _, _, _, _, rfl⟩ := started
      rfl
    have mem := MetaVarStore.mem_keys.mpr ⟨found, get⟩
    rw [keys, ← listed] at mem
    obtain ⟨entry, same, unassigned⟩ := (invariant.consistent.isOpen id).mp mem
    obtain rfl := Option.some.inj (get.symm.trans same)
    rw [assigned] at unassigned
    cases unassigned
  | @step middle next _ now ih =>
    obtain ⟨goalId, proofExpr, specs, allocated, before, after, goal, effect⟩ := now.effect
    have history := effect.history
    have consistent := effect.consistent
    obtain ⟨fuel, left, checked, passed⟩ := effect.checked
    rcases get_assigned_cases consistent.bounded effect.allocates effect.get_eq
      (effect.next_eq ▸ get) with ⟨rfl, rfl⟩ | ⟨_, _, old⟩ | ⟨_, _, spec, _, rfl⟩
    · cases assigned
      have inside := consistent.bounded id (MetaVarStore.mem_keys.mpr ⟨goal, effect.get_eq⟩)
      have here : allocated.get id = some goal := (effect.allocates.old id inside).trans effect.get_eq
      refine ⟨allocated, List.range' middle.metas.nextId specs.length, fuel, checked, left, ?_, ?_⟩
      · rw [effect.next_eq]
        exact extends_assigned here effect.unassigned
      · rw [history.env, history.root]
        exact passed
    · obtain ⟨store, new, fuel, checked, left, kept, passed⟩ := ih old assigned
      refine ⟨store, new, fuel, checked, left, kept.trans history.metas, ?_⟩
      rw [history.env, history.root]
      exact passed
    · cases assigned

/-! ### Types of resolved metavariables -/

/-- What the store has in range was in range before. -/
theorem Extends.inRange {store later : MetaVarStore} (kept : Extends store later)
    (range : later.InRange) : store.InRange := by
  intro id found get
  obtain ⟨entry, get', follows⟩ := kept.follows id found get
  have inRange := range id entry get'
  constructor
  · rw [← follows.context]
    exact inRange.context
  · rw [← follows.target]
    exact inRange.target
  · intro expr assigned
    obtain rfl := follows.assigned assigned
    exact inRange.assignment expr assigned

/-- By induction on what the metavariable depends on. -/
theorem Reachable.wellTyped {universeContext : UniverseContext} (h : Reachable hashing alloc state)
    (trusted : Trusted state.env.kernelEnv state.root.universeParams universeContext)
    (range : state.metas.InRange) {id : MetaVarId} (resolved : Resolved state.metas id) :
    WellTyped state.env.kernelEnv universeContext state.metas id := by
  induction resolved with
  | @intro id found expr get assigned _ ih =>
    obtain ⟨store, new, fuel, checked, left, kept, passed⟩ := h.checkedOnce get assigned
    have inRange := range id found get
    have justified := (check_infer_sound trusted kept (kept.inRange range) expr).1 _ _ _ _ _
      inRange.context (inRange.assignment expr assigned) inRange.target passed
    obtain ⟨core, denotes, typed⟩ := justified.typed ih
    have own := Denotes.metaVar get (Nat.le_refl _) assigned denotes
    rw [Nat.sub_self, NpaCore.Expr.lift_zero] at own
    exact ⟨found, core, get, own, typed⟩

/-- The universe parameters of a proof were accepted when it started. -/
theorem Reachable.universeContext (h : Reachable hashing alloc state) :
    ∃ universeContext, UniverseContext.fromParams state.root.universeParams = .ok universeContext := by
  obtain ⟨spec, env, first, started, later⟩ := h
  rw [later.keeps.root]
  simp only [startMachineProof, Result.bind_eq_ok, Result.mapError_eq_ok, Except.ok.injEq] at started
  obtain ⟨_, _, _, sorted, _, _, rfl⟩ := started
  simp only [ensureTypeIsSort, Kernel.Env.infer, Result.bind_eq_ok] at sorted
  obtain ⟨_, ⟨universeContext, context, _⟩, _⟩ := sorted
  exact ⟨universeContext, context⟩

/-- Where no goal is open, the body of the proof stands for a proof of the theorem, without the
    kernel's last check; and what is extracted is that proof. -/
theorem closedProof_sound (h : Reachable hashing alloc state)
    (built : Kernel.Built Kernel.NoLevelLeak state.env.kernelEnv)
    (envRange : state.env.kernelEnv.InRange) (range : state.metas.InRange)
    (closed : state.openGoals = []) :
    ∃ universeContext proof,
      UniverseContext.fromParams state.root.universeParams = .ok universeContext ∧
      Denotes state.metas 0 state.root.body proof ∧
      HasType state.env.kernelEnv universeContext .new proof state.root.theoremType ∧
      ∀ extracted, extractClosedMachineProof hashing alloc state = .ok extracted →
        extracted = proof := by
  obtain ⟨universeContext, context⟩ := h.universeContext
  have invariant := h.invariant
  obtain ⟨root, get, ctx, target⟩ := invariant.root
  have resolved := h.resolved closed 0 (MetaVarStore.mem_keys.mpr ⟨root, get⟩)
  obtain ⟨found, proof, get', denotes, typed⟩ :=
    h.wellTyped (.of_built built envRange context) range resolved
  obtain rfl := Option.some.inj (get.symm.trans get')
  rw [ctx] at denotes typed
  rw [target] at typed
  have body : Denotes state.metas 0 state.root.body proof := by
    rw [invariant.body]
    exact denotes
  refine ⟨universeContext, proof, context, body, typed, ?_⟩
  intro extracted extracts
  simp only [extractClosedMachineProof, Result.bind_eq_ok, Except.ok.injEq] at extracts
  obtain ⟨_, _, _, _, other, expands, _, _, rfl⟩ := extracts
  have bodyRange : state.root.body.InRange ([] : LocalContext).length := by
    rw [invariant.body]
    change 0 < _
    decide
  exact (expandClosed_denotes range bodyRange expands).1.unique body

theorem new_inRange : Kernel.Env.new.InRange := by
  intro name decl declared
  cases declared

theorem exampleMetas_inRange : (exampleMetas propSort).InRange := by
  have each : ∀ entry ∈ (exampleMetas propSort).metas, entry.2.InRange := by
    intro entry mem
    rcases List.mem_cons.mp mem with rfl | mem
    · constructor
      · simp
      · exact ⟨trivial, trivial⟩
      · rintro expr ⟨⟩
        exact ⟨trivial, show 1 < 0x80000000 by decide⟩
    · obtain rfl := List.mem_singleton.mp mem
      constructor
      · intro localDecl here
        obtain rfl := List.mem_singleton.mp here
        exact trivial
      · exact trivial
      · rintro expr ⟨⟩
        exact (by decide : (NpaCore.Expr.bvar 0 : Kernel.Expr).InRange)
  intro id found get
  exact each (id, found) (MetaVarStore.get_eq_some.mp get)

theorem closedProof_sound_exampleRun : ∃ state universeContext proof,
    Reachable exampleHashing Kernel.noReuse state ∧ state.metas = exampleMetas propSort ∧
      Denotes state.metas 0 state.root.body proof ∧
      HasType state.env.kernelEnv universeContext .new proof state.root.theoremType := by
  obtain ⟨state, _, reachable, closed, metas, env, _⟩ := exampleRuns_prop.history
  have kernelEnv : state.env.kernelEnv = .new := by rw [env]; rfl
  obtain ⟨universeContext, proof, _, denotes, typed, _⟩ := closedProof_sound reachable
    (kernelEnv ▸ .start .memoOff) (kernelEnv ▸ new_inRange) (metas ▸ exampleMetas_inRange) closed
  exact ⟨state, universeContext, proof, reachable, metas, denotes, typed⟩

end NpaCore.Tactic
