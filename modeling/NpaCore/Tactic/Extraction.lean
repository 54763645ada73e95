import NpaCore.Kernel.Methods
import NpaCore.Syntax.Substitution
import NpaCore.Tactic.Dependencies

/-!
# Extraction of a closed proof

`extract_closed_machine_proof` and `extract_closed_machine_theorem_decl` of
`npa-tactic/src/lib.rs`: every metavariable is replaced by its assignment, moved to where the
metavariable stands, and the kernel checks the result against the theorem.

## Main results

* `Denotes.unique`, `Denotes.extends`: what an expression stands for is determined, and later
  steps do not change it.
* `expandMetaAt_error`: from a resolved metavariable the expansion can only fail where a context
  is not a prefix or an index leaves its range.
-/

namespace NpaCore.Tactic

open NpaCore.Kernel (Ctx Allocator)

/-! ### The source's expansion -/

def extractionContextDiag (id : MetaVarId) : Diagnostic :=
  (Diagnostic.new .invalidMetaContext s!"meta {id} context is not a prefix at extraction").withMeta id

/-- `expand_proof_expr`, `expandMeta` being the branch of a metavariable. -/
def expandProofExpr (expandMeta : LocalContext → MetaVarId → TacticResult Kernel.Expr) :
    LocalContext → ProofExpr → TacticResult Kernel.Expr
  | _, .core core => .ok core
  | ctx, .metaVar id => expandMeta ctx id
  | ctx, .app fn arg => do
    let fn ← expandProofExpr expandMeta ctx fn
    let arg ← expandProofExpr expandMeta ctx arg
    .ok (.app fn arg)
  | ctx, .lam binder ty body => do
    let body ← expandProofExpr expandMeta (ctx ++ [⟨binder, ty⟩]) body
    .ok (.lam binder ty body)

/-- The branch of a metavariable. One that is followed is not being visited, so `depth` never
    runs out when it starts above the number of the others. -/
def expandMetaAt (store : MetaVarStore) :
    Nat → List MetaVarId → LocalContext → MetaVarId → TacticResult Kernel.Expr
  | 0, _, _, id => .error (cycleDiag id)
  | depth + 1, visiting, ctx, id => do
    let found ← Result.okOr (store.get id)
      (dependencyDiag id s!"proof references unknown meta {id}")
    Result.ensure (machineLocalContextIsPrefix found.context ctx) (extractionContextDiag id)
    let assignment ← Result.okOr found.assignment
      (((Diagnostic.new .unresolvedGoal s!"meta {id} is unresolved").withGoal found.goalId).withMeta id)
    Result.ensure (id ∉ visiting) (cycleDiag id)
    let expanded ← expandProofExpr (expandMetaAt store depth (id :: visiting)) found.context assignment
    weakenTo ctx found expanded

/-- `expand_proof_expr` while nothing is being visited. -/
def expandClosed (store : MetaVarStore) (ctx : LocalContext) (expr : ProofExpr) :
    TacticResult Kernel.Expr :=
  expandProofExpr (expandMetaAt store (store.len + 1) []) ctx expr

section Extract

variable (hashing : Hashing) (alloc : Allocator) (state : MachineProofState)

def extractClosedMachineProof : TacticResult Kernel.Expr := do
  validateMachineProofState hashing state
  Result.ensure state.openGoals.isEmpty
    (.new .unresolvedGoal s!"proof has {state.openGoals.length} open goals")
  let proof ← expandClosed state.metas [] state.root.body
  (state.env.kernelEnv.check alloc Ctx.new state.root.universeParams proof
    state.root.theoremType).mapError fun error =>
      (Diagnostic.new .kernelRejected "kernel rejected extracted proof").withKernelError error
  .ok proof

def extractClosedMachineTheoremDecl : TacticResult Kernel.Declaration := do
  let proof ← extractClosedMachineProof hashing alloc state
  .ok (.theoremDecl (dottedName state.root.theoremName) state.root.universeParams []
    state.root.theoremType proof)

end Extract

/-! ### What an expression stands for -/

/-- In a context of that length the expression stands for the core expression: every
    metavariable for what its assignment stands for, moved out of the shorter context. -/
inductive Denotes (store : MetaVarStore) : Nat → ProofExpr → Kernel.Expr → Prop
  | core {len core} : Denotes store len (.core core) core
  | metaVar {len id found assignment expr} : store.get id = some found →
    found.context.length ≤ len → found.assignment = some assignment →
    Denotes store found.context.length assignment expr →
    Denotes store len (.metaVar id) (expr.lift (len - found.context.length) 0)
  | app {len fn arg fnExpr argExpr} : Denotes store len fn fnExpr → Denotes store len arg argExpr →
    Denotes store len (.app fn arg) (.app fnExpr argExpr)
  | lam {len binder ty body bodyExpr} : Denotes store (len + 1) body bodyExpr →
    Denotes store len (.lam binder ty body) (.lam binder ty bodyExpr)

section Denotes

variable {store later : MetaVarStore} {len : Nat} {expr : ProofExpr} {core core' : Kernel.Expr}

theorem Denotes.unique (h : Denotes store len expr core) (h' : Denotes store len expr core') :
    core = core' := by
  induction h generalizing core' with
  | core =>
    cases h'
    rfl
  | metaVar get _ assigned _ ih =>
    cases h' with
    | metaVar get' _ assigned' below =>
      obtain rfl := Option.some.inj (get.symm.trans get')
      obtain rfl := Option.some.inj (assigned.symm.trans assigned')
      rw [ih below]
  | app _ _ ihFn ihArg =>
    cases h' with
    | app fn arg => rw [ihFn fn, ihArg arg]
  | lam _ ih =>
    cases h' with
    | lam body => rw [ih body]

/-- Later steps assign other metavariables. -/
theorem Denotes.extends (h : Denotes store len expr core) (kept : Extends store later) :
    Denotes later len expr core := by
  induction h with
  | core => exact .core
  | metaVar get within assigned _ ih =>
    exact .metaVar (kept.assigned get assigned) within assigned ih
  | app _ _ ihFn ihArg => exact .app ihFn ihArg
  | lam _ ih => exact .lam ih

end Denotes

/-! ### Terms in range -/

/-- The core expressions are in range, and so are the contexts of the metavariables. -/
def ProofExpr.InRange : Nat → ProofExpr → Prop
  | _, .core inner => inner.InRange
  | len, .metaVar _ => len < 0x80000000
  | len, .app fn arg => fn.InRange len ∧ arg.InRange len
  | len, .lam _ ty body => ty.InRange ∧ body.InRange (len + 1)

structure MachineMetaVar.InRange (found : MachineMetaVar) : Prop where
  context : ∀ localDecl ∈ found.context, localDecl.ty.InRange
  target : found.target.InRange
  assignment : ∀ expr, found.assignment = some expr → expr.InRange found.context.length

def MetaVarStore.InRange (store : MetaVarStore) : Prop :=
  ∀ id found, store.get id = some found → found.InRange

theorem weakeningAmount_eq {len : Nat} (small : len < 0x80000000) : weakeningAmount len = len := by
  have whole : len % 0x100000000 = len := Nat.mod_eq_of_lt (by omega)
  rw [weakeningAmount, whole, NpaCore.Expr.asI32_of_lt small]

variable {ctx : LocalContext}

theorem weakenTo_eq {found : MachineMetaVar} {expr moved : Kernel.Expr}
    (small : ctx.length < 0x80000000) (range : expr.InRange)
    (h : weakenTo ctx found expr = .ok moved) :
    moved = expr.lift (ctx.length - found.context.length) 0 ∧ moved.InRange := by
  have amount : ctx.length - found.context.length < 0x80000000 :=
    Nat.lt_of_le_of_lt (Nat.sub_le _ _) small
  simp only [weakenTo, weakeningAmount_eq amount, Result.mapError_eq_ok] at h
  exact NpaCore.Expr.shift_eq range h

/-! ### The expansion is what the expression stands for -/

/-- What the branch of a metavariable returns is right and in range. -/
def ExpandsRight (store : MetaVarStore)
    (expandMeta : LocalContext → MetaVarId → TacticResult Kernel.Expr) : Prop :=
  ∀ ctx id core, ctx.length < 0x80000000 → expandMeta ctx id = .ok core →
    Denotes store ctx.length (.metaVar id) core ∧ core.InRange

variable {store : MetaVarStore}

theorem expandProofExpr_denotes {expandMeta : LocalContext → MetaVarId → TacticResult Kernel.Expr}
    (right : ExpandsRight store expandMeta) {expr : ProofExpr}
    {core : Kernel.Expr} (range : expr.InRange ctx.length)
    (h : expandProofExpr expandMeta ctx expr = .ok core) :
    Denotes store ctx.length expr core ∧ core.InRange := by
  induction expr generalizing ctx core with
  | core inner =>
    cases h
    exact ⟨.core, range⟩
  | metaVar id => exact right ctx id core range h
  | app fn arg ihFn ihArg =>
    simp only [expandProofExpr, Result.bind_eq_ok, Except.ok.injEq] at h
    obtain ⟨fn', hfn, arg', harg, rfl⟩ := h
    obtain ⟨first, firstRange⟩ := ihFn range.1 hfn
    obtain ⟨second, secondRange⟩ := ihArg range.2 harg
    exact ⟨.app first second, firstRange, secondRange⟩
  | lam binder ty body ih =>
    simp only [expandProofExpr, Result.bind_eq_ok, Except.ok.injEq] at h
    obtain ⟨body', hbody, rfl⟩ := h
    -- `Denotes` counts the context, the source's function carries it
    have under : (ctx ++ [⟨binder, ty⟩] : LocalContext).length = ctx.length + 1 := by simp
    obtain ⟨inner, innerRange⟩ := ih (under ▸ range.2) hbody
    exact ⟨.lam (under ▸ inner), range.1, innerRange⟩

theorem expandMetaAt_denotes (range : store.InRange) (depth : Nat)
    (visiting : List MetaVarId) : ExpandsRight store (expandMetaAt store depth visiting) := by
  induction depth generalizing visiting with
  | zero =>
    intro ctx id core _ h
    cases h
  | succ depth ih =>
    intro ctx id core small h
    simp only [expandMetaAt, Result.bind_eq_ok, Result.okOr_eq_ok, Result.ensure_eq_ok,
      machineLocalContextIsPrefix_iff] at h
    obtain ⟨found, get, _, within, assignment, assigned, _, _, expanded, expands, weakened⟩ := h
    have inRange := (range id found get).assignment assignment assigned
    obtain ⟨denotes, expandedRange⟩ := expandProofExpr_denotes (ih (id :: visiting)) inRange expands
    obtain ⟨rfl, movedRange⟩ := weakenTo_eq small expandedRange weakened
    exact ⟨.metaVar get within.length_le assigned denotes, movedRange⟩

theorem expandClosed_denotes (range : store.InRange)
    {expr : ProofExpr} {core : Kernel.Expr} (exprRange : expr.InRange ctx.length)
    (h : expandClosed store ctx expr = .ok core) :
    Denotes store ctx.length expr core ∧ core.InRange :=
  expandProofExpr_denotes (expandMetaAt_denotes range _ _) exprRange h

/-! ### How an expansion can fail -/

/-- The two ways in which an expansion of resolved metavariables fails. -/
def ExpansionRefused (diagnostic : Diagnostic) : Prop :=
  (∃ id, diagnostic = extractionContextDiag id) ∨
    ∃ index, diagnostic = kernelDiag (.invalidBVar index)

theorem shift_error {expr : Kernel.Expr} {amount : Int} {cutoff : Nat} {error : Kernel.Error}
    (h : Kernel.Expr.shift expr amount cutoff = .error error) : ∃ index, error = .invalidBVar index := by
  have below : ∀ cutoff, NpaCore.Expr.shiftAt Kernel.Error.invalidBVar amount cutoff expr =
      .error error → ∃ index, error = .invalidBVar index := by
    clear h
    induction expr with
    | sort _ | const _ _ =>
      intro cutoff h
      cases h
    | bvar index =>
      intro cutoff h
      simp only [NpaCore.Expr.shiftAt] at h
      split at h
      next => cases h
      next =>
        cases found : NpaCore.Expr.shiftIndex index amount with
        | none =>
          rw [found] at h
          cases h
          exact ⟨index, rfl⟩
        | some shifted =>
          rw [found] at h
          cases h
    | app fn arg ihFn ihArg =>
      intro cutoff h
      simp only [NpaCore.Expr.shiftAt, Result.bind_eq_error] at h
      rcases h with h | ⟨_, _, h | ⟨_, _, h⟩⟩
      · exact ihFn cutoff h
      · exact ihArg cutoff h
      · cases h
    | lam _ ty body ihTy ihBody | pi _ ty body ihTy ihBody =>
      intro cutoff h
      simp only [NpaCore.Expr.shiftAt, Result.bind_eq_error] at h
      rcases h with h | ⟨_, _, h | ⟨_, _, h⟩⟩
      · exact ihTy cutoff h
      · exact ihBody (cutoff + 1) h
      · cases h
  simp only [Kernel.Expr.shift, NpaCore.Expr.shift] at h
  split at h
  next => cases h
  next => exact below cutoff h

theorem expandProofExpr_error {expandMeta : LocalContext → MetaVarId → TacticResult Kernel.Expr}
    {expr : ProofExpr} {diagnostic : Diagnostic}
    (h : expandProofExpr expandMeta ctx expr = .error diagnostic) :
    ∃ inner, ∃ id ∈ expr.metas, expandMeta inner id = .error diagnostic := by
  induction expr generalizing ctx with
  | core _ => cases h
  | metaVar id => exact ⟨ctx, id, List.mem_singleton_self id, h⟩
  | app fn arg ihFn ihArg =>
    simp only [expandProofExpr, Result.bind_eq_error] at h
    rcases h with h | ⟨_, _, h | ⟨_, _, h⟩⟩
    · obtain ⟨inner, id, mem, failed⟩ := ihFn h
      exact ⟨inner, id, List.mem_append_left _ mem, failed⟩
    · obtain ⟨inner, id, mem, failed⟩ := ihArg h
      exact ⟨inner, id, List.mem_append_right _ mem, failed⟩
    · cases h
  | lam binder ty body ih =>
    simp only [expandProofExpr, Result.bind_eq_error] at h
    rcases h with h | ⟨_, _, h⟩
    · exact ih h
    · cases h

/-- The metavariables being visited depend on the one that is followed, so that it is not one of
    them and there are never more of them than the store has. -/
theorem expandMetaAt_error {depth : Nat} {visiting : List MetaVarId}
    {id : MetaVarId} {diagnostic : Diagnostic} (resolved : Resolved store id)
    (above : ∀ visited ∈ visiting, Reaches store visited id) (nodup : visiting.Nodup)
    (enough : store.len < depth + visiting.length)
    (h : expandMetaAt store depth visiting ctx id = .error diagnostic) :
    ExpansionRefused diagnostic := by
  induction depth generalizing visiting ctx id with
  | zero =>
    -- the depth cannot have run out: the visited ones are different and all in the store
    have inside : visiting ⊆ store.keys := by
      intro visited mem
      obtain ⟨found, _, _, get, _⟩ := (above visited mem).first
      exact MetaVarStore.mem_keys.mpr ⟨found, get⟩
    have few := (nodup.subperm inside).length_le
    rw [MetaVarStore.len_keys] at few
    omega
  | succ depth ih =>
    -- a visited metavariable reaches this one, so meeting it again would be a circle
    have unvisited : id ∉ visiting := fun mem => resolved.founded.acyclic (above id mem)
    cases resolved with
    | @intro _ found expr get assigned below =>
      simp only [expandMetaAt, get, assigned, Result.okOr, Result.ok_bind, Result.bind_eq_error,
        Result.ensure_eq_error, unvisited, not_false_eq_true, decide_true, reduceCtorEq,
        false_and, false_or] at h
      rcases h with ⟨_, rfl⟩ | ⟨_, _, _, _, expands | ⟨expanded, _, weakened⟩⟩
      · exact .inl ⟨id, rfl⟩
      · obtain ⟨inner, next, mem, failed⟩ := expandProofExpr_error expands
        have direct : Reaches store id next := .direct get assigned mem
        refine ih (below next mem) ?_ (List.nodup_cons.mpr ⟨unvisited, nodup⟩) ?_ failed
        · intro visited hvisited
          rcases List.mem_cons.mp hvisited with rfl | hvisited
          · exact direct
          · exact (above visited hvisited).trans direct
        · rw [List.length_cons]
          omega
      · simp only [weakenTo, Result.mapError_eq_error] at weakened
        obtain ⟨error, failed, rfl⟩ := weakened
        obtain ⟨index, rfl⟩ := shift_error failed
        exact .inr ⟨index, rfl⟩

theorem expandClosed_error {expr : ProofExpr}
    {diagnostic : Diagnostic} (resolved : ∀ id ∈ expr.metas, Resolved store id)
    (h : expandClosed store ctx expr = .error diagnostic) : ExpansionRefused diagnostic := by
  obtain ⟨inner, id, mem, failed⟩ := expandProofExpr_error h
  apply expandMetaAt_error (resolved id mem) (by simp) List.nodup_nil _ failed
  exact Nat.lt_succ_self _

/-! ### How an extraction can fail -/

/-- When the extraction of a reachable proof without open goals fails, a metavariable stands where
    its context is no prefix of the context there, or an index has left its range, or the kernel
    has rejected the expanded proof. The state is valid, no goal is unresolved, and no dependency
    is missing or goes round in a circle. -/
theorem extractClosed_error {hashing : Hashing} {alloc : Allocator} {state : MachineProofState}
    {diagnostic : Diagnostic} (h : Reachable hashing alloc state) (closed : state.openGoals = [])
    (extracts : extractClosedMachineProof hashing alloc state = .error diagnostic) :
    (∃ id, diagnostic = extractionContextDiag id) ∨
      (∃ index, diagnostic = kernelDiag (.invalidBVar index)) ∨
      ∃ proof error, expandClosed state.metas [] state.root.body = .ok proof ∧
        state.env.kernelEnv.check alloc .new state.root.universeParams proof
          state.root.theoremType = .error error ∧
        diagnostic =
          (Diagnostic.new .kernelRejected "kernel rejected extracted proof").withKernelError error := by
  have invariant := h.invariant
  obtain ⟨root, get, _⟩ := invariant.root
  have resolved : ∀ id ∈ state.root.body.metas, Resolved state.metas id := by
    rw [invariant.body]
    intro id mem
    obtain rfl := List.mem_singleton.mp mem
    exact h.resolved closed 0 (MetaVarStore.mem_keys.mpr ⟨root, get⟩)
  simp only [extractClosedMachineProof, invariant.valid, closed, List.isEmpty_nil, Result.ensure,
    Result.ok_bind, if_true, Result.bind_eq_error, Result.mapError_eq_error] at extracts
  rcases extracts with failed | ⟨proof, expands, ⟨error, rejected, rfl⟩ | ⟨_, _, absurd_⟩⟩
  · rcases expandClosed_error resolved failed with context | index
    · exact .inl context
    · exact .inr (.inl index)
  · exact .inr (.inr ⟨proof, error, expands, rejected, rfl⟩)
  · cases absurd_

/-- `(fun y : Type => y) Prop`, which is another type than `Prop` and converts to it. -/
def redexDomain : Kernel.Expr :=
  .app (.lam "y" (.sort (.succ .zero)) (.bvar 0)) propSort

theorem exampleRuns_redex : ExampleRuns redexDomain := by decide +kernel

theorem extractClosed_exampleRun_redex :
    ((exampleRun redexDomain).map fun state =>
      extractClosedMachineProof exampleHashing Kernel.noReuse state) =
        .ok (.error (extractionContextDiag 1)) := by
  decide +kernel

/-- The proof of that theorem is closed, and it cannot be extracted: the body of the lambda was
    checked under the domain of the theorem, and it is expanded under the lambda's annotation. -/
theorem extractClosed_error_redex : ∃ state,
    Reachable exampleHashing Kernel.noReuse state ∧ state.openGoals = [] ∧
      extractClosedMachineProof exampleHashing Kernel.noReuse state =
        .error (extractionContextDiag 1) ∧
      ((∃ id, extractionContextDiag 1 = extractionContextDiag id) ∨
        (∃ index, extractionContextDiag 1 = kernelDiag (.invalidBVar index)) ∨
        ∃ proof error, expandClosed state.metas [] state.root.body = .ok proof ∧
          state.env.kernelEnv.check Kernel.noReuse .new state.root.universeParams proof
            state.root.theoremType = .error error ∧
          extractionContextDiag 1 = (Diagnostic.new .kernelRejected
            "kernel rejected extracted proof").withKernelError error) := by
  obtain ⟨state, runs, reachable, openGoals, _⟩ := exampleRuns_redex.reachable
  have extracts := extractClosed_exampleRun_redex
  rw [runs] at extracts
  have failed := Except.ok.inj extracts
  exact ⟨state, reachable, openGoals, failed, extractClosed_error reachable openGoals failed⟩

end NpaCore.Tactic
