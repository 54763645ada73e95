import NpaCore.Kernel.AdmissionPaths
import NpaCore.Kernel.Evaluation
import NpaCore.Lib.Words
import NpaCore.Tactic.Extraction

/-!
# Admission of extracted theorems

What a machine proof extracts is offered to the kernel again, in the environment of the proof or
when its certificate is verified. The kernel asks anew what the proof has asked already: whether
the theorem has a sort and whether the proof has the theorem as its type. Whatever the addresses
of the terms are then, the answers are the ones that were given.

## Main result

`extractedTheorem_admitted`: an extracted theorem with a new name is admitted.
-/

namespace NpaCore.Tactic

open NpaCore.Kernel (Ctx Allocator UniverseContext)
open NpaCore.Wire (Name)

/-! ### Dotted names -/

theorem splitDots_ne_nil (chars : List Char) : Kernel.splitDots chars ≠ [] := by
  cases chars with
  | nil => simp [Kernel.splitDots]
  | cons c rest =>
    rw [Kernel.splitDots]
    split
    next => simp
    next => split <;> simp

theorem splitDots_of_dotless {word : List Char} (dotless : '.' ∉ word) :
    Kernel.splitDots word = [word] := by
  induction word with
  | nil => rfl
  | cons c rest ih =>
    rw [List.mem_cons, not_or] at dotless
    rw [Kernel.splitDots, ih dotless.2]
    exact if_neg (Ne.symm dotless.1)

theorem splitDots_append {word : List Char} (dotless : '.' ∉ word) (rest : List Char) :
    Kernel.splitDots (word ++ '.' :: rest) = word :: Kernel.splitDots rest := by
  induction word with
  | nil =>
    obtain ⟨first, others, parts⟩ := List.exists_cons_of_ne_nil (splitDots_ne_nil rest)
    rw [List.nil_append, Kernel.splitDots, parts]
    rfl
  | cons c word ih =>
    rw [List.mem_cons, not_or] at dotless
    rw [List.cons_append, Kernel.splitDots, ih dotless.2]
    exact if_neg (Ne.symm dotless.1)

/-- Splitting at the dots undoes the join. -/
theorem splitDots_intercalate {words : List (List Char)} (filled : words ≠ [])
    (dotless : ∀ word ∈ words, '.' ∉ word) :
    Kernel.splitDots (['.'].intercalate words) = words := by
  induction words with
  | nil => exact absurd rfl filled
  | cons word rest ih =>
    rw [List.forall_mem_cons] at dotless
    cases rest with
    | nil =>
      rw [Words.intercalate_cons]
      simpa [Words.separated] using splitDots_of_dotless dotless.1
    | cons next others =>
      rw [List.intercalate_cons_cons, List.append_assoc, List.singleton_append,
        splitDots_append dotless.1, ih (by simp) dotless.2]

theorem canonicalComponent_dotless {word : List Char}
    (canonical : Kernel.isCanonicalNameComponent word = true) : '.' ∉ word := by
  cases word with
  | nil => cases canonical
  | cons first rest =>
    simp only [Kernel.isCanonicalNameComponent, Bool.and_eq_true, List.all_eq_true] at canonical
    intro mem
    rcases List.mem_cons.mp mem with rfl | mem
    · exact absurd canonical.1 (by decide)
    · exact absurd (canonical.2 '.' mem) (by decide)

/-- The kernel accepts the dotted form of the names that certificates accept. -/
theorem isCanonicalDottedName_dottedName {name : Name} (canonical : name.isCanonical = true) :
    Kernel.isCanonicalDottedName (dottedName name) = true := by
  simp only [Name.isCanonical, Bool.and_eq_true, Bool.not_eq_true', List.isEmpty_eq_false_iff,
    List.all_eq_true] at canonical
  obtain ⟨filled, each⟩ := canonical
  have words : (dottedName name).toList = ['.'].intercalate (name.components.map String.toList) := by
    rw [dottedName, String.toList_intercalate]
    rfl
  have split : Kernel.splitDots (dottedName name).toList = name.components.map String.toList := by
    rw [words]
    apply splitDots_intercalate
    · simpa using filled
    · intro word mem
      obtain ⟨component, here, rfl⟩ := List.mem_map.mp mem
      exact canonicalComponent_dotless (each component here)
  rw [Kernel.isCanonicalDottedName, split, Bool.and_eq_true]
  constructor
  · cases chars : (dottedName name).toList with
    | nil =>
      -- the empty word is no component
      rw [chars] at split
      have mem : ([] : List Char) ∈ name.components.map String.toList := by
        rw [← split]
        exact List.mem_singleton_self _
      obtain ⟨component, here, empty⟩ := List.mem_map.mp mem
      have canonical := each component here
      rw [empty] at canonical
      cases canonical
    | cons _ _ => rfl
  · rw [List.all_map, List.all_eq_true]
    exact each

/-! ### The kernel's questions, asked again -/

section Questions

variable {env : Kernel.Env} {alloc : Allocator} {ctx : Ctx} {delta : List String}
  {universeContext : UniverseContext} {term ty : Kernel.Expr} {level : Kernel.Level}

/-- Inference and reduction in two calls find the sort that one call finds. -/
theorem expectSort_of_infer (alloc' : Allocator)
    (inferred : env.inferInUniverseContext alloc ctx universeContext term = .ok ty)
    (reduced : env.whnf alloc ctx delta ty = .ok (.sort level)) :
    env.expectSortInUniverseContext alloc' ctx universeContext term = .ok level := by
  let own := env.defaultSession
  have faithful : Kernel.FaithfulSession env own := Kernel.faithful_newSession env _ _
  -- the first question, at the other addresses
  obtain ⟨answer, _, _, kept⟩ := Kernel.inferTerm_mirrors (alloc ctx [term]) (alloc' ctx [term])
    .perQuestion universeContext ctx term own own ⟨rfl, rfl⟩ faithful faithful
  have first := answer.symm.trans inferred
  let after := (Kernel.inferTerm env (alloc' ctx [term]) .perQuestion universeContext ctx term own).2
  -- the second one starts with the fuel of a call of its own
  have realised : Kernel.Realises env .whnf (fun _ => True)
      (Kernel.whnfMachine env (alloc' ctx [term]) ctx universeContext.params .whnf .fresh ty)
      (Kernel.WhnfSpends env ctx .whnf ty) := Kernel.whnfMachine_realises .fresh ty
  have realised' : Kernel.Realises env .whnf (fun _ => True)
      (Kernel.whnfMachine env (alloc ctx [ty]) ctx delta .whnf .borrowed ty)
      (Kernel.WhnfSpends env ctx .whnf ty) := Kernel.whnfMachine_realises .borrowed ty
  obtain ⟨left, spends, _⟩ := realised (after.setFuel .whnf Kernel.whnfFuelLimit)
    (kept.setFuel _) trivial
  obtain ⟨left', spends', _⟩ := realised' (env.newSession Kernel.whnfFuelLimit 0)
    (Kernel.faithful_newSession env _ _) trivial
  have supply : (after.setFuel .whnf Kernel.whnfFuelLimit).fuel .whnf =
      (env.newSession Kernel.whnfFuelLimit 0).fuel .whnf := Kernel.Session.fuel_setFuel _ _ _
  rw [supply] at spends
  have second := ((Kernel.regular_whnfSpends .whnf ty).deterministic spends spends').1
  have run : Kernel.expectSortTerm env (alloc' ctx [term]) .perQuestion universeContext ctx term
      own = (.ok level, _) :=
    Run.bind_eq_ok.mpr ⟨ty, after, Prod.ext first rfl, Run.bind_eq_ok.mpr ⟨.sort level, _,
      Run.bind_eq_ok.mpr ⟨(), _, rfl, Prod.ext (second.trans reduced) rfl⟩, rfl⟩⟩
  exact congrArg Prod.fst run

theorem check_alloc (alloc alloc' : Allocator) :
    env.checkInUniverseContext alloc ctx universeContext term ty =
      env.checkInUniverseContext alloc' ctx universeContext term ty :=
  Kernel.checkInUniverseContext_setOptions env env.executionOptions alloc alloc' ctx
    universeContext term ty

end Questions

/-! ### Admission -/

section Admission

variable {hashing : Hashing} {alloc : Allocator} {state : MachineProofState}

/-- What was asked when the proof started. -/
theorem Reachable.theoremType (h : Reachable hashing alloc state) :
    state.root.theoremName.isCanonical = true ∧
      ensureTypeIsSort state.env.kernelEnv alloc .new state.root.universeParams
        state.root.theoremType = .ok () := by
  obtain ⟨spec, env, first, started, later⟩ := h
  have history := later.keeps
  rw [history.root, history.env]
  simp only [startMachineProof, validateProofSpec, Result.bind_eq_ok, Result.ensure_eq_ok,
    Result.mapError_eq_ok, Except.ok.injEq] at started
  obtain ⟨_, ⟨_, _, _, canonical, _⟩, _, sorted, _, _, rfl⟩ := started
  exact ⟨canonical, sorted⟩

/-- A theorem that is extracted from a reachable state is admitted under its name when no
    declaration has it, whatever the addresses are then; it has the universe parameters and the
    type that the proof was started for. -/
theorem extractedTheorem_admitted (h : Reachable hashing alloc state)
    {declaration : Kernel.Declaration}
    (extracts : extractClosedMachineTheoremDecl hashing alloc state = .ok declaration)
    (fresh : state.env.kernelEnv.decl (dottedName state.root.theoremName) = none)
    (alloc' : Allocator) :
    ∃ proof, declaration = .theoremDecl (dottedName state.root.theoremName)
        state.root.universeParams [] state.root.theoremType proof ∧
      state.env.kernelEnv.addDecl alloc' declaration =
        .ok (state.env.kernelEnv.insertDecl (dottedName state.root.theoremName)
          (.theoremDecl (dottedName state.root.theoremName) state.root.universeParams []
            state.root.theoremType proof)) := by
  obtain ⟨canonical, sorted⟩ := h.theoremType
  simp only [extractClosedMachineTheoremDecl, extractClosedMachineProof, Result.bind_eq_ok,
    Result.mapError_eq_ok, Except.ok.injEq] at extracts
  obtain ⟨proof, ⟨_, _, _, _, _, _, _, checks, rfl⟩, rfl⟩ := extracts
  simp only [ensureTypeIsSort, Kernel.Env.infer, Result.bind_eq_ok] at sorted
  obtain ⟨ty, ⟨universeContext, context, inferred⟩, whnf, reduced, sort⟩ := sorted
  cases whnf with
  | sort level =>
    refine ⟨_, rfl, ?_⟩
    have new : UniverseContext.new state.root.universeParams [] = .ok universeContext := context
    simp only [Kernel.Env.check, Result.bind_eq_ok] at checks
    obtain ⟨other, context', checked⟩ := checks
    obtain rfl := Except.ok.inj (context.symm.trans context')
    rw [check_alloc alloc alloc'] at checked
    have named := isCanonicalDottedName_dottedName canonical
    simp only [Kernel.Env.addDecl, Kernel.Env.addTheoremWithUniverseConstraints,
      Kernel.Env.ensureFresh, named, fresh, Option.isNone_none, Result.ensure, if_true,
      Result.ok_bind, new, expectSort_of_infer alloc' inferred reduced, checked]
  | bvar _ | const _ _ | app _ _ | lam _ _ _ | pi _ _ _ => cases sort

end Admission

def exampleTheorem : Kernel.Declaration :=
  .theoremDecl "M.id" [] [] (.pi "x" propSort propSort) (.lam "x" propSort (.bvar 0))

theorem exampleRun_extracts :
    ((exampleRun propSort).map fun state =>
      extractClosedMachineTheoremDecl exampleHashing Kernel.noReuse state) =
        .ok (.ok exampleTheorem) := by decide +kernel

theorem extractedTheorem_admitted_exampleRun : ∃ state next,
    exampleRun propSort = .ok state ∧
      state.env.kernelEnv.addDecl Kernel.noReuse exampleTheorem = .ok next := by
  obtain ⟨state, runs, reachable, _, _, env, _⟩ := exampleRuns_prop.history
  have extracts := exampleRun_extracts
  rw [runs] at extracts
  have fresh : state.env.kernelEnv.decl (dottedName state.root.theoremName) = none := by
    rw [env]
    rfl
  obtain ⟨_, _, admitted⟩ := extractedTheorem_admitted reachable (Except.ok.inj extracts) fresh
    Kernel.noReuse
  exact ⟨state, _, runs, admitted⟩

end NpaCore.Tactic
