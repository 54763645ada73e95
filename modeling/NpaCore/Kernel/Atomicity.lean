import NpaCore.Kernel.AdmissionEffect
import NpaCore.Kernel.AdmissionPaths

/-!
# Admission is atomic and conservative

A method that fails leaves the environment as it was, although it may have inserted
families and constructors on the way; a method that succeeds adds the entries of its
declaration under names that were free, and changes nothing else.

The name checks look at the declarations only. That no group of a block is replaced
follows from an invariant of the environments that the methods can produce: a name
with a group is declared (`Reached.groupsDeclared`).

## Main result

`admission_atomic`: this holds of every method in every environment that calls of the
methods can reach.
-/

namespace NpaCore.Kernel

/-! ### What a declaration declares -/

namespace Declaration

/-- The entries for the type, its constructors and its recursor, or those of the block. -/
def entries : Declaration → List (String × Decl)
  | axiomDecl name universeParams universeConstraints ty =>
    [(name, .axiomDecl name universeParams universeConstraints ty)]
  | defDecl name universeParams universeConstraints ty value reducibility =>
    [(name, .defDecl name universeParams universeConstraints ty value reducibility)]
  | theoremDecl name universeParams universeConstraints ty proof =>
    [(name, .theoremDecl name universeParams universeConstraints ty proof)]
  | inductiveDecl data => inductiveEntries data
  | mutualInductiveBlock block => mutualEntries block

def names (declaration : Declaration) : List String := declaration.entries.map Prod.fst

/-- The group that a name of the declaration belongs to. -/
def group (declaration : Declaration) (name : String) : Option MutualGroupInfo :=
  match declaration with
  | mutualInductiveBlock block =>
    if name ∈ block.inductives.map (·.name) then some (Env.mutualGroupInfo block) else none
  | _ => none

end Declaration

/-- The new environment has the entries and the groups of the declaration, and otherwise
    what the old one has. -/
structure Admitted (env : Env) (declaration : Declaration) (next : Env) : Prop where
  distinct : declaration.names.Nodup
  fresh : ∀ name ∈ declaration.names, env.decl name = none ∧ env.mutualGroup name = none
  added : ∀ entry ∈ declaration.entries, next.decl entry.1 = some entry.2
  kept : ∀ name, name ∉ declaration.names → next.decl name = env.decl name
  groups : ∀ name, next.mutualGroup name = (declaration.group name).or (env.mutualGroup name)
  options : next.executionOptions = env.executionOptions

/-! ### The groups of an environment -/

/-- Names that have a group are declared. -/
def GroupsDeclared (env : Env) : Prop :=
  ∀ name, env.decl name = none → env.mutualGroup name = none

/-- The step has left the groups alone. -/
def SameGroups (env next : Env) : Prop := next.mutualGroups = env.mutualGroups

section Groups

variable {alloc : Allocator} {env next : Env}

theorem addRecursor_groups {universeConstraints : List UniverseConstraint}
    {check : Env → RecursorDecl → RecursorRules → UniverseContext → Result Unit}
    {generated : RecursorRules} {data : InductiveDecl}
    (h : env.addRecursor alloc universeConstraints check generated data = .ok next) :
    SameGroups env next := by
  unfold Env.addRecursor at h
  split at h
  next =>
    cases h
    rfl
  next =>
    simp only [Result.bind_eq_ok, Except.ok.injEq] at h
    obtain ⟨_, _, _, _, _, _, rfl⟩ := h
    rfl

theorem addInductive_groups {data : InductiveDecl} (h : env.addInductive alloc data = .ok next) :
    SameGroups env next := by
  simp only [Env.addInductive, Result.bind_eq_ok] at h
  obtain ⟨_, _, _, _, _, _, _, _, candidate, hconstructors, hrecursor⟩ := h
  refine (addRecursor_groups hrecursor).trans ?_
  refine @Result.foldEach_preserves _ _ _ _ (SameGroups env) data.constructors ?_ _ _
    hconstructors rfl
  intro constructor _ s t hstep start
  simp only [Result.bind_eq_ok, Except.ok.injEq] at hstep
  obtain ⟨_, _, rfl⟩ := hstep
  exact start

theorem addMutualInductive_groups {block : MutualInductiveBlock}
    (h : env.addMutualInductive alloc block = .ok next) (name : String) :
    next.mutualGroup name = if name ∈ block.inductives.map (·.name)
      then some (Env.mutualGroupInfo block) else env.mutualGroup name := by
  simp only [Env.addMutualInductive, Result.bind_eq_ok, Except.ok.injEq] at h
  obtain ⟨_, _, universeContext, _, _, _, _, _, families, hfamilies, middle, hconstructors,
    candidate, hrecursors, rfl⟩ := h
  -- the three loops only insert declarations
  have first : SameGroups env families := by
    refine Result.foldEach_preserves block.inductives ?_ hfamilies rfl
    intro data _ s t hstep start
    rw [addFamily_eq hstep]
    exact start
  have second : SameGroups env middle := by
    refine Result.foldEach_preserves block.inductives ?_ hconstructors first
    intro data _ s t hloop start
    refine Result.foldEach_preserves data.constructors ?_ hloop start
    intro constructor _ s t hstep start
    simp only [Env.addMutualConstructor, Result.bind_eq_ok, Except.ok.injEq] at hstep
    obtain ⟨_, _, rfl⟩ := hstep
    exact start
  have third : SameGroups env candidate := by
    refine Result.foldEach_preserves block.inductives ?_ hrecursors second
    intro data _ s t hstep start
    exact (addRecursor_groups hstep).trans start
  have before : candidate.mutualGroup name = env.mutualGroup name := by
    rw [Env.mutualGroup, third, Env.mutualGroup]
  rw [mutualGroup_insertGroups, before]
  rfl

end Groups

/-! ### A successful call -/

section Admitted

variable {alloc : Allocator} {env next : Env} {declaration : Declaration}

theorem addDecl_adds (h : env.addDecl alloc declaration = .ok next) :
    ∃ reserved, Adds env reserved declaration.entries next := by
  cases declaration with
  | axiomDecl => exact ⟨[], addAxiom_adds h⟩
  | defDecl => exact ⟨[], addDef_adds h⟩
  | theoremDecl => exact ⟨[], addTheorem_adds h⟩
  | inductiveDecl data => exact ⟨[], addInductive_adds h⟩
  | mutualInductiveBlock block => exact ⟨[block.name], addMutualInductive_adds h⟩

theorem addDecl_groups (h : env.addDecl alloc declaration = .ok next) (name : String) :
    next.mutualGroup name = (declaration.group name).or (env.mutualGroup name) := by
  cases declaration with
  | axiomDecl =>
    simp only [Env.addDecl, Env.addAxiomWithUniverseConstraints, Result.bind_eq_ok,
      Except.ok.injEq] at h
    obtain ⟨_, _, _, _, _, _, rfl⟩ := h
    rfl
  | defDecl =>
    simp only [Env.addDecl, Env.addDefWithUniverseConstraints, Result.bind_eq_ok,
      Except.ok.injEq] at h
    obtain ⟨_, _, _, _, _, _, _, _, rfl⟩ := h
    rfl
  | theoremDecl =>
    simp only [Env.addDecl, Env.addTheoremWithUniverseConstraints, Result.bind_eq_ok,
      Except.ok.injEq] at h
    obtain ⟨_, _, _, _, _, _, _, _, rfl⟩ := h
    rfl
  | inductiveDecl data =>
    rw [Env.mutualGroup, addInductive_groups h]
    rfl
  | mutualInductiveBlock block =>
    rw [addMutualInductive_groups h, Declaration.group]
    split
    next => rfl
    next => rfl

theorem addDecl_admitted (declared : GroupsDeclared env)
    (h : env.addDecl alloc declaration = .ok next) : Admitted env declaration next := by
  obtain ⟨reserved, adds⟩ := addDecl_adds h
  refine ⟨(List.nodup_append.mp adds.nodup).2.1, ?_, ?_, ?_, addDecl_groups h,
    addDecl_keeps_options alloc h⟩
  · intro name mem
    have free : env.decl name = none := adds.fresh name (List.mem_append_right _ mem)
    exact ⟨free, declared name free⟩
  · rintro ⟨name, decl⟩ mem
    exact adds.decl_of_mem mem
  · exact fun name absent => adds.decl_of_not_mem absent

theorem mem_names_of_group {name : String} {group : MutualGroupInfo}
    (h : declaration.group name = some group) : name ∈ declaration.names := by
  cases declaration with
  | mutualInductiveBlock block =>
    simp only [Declaration.group, Option.ite_none_right_eq_some] at h
    have families : (block.inductives.map inductiveEntry).map Prod.fst =
        block.inductives.map (·.name) := by
      simp [inductiveEntry, Function.comp_def]
    rw [Declaration.names, Declaration.entries, mutualEntries, List.map_append, List.map_append,
      families]
    simp only [List.mem_append]
    exact .inl (.inl h.1)
  | axiomDecl | defDecl | theoremDecl | inductiveDecl => cases h

theorem Admitted.groupsDeclared (declared : GroupsDeclared env)
    (admitted : Admitted env declaration next) : GroupsDeclared next := by
  intro name free
  have absent : name ∉ declaration.names := by
    intro mem
    obtain ⟨⟨_, decl⟩, entry, rfl⟩ := List.mem_map.mp mem
    rw [admitted.added _ entry] at free
    cases free
  have ungrouped : declaration.group name = none := by
    rw [Option.eq_none_iff_forall_not_mem]
    exact fun group h => absent (mem_names_of_group h)
  rw [admitted.groups, ungrouped, Option.none_or]
  exact declared name ((admitted.kept name absent).symm.trans free)

end Admitted

/-! ### Every method in every environment -/

/-- The methods that admit a declaration. -/
inductive AdmissionMethod where
  | plain
  | diagnosed (observed : Bool) (fuelReport : KernelFuelReportMode)
  deriving DecidableEq, Repr

def AdmissionMethod.run (method : AdmissionMethod) (alloc : Allocator)
    (declaration : Declaration) : EnvMut :=
  match method with
  | plain => EnvMut.addDecl alloc declaration
  | diagnosed observed fuelReport =>
    EnvMut.addDeclDiagnosedWithOptions alloc observed fuelReport declaration

theorem AdmissionMethod.run_commits (method : AdmissionMethod) (alloc : Allocator)
    (declaration : Declaration) :
    Run.Commits (method.run alloc declaration) fun env => env.addDecl alloc declaration := by
  cases method with
  | plain => exact EnvMut.addDecl_commits declaration
  | diagnosed observed fuelReport =>
    unfold AdmissionMethod.run EnvMut.addDeclDiagnosedWithOptions
    dsimp only
    split
    next => exact addDeclDiagnosedUnobserved_commits alloc declaration
    next => exact addDeclDiagnosedMetered_commits alloc declaration

/-- The environments that the public methods can reach, through calls that succeed or fail. -/
inductive Reached : Env → Prop
  | start (options : KernelExecutionOptions) : Reached (Env.withExecutionOptions options)
  | call {env} (before : Reached env) (method : AdmissionMethod) (alloc : Allocator)
      (declaration : Declaration) : Reached (method.run alloc declaration env).2
  | expose {env} (before : Reached env) (name : String) :
      Reached (EnvMut.exposeCheckedOpaqueDefinition name env).2

theorem expose_groupsDeclared {env : Env} (declared : GroupsDeclared env) (name : String) :
    GroupsDeclared (EnvMut.exposeCheckedOpaqueDefinition name env).2 := by
  unfold EnvMut.exposeCheckedOpaqueDefinition
  split
  next =>
    intro other free
    rw [Env.decl_insertDecl] at free
    split at free
    next => cases free
    next => exact declared other free
  next => exact declared

theorem Reached.groupsDeclared {env : Env} (reached : Reached env) : GroupsDeclared env := by
  induction reached with
  | start options => exact fun _ _ => rfl
  | @call env _ method alloc declaration ih =>
    rw [method.run_commits alloc declaration env]
    dsimp only
    split
    next next h => exact (addDecl_admitted ih h).groupsDeclared ih
    next => exact ih
  | expose _ name ih => exact expose_groupsDeclared ih name

/-- A call that fails leaves the environment as it was. A call that succeeds adds the
    entries of the declaration under free names and keeps every other entry. -/
theorem admission_atomic {env : Env} (reached : Reached env) (method : AdmissionMethod)
    (alloc : Allocator) (declaration : Declaration) :
    (∀ error next, method.run alloc declaration env = (.error error, next) → next = env) ∧
    ∀ next, method.run alloc declaration env = (.ok (), next) →
      Admitted env declaration next := by
  rw [method.run_commits alloc declaration env]
  dsimp only
  cases h : env.addDecl alloc declaration with
  | error e =>
    refine ⟨?_, ?_⟩
    · rintro _ _ ⟨⟩
      rfl
    · rintro _ ⟨⟩
  | ok next =>
    refine ⟨?_, ?_⟩
    · rintro _ _ ⟨⟩
    · rintro _ ⟨⟩
      exact addDecl_admitted reached.groupsDeclared h

/-- An axiom of the type `Prop`. -/
def propAxiom : Declaration := .axiomDecl "P" [] [] (.sort .zero)

/-- The axiom is added to the empty environment; declaring it again fails. -/
theorem admission_atomic_at_axiom :
    ∃ next, AdmissionMethod.plain.run noReuse propAxiom Env.new = (.ok (), next) ∧
      Admitted Env.new propAxiom next ∧
      ∀ fuelReport error last,
        (AdmissionMethod.diagnosed true fuelReport).run noReuse propAxiom next =
          (.error error, last) → last = next := by
  let next := (AdmissionMethod.plain.run noReuse propAxiom Env.new).2
  have first : Reached Env.new := .start .memoOff
  have second : Reached next := .call first .plain noReuse propAxiom
  have success : AdmissionMethod.plain.run noReuse propAxiom Env.new = (.ok (), next) := by
    rfl
  refine ⟨next, success, ?_, ?_⟩
  · exact (admission_atomic first .plain noReuse propAxiom).2 next success
  · intro fuelReport error last failed
    exact (admission_atomic second (.diagnosed true fuelReport) noReuse propAxiom).1 error last
      failed

end NpaCore.Kernel
