import NpaCore.Kernel.InferSoundness
import NpaCore.Kernel.PositivitySoundness

/-!
# Soundness over runs

Environments are built by successful `add_*` calls. A name is declared once, so
what a recursor was checked against stays in the environment under every later
call, and reduction in any reached environment is as safe as its declarations.

## Main result

`Built.inferenceSound`: in every environment built from declarations whose
recursive occurrences have no universe parameters in their indices, and whose
variables are in range, the types that are inferred or checked are derivable, for
terms in range and every universe context whose constraints are `IMaxHarmless`.
-/

namespace NpaCore.Kernel

open NpaCore.Expr

/-! ### Runs -/

/-- An environment reached by successful `add_*` calls, when the families added by one call
    always have the property. -/
inductive Built (P : List InductiveDecl → Prop) : Env → Prop
  | start (options : KernelExecutionOptions) : Built P (Env.withExecutionOptions options)
  | addAxiom {env next alloc name universeParams universeConstraints ty} (before : Built P env)
      (h : env.addAxiomWithUniverseConstraints alloc name universeParams universeConstraints ty =
        .ok next) : Built P next
  | addDef {env next alloc name universeParams universeConstraints ty value reducibility}
      (before : Built P env)
      (h : env.addDefWithUniverseConstraints alloc name universeParams universeConstraints ty value
        reducibility = .ok next) : Built P next
  | addTheorem {env next alloc name universeParams universeConstraints ty proof}
      (before : Built P env)
      (h : env.addTheoremWithUniverseConstraints alloc name universeParams universeConstraints ty
        proof = .ok next) : Built P next
  | addInductive {env next alloc data} (before : Built P env) (family : P [data])
      (h : env.addInductive alloc data = .ok next) : Built P next
  | addMutualInductive {env next alloc block} (before : Built P env) (families : P block.inductives)
      (h : env.addMutualInductive alloc block = .ok next) : Built P next

/-- Where a family has a recursor, the index arguments of its recursive fields have no
    universe parameters. -/
def NoLevelLeak (families : List InductiveDecl) : Prop :=
  ∀ data ∈ families, data.recursor.isSome → ∀ family ∈ families, IndexLevelFree family data

/-! ### The invariant -/

/-- The declarations of `base` are those of `env`, with the groups they belong to. -/
structure Keeps (base env : Env) : Prop where
  decl : ∀ name decl, base.decl name = some decl → env.decl name = some decl
  group : ∀ name decl, base.decl name = some decl → env.mutualGroup name = base.mutualGroup name

/-- The inductive of a recursor is declared, and reduction may rely on it. -/
structure RecursorReady (env : Env) (inductiveName : String) : Prop where
  declared : ∃ data, env.inductiveData inductiveName = .ok data
  safe : RecursorSafe env inductiveName

structure EnvInvariant (env : Env) : Prop where
  groups : ∀ name group, env.mutualGroup name = some group → ∃ decl, env.decl name = some decl
  recursors : ∀ name declName universeParams ty inductiveName rules,
    env.decl name = some (.recursorDecl declName universeParams ty inductiveName rules) →
      RecursorReady env inductiveName

variable {data : InductiveDecl} {name : String} {env : Env}

theorem inductiveData_eq_ok :
    env.inductiveData name = .ok data ↔
      ∃ declName params ty, env.decl name = some (.inductiveDecl declName params ty data) := by
  simp only [Env.inductiveData]
  constructor
  · intro h
    split at h
    next declName params ty found hdecl =>
      cases h
      exact ⟨declName, params, ty, hdecl⟩
    next => cases h
  · rintro ⟨declName, params, ty, hdecl⟩
    rw [hdecl]

theorem Keeps.inductiveData {base env : Env} (keeps : Keeps base env)
    (h : base.inductiveData name = .ok data) :
    env.inductiveData name = .ok data := by
  obtain ⟨declName, params, ty, hdecl⟩ := inductiveData_eq_ok.mp h
  exact inductiveData_eq_ok.mpr ⟨declName, params, ty, keeps.decl name _ hdecl⟩

theorem RecursorReady.mono {base env : Env} (keeps : Keeps base env) {inductiveName : String}
    (ready : RecursorReady base inductiveName) : RecursorReady env inductiveName := by
  obtain ⟨data, hdata⟩ := ready.declared
  obtain ⟨_, _, _, hdecl⟩ := inductiveData_eq_ok.mp hdata
  have group : env.mutualGroup inductiveName = base.mutualGroup inductiveName :=
    keeps.group inductiveName _ hdecl
  have same : ∀ name family other, base.inductiveData name = .ok family →
      env.inductiveData name = .ok other → other = family := by
    intro name family other hbase henv
    rw [keeps.inductiveData hbase] at henv
    cases henv
    rfl
  refine ⟨⟨data, keeps.inductiveData hdata⟩, ?_, ?_⟩
  · intro info hinfo family hfamily
    obtain ⟨familyData, hfamilyData⟩ := ready.safe.present info (group ▸ hinfo) family hfamily
    exact ⟨familyData, keeps.inductiveData hfamilyData⟩
  · intro other family hother hfamily
    have unchanged : other = data := same inductiveName data other hdata hother
    subst unchanged
    apply ready.safe.levelFree other family hdata
    cases hgroup : base.mutualGroup inductiveName with
    | none =>
      simp only [FieldFamily, group, hgroup] at hfamily ⊢
      rwa [same inductiveName other family hdata hfamily]
    | some info =>
      simp only [FieldFamily, group, hgroup] at hfamily ⊢
      obtain ⟨name, hname, hfamilyData⟩ := hfamily
      obtain ⟨baseData, hbaseData⟩ := ready.safe.present info hgroup name hname
      exact ⟨name, hname, (same name baseData family hbaseData hfamilyData) ▸ hbaseData⟩

/-! ### What a call leaves in the environment -/

/-- A candidate environment of one call over `base`: the declarations of `base` are kept, the
    families that have been inserted are found, and every new recursor belongs to a family
    that declares one. -/
structure Stage (base : Env) (families : List InductiveDecl) (candidate : Env) : Prop where
  decl : ∀ name decl, base.decl name = some decl → candidate.decl name = some decl
  groups : candidate.mutualGroups = base.mutualGroups
  found : ∀ data ∈ families, candidate.inductiveData data.name = .ok data
  recursors : ∀ name declName universeParams ty inductiveName rules,
    candidate.decl name = some (.recursorDecl declName universeParams ty inductiveName rules) →
      base.decl name = some (.recursorDecl declName universeParams ty inductiveName rules) ∨
        ∃ data ∈ families, data.name = inductiveName ∧ data.recursor.isSome

theorem Stage.start (base : Env) : Stage base [] base :=
  ⟨fun _ _ h => h, rfl, by simp, fun _ _ _ _ _ _ h => .inl h⟩

/-- The declaration is no recursor, or the recursor of one of the families. -/
def OwnedRecursor (families : List InductiveDecl) : Decl → Prop
  | .recursorDecl _ _ _ inductiveName _ =>
    ∃ data ∈ families, data.name = inductiveName ∧ data.recursor.isSome
  | _ => True

section Insert

variable {base candidate : Env} {families : List InductiveDecl}

theorem Stage.insertDecl (stage : Stage base families candidate) {decl : Decl}
    (fresh : base.decl name = none) (other : name ∉ families.map (·.name))
    (owned : OwnedRecursor families decl) :
    Stage base families (candidate.insertDecl name decl) := by
  refine ⟨?_, stage.groups, ?_, ?_⟩
  · intro known declared hdeclared
    have apart : known ≠ name := by
      rintro rfl
      rw [fresh] at hdeclared
      cases hdeclared
    rw [Env.decl_insertDecl, if_neg apart]
    exact stage.decl known declared hdeclared
  · intro data hdata
    have apart : data.name ≠ name := by
      rintro rfl
      exact other (List.mem_map_of_mem hdata)
    have before := stage.found data hdata
    simp only [Env.inductiveData, Env.decl_insertDecl, if_neg apart] at before ⊢
    exact before
  · intro known declName universeParams ty inductiveName rules hknown
    rw [Env.decl_insertDecl] at hknown
    split at hknown
    next =>
      cases hknown
      exact .inr owned
    next => exact stage.recursors known declName universeParams ty inductiveName rules hknown

theorem Stage.insertInductive (stage : Stage base families candidate)
    (fresh : base.decl data.name = none) (other : data.name ∉ families.map (·.name)) :
    Stage base (families ++ [data]) (candidate.insertInductive data) := by
  have inserted : Stage base families (candidate.insertInductive data) :=
    stage.insertDecl fresh other trivial
  refine ⟨inserted.decl, inserted.groups, ?_, ?_⟩
  · intro family hfamily
    rcases List.mem_append.mp hfamily with hfamily | hfamily
    · exact inserted.found family hfamily
    · cases List.mem_singleton.mp hfamily
      simp [Env.inductiveData, Env.insertInductive]
  · intro name declName universeParams ty inductiveName rules hname
    rcases inserted.recursors name declName universeParams ty inductiveName rules hname with
      old | ⟨family, hfamily, owner⟩
    · exact .inl old
    · exact .inr ⟨family, List.mem_append_left _ hfamily, owner⟩

end Insert

/-! ### Inductive declarations -/

section Families

variable {base candidate next : Env} {alloc : Allocator} {families : List InductiveDecl}
  {data : InductiveDecl}

theorem Stage.withFamilies (base : Env) (families : List InductiveDecl)
    (nodup : (families.map (·.name)).Nodup)
    (fresh : ∀ data ∈ families, base.decl data.name = none) :
    Stage base families (families.foldl Env.insertInductive base) := by
  induction families using List.reverseRecOn with
  | nil => exact Stage.start base
  | append_singleton front last ih =>
    rw [List.map_append, List.nodup_append] at nodup
    have other : last.name ∉ front.map (·.name) := fun mem =>
      nodup.2.2 last.name mem last.name (by simp) rfl
    have stage := ih nodup.1 fun data hdata => fresh data (List.mem_append_left _ hdata)
    rw [List.foldl_append]
    exact stage.insertInductive (fresh last (by simp)) other

theorem Stage.insertConstructor (stage : Stage base families candidate)
    {constructor : ConstructorDecl} (fresh : base.decl constructor.name = none)
    (other : constructor.name ∉ families.map (·.name)) :
    Stage base families (candidate.insertConstructor data constructor) :=
  stage.insertDecl fresh other trivial

theorem Stage.addRecursor (stage : Stage base families candidate)
    {universeConstraints : List UniverseConstraint}
    {check : Env → RecursorDecl → RecursorRules → UniverseContext → Result Unit}
    {generated : RecursorRules} (hdata : data ∈ families)
    (fresh : ∀ recursor, data.recursor = some recursor →
      base.decl recursor.name = none ∧ recursor.name ∉ families.map (·.name))
    (h : candidate.addRecursor alloc universeConstraints check generated data = .ok next) :
    Stage base families next := by
  unfold Env.addRecursor at h
  split at h
  next =>
    cases h
    exact stage
  next recursor hrecursor =>
    simp only [Result.bind_eq_ok, Except.ok.injEq] at h
    obtain ⟨_, _, _, _, _, _, rfl⟩ := h
    obtain ⟨notInBase, notFamily⟩ := fresh recursor hrecursor
    exact stage.insertDecl notInBase notFamily ⟨data, hdata, rfl, by simp [hrecursor]⟩

end Families

theorem addInductive_stage {env next : Env} {alloc : Allocator}
    (h : env.addInductive alloc data = .ok next) :
    env.decl data.name = none ∧ Stage env [data] next := by
  simp only [Env.addInductive, Result.bind_eq_ok] at h
  obtain ⟨_, _, _, _, _, hfresh, _, _, candidate, hconstructors, hrecursor⟩ := h
  obtain ⟨nodup, fresh⟩ := ensureNamesFresh_spec hfresh
  have own : env.decl data.name = none := (fresh data.name (by simp)).2
  have start : Stage env [data] (env.insertInductive data) :=
    (Stage.start env).insertInductive own (by simp)
  -- the names of the constructors and of the recursor differ from the family's own
  have apart : ∀ name ∈ data.constructors.map (·.name) ++ data.recursor.toList.map (·.name),
      env.decl name = none ∧ name ∉ [data].map (·.name) := by
    intro name hname
    rw [List.append_assoc, List.singleton_append, List.nodup_cons] at nodup
    refine ⟨(fresh name (by simpa using .inr (by simpa using hname))).2, ?_⟩
    intro same
    rw [List.map_singleton, List.mem_singleton] at same
    exact nodup.1 (same ▸ hname)
  have constructors : Stage env [data] candidate := by
    refine Result.foldEach_preserves data.constructors ?_ hconstructors start
    intro constructor hconstructor before after hstep stage
    simp only [Result.bind_eq_ok, Except.ok.injEq] at hstep
    obtain ⟨_, _, rfl⟩ := hstep
    obtain ⟨notInBase, notFamily⟩ := apart constructor.name
      (List.mem_append_left _ (List.mem_map_of_mem hconstructor))
    exact stage.insertConstructor notInBase notFamily
  refine ⟨own, constructors.addRecursor (by simp) ?_ hrecursor⟩
  intro recursor hsome
  exact apart recursor.name (List.mem_append_right _ (by simp [hsome]))

theorem addMutualInductive_stage {env next : Env} {alloc : Allocator}
    {block : MutualInductiveBlock} (h : env.addMutualInductive alloc block = .ok next) :
    (∀ data ∈ block.inductives, env.decl data.name = none) ∧
      ∃ candidate, Stage env block.inductives candidate ∧
        next = (block.inductives.map (·.name)).foldl
          (fun candidate name => candidate.insertGroup (Env.mutualGroupInfo block) name)
          candidate := by
  simp only [Env.addMutualInductive, Result.bind_eq_ok, Except.ok.injEq] at h
  obtain ⟨_, _, universeContext, _, _, hfresh, _, _, families, hfamilies, middle, hconstructors,
    candidate, hrecursors, rfl⟩ := h
  obtain ⟨nodup, fresh⟩ := ensureNamesFresh_spec hfresh
  simp only [List.append_assoc, List.singleton_append, List.nodup_cons, List.nodup_append,
    List.mem_append] at nodup
  obtain ⟨⟨_, hnodup⟩, _, disjoint⟩ := nodup
  have apart := fun family hfamily => disjoint family (List.mem_cons_of_mem block.name hfamily)
  have own : ∀ data ∈ block.inductives, env.decl data.name = none := by
    intro data hdata
    have mem : data.name ∈ block.inductives.map (·.name) := List.mem_map_of_mem hdata
    exact (fresh data.name (by simp only [List.mem_append, mem, or_true, true_or])).2
  have inserted : families = env.withFamilies block :=
    Result.foldEach_eq_foldl (fun _ _ _ => addFamily_eq) _ hfamilies
  subst inserted
  have start := Stage.withFamilies env block.inductives hnodup own
  have constructors : Stage env block.inductives middle := by
    refine Result.foldEach_preserves block.inductives ?_ hconstructors start
    intro data hdata before after hloop stage
    refine Result.foldEach_preserves data.constructors ?_ hloop stage
    intro constructor hconstructor s t hstep stage
    simp only [Env.addMutualConstructor, Result.bind_eq_ok, Except.ok.injEq] at hstep
    obtain ⟨_, _, rfl⟩ := hstep
    have mem : constructor.name ∈
        block.inductives.flatMap fun data => data.constructors.map (·.name) :=
      List.mem_flatMap.mpr ⟨data, hdata, List.mem_map_of_mem hconstructor⟩
    exact stage.insertConstructor
      (fresh _ (by simp only [List.mem_append, mem, or_true, true_or])).2
      fun family => apart _ family _ (.inl mem) rfl
  refine ⟨own, candidate, ?_, rfl⟩
  refine Result.foldEach_preserves block.inductives ?_ hrecursors constructors
  intro data hdata before after hstep stage
  refine stage.addRecursor hdata ?_ hstep
  intro recursor hrecursor
  have mem : recursor.name ∈
      block.inductives.filterMap fun data => data.recursor.map (·.name) :=
    List.mem_filterMap.mpr ⟨data, hdata, by simp [hrecursor]⟩
  exact ⟨(fresh _ (by simp only [List.mem_append, mem, or_true])).2,
    fun family => apart _ family _ (.inr mem) rfl⟩

/-! ### Every call keeps the invariant -/

theorem Stage.keeps {base candidate : Env} {families : List InductiveDecl}
    (stage : Stage base families candidate) : Keeps base candidate :=
  ⟨stage.decl, fun name _ _ => by simp only [Env.mutualGroup, stage.groups]⟩

theorem EnvInvariant.of_stage {base candidate : Env} {families : List InductiveDecl}
    (invariant : EnvInvariant base) (stage : Stage base families candidate)
    (ready : ∀ data ∈ families, data.recursor.isSome → RecursorReady candidate data.name) :
    EnvInvariant candidate := by
  constructor
  · intro name group hgroup
    rw [Env.mutualGroup, stage.groups] at hgroup
    obtain ⟨decl, hdecl⟩ := invariant.groups name group hgroup
    exact ⟨decl, stage.decl name decl hdecl⟩
  · intro name declName universeParams ty inductiveName rules hdecl
    rcases stage.recursors name declName universeParams ty inductiveName rules hdecl with
      old | ⟨data, hdata, rfl, declares⟩
    · exact (invariant.recursors _ _ _ _ _ _ old).mono stage.keeps
    · exact ready data hdata declares

/-- A declaration that adds no family. -/
theorem EnvInvariant.insertDecl (invariant : EnvInvariant env)
    {decl : Decl} (fresh : env.ensureFresh name = .ok ()) (plain : OwnedRecursor [] decl) :
    EnvInvariant (env.insertDecl name decl) := by
  simp only [Env.ensureFresh, Result.bind_eq_ok, Result.ensure_eq_ok, Option.isNone_iff_eq_none]
    at fresh
  obtain ⟨_, _, absent⟩ := fresh
  have stage : Stage env [] (env.insertDecl name decl) :=
    (Stage.start env).insertDecl absent (by simp) plain
  exact invariant.of_stage stage (by simp)

theorem EnvInvariant.no_group (invariant : EnvInvariant env)
    (fresh : env.decl name = none) : env.mutualGroup name = none := by
  cases hgroup : env.mutualGroup name with
  | none => rfl
  | some group =>
    obtain ⟨decl, hdecl⟩ := invariant.groups name group hgroup
    rw [fresh] at hdecl
    cases hdecl

theorem EnvInvariant.addInductive {env next : Env} {alloc : Allocator}
    (invariant : EnvInvariant env) (noLeak : NoLevelLeak [data])
    (h : env.addInductive alloc data = .ok next) : EnvInvariant next := by
  obtain ⟨own, stage⟩ := addInductive_stage h
  refine invariant.of_stage stage ?_
  intro family hfamily declares
  cases List.mem_singleton.mp hfamily
  have found : next.inductiveData data.name = .ok data := stage.found data (by simp)
  have alone : next.mutualGroup data.name = none := by
    rw [Env.mutualGroup, stage.groups]
    exact invariant.no_group own
  refine ⟨⟨data, found⟩, ?_, ?_⟩
  · intro group hgroup
    rw [alone] at hgroup
    cases hgroup
  · intro other fieldFamily hother hfield
    simp only [FieldFamily, alone] at hfield
    rw [found] at hother hfield
    cases hother
    cases hfield
    exact noLeak data (by simp) declares data (by simp)

theorem EnvInvariant.addMutualInductive {env next : Env} {alloc : Allocator}
    {block : MutualInductiveBlock} (invariant : EnvInvariant env)
    (noLeak : NoLevelLeak block.inductives)
    (h : env.addMutualInductive alloc block = .ok next) : EnvInvariant next := by
  obtain ⟨own, candidate, stage, hnext⟩ := addMutualInductive_stage h
  have decls : ∀ name, next.decl name = candidate.decl name := by
    intro name
    rw [hnext, decl_insertGroups]
  have data_eq : ∀ name, next.inductiveData name = candidate.inductiveData name := by
    intro name
    simp only [Env.inductiveData, decls]
  have groups : ∀ name, next.mutualGroup name =
      if name ∈ block.inductives.map (·.name) then some (Env.mutualGroupInfo block)
      else env.mutualGroup name := by
    intro name
    rw [hnext, mutualGroup_insertGroups]
    simp only [Env.mutualGroup, stage.groups]
  have found : ∀ data ∈ block.inductives, next.inductiveData data.name = .ok data := by
    intro data hdata
    rw [data_eq]
    exact stage.found data hdata
  have keeps : Keeps env next := by
    refine ⟨fun name decl hdecl => (decls name).trans (stage.decl name decl hdecl), ?_⟩
    intro name decl hdecl
    have other : name ∉ block.inductives.map (·.name) := by
      intro mem
      obtain ⟨data, hdata, rfl⟩ := List.mem_map.mp mem
      rw [own data hdata] at hdecl
      cases hdecl
    rw [groups, if_neg other]
  -- the families that a field is compared with are those of the block
  have fieldFamily : ∀ data ∈ block.inductives, ∀ family, FieldFamily next data.name family →
      family ∈ block.inductives := by
    intro data hdata family hfamily
    simp only [FieldFamily, groups, if_pos (List.mem_map_of_mem hdata)] at hfamily
    obtain ⟨name, hname, hfamily⟩ := hfamily
    obtain ⟨member, hmember, rfl⟩ := List.mem_map.mp hname
    rw [found member hmember] at hfamily
    cases hfamily
    exact hmember
  constructor
  · intro name group hgroup
    rw [groups] at hgroup
    split at hgroup
    next mem =>
      obtain ⟨data, hdata, rfl⟩ := List.mem_map.mp mem
      obtain ⟨declName, params, ty, hdecl⟩ := inductiveData_eq_ok.mp (found data hdata)
      exact ⟨_, hdecl⟩
    next =>
      obtain ⟨decl, hdecl⟩ := invariant.groups name group hgroup
      exact ⟨decl, keeps.decl name decl hdecl⟩
  · intro name declName universeParams ty inductiveName rules hdecl
    rw [decls] at hdecl
    rcases stage.recursors name declName universeParams ty inductiveName rules hdecl with
      old | ⟨data, hdata, rfl, declares⟩
    · exact (invariant.recursors _ _ _ _ _ _ old).mono keeps
    · refine ⟨⟨data, found data hdata⟩, ?_, ?_⟩
      · intro group hgroup family hfamily
        rw [groups, if_pos (List.mem_map_of_mem hdata)] at hgroup
        cases hgroup
        obtain ⟨member, hmember, rfl⟩ := List.mem_map.mp hfamily
        exact ⟨member, found member hmember⟩
      · intro other family hother hfamily
        rw [found data hdata] at hother
        cases hother
        exact noLeak data hdata declares family (fieldFamily data hdata family hfamily)

theorem Built.invariant (built : Built NoLevelLeak env) : EnvInvariant env := by
  induction built with
  | start options =>
    constructor
    · intro name group hgroup
      cases hgroup
    · intro name declName universeParams ty inductiveName rules hdecl
      cases hdecl
  | addAxiom before h ih =>
    simp only [Env.addAxiomWithUniverseConstraints, Result.bind_eq_ok, Except.ok.injEq] at h
    obtain ⟨_, fresh, _, _, _, _, rfl⟩ := h
    exact ih.insertDecl fresh trivial
  | addDef before h ih =>
    simp only [Env.addDefWithUniverseConstraints, Result.bind_eq_ok, Except.ok.injEq] at h
    obtain ⟨_, fresh, _, _, _, _, _, _, rfl⟩ := h
    exact ih.insertDecl fresh trivial
  | addTheorem before h ih =>
    simp only [Env.addTheoremWithUniverseConstraints, Result.bind_eq_ok, Except.ok.injEq] at h
    obtain ⟨_, fresh, _, _, _, _, _, _, rfl⟩ := h
    exact ih.insertDecl fresh trivial
  | addInductive before noLeak h ih => exact ih.addInductive noLeak h
  | addMutualInductive before noLeak h ih => exact ih.addMutualInductive noLeak h

/-! ### Soundness of inference -/

variable {universeContext : UniverseContext}

theorem Built.recursorsSafe (built : Built NoLevelLeak env) : RecursorsSafe env := by
  intro name declName universeParams ty inductiveName rules hdecl
  exact (built.invariant.recursors name declName universeParams ty inductiveName rules hdecl).safe

theorem entailmentSound_of_new {params : List String} {constraints : List UniverseConstraint}
    (harmless : IMaxHarmless constraints)
    (h : UniverseContext.new params constraints = .ok universeContext) :
    EntailmentSound universeContext := by
  obtain ⟨added, accepted⟩ := new_accepted h
  intro lhs rhs entailed ρ hρ
  rw [accepted.constraints_eq] at hρ
  exact entailsLevelLe_sound accepted (assumed_of_imaxHarmless harmless hρ) entailed

/-- An environment with the axiom `c.{a, b} : Prop`, where `a ≤ b`. -/
def orderedEnv : Env :=
  Env.new.insertDecl "c"
    (.axiomDecl "c" ["a", "b"] [⟨.param "a", .le, .param "b"⟩] (.sort .zero))

theorem orderedEnv_built (P : List InductiveDecl → Prop) : Built P orderedEnv := by
  have accepted : Env.new.addAxiomWithUniverseConstraints noReuse "c" ["a", "b"]
      [⟨.param "a", .le, .param "b"⟩] (.sort .zero) = .ok orderedEnv :=
    Result.ok_of_toOption (by decide +kernel)
  exact .addAxiom (.start .memoOff) accepted

end NpaCore.Kernel
