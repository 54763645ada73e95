import NpaCore.Certificate.Verify
import NpaCore.Kernel.AdmissionEffect
import NpaCore.Lib.FlatLoad

/-!
# What a declaration puts into the flat environment

A kernel declaration is a group of entries of the environment. Loading imports is
the loading of such groups, where a group is skipped when the name of its
declaration is taken.
-/

namespace NpaCore.Certificate

open NpaCore.Kernel
open NpaCore.FlatLoad

/-! ### Declarations up to binder names -/

def eraseBinderNames : Kernel.Expr → Kernel.Expr
  | .sort level => .sort level
  | .bvar index => .bvar index
  | .const name levels => .const name levels
  | .app fn arg => .app (eraseBinderNames fn) (eraseBinderNames arg)
  | .lam _ ty body => .lam "" (eraseBinderNames ty) (eraseBinderNames body)
  | .pi _ ty body => .pi "" (eraseBinderNames ty) (eraseBinderNames body)

/-- A recursor that gives no rules has the generated ones. -/
def eraseRecursor (data : InductiveDecl) (recursor : RecursorDecl) : RecursorDecl :=
  { recursor with
    ty := eraseBinderNames recursor.ty
    rules := some (recursor.rules.getD (generatedRecursorRules data)) }

def eraseInductive (data : InductiveDecl) : InductiveDecl :=
  { data with
    params := data.params.map fun binder => ⟨"", eraseBinderNames binder.ty⟩
    indices := data.indices.map fun binder => ⟨"", eraseBinderNames binder.ty⟩
    constructors := data.constructors.map fun constructor =>
      ⟨constructor.name, eraseBinderNames constructor.ty⟩
    recursor := data.recursor.map (eraseRecursor data) }

def eraseDecl : Decl → Decl
  | .axiomDecl name universeParams universeConstraints ty =>
    .axiomDecl name universeParams universeConstraints (eraseBinderNames ty)
  | .defDecl name universeParams universeConstraints ty value reducibility =>
    .defDecl name universeParams universeConstraints (eraseBinderNames ty)
      (eraseBinderNames value) reducibility
  | .theoremDecl name universeParams universeConstraints ty proof =>
    .theoremDecl name universeParams universeConstraints (eraseBinderNames ty)
      (eraseBinderNames proof)
  | .inductiveDecl name universeParams ty data =>
    .inductiveDecl name universeParams (eraseBinderNames ty) (eraseInductive data)
  | .constructorDecl name universeParams ty inductiveName =>
    .constructorDecl name universeParams (eraseBinderNames ty) inductiveName
  | .recursorDecl name universeParams ty inductiveName rules =>
    .recursorDecl name universeParams (eraseBinderNames ty) inductiveName rules

/-- Equal up to the names of binders. -/
def SameDecl (d d' : Decl) : Prop := eraseDecl d = eraseDecl d'

instance (d d' : Decl) : Decidable (SameDecl d d') := inferInstanceAs (Decidable (_ = _))

/-! ### Groups -/

namespace KernelDecl

def entries : KernelDecl → List (String × Decl)
  | axiomDecl name universeParams universeConstraints ty =>
    [(name, .axiomDecl name universeParams universeConstraints ty)]
  | defDecl name universeParams universeConstraints ty value reducibility =>
    [(name, .defDecl name universeParams universeConstraints ty value reducibility)]
  | theoremDecl name universeParams universeConstraints ty proof =>
    [(name, .theoremDecl name universeParams universeConstraints ty proof)]
  | inductiveData data => inductiveEntries data
  | mutualBlock block => mutualEntries block

/-- The names that must be free besides those of the entries: a block keeps its own name
    free of declarations. -/
def reserved : KernelDecl → List String
  | mutualBlock block => [block.name]
  | _ => []

def group (decl : KernelDecl) : Group String Decl where
  primary := decl.name
  claims := decl.reserved.map (fun name => (name, none)) ++
    decl.entries.map fun entry => (entry.1, some entry.2)

theorem mem_claims_some {decl : KernelDecl} {name : String} {d : Decl} :
    (name, some d) ∈ decl.group.claims ↔ (name, d) ∈ decl.entries := by
  simp [group]

theorem keys_group (decl : KernelDecl) :
    decl.group.keys = decl.reserved ++ decl.entries.map Prod.fst := by
  simp [group, Group.keys, Function.comp_def]

theorem primary_mem (decl : KernelDecl) : decl.group.primary ∈ decl.group.keys := by
  rw [keys_group]
  cases decl with
  | inductiveData data => simp [group, name, entries, inductiveEntries, inductiveEntry]
  | _ => simp [group, name, reserved, entries]

end KernelDecl

/-! ### A group is determined by its primary entry -/

/-- The recursors of a block give their rules. -/
def KernelDecl.RulesGiven : KernelDecl → Prop
  | mutualBlock block => ∀ data ∈ block.inductives, ∀ recursor, data.recursor = some recursor →
      recursor.rules.isSome
  | _ => True

section Determined

theorem mem_recursorEntries {generated : RecursorRules} {data : InductiveDecl} {name : String}
    {d : Decl} : (name, d) ∈ recursorEntries generated data ↔
      ∃ recursor, data.recursor = some recursor ∧ name = recursor.name ∧
        d = .recursorDecl recursor.name recursor.universeParams recursor.ty data.name
          (recursor.rules.getD generated) := by
  simp only [recursorEntries, List.mem_map, Option.mem_toList, Prod.mk.injEq]
  constructor
  · rintro ⟨recursor, hsome, rfl, rfl⟩
    exact ⟨recursor, hsome, rfl, rfl⟩
  · rintro ⟨recursor, hsome, rfl, rfl⟩
    exact ⟨recursor, hsome, rfl, rfl⟩

theorem mem_constructorEntries {data : InductiveDecl} {name : String} {d : Decl} :
    (name, d) ∈ constructorEntries data ↔
      ∃ constructor ∈ data.constructors, name = constructor.name ∧
        d = .constructorDecl constructor.name data.universeParams constructor.ty data.name := by
  simp only [constructorEntries, List.mem_map, Prod.mk.injEq]
  constructor
  · rintro ⟨constructor, mem, rfl, rfl⟩
    exact ⟨constructor, mem, rfl, rfl⟩
  · rintro ⟨constructor, mem, rfl, rfl⟩
    exact ⟨constructor, mem, rfl, rfl⟩

/-- The family entries of a declaration are those of its families, each of which also has
    its other entries there. -/
theorem family_of_entry {decl : KernelDecl} (rules : decl.RulesGiven) {key name : String}
    {universeParams : List String} {ty : Kernel.Expr} {data : InductiveDecl}
    (mem : (key, .inductiveDecl name universeParams ty data) ∈ decl.entries) :
    key = data.name ∧ inductiveEntry data ∈ decl.entries ∧
      constructorEntries data ⊆ decl.entries ∧
        recursorEntries (generatedRecursorRules data) data ⊆ decl.entries := by
  cases decl with
  | axiomDecl => simp [KernelDecl.entries] at mem
  | defDecl => simp [KernelDecl.entries] at mem
  | theoremDecl => simp [KernelDecl.entries] at mem
  | inductiveData family =>
    have own : (key, Decl.inductiveDecl name universeParams ty data) = inductiveEntry family := by
      simp only [KernelDecl.entries, inductiveEntries, List.mem_append, List.mem_singleton,
        mem_constructorEntries, mem_recursorEntries, reduceCtorEq, and_false, exists_false,
        or_false] at mem
      exact mem
    simp only [inductiveEntry, Prod.mk.injEq, Decl.inductiveDecl.injEq] at own
    obtain ⟨rfl, -, -, -, rfl⟩ := own
    refine ⟨rfl, ?_, ?_, ?_⟩
    · simp [KernelDecl.entries, inductiveEntries]
    · intro entry hentry
      simp [KernelDecl.entries, inductiveEntries, hentry]
    · intro entry hentry
      simp [KernelDecl.entries, inductiveEntries, hentry]
  | mutualBlock block =>
    have own : ∃ family ∈ block.inductives,
        inductiveEntry family = (key, Decl.inductiveDecl name universeParams ty data) := by
      simp only [KernelDecl.entries, mutualEntries, List.mem_append, List.mem_map,
        List.mem_flatMap, mem_constructorEntries, mem_recursorEntries, reduceCtorEq, and_false,
        exists_false, or_false] at mem
      exact mem
    obtain ⟨family, hfamily, own⟩ := own
    simp only [inductiveEntry, Prod.mk.injEq, Decl.inductiveDecl.injEq] at own
    obtain ⟨rfl, -, -, -, rfl⟩ := own
    refine ⟨rfl, ?_, ?_, ?_⟩
    · simp only [KernelDecl.entries, mutualEntries, List.mem_append, List.mem_map]
      exact .inl (.inl ⟨family, hfamily, rfl⟩)
    · intro entry hentry
      simp only [KernelDecl.entries, mutualEntries, List.mem_append, List.mem_flatMap]
      exact .inl (.inr ⟨family, hfamily, hentry⟩)
    · rintro ⟨recursorName, d⟩ hentry
      obtain ⟨recursor, hsome, rfl, rfl⟩ := mem_recursorEntries.mp hentry
      obtain ⟨given, hgiven⟩ := Option.isSome_iff_exists.mp (rules family hfamily recursor hsome)
      simp only [KernelDecl.entries, mutualEntries, List.mem_append, List.mem_flatMap]
      refine .inr ⟨family, hfamily, mem_recursorEntries.mpr ⟨recursor, hsome, rfl, ?_⟩⟩
      simp [hgiven]

/-- Families that are equal up to binder names have entries that are. -/
theorem entries_of_eraseInductive {data data' : InductiveDecl}
    (same : eraseInductive data = eraseInductive data') :
    (∀ name d, (name, d) ∈ constructorEntries data →
      ∃ d', (name, d') ∈ constructorEntries data' ∧ SameDecl d d') ∧
    ∀ name d, (name, d) ∈ recursorEntries (generatedRecursorRules data) data →
      ∃ d', (name, d') ∈ recursorEntries (generatedRecursorRules data') data' ∧ SameDecl d d' := by
  simp only [eraseInductive, InductiveDecl.mk.injEq] at same
  obtain ⟨hname, hparams, -, -, -, -, hconstructors, hrecursor⟩ := same
  constructor
  · intro name d mem
    obtain ⟨constructor, hmem, rfl, rfl⟩ := mem_constructorEntries.mp mem
    have erased : (⟨constructor.name, eraseBinderNames constructor.ty⟩ : ConstructorDecl) ∈
        data'.constructors.map fun constructor =>
          (⟨constructor.name, eraseBinderNames constructor.ty⟩ : ConstructorDecl) := by
      rw [← hconstructors]
      exact List.mem_map.mpr ⟨constructor, hmem, rfl⟩
    obtain ⟨other, hother, heq⟩ := List.mem_map.mp erased
    simp only [ConstructorDecl.mk.injEq] at heq
    refine ⟨_, mem_constructorEntries.mpr ⟨other, hother, heq.1.symm, rfl⟩, ?_⟩
    simp only [SameDecl, eraseDecl, heq, hparams, hname]
  · intro name d mem
    obtain ⟨recursor, hsome, rfl, rfl⟩ := mem_recursorEntries.mp mem
    rw [hsome, Option.map_some] at hrecursor
    obtain ⟨other, hother, heq⟩ := Option.map_eq_some_iff.mp hrecursor.symm
    simp only [eraseRecursor, RecursorDecl.mk.injEq, Option.some.injEq] at heq
    refine ⟨_, mem_recursorEntries.mpr ⟨other, hother, heq.1.symm, rfl⟩, ?_⟩
    simp only [SameDecl, eraseDecl, heq, hname]

/-- A declaration with an entry like the primary one of another has all its entries. -/
theorem determines_group {decl other : KernelDecl} (rules : other.RulesGiven)
    (self : Agree SameDecl decl.group decl.group) :
    Determines SameDecl decl.group other.group := by
  intro v w hv hw related key v' hv'
  rw [KernelDecl.mem_claims_some] at hv hw hv'
  simp only [KernelDecl.mem_claims_some]
  cases decl with
  | axiomDecl =>
    simp only [KernelDecl.entries, List.mem_singleton, Prod.mk.injEq] at hv hv'
    obtain ⟨rfl, rfl⟩ := hv'
    exact ⟨w, hw, hv.2 ▸ related⟩
  | defDecl =>
    simp only [KernelDecl.entries, List.mem_singleton, Prod.mk.injEq] at hv hv'
    obtain ⟨rfl, rfl⟩ := hv'
    exact ⟨w, hw, hv.2 ▸ related⟩
  | theoremDecl =>
    simp only [KernelDecl.entries, List.mem_singleton, Prod.mk.injEq] at hv hv'
    obtain ⟨rfl, rfl⟩ := hv'
    exact ⟨w, hw, hv.2 ▸ related⟩
  | mutualBlock block =>
    -- a block has no entry under its own name
    have clash := self block.name none (some v) (by simp [KernelDecl.group, KernelDecl.reserved])
      (KernelDecl.mem_claims_some.mpr hv)
    cases clash
  | inductiveData data =>
    have own : inductiveEntry data ∈ (KernelDecl.inductiveData data).entries := by
      simp [KernelDecl.entries, inductiveEntries]
    have sameOwn := self data.name (some v)
      (some (.inductiveDecl data.name data.universeParams (inductiveType data) data))
      (KernelDecl.mem_claims_some.mpr hv) (KernelDecl.mem_claims_some.mpr own)
    cases sameOwn with
    | some sameOwn =>
      have family : eraseDecl w =
          eraseDecl (.inductiveDecl data.name data.universeParams (inductiveType data) data) :=
        related.symm.trans sameOwn
      cases w with
      | inductiveDecl name universeParams ty data' =>
        obtain ⟨hkey, -, constructors, recursors⟩ := family_of_entry rules hw
        simp only [eraseDecl, Decl.inductiveDecl.injEq] at family
        obtain ⟨sameConstructors, sameRecursors⟩ := entries_of_eraseInductive family.2.2.2.symm
        simp only [KernelDecl.entries, inductiveEntries, List.mem_append, List.mem_singleton] at hv'
        rcases hv' with (hv' | hv') | hv'
        · obtain ⟨rfl, rfl⟩ := Prod.mk.inj hv'
          refine ⟨_, hw, ?_⟩
          simp only [SameDecl, eraseDecl, family]
        · obtain ⟨w', hw', related'⟩ := sameConstructors _ _ hv'
          exact ⟨w', constructors hw', related'⟩
        · obtain ⟨w', hw', related'⟩ := sameRecursors _ _ hv'
          exact ⟨w', recursors hw', related'⟩
      | _ => simp [eraseDecl] at family

end Determined

/-! ### Loading -/

section Load

variable {alloc : Allocator} {env next : Env} {decl : KernelDecl}

theorem addDeclToEnv_adds (h : addDeclToEnv alloc env decl = .ok next) :
    Adds env decl.reserved decl.entries next := by
  cases decl with
  | axiomDecl => exact addAxiom_adds (fromKernel_eq_ok.mp h)
  | defDecl => exact addDef_adds (fromKernel_eq_ok.mp h)
  | theoremDecl => exact addTheorem_adds (fromKernel_eq_ok.mp h)
  | inductiveData data => exact addInductive_adds (fromInductive_eq_ok.mp h)
  | mutualBlock block => exact addMutualInductive_adds (fromInductive_eq_ok.mp h)

theorem loadStep_of_adds (adds : Adds env decl.reserved decl.entries next) :
    LoadStep env.decl decl.group next.decl := by
  apply LoadStep.add
  · intro name mem
    rw [KernelDecl.keys_group] at mem
    exact adds.fresh name mem
  · intro claim mem
    simp only [KernelDecl.group, List.mem_append, List.mem_map] at mem
    rcases mem with ⟨name, hname, rfl⟩ | ⟨⟨name, d⟩, hentry, rfl⟩
    · -- a reserved name is none of the entries'
      have absent : name ∉ decl.entries.map Prod.fst := fun hmem =>
        (List.nodup_append.mp adds.nodup).2.2 name hname name hmem rfl
      exact (adds.decl_of_not_mem absent).trans
        (adds.fresh name (List.mem_append_left _ hname))
    · exact adds.decl_of_mem hentry
  · intro name absent
    rw [KernelDecl.keys_group, List.mem_append, not_or] at absent
    exact adds.decl_of_not_mem absent.2

theorem addImportedDecl_loadStep (h : addImportedDecl alloc env decl = .ok next) :
    LoadStep env.decl decl.group next.decl := by
  unfold addImportedDecl at h
  split at h
  next => exact loadStep_of_adds (addDeclToEnv_adds h)
  next taken =>
    cases h
    have present : env.decl decl.name ≠ none := by
      intro free
      exact taken (by simp [free])
    exact .skip (Option.isSome_iff_ne_none.mpr present)

theorem addBuiltinDecl_loadStep (h : addBuiltinDecl alloc env decl = .ok next) :
    LoadStep env.decl decl.group next.decl := by
  unfold addBuiltinDecl at h
  split at h
  next =>
    have added : Adds env decl.reserved decl.entries next := by
      cases decl with
      | inductiveData data => exact addInductive_adds (fromKernel_eq_ok.mp h)
      | _ => exact addDeclToEnv_adds h
    exact loadStep_of_adds added
  next taken =>
    cases h
    have present : env.decl decl.name ≠ none := by simpa using taken
    exact .skip (Option.isSome_iff_ne_none.mpr present)

/-- The groups of the declarations, in order. -/
def groupsOf (decls : List KernelDecl) : List (Group String Decl) := decls.map KernelDecl.group

theorem foldEach_loads {step : Env → KernelDecl → CertResult Env}
    (each : ∀ env decl next, step env decl = .ok next →
      LoadStep env.decl decl.group next.decl)
    {before decls : List KernelDecl} (loads : Loads (groupsOf before) env.decl)
    (h : Result.foldEach decls env step = .ok next) :
    Loads (groupsOf (before ++ decls)) next.decl := by
  induction decls generalizing before env with
  | nil =>
    cases h
    simpa using loads
  | cons decl decls ih =>
    simp only [Result.foldEach, Result.bind_eq_ok] at h
    obtain ⟨mid, hstep, hrest⟩ := h
    have first : Loads (groupsOf (before ++ [decl])) mid.decl := by
      rw [groupsOf, List.map_append]
      exact loads.snoc (each _ _ _ hstep)
    simpa using ih first hrest

/-- The declarations that an action asks for. -/
def actionDecls : ImportedLoadAction → List KernelDecl
  | .builtin name _ => referencedBuiltins [name]
  | .declaration target =>
    match target.module.certificateImportExportEntryToKernelDecl target.entry with
    | .ok decl => [decl]
    | .error _ => []

theorem runLoadAction_loads {action : ImportedLoadAction} {before : List KernelDecl}
    (loads : Loads (groupsOf before) env.decl) (h : runLoadAction alloc env action = .ok next) :
    Loads (groupsOf (before ++ actionDecls action)) next.decl := by
  cases action with
  | builtin name hash =>
    simp only [runLoadAction, addBuiltinRefToEnv, Result.bind_eq_ok] at h
    obtain ⟨_, _, h⟩ := h
    exact foldEach_loads (fun _ _ _ => addBuiltinDecl_loadStep) loads h
  | declaration target =>
    simp only [runLoadAction, Result.bind_eq_ok] at h
    obtain ⟨decl, hdecl, h⟩ := h
    simp only [actionDecls, hdecl]
    rw [groupsOf, List.map_append]
    exact loads.snoc (addImportedDecl_loadStep h)

theorem replayPlannedImports_loads {actions : List ImportedLoadAction} {before : List KernelDecl}
    (loads : Loads (groupsOf before) env.decl)
    (h : replayPlannedImports alloc env actions = .ok next) :
    Loads (groupsOf (before ++ actions.flatMap actionDecls)) next.decl := by
  unfold replayPlannedImports at h
  induction actions generalizing before env with
  | nil =>
    cases h
    simpa using loads
  | cons action actions ih =>
    simp only [Result.foldEach, Result.bind_eq_ok] at h
    obtain ⟨mid, hstep, hrest⟩ := h
    simpa using ih (runLoadAction_loads loads hstep) hrest

end Load

/-- The environment of the imports holds what the groups of a recorded walk and of the
    referenced builtins leave. -/
theorem importEnv_loads {run : VerifierRun} {cert : ModuleCert} {imports : List ModuleCert}
    {env : Env} (h : importEnv run cert imports = .ok env) :
    ∃ identity ∈ [directIdentity, exactIdentity], ∃ plan builtinRefs,
      PostOrder.visitRefs (loadGraph identity imports) PostOrder.record (loadDepth imports)
          (resolveRootRef imports) (rootRefs cert) [] = .ok plan ∧
        referencedBuiltinsFromCert cert = .ok builtinRefs ∧
          Loads (groupsOf (plan.acc.flatMap actionDecls ++ referencedBuiltins builtinRefs))
            env.decl := by
  simp only [importEnv, Result.bind_eq_ok] at h
  obtain ⟨builtinRefs, hrefs, mid, himports, hbuiltins⟩ := h
  obtain ⟨identity, hidentity, plan, hplan, hreplay⟩ := addReferencedImportsToEnv_eq_ok _ himports
  have start : Loads (groupsOf []) (Env.withExecutionOptions run.options).decl := Loads.nil
  have loaded := replayPlannedImports_loads start hreplay
  exact ⟨identity, hidentity, plan, builtinRefs, hplan, hrefs,
    foldEach_loads (fun _ _ _ => addBuiltinDecl_loadStep) loaded hbuiltins⟩

end NpaCore.Certificate
