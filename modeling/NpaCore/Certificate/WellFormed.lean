import NpaCore.Certificate.Groups

/-!
# What acceptance says about a certificate

The facts about an accepted certificate that its importers rely on: its export
block is the one its declarations give, no two declarations give the kernel the
same name, and every reference in a declaration is one of its dependencies,
except those of an inductive declaration to itself.
-/

namespace NpaCore.Certificate

open NpaCore.Kernel

/-! ### Names -/

/-- The names under which a declaration is found in the kernel environment. -/
def DeclPayload.entryNames : DeclPayload → List String
  | axiomDecl name .. | defDecl name .. | theoremDecl name .. => [name]
  | inductiveDecl _ _ spec => spec.name :: spec.generatedNames
  | mutualInductiveBlock _ _ _ inductives =>
    inductives.flatMap fun spec => spec.name :: spec.generatedNames

theorem exportsName_iff {decl : DeclPayload} {name : String} :
    decl.exportsName name = true ↔ decl.primaryName = name ∨ name ∈ decl.entryNames := by
  cases decl with
  | axiomDecl | defDecl | theoremDecl =>
    simp only [DeclPayload.exportsName, DeclPayload.primaryName, DeclPayload.entryNames,
      decide_eq_true_eq, List.mem_singleton]
    constructor
    · exact .inl
    · rintro (h | h)
      · exact h
      · exact h.symm
  | inductiveDecl universeParams universeConstraints spec =>
    simp only [DeclPayload.exportsName, DeclPayload.primaryName, DeclPayload.entryNames,
      Bool.or_eq_true, decide_eq_true_eq, List.contains_iff_mem, List.mem_cons]
    constructor
    · rintro (h | h)
      · exact .inl h
      · exact .inr (.inr h)
    · rintro (h | h | h)
      · exact .inl h
      · exact .inl h.symm
      · exact .inr h
  | mutualInductiveBlock blockName universeParams universeConstraints inductives =>
    simp only [DeclPayload.exportsName, DeclPayload.primaryName, DeclPayload.entryNames,
      Bool.or_eq_true, decide_eq_true_eq, List.any_eq_true, List.contains_iff_mem,
      List.mem_flatMap, List.mem_cons]
    constructor
    · rintro (h | ⟨spec, mem, h⟩)
      · exact .inl h
      · exact .inr ⟨spec, mem, h.imp_left Eq.symm⟩
    · rintro (h | ⟨spec, mem, h⟩)
      · exact .inl h
      · exact .inr ⟨spec, mem, h.imp_left Eq.symm⟩

/-- Only a block is not found under its own name. -/
theorem primaryName_mem_entryNames {decl : DeclPayload}
    (h : ∀ name universeParams universeConstraints inductives,
      decl ≠ .mutualInductiveBlock name universeParams universeConstraints inductives) :
    decl.primaryName ∈ decl.entryNames := by
  cases decl with
  | mutualInductiveBlock name universeParams universeConstraints inductives =>
    exact absurd rfl (h name universeParams universeConstraints inductives)
  | _ => simp [DeclPayload.primaryName, DeclPayload.entryNames]

/-! ### Names of converted declarations -/

section Conversion

variable {cert : ModuleCert}

/-- The names of the entries of a family. -/
def familyNames (data : InductiveDecl) : List String :=
  data.name :: (data.constructors.map (·.name) ++ data.recursor.toList.map (·.name))

theorem inductiveFromSpec_names {isEq : Bool} {universeParams : List String}
    {universeConstraints : List UniverseConstraint} {spec : InductiveSpec} {data : InductiveDecl}
    (h : cert.inductiveFromSpec isEq universeParams universeConstraints spec = .ok data) :
    data.name = spec.name ∧ data.constructors.map (·.name) = spec.constructors.map (·.name) ∧
      data.recursor.toList.map (·.name) = spec.recursor.toList.map (·.name) ∧
        ∀ recursor, data.recursor = some recursor → recursor.rules.isSome := by
  simp only [ModuleCert.inductiveFromSpec, Result.bind_eq_ok, Except.ok.injEq] at h
  obtain ⟨_, _, _, _, constructors, hconstructors, recursor, hrecursor, rfl⟩ := h
  have named : constructors.map (·.name) = spec.constructors.map (·.name) := by
    refine Result.map_of_collect ?_ hconstructors
    intro constructor converted hconverted
    simp only [ModuleCert.constructorFromSpec, Result.bind_eq_ok, Except.ok.injEq] at hconverted
    obtain ⟨_, _, rfl⟩ := hconverted
    rfl
  refine ⟨rfl, named, ?_⟩
  cases hspec : spec.recursor with
  | none =>
    rw [hspec] at hrecursor
    cases hrecursor
    exact ⟨rfl, by simp⟩
  | some stored =>
    rw [hspec] at hrecursor
    simp only [ModuleCert.recursorFromSpec, Result.bind_eq_ok, Except.ok.injEq] at hrecursor
    obtain ⟨_, _, rfl⟩ := hrecursor
    refine ⟨rfl, ?_⟩
    intro recursor hsome
    cases hsome
    rfl

theorem familyNames_inductiveFromSpec {isEq : Bool} {universeParams : List String}
    {universeConstraints : List UniverseConstraint} {spec : InductiveSpec} {data : InductiveDecl}
    (h : cert.inductiveFromSpec isEq universeParams universeConstraints spec = .ok data) :
    familyNames data = spec.name :: spec.generatedNames := by
  obtain ⟨name, constructors, recursor, -⟩ := inductiveFromSpec_names h
  rw [familyNames, InductiveSpec.generatedNames, name, constructors, recursor]

theorem names_recursorEntries (generated : RecursorRules) (data : InductiveDecl) :
    (recursorEntries generated data).map Prod.fst = data.recursor.toList.map (·.name) := by
  simp [recursorEntries, Function.comp_def]

theorem names_constructorEntries (data : InductiveDecl) :
    (constructorEntries data).map Prod.fst = data.constructors.map (·.name) := by
  simp [constructorEntries, Function.comp_def]

theorem names_inductiveEntries (data : InductiveDecl) :
    (inductiveEntries data).map Prod.fst = familyNames data := by
  simp [inductiveEntries, names_recursorEntries, names_constructorEntries, inductiveEntry,
    familyNames]

theorem mem_names_mutualEntries {block : MutualInductiveBlock} {name : String} :
    name ∈ (mutualEntries block).map Prod.fst ↔
      ∃ data ∈ block.inductives, name ∈ familyNames data := by
  simp only [mutualEntries, List.map_append, List.map_flatMap, names_recursorEntries,
    names_constructorEntries, List.map_map, List.mem_append, List.mem_map, List.mem_flatMap,
    Function.comp_apply, inductiveEntry, familyNames, List.mem_cons]
  constructor
  · rintro ((⟨data, mem, rfl⟩ | ⟨data, mem, h⟩) | ⟨data, mem, h⟩)
    · exact ⟨data, mem, .inl rfl⟩
    · exact ⟨data, mem, .inr (.inl h)⟩
    · exact ⟨data, mem, .inr (.inr h)⟩
  · rintro ⟨data, mem, rfl | h | h⟩
    · exact .inl (.inl ⟨data, mem, rfl⟩)
    · exact .inl (.inr ⟨data, mem, h⟩)
    · exact .inr ⟨data, mem, h⟩

/-- A converted declaration has the names of its payload. -/
theorem declPayloadToKernelDecl_names {payload : DeclPayload} {decl : KernelDecl}
    (h : cert.declPayloadToKernelDecl payload = .ok decl) :
    (∀ name, name ∈ decl.entries.map Prod.fst ↔ name ∈ payload.entryNames) ∧
      decl.name = payload.primaryName ∧ decl.RulesGiven := by
  cases payload with
  | axiomDecl | defDecl | theoremDecl =>
    simp only [ModuleCert.declPayloadToKernelDecl, Result.bind_eq_ok, Except.ok.injEq] at h
    first
      | obtain ⟨_, _, rfl⟩ := h
      | obtain ⟨_, _, _, _, rfl⟩ := h
    refine ⟨?_, rfl, trivial⟩
    simp [KernelDecl.entries, DeclPayload.entryNames]
  | inductiveDecl universeParams universeConstraints spec =>
    simp only [ModuleCert.declPayloadToKernelDecl, Result.bind_eq_ok, Except.ok.injEq] at h
    obtain ⟨data, hdata, rfl⟩ := h
    have names := familyNames_inductiveFromSpec hdata
    refine ⟨?_, (List.cons.inj names).1, trivial⟩
    intro name
    rw [KernelDecl.entries, names_inductiveEntries, names, DeclPayload.entryNames]
  | mutualInductiveBlock blockName universeParams universeConstraints specs =>
    simp only [ModuleCert.declPayloadToKernelDecl, Result.bind_eq_ok, Except.ok.injEq] at h
    obtain ⟨inductives, hinductives, rfl⟩ := h
    have names : inductives.map familyNames =
        specs.map fun spec => spec.name :: spec.generatedNames :=
      Result.map_of_collect (fun _ _ => familyNames_inductiveFromSpec) hinductives
    refine ⟨?_, rfl, ?_⟩
    · intro name
      rw [KernelDecl.entries, mem_names_mutualEntries, DeclPayload.entryNames,
        List.flatMap_def, ← names]
      simp [List.mem_flatten]
    · intro data hdata recursor hrecursor
      obtain ⟨spec, _, hspec⟩ := Result.collect_mem_right hinductives hdata
      exact (inductiveFromSpec_names hspec).2.2.2 recursor hrecursor

end Conversion

/-! ### Names of the declarations of a module -/

section Names

variable {run : VerifierRun} {cert : ModuleCert}

theorem exposeCheckedOpaqueDefinition_isSome {env next : Env} {exposed name : String}
    (h : exposeCheckedOpaqueDefinition env exposed = some next)
    (present : (env.decl name).isSome) : (next.decl name).isSome := by
  unfold exposeCheckedOpaqueDefinition at h
  split at h
  next =>
    cases h
    rw [Env.decl_insertDecl]
    split
    · rfl
    · exact present
  next => cases h

/-- A declaration of the certificate adds its names, which were free, and keeps the others. -/
theorem addCertDecl_names {env next : Env} {decl : DeclCert}
    (h : addCertDecl run cert env decl = .ok next) :
    (∀ name ∈ decl.decl.entryNames, env.decl name = none ∧ (next.decl name).isSome) ∧
      ∀ name, (env.decl name).isSome → (next.decl name).isSome := by
  simp only [addCertDecl, addCurrentModuleDeclToEnv, Result.bind_eq_ok] at h
  obtain ⟨kernelDecl, hkernel, mid, hadd, h⟩ := h
  obtain ⟨names, -, -⟩ := declPayloadToKernelDecl_names hkernel
  have adds := addDeclToEnv_adds hadd
  have kept : ∀ name, (mid.decl name).isSome → (next.decl name).isSome := by
    intro name present
    split at h
    next => exact exposeCheckedOpaqueDefinition_isSome (Result.okOr_eq_ok.mp h) present
    next =>
      cases h
      exact present
  constructor
  · intro name mem
    have entry := (names name).mpr mem
    obtain ⟨⟨_, d⟩, hentry, rfl⟩ := List.mem_map.mp entry
    exact ⟨adds.fresh _ (List.mem_append_right _ entry), kept _ (by simp [adds.decl_of_mem hentry])⟩
  · intro name present
    apply kept
    by_cases mine : name ∈ kernelDecl.entries.map Prod.fst
    · obtain ⟨⟨_, d⟩, hentry, rfl⟩ := List.mem_map.mp mine
      simp [adds.decl_of_mem hentry]
    · rwa [adds.decl_of_not_mem mine]

/-- The declarations of a certificate have different names, all free before. -/
theorem addCertDecls_names {decls : List DeclCert} {env next : Env}
    (h : Result.foldEach decls env (addCertDecl run cert) = .ok next) :
    (decls.Pairwise fun d d' => ∀ name ∈ d.decl.entryNames, name ∉ d'.decl.entryNames) ∧
      ∀ decl ∈ decls, ∀ name ∈ decl.decl.entryNames, env.decl name = none := by
  induction decls generalizing env with
  | nil => simp
  | cons first rest ih =>
    simp only [Result.foldEach, Result.bind_eq_ok] at h
    obtain ⟨mid, hstep, hrest⟩ := h
    obtain ⟨own, kept⟩ := addCertDecl_names hstep
    obtain ⟨pairwise, fresh⟩ := ih hrest
    have absent : ∀ decl ∈ rest, ∀ name ∈ decl.decl.entryNames, (mid.decl name).isSome = false := by
      intro decl mem name hname
      rw [fresh decl mem name hname]
      rfl
    refine ⟨List.pairwise_cons.mpr ⟨?_, pairwise⟩, ?_⟩
    · intro decl mem name hname hname'
      have present := (own name hname).2
      rw [absent decl mem name hname'] at present
      cases present
    · intro decl mem name hname
      rcases List.mem_cons.mp mem with rfl | mem
      · exact (own name hname).1
      · cases found : env.decl name with
        | none => rfl
        | some d =>
          have present := kept name (by simp [found])
          rw [absent decl mem name hname] at present
          cases present

theorem ensureUniqueNames_nodup {names seen : List String}
    (h : ensureUniqueNames seen names = .ok ()) : names.Nodup ∧ ∀ name ∈ names, name ∉ seen := by
  induction names generalizing seen with
  | nil => simp
  | cons first rest ih =>
    simp only [ensureUniqueNames, Result.bind_eq_ok, Result.ensure_eq_ok] at h
    obtain ⟨_, notSeen, hrest⟩ := h
    obtain ⟨nodup, others⟩ := ih hrest
    refine ⟨List.nodup_cons.mpr ⟨fun mem => others first mem (by simp), nodup⟩, ?_⟩
    intro name mem
    rcases List.mem_cons.mp mem with rfl | mem
    · simpa using notSeen
    · exact fun seenName => others name mem (List.mem_cons_of_mem _ seenName)

end Names

/-! ### Well-formed certificates -/

structure ModuleCert.WellFormed (cert : ModuleCert) : Prop where
  exports : cert.exportBlock = buildExportBlock cert.nameTable cert.declarations
  primaries : (cert.declarations.map (·.decl.primaryName)).Nodup
  distinct : ∀ {i j : Nat} {d d' : DeclCert}, cert.declarations[i]? = some d →
    cert.declarations[j]? = some d' → ∀ {name : String}, name ∈ d.decl.entryNames →
      name ∈ d'.decl.entryNames → i = j

/-- What a run that accepts has checked. -/
structure Checks (run : VerifierRun) (X : Module) (available : List Module) (env : Env) :
    Prop where
  preImport : verifyPreImportChecks X.cert = .ok ()
  resolved : resolveImportRefs Module.cert X.cert available run.policy.mode = .ok X.imports
  dependencies : verifyDependenciesAndAxioms X.cert X.importCerts = .ok ()
  kernel : ∃ start, importEnv run X.cert X.importCerts = .ok start ∧
    Result.foldEach X.cert.declarations start (addCertDecl run X.cert) = .ok env

theorem checks_of_accepted {run : VerifierRun} {X : Module} {available : List Module} {env : Env}
    (h : verifyModuleCertWithImportRefs Module.cert run X.cert available = .ok (X.imports, env)) :
    Checks run X available env := by
  simp only [verifyModuleCertWithImportRefs, verifyChecksWithImports, Result.bind_eq_ok,
    Except.ok.injEq, Prod.mk.injEq] at h
  obtain ⟨_, hpre, imports, himports, _, ⟨_, hdependencies, _, _, _, _, start, hstart, hdecls⟩,
    rfl, rfl⟩ := h
  exact ⟨hpre, himports, hdependencies, start, hstart, hdecls⟩

theorem accepted_of_checks {run : VerifierRun} {X : Module} {available : List Module}
    (pre : verifyPreImportChecks X.cert = .ok ())
    (resolved : resolveImportRefs Module.cert X.cert available run.policy.mode = .ok X.imports)
    (checks : (verifyChecksWithImports run X.cert X.importCerts).isOk = true) :
    ∃ final,
      verifyModuleCertWithImportRefs Module.cert run X.cert available = .ok (X.imports, final) := by
  cases h : verifyChecksWithImports run X.cert X.importCerts with
  | error => simp [h, Except.isOk, Except.toBool] at checks
  | ok final =>
    refine ⟨final, ?_⟩
    simp only [verifyModuleCertWithImportRefs, Result.bind_eq_ok]
    exact ⟨(), pre, X.imports, resolved, final, h, rfl⟩

section Accepted

variable {run : VerifierRun} {X : Module} {available : List Module} {env : Env}

theorem Checks.wellFormed (checks : Checks run X available env) : X.cert.WellFormed := by
  have hpre := checks.preImport
  simp only [verifyPreImportChecks, verifyDeclarationOrder, Result.bind_eq_ok,
    Result.ensure_eq_ok, decide_eq_true_eq] at hpre
  obtain ⟨_, _, _, hexports, _, hunique, _⟩ := hpre
  obtain ⟨start, _, hdecls⟩ := checks.kernel
  have pairwise := (addCertDecls_names hdecls).1
  refine ⟨hexports, (ensureUniqueNames_nodup hunique).1, ?_⟩
  have apart : ∀ {i j : Nat} {d d' : DeclCert}, i < j → X.cert.declarations[i]? = some d →
      X.cert.declarations[j]? = some d' → ∀ name ∈ d.decl.entryNames,
        name ∉ d'.decl.entryNames := by
    intro i j d d' lt hi hj
    obtain ⟨hilt, rfl⟩ := List.getElem?_eq_some_iff.mp hi
    obtain ⟨hjlt, rfl⟩ := List.getElem?_eq_some_iff.mp hj
    exact List.pairwise_iff_getElem.mp pairwise i j hilt hjlt lt
  intro i j d d' hi hj name hname hname'
  rcases Nat.lt_trichotomy i j with lt | eq | gt
  · exact absurd hname' (apart lt hi hj name hname)
  · exact eq
  · exact absurd hname (apart gt hj hi name hname')

/-! ### Dependencies and axioms of the declarations -/

section Dependencies

variable {cert : ModuleCert} {imports : List ModuleCert}

/-- What the checks of dependencies and axioms have found out about one declaration. -/
structure DeclChecked (cert : ModuleCert) (imports : List ModuleCert) (declIndex : Nat)
    (decl : DeclCert) : Prop where
  dependencies : expectedDependenciesForDecl cert imports declIndex decl = .ok decl.dependencies
  axioms : ∃ direct, expectedAxiomsForDecl cert imports declIndex decl decl.dependencies
    ((cert.declarations.take declIndex).map (·.axiomDependencies)) =
      .ok (direct, decl.axiomDependencies)

theorem verifyDeclAxioms_eq_ok {previous reports : List (List AxiomRef)} {decl : DeclCert}
    {declIndex : Nat} (h : verifyDeclAxioms cert imports previous (decl, declIndex) = .ok reports) :
    expectedDependenciesForDecl cert imports declIndex decl = .ok decl.dependencies ∧
      (∃ direct, expectedAxiomsForDecl cert imports declIndex decl decl.dependencies previous =
        .ok (direct, decl.axiomDependencies)) ∧
      reports = previous ++ [decl.axiomDependencies] := by
  simp only [verifyDeclAxioms, Result.bind_eq_ok, Result.ensure_eq_ok, decide_eq_true_eq,
    Except.ok.injEq] at h
  obtain ⟨_, hdependencies, _, rfl, ⟨direct, _⟩, haxioms, _, rfl, _, _, rfl⟩ := h
  exact ⟨hdependencies, ⟨direct, haxioms⟩, rfl⟩

/-- The loop over the declarations, from those that are already checked on. -/
theorem verifyDeclAxioms_loop {rest : List DeclCert} {before reports : List (List AxiomRef)}
    (h : Result.foldEach (rest.zipIdx before.length) before (verifyDeclAxioms cert imports) =
      .ok reports) :
    reports = before ++ rest.map (·.axiomDependencies) ∧
      ∀ i decl, rest[i]? = some decl →
        expectedDependenciesForDecl cert imports (before.length + i) decl =
            .ok decl.dependencies ∧
          ∃ direct, expectedAxiomsForDecl cert imports (before.length + i) decl decl.dependencies
            (before ++ (rest.take i).map (·.axiomDependencies)) =
              .ok (direct, decl.axiomDependencies) := by
  induction rest generalizing before with
  | nil =>
    cases h
    simp
  | cons first rest ih =>
    simp only [List.zipIdx_cons, Result.foldEach, Result.bind_eq_ok] at h
    obtain ⟨next, hstep, hrest⟩ := h
    obtain ⟨hdependencies, haxioms, rfl⟩ := verifyDeclAxioms_eq_ok hstep
    have length : (before ++ [first.axiomDependencies]).length = before.length + 1 := by simp
    rw [← length] at hrest
    obtain ⟨hreports, each⟩ := ih hrest
    refine ⟨by rw [hreports]; simp, ?_⟩
    intro i decl found
    cases i with
    | zero =>
      cases found
      simpa using ⟨hdependencies, haxioms⟩
    | succ i =>
      have later := each i decl found
      rw [length, Nat.add_assoc, Nat.add_comm 1 i] at later
      simpa using later

theorem declChecked_of_accepted (h : verifyDependenciesAndAxioms cert imports = .ok ()) :
    (∀ i decl, cert.declarations[i]? = some decl → DeclChecked cert imports i decl) ∧
      cert.axiomReport.moduleAxioms = sortedSet (axiomRefOrderKey cert.nameTable)
        (cert.declarations.map (·.axiomDependencies)).flatten := by
  simp only [verifyDependenciesAndAxioms, Result.bind_eq_ok, Result.ensure_eq_ok,
    decide_eq_true_eq] at h
  obtain ⟨reports, hloop, _, _, hmodule⟩ := h
  obtain ⟨rfl, each⟩ := @verifyDeclAxioms_loop _ _ _ [] _ hloop
  refine ⟨?_, by simpa using hmodule.symm⟩
  intro i decl found
  have checked := each i decl found
  simp only [List.length_nil, Nat.zero_add, List.nil_append] at checked
  exact ⟨checked.1, checked.2⟩

/-- A local reference with an interface hash is one to an earlier declaration. -/
theorem earlier_of_interfaceHash {declIndex : Nat} {ref : GlobalRef} {hash : Hash}
    (h : interfaceHashForGlobalRef cert imports declIndex ref = .ok hash) {target : Nat}
    (isTarget : ref.isSelf target = true) : target < declIndex := by
  cases ref with
  | builtin | imported => cases isTarget
  | «local» | localGenerated =>
    simp only [interfaceHashForGlobalRef, Result.bind_eq_ok, Result.ensure_eq_ok,
      decide_eq_true_eq] at h
    simp only [GlobalRef.isSelf, decide_eq_true_eq] at isTarget
    obtain ⟨_, earlier, _⟩ := h
    exact isTarget ▸ earlier

/-- The dependencies of a declaration: one for each reference in its terms, other than the
    references of an inductive declaration to itself, and local ones to opaque definitions. -/
theorem DeclChecked.mem_dependencies {declIndex : Nat} {decl : DeclCert}
    (checked : DeclChecked cert imports declIndex decl) :
    (∀ ref ∈ decl.decl.terms.flatMap Term.refs,
      (decl.decl.isInductive && ref.isSelf declIndex) = false →
        (∃ dependency ∈ decl.dependencies, dependency.globalRef = ref) ∧
          ∀ target, ref.isSelf target = true → target < declIndex) ∧
    ∀ dependency ∈ decl.dependencies,
      dependency.globalRef ∈ decl.decl.terms.flatMap Term.refs ∨
        ∃ target, dependency.globalRef = .local target := by
  have h := checked.dependencies
  simp only [expectedDependenciesForDecl, localTransparencyDependencies,
    completeLocalTransparencyDependencies, Result.bind_eq_ok, Except.ok.injEq] at h
  obtain ⟨_, _, closure, ⟨interfaces, hinterfaces, rfl⟩, _, _, _, hhashes, implementations,
    himplementations, hdependencies⟩ := h
  rw [← hdependencies]
  generalize sortedSet (fun index => [index]) (opaqueDefinitionIndices _ _ _ _ _ _ _) = hidden
    at hinterfaces himplementations
  refine ⟨?_, ?_⟩
  · intro ref mem other
    have direct : ref ∈ directRefs cert.nameTable declIndex decl.decl := by
      simp only [directRefs, scanTermRoots, List.mem_filter, mem_sortedSet, other, Bool.not_false,
        and_true]
      exact mem
    -- a plain reference to an opaque definition is listed with its implementation
    cases isHidden : ref.isLocalIn hidden with
    | true =>
      cases ref with
      | «local» target =>
        simp only [GlobalRef.isLocalIn, List.contains_iff_mem] at isHidden
        obtain ⟨entry, hentry, hchecked⟩ := Result.collect_mem_left himplementations isHidden
        simp only [checkedLocalImplementation, Result.bind_eq_ok, Result.ensure_eq_ok,
          decide_eq_true_eq, Except.ok.injEq] at hchecked
        obtain ⟨_, earlier, _, _, _, _, rfl⟩ := hchecked
        refine ⟨⟨_, mem_sortedSet.mpr (List.mem_append_right _ hentry), rfl⟩, ?_⟩
        intro index isTarget
        simp only [GlobalRef.isSelf, decide_eq_true_eq] at isTarget
        exact isTarget ▸ earlier
      | _ => simp [GlobalRef.isLocalIn] at isHidden
    | false =>
      have listed : ref ∈ (directRefs cert.nameTable declIndex decl.decl).filter
          fun ref => !ref.isLocalIn hidden := List.mem_filter.mpr ⟨direct, by simp [isHidden]⟩
      obtain ⟨entry, hentry, hinterface⟩ := Result.collect_mem_left hinterfaces listed
      simp only [Result.bind_eq_ok, Except.ok.injEq] at hinterface
      obtain ⟨hash, _, rfl⟩ := hinterface
      refine ⟨⟨_, mem_sortedSet.mpr (List.mem_append_left _ hentry), rfl⟩, ?_⟩
      have checkedHash := Result.forEach_eq_ok.mp hhashes _ hentry
      simp only [Result.bind_eq_ok, DependencyEntry.globalRef] at checkedHash
      obtain ⟨_, hchecked, _⟩ := checkedHash
      intro index isTarget
      exact earlier_of_interfaceHash hchecked isTarget
  · intro dependency mem
    rcases List.mem_append.mp (mem_sortedSet.mp mem) with hentry | hentry
    · obtain ⟨ref, href, hinterface⟩ := Result.collect_mem_right hinterfaces hentry
      simp only [Result.bind_eq_ok, Except.ok.injEq] at hinterface
      obtain ⟨_, _, rfl⟩ := hinterface
      simp only [directRefs, scanTermRoots, List.mem_filter, mem_sortedSet] at href
      exact .inl href.1.1
    · obtain ⟨target, _, hchecked⟩ := Result.collect_mem_right himplementations hentry
      simp only [checkedLocalImplementation, Result.bind_eq_ok, Except.ok.injEq] at hchecked
      obtain ⟨_, _, _, _, _, _, rfl⟩ := hchecked
      exact .inr ⟨target, rfl⟩

end Dependencies

/-! ### Verified modules -/

theorem Verified.wellFormed (verified : Verified X) : X.cert.WellFormed := by
  cases verified with
  | intro each h => exact (checks_of_accepted (X := .mk _ _) h).wellFormed

end Accepted

end NpaCore.Certificate
