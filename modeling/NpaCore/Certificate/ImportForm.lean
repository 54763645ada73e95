import NpaCore.Certificate.WellFormed

/-!
# Declarations as their importers see them

In a well-formed certificate an export entry and the declaration it comes from
determine each other, up to the other entries of the same declaration. So what an
importer gets for an entry, and what it has to load for it, is a function of the
declaration alone.
-/

namespace NpaCore.Certificate

open NpaCore.Kernel
open NpaCore.FlatLoad

/-- The kernel declaration of an importing module for a declaration of this one. -/
def ModuleCert.importedPayload (cert : ModuleCert) : DeclPayload → CertResult KernelDecl
  | .axiomDecl name universeParams universeConstraints ty
  | .theoremDecl name universeParams universeConstraints ty _
  | .defDecl name universeParams universeConstraints ty _ .opaqueDef => do
    let ty ← cert.exprFromTerm ty
    .ok (.axiomDecl name universeParams (universeConstraintsFromSpecs universeConstraints) ty)
  | .defDecl name universeParams universeConstraints ty value .reducible => do
    let ty ← cert.exprFromTerm ty
    let value ← cert.exprFromTerm value
    .ok (.defDecl name universeParams (universeConstraintsFromSpecs universeConstraints) ty value
      .reducible)
  | payload => do
    let kernelDecl ← cert.declPayloadToKernelDecl payload
    .ok (ModuleCert.normalizeBuiltinImportDecl kernelDecl)

namespace DeclPayload

/-- The terms that importers see. -/
def importedTerms : DeclPayload → List Term
  | axiomDecl _ _ _ ty | theoremDecl _ _ _ ty _ | defDecl _ _ _ ty _ .opaqueDef => [ty]
  | defDecl _ _ _ ty value .reducible => [ty, value]
  | payload => payload.terms

/-- The names that importers find taken, the name of a block among them. -/
def importedNames : DeclPayload → List String
  | axiomDecl name .. | defDecl name .. | theoremDecl name .. => [name]
  | inductiveDecl _ _ spec =>
    spec.name :: (spec.constructors.map (·.name) ++
      if spec.name = "Eq" then [] else spec.recursor.toList.map (·.name))
  | mutualInductiveBlock name _ _ inductives =>
    name :: inductives.flatMap fun spec => spec.name :: spec.generatedNames

end DeclPayload

def ExportKind.isFamily : ExportKind → Bool
  | inductiveExport | constructorExport | recursorExport => true
  | axiomExport | defExport | theoremExport => false

/-! ### Entries and their declarations -/

section Entries

variable {cert : ModuleCert}

theorem ModuleCert.WellFormed.mem_exportBlock (wellFormed : cert.WellFormed) {entry : ExportEntry} :
    entry ∈ cert.exportBlock ↔ ∃ decl ∈ cert.declarations, entry ∈ declExports decl := by
  rw [wellFormed.exports, buildExportBlock, List.mem_insertionSort, List.mem_flatMap]

/-- What the entries of a family have in common. -/
theorem mem_familyExports {decl : DeclCert} {universeParams : List String}
    {universeConstraints : List UniverseConstraint} {spec : InductiveSpec} {entry : ExportEntry}
    (mem : entry ∈ familyExports decl universeParams universeConstraints spec) :
    entry.name ∈ spec.name :: spec.generatedNames ∧ entry.kind.isFamily = true ∧
      entry.declInterfaceHash = decl.hashes.declInterfaceHash ∧
        entry.axiomDependencies = decl.axiomDependencies := by
  simp only [familyExports, List.mem_append, List.mem_singleton, List.mem_map] at mem
  rcases mem with (rfl | ⟨constructor, hmem, rfl⟩) | ⟨recursor, hmem, rfl⟩
  · exact ⟨by simp [exportEntry], rfl, rfl, rfl⟩
  · refine ⟨?_, rfl, rfl, rfl⟩
    simp only [exportEntry, InductiveSpec.generatedNames, List.mem_cons, List.mem_append,
      List.mem_map]
    exact .inr (.inl ⟨constructor, hmem, rfl⟩)
  · refine ⟨?_, rfl, rfl, rfl⟩
    simp only [exportEntry, InductiveSpec.generatedNames, List.mem_cons, List.mem_append,
      List.mem_map]
    exact .inr (.inr ⟨recursor, hmem, rfl⟩)

/-- An entry carries the hash and the axioms of its declaration, and one of its names. -/
theorem mem_declExports {decl : DeclCert} {entry : ExportEntry} (mem : entry ∈ declExports decl) :
    entry.name ∈ decl.decl.entryNames ∧ entry.kind.isFamily = decl.decl.isInductive ∧
      entry.declInterfaceHash = decl.hashes.declInterfaceHash ∧
        entry.axiomDependencies = decl.axiomDependencies := by
  obtain ⟨payload, dependencies, axiomDependencies, hashes⟩ := decl
  cases payload with
  | axiomDecl | defDecl | theoremDecl =>
    cases List.mem_singleton.mp mem
    simp [DeclPayload.entryNames, DeclPayload.isInductive, ExportKind.isFamily, exportEntry]
  | inductiveDecl => exact mem_familyExports mem
  | mutualInductiveBlock =>
    obtain ⟨spec, hspec, mem⟩ := List.mem_flatMap.mp mem
    obtain ⟨name, rest⟩ := mem_familyExports mem
    exact ⟨List.mem_flatMap.mpr ⟨spec, hspec, name⟩, rest⟩

theorem sourceDeclIndexForName_eq_ok {name : String} {declIndex : Nat}
    (h : cert.sourceDeclIndexForName name = .ok declIndex) :
    ∃ decl, cert.declarations[declIndex]? = some decl ∧ decl.decl.exportsName name = true := by
  simp only [ModuleCert.sourceDeclIndexForName, Result.okOr_eq_ok,
    List.findIdx?_eq_some_iff_getElem] at h
  obtain ⟨lt, exports, -⟩ := h
  exact ⟨_, List.getElem?_eq_getElem lt, exports⟩

/-- The declarations of a well-formed certificate are known by their names. -/
theorem ModuleCert.WellFormed.index_of_primaryName (wellFormed : cert.WellFormed) {i j : Nat}
    {d d' : DeclCert} (hi : cert.declarations[i]? = some d) (hj : cert.declarations[j]? = some d')
    (same : d.decl.primaryName = d'.decl.primaryName) : i = j := by
  obtain ⟨hilt, rfl⟩ := List.getElem?_eq_some_iff.mp hi
  obtain ⟨hjlt, rfl⟩ := List.getElem?_eq_some_iff.mp hj
  have inj := List.nodup_iff_injective_get.mp wellFormed.primaries
  have eq := @inj ⟨i, by simpa using hilt⟩ ⟨j, by simpa using hjlt⟩ (by simpa using same)
  simpa using eq

/-- The entry of a declaration that is no inductive one. -/
theorem plainEntry_importForm {decl : DeclCert} {entry : ExportEntry}
    (mem : entry ∈ declExports decl) (plain : decl.decl.isInductive = false) :
    entry.name = decl.decl.primaryName ∧
      cert.certificateImportExportEntryToKernelDecl entry = cert.importedPayload decl.decl ∧
        (Target.mk cert entry).terms = .ok decl.decl.importedTerms := by
  obtain ⟨payload, dependencies, axiomDependencies, hashes⟩ := decl
  cases payload with
  | axiomDecl | theoremDecl =>
    cases List.mem_singleton.mp mem
    exact ⟨rfl, rfl, rfl⟩
  | defDecl _ _ _ _ _ reducibility =>
    cases List.mem_singleton.mp mem
    cases reducibility <;> exact ⟨rfl, rfl, rfl⟩
  | inductiveDecl | mutualInductiveBlock => cases plain

/-- An entry of a family stands for the whole declaration. -/
theorem familyEntry_importForm {decl : DeclCert} {entry : ExportEntry} {declIndex : Nat}
    (family : entry.kind.isFamily = true)
    (source : cert.sourceDeclIndexForName entry.name = .ok declIndex)
    (found : cert.declarations[declIndex]? = some decl) (inductive_ : decl.decl.isInductive = true) :
    cert.certificateImportExportEntryToKernelDecl entry = cert.importedPayload decl.decl ∧
      (Target.mk cert entry).terms = .ok decl.decl.importedTerms := by
  have form : cert.importedPayload decl.decl =
      cert.declPayloadToKernelDecl decl.decl >>= fun kernelDecl =>
        .ok (ModuleCert.normalizeBuiltinImportDecl kernelDecl) := by
    obtain ⟨payload, _, _, _⟩ := decl
    cases payload with
    | inductiveDecl | mutualInductiveBlock => rfl
    | _ => cases inductive_
  have terms : decl.decl.importedTerms = decl.decl.terms := by
    obtain ⟨payload, _, _, _⟩ := decl
    cases payload with
    | inductiveDecl | mutualInductiveBlock => rfl
    | _ => cases inductive_
  rw [form, terms]
  cases kind : entry.kind with
  | inductiveExport | constructorExport | recursorExport =>
    simp only [ModuleCert.certificateImportExportEntryToKernelDecl, Target.terms, kind, source,
      found, Result.okOr, bind, Except.bind, and_self]
  | _ => simp [kind, ExportKind.isFamily] at family

/-- An entry that is found for a declaration stands for what importers see of it. -/
theorem ModuleCert.WellFormed.entry_of_source (wellFormed : cert.WellFormed) {entry : ExportEntry}
    (mem : entry ∈ cert.exportBlock) {declIndex : Nat}
    (source : cert.sourceDeclIndexForName entry.name = .ok declIndex) :
    ∃ decl, cert.declarations[declIndex]? = some decl ∧
      entry.kind.isFamily = decl.decl.isInductive ∧
        cert.certificateImportExportEntryToKernelDecl entry = cert.importedPayload decl.decl ∧
          (Target.mk cert entry).terms = .ok decl.decl.importedTerms := by
  obtain ⟨own, hown, mem⟩ := wellFormed.mem_exportBlock.mp mem
  obtain ⟨i, hi⟩ := List.mem_iff_getElem?.mp hown
  obtain ⟨hname, hkind, -, -⟩ := mem_declExports mem
  obtain ⟨decl, hdecl, exports⟩ := sourceDeclIndexForName_eq_ok source
  have names := exportsName_iff.mp exports
  refine ⟨decl, hdecl, ?_⟩
  cases family : own.decl.isInductive with
  | false =>
    obtain ⟨hprimary, hform, hterms⟩ := @plainEntry_importForm cert _ _ mem family
    have same : declIndex = i := by
      rcases names with primary | entryName
      · exact wellFormed.index_of_primaryName hdecl hi (primary.trans hprimary)
      · exact wellFormed.distinct hdecl hi entryName hname
    subst same
    cases hdecl.symm.trans hi
    exact ⟨hkind, hform, hterms⟩
  | true =>
    -- a plain declaration of that name would have its entry's name twice in the certificate
    have inductive_ : decl.decl.isInductive = true := by
      cases plain : decl.decl.isInductive with
      | true => rfl
      | false =>
        have entryName : entry.name ∈ decl.decl.entryNames := by
          rcases names with primary | entryName
          · rw [← primary]
            apply primaryName_mem_entryNames
            intro _ _ _ _ block
            rw [block] at plain
            cases plain
          · exact entryName
        have same := wellFormed.distinct hdecl hi entryName hname
        subst same
        cases hdecl.symm.trans hi
        exact plain.symm.trans family
    rw [family] at hkind
    exact ⟨hkind.trans inductive_.symm, familyEntry_importForm hkind source hdecl inductive_⟩

end Entries

/-! ### Names of imported declarations -/

section Names

variable {cert : ModuleCert}

/-- Without its recursor a family keeps the names of its constructors. -/
theorem names_normalized (data : InductiveDecl) :
    (ModuleCert.normalizeBuiltinImportDecl (.inductiveData data)).entries.map Prod.fst =
      data.name :: (data.constructors.map (·.name) ++
        if data.name = "Eq" then [] else data.recursor.toList.map (·.name)) := by
  by_cases isEq : data.name = "Eq"
  · simp [ModuleCert.normalizeBuiltinImportDecl, isEq, KernelDecl.entries, names_inductiveEntries,
      familyNames]
  · simp [ModuleCert.normalizeBuiltinImportDecl, isEq, KernelDecl.entries, names_inductiveEntries,
      familyNames]

theorem importedPayload_names {payload : DeclPayload} {decl : KernelDecl}
    (h : cert.importedPayload payload = .ok decl) :
    (∀ name, name ∈ decl.group.keys ↔ name ∈ payload.importedNames) ∧
      (∀ name ∈ decl.entries.map Prod.fst, name ∈ payload.entryNames) ∧ decl.RulesGiven := by
  cases payload with
  | axiomDecl | theoremDecl =>
    simp only [ModuleCert.importedPayload, Result.bind_eq_ok, Except.ok.injEq] at h
    obtain ⟨_, _, rfl⟩ := h
    simp [KernelDecl.keys_group, KernelDecl.reserved, KernelDecl.entries,
      DeclPayload.importedNames, DeclPayload.entryNames, KernelDecl.RulesGiven]
  | defDecl _ _ _ _ _ reducibility =>
    cases reducibility with
    | reducible =>
      simp only [ModuleCert.importedPayload, Result.bind_eq_ok, Except.ok.injEq] at h
      obtain ⟨_, _, _, _, rfl⟩ := h
      simp [KernelDecl.keys_group, KernelDecl.reserved, KernelDecl.entries,
        DeclPayload.importedNames, DeclPayload.entryNames, KernelDecl.RulesGiven]
    | opaqueDef =>
      simp only [ModuleCert.importedPayload, Result.bind_eq_ok, Except.ok.injEq] at h
      obtain ⟨_, _, rfl⟩ := h
      simp [KernelDecl.keys_group, KernelDecl.reserved, KernelDecl.entries,
        DeclPayload.importedNames, DeclPayload.entryNames, KernelDecl.RulesGiven]
  | inductiveDecl universeParams universeConstraints spec =>
    simp only [ModuleCert.importedPayload, ModuleCert.declPayloadToKernelDecl, Result.bind_eq_ok,
      Except.ok.injEq] at h
    obtain ⟨_, ⟨data, hdata, rfl⟩, rfl⟩ := h
    obtain ⟨hname, hconstructors, hrecursor, -⟩ := inductiveFromSpec_names hdata
    have names : (ModuleCert.normalizeBuiltinImportDecl (.inductiveData data)).entries.map
        Prod.fst = (DeclPayload.inductiveDecl universeParams universeConstraints
          spec).importedNames := by
      rw [names_normalized, hname, hconstructors, hrecursor, DeclPayload.importedNames]
    refine ⟨?_, ?_, trivial⟩
    · intro name
      rw [KernelDecl.keys_group, ← names]
      rfl
    · intro name mem
      rw [names, DeclPayload.importedNames] at mem
      simp only [DeclPayload.entryNames, InductiveSpec.generatedNames, List.mem_cons,
        List.mem_append] at mem ⊢
      rcases mem with mem | mem | mem
      · exact .inl mem
      · exact .inr (.inl mem)
      · split at mem
        · cases mem
        · exact .inr (.inr mem)
  | mutualInductiveBlock blockName universeParams universeConstraints specs =>
    simp only [ModuleCert.importedPayload, Result.bind_eq_ok, Except.ok.injEq] at h
    obtain ⟨converted, hconverted, rfl⟩ := h
    obtain ⟨names, hname, rules⟩ := declPayloadToKernelDecl_names hconverted
    simp only [ModuleCert.declPayloadToKernelDecl, Result.bind_eq_ok, Except.ok.injEq] at hconverted
    obtain ⟨inductives, _, rfl⟩ := hconverted
    refine ⟨?_, fun name => (names name).mp, rules⟩
    intro name
    have entries := names name
    simp only [DeclPayload.entryNames] at entries
    simp only [ModuleCert.normalizeBuiltinImportDecl, KernelDecl.keys_group, KernelDecl.reserved,
      DeclPayload.importedNames, List.mem_append, List.mem_cons, List.not_mem_nil, or_false,
      entries]

theorem keys_normalized_sublist (decl : KernelDecl) :
    ((ModuleCert.normalizeBuiltinImportDecl decl).group.keys).Sublist decl.group.keys := by
  cases decl with
  | inductiveData data =>
    simp only [KernelDecl.keys_group, ModuleCert.normalizeBuiltinImportDecl, KernelDecl.reserved,
      List.nil_append, KernelDecl.entries, names_inductiveEntries]
    by_cases isEq : data.name = "Eq"
    · simp [isEq, familyNames]
    · simp [isEq]
  | _ => exact List.Sublist.refl _

theorem rulesGiven_of_entry {entry : ExportEntry} {decl : KernelDecl}
    (h : cert.certificateImportExportEntryToKernelDecl entry = .ok decl) : decl.RulesGiven := by
  unfold ModuleCert.certificateImportExportEntryToKernelDecl at h
  cases kind : entry.kind with
  | axiomExport | theoremExport =>
    simp only [kind, Result.bind_eq_ok, Except.ok.injEq] at h
    obtain ⟨_, _, rfl⟩ := h
    trivial
  | defExport =>
    simp only [kind, Result.bind_eq_ok] at h
    obtain ⟨_, _, reducibility, _, h⟩ := h
    cases reducibility with
    | reducible =>
      simp only [Result.bind_eq_ok, Except.ok.injEq] at h
      obtain ⟨_, _, _, _, rfl⟩ := h
      trivial
    | opaqueDef =>
      cases h
      trivial
  | inductiveExport | constructorExport | recursorExport =>
    simp only [kind, Result.bind_eq_ok, Except.ok.injEq] at h
    obtain ⟨_, _, _, _, converted, hconverted, rfl⟩ := h
    have rules := (declPayloadToKernelDecl_names hconverted).2.2
    cases converted with
    | inductiveData => trivial
    | _ => exact rules

/-- An entry whose imported declaration has its name comes from that declaration. -/
theorem ModuleCert.WellFormed.entry_named (wellFormed : cert.WellFormed) {entry : ExportEntry}
    (mem : entry ∈ cert.exportBlock) {decl : KernelDecl}
    (form : cert.certificateImportExportEntryToKernelDecl entry = .ok decl)
    (named : entry.name ∈ decl.entries.map Prod.fst) :
    ∃ declIndex own, cert.declarations[declIndex]? = some own ∧
      cert.sourceDeclIndexForName entry.name = .ok declIndex ∧ entry ∈ declExports own ∧
        cert.importedPayload own.decl = .ok decl := by
  obtain ⟨own, hown, exported⟩ := wellFormed.mem_exportBlock.mp mem
  obtain ⟨i, hi⟩ := List.mem_iff_getElem?.mp hown
  obtain ⟨hname, -, -, -⟩ := mem_declExports exported
  have found : ∃ declIndex, cert.sourceDeclIndexForName entry.name = .ok declIndex := by
    have isSome : (cert.declarations.findIdx? fun decl =>
        decl.decl.exportsName entry.name).isSome := by
      rw [List.findIdx?_isSome, List.any_eq_true]
      exact ⟨own, hown, exportsName_iff.mpr (.inr hname)⟩
    obtain ⟨declIndex, h⟩ := Option.isSome_iff_exists.mp isSome
    exact ⟨declIndex, Result.okOr_eq_ok.mpr h⟩
  obtain ⟨declIndex, source⟩ := found
  obtain ⟨decl', hdecl', -, hform, -⟩ := wellFormed.entry_of_source mem source
  have imported : cert.importedPayload decl'.decl = .ok decl := hform ▸ form
  have entryName := (importedPayload_names imported).2.1 _ named
  have same := wellFormed.distinct hdecl' hi entryName hname
  subst same
  cases hdecl'.symm.trans hi
  exact ⟨declIndex, own, hi, source, exported, imported⟩

end Names

end NpaCore.Certificate
