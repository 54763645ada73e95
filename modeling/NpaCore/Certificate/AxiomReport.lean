import NpaCore.Certificate.Coherence

/-!
# Completeness of axiom reports

A certificate lists for each of its declarations the axioms it rests on, collected
from the encoded references. The kernel resolves the same references to dotted names.
The report is complete when every axiom that the names lead to, through the module
and through the modules it imports, is listed.

## Main result

`axiomReport_complete`: the reports of a verified module are complete if in it and in
all modules below it every reference names the declaration that it identifies, and no
two declarations that are loaded together share a name.
-/

namespace NpaCore.Certificate

open NpaCore.Kernel
open NpaCore.FlatLoad

/-! ### Axioms and what names lead to -/

/-- An axiom is known by its name and its interface hash. -/
structure AxiomId where
  name : String
  declInterfaceHash : Hash
  deriving DecidableEq, Repr

def AxiomRef.id (ref : AxiomRef) : AxiomId := ⟨ref.name, ref.declInterfaceHash⟩

/-- The axiom is on the list of the declaration. -/
def ModuleCert.Reports (cert : ModuleCert) (declIndex : Nat) (id : AxiomId) : Prop :=
  ∃ decl, cert.declarations[declIndex]? = some decl ∧ id ∈ decl.axiomDependencies.map AxiomRef.id

/-- The axiom is on the list of the declaration, on that of the module, and on those of the
    export entries of the declaration. -/
def ModuleCert.ReportsEverywhere (cert : ModuleCert) (declIndex : Nat) (id : AxiomId) : Prop :=
  ∃ decl, cert.declarations[declIndex]? = some decl ∧ ∃ ref : AxiomRef, ref.id = id ∧
    ref ∈ decl.axiomDependencies ∧ ref ∈ cert.axiomReport.moduleAxioms ∧
      ∀ entry ∈ cert.exportBlock, entry.name ∈ decl.decl.entryNames →
        ref ∈ entry.axiomDependencies

/-- A declaration behind a name of the kernel environment. -/
inductive Origin where
  | builtin (name : String)
  | imported (N : Module) (declIndex : Nat)
  | own (declIndex : Nat)

/-- What a kernel name stands for when the declarations of `X` are checked: one of them, or
    the declaration whose entry is found in the environment of the imports. -/
inductive Denotes (X : Module) (start : Env) (name : String) : Origin → Prop
  | own {declIndex decl} (found : X.cert.declarations[declIndex]? = some decl)
      (mem : name ∈ decl.decl.entryNames) : Denotes X start name (.own declIndex)
  | imported {N target declIndex decl d} (hN : N ∈ X.imports) (loaded : Loaded X target)
      (owner : target.module = N.cert)
      (source : target.module.sourceDeclIndexForName target.entry.name = .ok declIndex)
      (form : target.module.certificateImportExportEntryToKernelDecl target.entry = .ok decl)
      (entry : (name, d) ∈ decl.entries) (found : start.decl name = some d) :
      Denotes X start name (.imported N declIndex)
  | builtin {asked builtin hash decls decl d}
      (requested : Requested X asked (.ok (.builtin builtin hash)))
      (hdecls : (ImportedLoadAction.builtin builtin hash).decls = .ok decls) (mem : decl ∈ decls)
      (entry : (name, d) ∈ decl.entries) (found : start.decl name = some d) :
      Denotes X start name (.builtin name)

/-- The declarations that the kernel meets from a declaration of `X`, following the names in
    the terms of its own declarations and in what it sees of the imported ones. -/
inductive Reaches (X : Module) (start : Env) (declIndex : Nat) : Origin → Prop
  | self : Reaches X start declIndex (.own declIndex)
  | own {j decl ref name origin} (before : Reaches X start declIndex (.own j))
      (found : X.cert.declarations[j]? = some decl)
      (mem : ref ∈ decl.decl.terms.flatMap Term.refs) (hname : X.cert.globalRefName ref = .ok name)
      (denotes : Denotes X start name origin) : Reaches X start declIndex origin
  | imported {N j decl ref name origin} (before : Reaches X start declIndex (.imported N j))
      (found : N.cert.declarations[j]? = some decl)
      (mem : ref ∈ decl.decl.importedTerms.flatMap Term.refs)
      (hname : N.cert.globalRefName ref = .ok name) (denotes : Denotes X start name origin) :
      Reaches X start declIndex origin

/-- The module was accepted over verified modules, with this environment of its imports. -/
def AcceptedWith (X : Module) (start : Env) : Prop :=
  ∃ run available final, (∀ N ∈ available, Verified N) ∧
    verifyModuleCertWithImportRefs Module.cert run X.cert available = .ok (X.imports, final) ∧
      importEnv run X.cert X.importCerts = .ok start

/-- The axioms that a declaration rests on: those it reaches, and those on which an imported
    declaration that it reaches rests in its own module. -/
inductive UsesAxiom : Module → Nat → AxiomId → Prop
  | own {X start declIndex j decl name universeParams universeConstraints ty}
      (accepted : AcceptedWith X start) (reaches : Reaches X start declIndex (.own j))
      (found : X.cert.declarations[j]? = some decl)
      (isAxiom : decl.decl = .axiomDecl name universeParams universeConstraints ty) :
      UsesAxiom X declIndex ⟨name, decl.hashes.declInterfaceHash⟩
  | builtin {X start declIndex name hash} (accepted : AcceptedWith X start)
      (reaches : Reaches X start declIndex (.builtin name)) (isAxiom : builtinIsAxiom name = true)
      (hhash : builtinDeclInterfaceHash name = some hash) : UsesAxiom X declIndex ⟨name, hash⟩
  | imported {X start declIndex N j id} (accepted : AcceptedWith X start)
      (reaches : Reaches X start declIndex (.imported N j)) (uses : UsesAxiom N j id) :
      UsesAxiom X declIndex id

/-! ### Conditions -/

/-- The declaration behind an action; the builtins count as one. -/
def ImportedLoadAction.origin : ImportedLoadAction → Option (ModuleCert × CertResult Nat)
  | builtin .. => none
  | declaration target =>
    some (target.module, target.module.sourceDeclIndexForName target.entry.name)

/-- Names lead to the declarations that the references identify. -/
structure NamesKept (X : Module) : Prop where
  /-- A local reference names an entry of the declaration it points to. -/
  own : ∀ decl ∈ X.cert.declarations, ∀ ref ∈ decl.decl.terms.flatMap Term.refs,
    ∀ target, ref.isSelf target = true → ∃ found name, X.cert.declarations[target]? = some found ∧
      X.cert.globalRefName ref = .ok name ∧ name ∈ found.decl.entryNames
  /-- Any other one names an entry of what is loaded for it. -/
  named : ∀ name meaning, Requested X name meaning → ∃ decls, Names name meaning decls
  /-- What is loaded under one name is one declaration. -/
  unique : ∀ name action decls name' action' decls', Requested X name (.ok action) →
    Requested X name' (.ok action') → Names name (.ok action) decls →
      Names name' (.ok action') decls' → ∀ decl ∈ decls, ∀ decl' ∈ decls',
        ∀ key ∈ decl.group.keys, key ∈ decl'.group.keys → action.origin = action'.origin

/-- The export hashes in the imports of `X` and in their imports have no collision: they are
    computed from the interface hashes of the entries and of the axioms these list. -/
def ExportHashesIdentify (X : Module) : Prop :=
  ∀ N ∈ X.imports ++ X.imports.flatMap Module.imports,
    ∀ N' ∈ X.imports ++ X.imports.flatMap Module.imports,
      N.cert.exportHash = N'.cert.exportHash → ∀ entry ∈ N.cert.exportBlock,
        ∀ entry' ∈ N'.cert.exportBlock, entry.declInterfaceHash = entry'.declInterfaceHash →
          ∀ id, id ∈ entry.axiomDependencies.map AxiomRef.id ↔
            id ∈ entry'.axiomDependencies.map AxiomRef.id

/-- A property of a module and of all modules below it. -/
inductive Everywhere (P : Module → Prop) : Module → Prop
  | intro {X} (here : P X) (imports : ∀ N ∈ X.imports, Everywhere P N) : Everywhere P X

/-! ### The lists of one module -/

variable {id : AxiomId}

section Lists

variable {cert : ModuleCert} {imports : List ModuleCert} {declIndex : Nat} {decl : DeclCert}

/-- The list of a declaration holds what each of its dependencies contributes, and nothing
    else besides the declaration itself. -/
theorem DeclChecked.mem_axiomDependencies (checked : DeclChecked cert imports declIndex decl) :
    (∀ dependency ∈ decl.dependencies, ∃ parts, axiomsForDependency cert imports
        ((cert.declarations.take declIndex).map (·.axiomDependencies)) dependency.globalRef =
          .ok parts ∧ parts.2 ⊆ decl.axiomDependencies) ∧
      selfAxiom declIndex decl ⊆ decl.axiomDependencies ∧
      ∀ ref ∈ decl.axiomDependencies, ref ∈ selfAxiom declIndex decl ∨
        ∃ dependency ∈ decl.dependencies, ∃ parts, axiomsForDependency cert imports
          ((cert.declarations.take declIndex).map (·.axiomDependencies)) dependency.globalRef =
            .ok parts ∧ ref ∈ parts.2 := by
  obtain ⟨direct, h⟩ := checked.axioms
  simp only [expectedAxiomsForDecl, Result.bind_eq_ok, Except.ok.injEq, Prod.mk.injEq] at h
  obtain ⟨parts, hparts, -, htransitive⟩ := h
  refine ⟨?_, ?_, ?_⟩
  · intro dependency mem
    obtain ⟨part, hpart, hstep⟩ := Result.collect_mem_left hparts mem
    refine ⟨part, hstep, ?_⟩
    intro ref href
    rw [← htransitive, mem_sortedSet]
    exact List.mem_append_left _ (List.mem_flatMap.mpr ⟨part, hpart, href⟩)
  · intro ref href
    rw [← htransitive, mem_sortedSet]
    exact List.mem_append_right _ href
  · intro ref href
    rw [← htransitive, mem_sortedSet] at href
    rcases List.mem_append.mp href with mem | mem
    · obtain ⟨part, hpart, mem⟩ := List.mem_flatMap.mp mem
      obtain ⟨dependency, hdependency, hstep⟩ := Result.collect_mem_right hparts hpart
      exact .inr ⟨dependency, hdependency, part, hstep, mem⟩
    · exact .inl mem

/-- What a local dependency contributes is the list of an earlier declaration. -/
theorem previous_axioms {target : Nat} (earlier : target < declIndex) {found : DeclCert}
    (hfound : cert.declarations[target]? = some found) :
    ((cert.declarations.take declIndex).map (·.axiomDependencies))[target]? =
      some found.axiomDependencies := by
  rw [List.getElem?_map, List.getElem?_take_of_lt earlier, hfound]
  rfl

/-- The axioms of a declaration that a local reference points to are on the list. -/
theorem DeclChecked.reports_of_local (checked : DeclChecked cert imports declIndex decl)
    (found : cert.declarations[declIndex]? = some decl) {ref : GlobalRef}
    (mem : ref ∈ decl.decl.terms.flatMap Term.refs) {target : Nat}
    (isTarget : ref.isSelf target = true) (reports : cert.Reports target id) :
    cert.Reports declIndex id := by
  cases self : decl.decl.isInductive && ref.isSelf declIndex with
  | true =>
    have same : target = declIndex := by
      simp only [Bool.and_eq_true] at self
      cases ref with
      | builtin | imported => cases isTarget
      | «local» | localGenerated =>
        simp only [GlobalRef.isSelf, decide_eq_true_eq] at isTarget self
        exact isTarget.symm.trans self.2
    exact same ▸ reports
  | false =>
    obtain ⟨⟨dependency, hdependency, rfl⟩, earlier⟩ := checked.mem_dependencies.1 ref mem self
    obtain ⟨parts, hparts, subset⟩ := checked.mem_axiomDependencies.1 dependency hdependency
    obtain ⟨other, hother, hid⟩ := reports
    have previous := previous_axioms (earlier target isTarget) hother
    refine ⟨decl, found, ?_⟩
    obtain ⟨axiomRef, haxiom, rfl⟩ := List.mem_map.mp hid
    refine List.mem_map.mpr ⟨axiomRef, subset ?_, rfl⟩
    cases href : dependency.globalRef with
    | builtin | imported =>
      rw [href] at isTarget
      cases isTarget
    | «local» | localGenerated =>
      rw [href] at isTarget hparts
      simp only [GlobalRef.isSelf, decide_eq_true_eq] at isTarget
      subst isTarget
      simp only [axiomsForDependency, previous, Option.getD_some, Except.ok.injEq] at hparts
      subst hparts
      exact haxiom

/-- A builtin axiom that is referred to is on the list. -/
theorem DeclChecked.reports_of_builtin (checked : DeclChecked cert imports declIndex decl)
    (found : cert.declarations[declIndex]? = some decl) {name : String} {hash : Hash}
    (mem : .builtin name hash ∈ decl.decl.terms.flatMap Term.refs)
    (isAxiom : builtinIsAxiom name = true) : cert.Reports declIndex ⟨name, hash⟩ := by
  obtain ⟨⟨dependency, hdependency, href⟩, -⟩ := checked.mem_dependencies.1 _ mem (by
    simp [GlobalRef.isSelf])
  obtain ⟨parts, hparts, subset⟩ := checked.mem_axiomDependencies.1 dependency hdependency
  simp only [href, axiomsForDependency, isAxiom, if_true, Except.ok.injEq] at hparts
  subst hparts
  exact ⟨decl, found, List.mem_map.mpr ⟨⟨.builtin name hash, name, hash⟩, subset (by simp), rfl⟩⟩

/-- An axiom of the builtins is listed with the hash of its reference. -/
def AxiomRef.Honest (ref : AxiomRef) : Prop :=
  ∀ name hash, ref.globalRef = .builtin name hash → ref.declInterfaceHash = hash

theorem remapAxiomRefFromCertImport_eq_ok {ref remapped : AxiomRef}
    (h : remapAxiomRefFromCertImport cert imports ref = .ok remapped) :
    remapped.Honest ∧ (ref.Honest → remapped.id = ref.id) := by
  simp only [remapAxiomRefFromCertImport, Result.bind_eq_ok] at h
  obtain ⟨_, _, h⟩ := h
  split at h
  next name hash hglobal =>
    simp only [Result.bind_eq_ok, Except.ok.injEq] at h
    obtain ⟨_, _, rfl⟩ := h
    refine ⟨?_, ?_⟩
    · intro name hash h
      cases h
      rfl
    · intro honest
      simp only [AxiomRef.id, honest name hash hglobal]
  next =>
    simp only [Result.bind_eq_ok, Except.ok.injEq] at h
    obtain ⟨_, _, rfl⟩ := h
    refine ⟨?_, fun _ => rfl⟩
    intro name hash h
    cases h

/-- All references on the lists of a checked certificate are honest. -/
theorem honest_of_checked
    (each : ∀ i decl, cert.declarations[i]? = some decl → DeclChecked cert imports i decl)
    (i : Nat) (decl : DeclCert) (found : cert.declarations[i]? = some decl) :
    ∀ ref ∈ decl.axiomDependencies, ref.Honest := by
  induction i using Nat.strong_induction_on generalizing decl with
  | _ i ih =>
    intro ref mem
    rcases (each i decl found).mem_axiomDependencies.2.2 ref mem with self | ⟨dependency, -, parts,
      hparts, mem⟩
    · unfold selfAxiom at self
      split at self
      · cases List.mem_singleton.mp self
        intro name hash h
        cases h
      · cases self
    · -- a local dependency contributes the list of an earlier declaration
      have earlier : ∀ target : Nat, ref ∈ (((cert.declarations.take i).map
          (·.axiomDependencies))[target]?).getD [] → ref.Honest := by
        intro target mem
        rw [List.getElem?_map, List.getElem?_take] at mem
        split at mem
        next lt =>
          cases hfound : cert.declarations[target]? with
          | none =>
            rw [hfound] at mem
            cases mem
          | some other =>
            rw [hfound] at mem
            exact ih target lt other hfound ref mem
        next => cases mem
      cases href : dependency.globalRef with
      | builtin name hash =>
        rw [href, axiomsForDependency] at hparts
        split at hparts
        · cases hparts
          cases List.mem_singleton.mp mem
          intro name hash h
          cases h
          rfl
        · cases hparts
          cases mem
      | «local» target =>
        rw [href, axiomsForDependency] at hparts
        cases hparts
        exact earlier target mem
      | localGenerated target name =>
        rw [href, axiomsForDependency] at hparts
        cases hparts
        exact earlier target mem
      | imported importIndex name hash =>
        simp only [href, axiomsForDependency, Result.bind_eq_ok, Except.ok.injEq] at hparts
        obtain ⟨⟨_, entry⟩, _, transitive, htransitive, rfl⟩ := hparts
        obtain ⟨_, _, hremap⟩ := Result.collect_mem_right htransitive mem
        exact (remapAxiomRefFromCertImport_eq_ok hremap).1

/-- The axioms on an imported entry that is referred to are on the list. -/
theorem DeclChecked.reports_of_imported (checked : DeclChecked cert imports declIndex decl)
    (found : cert.declarations[declIndex]? = some decl) {importIndex : Nat} {name : String}
    {hash : Hash} (mem : .imported importIndex name hash ∈ decl.decl.terms.flatMap Term.refs) :
    ∃ module entry, importedExportEntryForGlobalRef imports (.imported importIndex name hash) =
        .ok (module, entry) ∧
      ((∀ ref ∈ entry.axiomDependencies, ref.Honest) →
        ∀ id ∈ entry.axiomDependencies.map AxiomRef.id, cert.Reports declIndex id) := by
  obtain ⟨⟨dependency, hdependency, href⟩, -⟩ := checked.mem_dependencies.1 _ mem (by
    simp [GlobalRef.isSelf])
  obtain ⟨parts, hparts, subset⟩ := checked.mem_axiomDependencies.1 dependency hdependency
  simp only [href, axiomsForDependency, Result.bind_eq_ok, Except.ok.injEq] at hparts
  obtain ⟨⟨module, entry⟩, hentry, transitive, htransitive, rfl⟩ := hparts
  refine ⟨module, entry, hentry, ?_⟩
  intro honest id hid
  obtain ⟨ref, hmem, rfl⟩ := List.mem_map.mp hid
  obtain ⟨remapped, hremapped, hremap⟩ := Result.collect_mem_left htransitive hmem
  have same := (remapAxiomRefFromCertImport_eq_ok hremap).2 (honest ref hmem)
  exact ⟨decl, found, List.mem_map.mpr ⟨remapped, subset hremapped, same⟩⟩

end Lists

/-! ### The declarations that are requested -/

variable {name : CertResult String} {decls : List KernelDecl} {declIndex : Nat}

section Requests

variable {X : Module}

theorem Verified.checks (verified : Verified X) :
    ∃ run available final, Checks run X available final := by
  cases verified with
  | intro each h => exact ⟨_, _, _, checks_of_accepted (X := .mk _ _) h⟩

/-- What importers see of a declaration of a verified module has no repeated names. -/
theorem Verified.keys_nodup (verified : Verified X) {own : DeclCert}
    (found : X.cert.declarations[declIndex]? = some own) {decl : KernelDecl}
    (imported : X.cert.importedPayload own.decl = .ok decl) : decl.group.keys.Nodup := by
  obtain ⟨run, available, final, checks⟩ := verified.checks
  obtain ⟨start, _, hdecls⟩ := checks.kernel
  obtain ⟨before, after, -, hadd⟩ := Result.foldEach_step (P := fun _ => True) _
    (fun _ _ _ _ _ _ => trivial) hdecls trivial (List.mem_of_getElem? found)
  simp only [addCertDecl, addCurrentModuleDeclToEnv, Result.bind_eq_ok] at hadd
  obtain ⟨converted, hconverted, next, hadd, -⟩ := hadd
  have nodup : converted.group.keys.Nodup := by
    rw [KernelDecl.keys_group]
    exact (addDeclToEnv_adds hadd).nodup
  obtain ⟨payload, dependencies, axiomDependencies, hashes⟩ := own
  cases payload with
  | axiomDecl | theoremDecl =>
    simp only [ModuleCert.importedPayload, Result.bind_eq_ok, Except.ok.injEq] at imported
    obtain ⟨_, _, rfl⟩ := imported
    simp [KernelDecl.keys_group, KernelDecl.reserved, KernelDecl.entries]
  | defDecl _ _ _ _ _ reducibility =>
    cases reducibility with
    | reducible =>
      simp only [ModuleCert.importedPayload, Result.bind_eq_ok, Except.ok.injEq] at imported
      obtain ⟨_, _, _, _, rfl⟩ := imported
      simp [KernelDecl.keys_group, KernelDecl.reserved, KernelDecl.entries]
    | opaqueDef =>
      simp only [ModuleCert.importedPayload, Result.bind_eq_ok, Except.ok.injEq] at imported
      obtain ⟨_, _, rfl⟩ := imported
      simp [KernelDecl.keys_group, KernelDecl.reserved, KernelDecl.entries]
  | inductiveDecl | mutualInductiveBlock =>
    simp only [ModuleCert.importedPayload, hconverted, Result.bind_eq_ok, Except.ok.injEq,
      exists_eq_left'] at imported
    rw [← imported]
    exact (keys_normalized_sublist converted).nodup nodup

/-- A requested entry is one of an import, under the name of the constant. -/
theorem Requested.entry {target : Target}
    (requested : Requested X name (.ok (.declaration target))) :
    target.module ∈ X.importCerts ∧ target.entry ∈ target.module.exportBlock ∧
      name = .ok target.entry.name := by
  generalize hmeaning : (Except.ok (.declaration target) : CertResult ImportedLoadAction) =
    meaning at requested
  cases requested with
  | @own ref mem outside =>
    cases ref with
    | builtin => cases hmeaning
    | «local» | localGenerated => cases outside
    | imported importIndex name hash =>
      have identified := hmeaning.symm
      simp only [Module.identify, Result.bind_eq_ok, Except.ok.injEq] at identified
      obtain ⟨⟨module, entry⟩, hentry, htarget⟩ := identified
      cases htarget
      obtain ⟨himport, hentry⟩ := importedExportEntryForGlobalRef_eq_ok hentry
      obtain ⟨exported, rfl, -⟩ := exportEntryByName_eq_ok hentry
      exact ⟨List.mem_of_getElem? himport, exported, rfl⟩
  | @loader N _ terms ref hN loaded owner hterms href =>
    rcases loads_eq_ok hmeaning.symm with hleaf | ⟨next, hchild, hnext⟩
    · rcases resolveImportedRef_eq_ok hleaf with ⟨_, _, -, h⟩ | ⟨_, h, -⟩
      · cases h
      · cases h
    · cases hnext
      rcases resolveImportedRef_eq_ok hchild with ⟨_, _, -, h⟩ | ⟨found, h, hmodule, hentry, hname⟩
      · cases h
      · cases h
        refine ⟨?_, hentry, hname⟩
        rcases hmodule with mem | same
        · exact mem
        · rw [same]
          exact List.mem_map.mpr ⟨N, hN, rfl⟩

/-- A requested entry comes from the declaration that is found for its name. -/
theorem Requested.source (wellFormed : ∀ N ∈ X.imports, N.cert.WellFormed) {target : Target}
    (requested : Requested X name (.ok (.declaration target)))
    (names : Names name (.ok (.declaration target)) decls) :
    ∃ N ∈ X.imports, target.module = N.cert ∧ ∃ declIndex own decl,
      N.cert.declarations[declIndex]? = some own ∧
        N.cert.sourceDeclIndexForName target.entry.name = .ok declIndex ∧
          target.entry ∈ declExports own ∧ N.cert.importedPayload own.decl = .ok decl ∧
            decls = [decl] := by
  obtain ⟨module, entry⟩ := target
  obtain ⟨hmodule, hentry, rfl⟩ := requested.entry
  obtain ⟨N, hN, rfl⟩ := List.mem_map.mp hmodule
  obtain ⟨_, _, hkey, hmeaning, hdecls, decl, hdecl, named⟩ := names
  cases hkey
  cases hmeaning
  simp only [ImportedLoadAction.decls, Result.bind_eq_ok, Except.ok.injEq] at hdecls
  obtain ⟨_, form, rfl⟩ := hdecls
  cases List.mem_singleton.mp hdecl
  obtain ⟨declIndex, own, found, source, exported, imported⟩ :=
    (wellFormed N hN).entry_named hentry form named
  exact ⟨N, hN, rfl, declIndex, own, decl, found, source, exported, imported, rfl⟩

/-- The builtin declarations share no names. -/
theorem builtin_claim_unique {names names' : List String} {decl decl' : KernelDecl}
    (mem : decl ∈ referencedBuiltins names) (mem' : decl' ∈ referencedBuiltins names')
    {key : String} {v w : Option Decl} (hv : (key, v) ∈ decl.group.claims)
    (hw : (key, w) ∈ decl'.group.claims) : v = w := by
  let builtins : List KernelDecl :=
    [.inductiveData natInductive, .inductiveData eqInductive, eqRecAxiom]
  have all : ∀ {names decl}, decl ∈ referencedBuiltins names → decl ∈ builtins := by
    intro names decl mem
    simp only [referencedBuiltins, List.mem_append, List.mem_ite_nil_right,
      List.mem_singleton] at mem
    rcases mem with (⟨-, rfl⟩ | ⟨-, rfl⟩) | ⟨-, rfl⟩
    · simp [builtins]
    · simp [builtins]
    · simp [builtins]
  let joined : Group String Decl := ⟨"", builtins.flatMap fun decl => decl.group.claims⟩
  have nodup : joined.keys.Nodup := by decide +kernel
  have claim : ∀ {decl}, decl ∈ builtins → ∀ {entry}, entry ∈ decl.group.claims →
      entry ∈ joined.claims := fun mem _ hentry => List.mem_flatMap.mpr ⟨_, mem, hentry⟩
  exact claim_unique nodup (claim (all mem) hv) (claim (all mem') hw)

/-- Requested declarations of one origin claim the same. -/
theorem claim_of_origin (verified : ∀ N ∈ X.imports, Verified N)
    {name name' : CertResult String} {action action' : ImportedLoadAction}
    (requested : Requested X name (.ok action)) (requested' : Requested X name' (.ok action'))
    {decls decls' : List KernelDecl} (names : Names name (.ok action) decls)
    (names' : Names name' (.ok action') decls') (same : action.origin = action'.origin)
    {decl decl' : KernelDecl} (mem : decl ∈ decls) (mem' : decl' ∈ decls') {key : String}
    {v w : Option Decl} (hv : (key, v) ∈ decl.group.claims) (hw : (key, w) ∈ decl'.group.claims) :
    v = w := by
  have wellFormed : ∀ N ∈ X.imports, N.cert.WellFormed := fun N hN => (verified N hN).wellFormed
  cases action with
  | builtin =>
    cases action' with
    | declaration => cases same
    | builtin =>
      obtain ⟨_, _, -, hmeaning, hdecls, -⟩ := names
      obtain ⟨_, _, -, hmeaning', hdecls', -⟩ := names'
      cases hmeaning
      cases hmeaning'
      simp only [ImportedLoadAction.decls, Result.bind_eq_ok, Except.ok.injEq] at hdecls hdecls'
      obtain ⟨_, _, rfl⟩ := hdecls
      obtain ⟨_, _, rfl⟩ := hdecls'
      exact builtin_claim_unique mem mem' hv hw
  | declaration target =>
    cases action' with
    | builtin => cases same
    | declaration target' =>
      obtain ⟨N, hN, howner, i, own, found, hi, source, -, imported, rfl⟩ :=
        requested.source wellFormed names
      obtain ⟨N', hN', howner', j, own', found', hj, source', -, imported', rfl⟩ :=
        requested'.source wellFormed names'
      simp only [ImportedLoadAction.origin, Option.some.injEq, Prod.mk.injEq, howner,
        howner', source, source', Except.ok.injEq] at same
      obtain ⟨sameCert, sameSource⟩ := same
      rw [sameCert] at hi imported
      subst sameSource
      cases hi.symm.trans hj
      cases imported.symm.trans imported'
      cases List.mem_singleton.mp mem
      cases List.mem_singleton.mp mem'
      exact claim_unique ((verified N' hN').keys_nodup hj imported') hv hw

theorem NamesKept.requestsAgree (verified : ∀ N ∈ X.imports, Verified N) (kept : NamesKept X) :
    RequestsAgree X := by
  refine ⟨kept.named, ?_⟩
  intro name meaning decls name' meaning' decls' requested requested' names names' decl mem decl'
    mem' key v w hv hw
  obtain ⟨_, action, -, rfl, -, -⟩ := id names
  obtain ⟨_, action', -, rfl, -, -⟩ := id names'
  have same := kept.unique _ _ _ _ _ _ requested requested' names names' decl mem decl' mem' key
    (List.mem_map.mpr ⟨_, hv, rfl⟩) (List.mem_map.mpr ⟨_, hw, rfl⟩)
  cases claim_of_origin verified requested requested' names names' same mem mem' hv hw
  cases v with
  | none => exact .none
  | some => exact .some rfl

end Requests

/-! ### Following names -/

section Steps

variable {X : Module} {start : Env}

/-- What is known of an accepted module whose names are kept. -/
structure Settled (X : Module) (start : Env) : Prop where
  wellFormed : X.cert.WellFormed
  verified : ∀ N ∈ X.imports, Verified N
  checked : ∀ i decl, X.cert.declarations[i]? = some decl →
    DeclChecked X.cert X.importCerts i decl
  kept : NamesKept X
  /-- The names of the module itself are not those of its imports. -/
  free : ∀ {i : Nat} {decl : DeclCert} {name : String}, X.cert.declarations[i]? = some decl →
    name ∈ decl.decl.entryNames → start.decl name = none
  requested : ∀ {target}, Loaded X target → ∃ name, Requested X name (.ok (.declaration target))
  /-- The names of what is requested are found. -/
  present : ∀ {name meaning decls}, Requested X name meaning → Names name meaning decls →
    ∀ decl ∈ decls, ∀ key ∈ decl.entries.map Prod.fst, (start.decl key).isSome

theorem settled_of_accepted (accepted : AcceptedWith X start) (hashes : HashesIdentify X)
    (kept : NamesKept X) : Settled X start := by
  obtain ⟨run, available, final, verified, h, loaded⟩ := accepted
  have checks := checks_of_accepted h
  have verifiedImports : ∀ N ∈ X.imports, Verified N := fun N mem =>
    verified N (checks.mem_available mem)
  have wellFormed : ∀ N ∈ X.imports, N.cert.WellFormed := fun N mem =>
    (verifiedImports N mem).wellFormed
  refine ⟨checks.wellFormed, verifiedImports, (declChecked_of_accepted checks.dependencies).1,
    kept, ?_, fun loaded => loaded.requested checks, ?_⟩
  · intro i decl name found mem
    obtain ⟨start', loaded', hdecls⟩ := checks.kernel
    cases loaded.symm.trans loaded'
    exact (addCertDecls_names hdecls).2 decl (List.mem_of_getElem? found) name mem
  · intro name meaning decls requested names decl mem key hkey
    obtain ⟨identity, hidentity, plan, builtinRefs, hplan, hrefs, loads⟩ := importEnv_loads loaded
    have loadRun : LoadRun X start identity plan builtinRefs := ⟨hidentity, hplan, hrefs, loads⟩
    have holds := loadRun.holds checks (kept.requestsAgree verifiedImports) decl
      (loadRun.mem_of_requested checks hashes wellFormed requested names decl mem)
    obtain ⟨⟨_, d⟩, hentry, rfl⟩ := List.mem_map.mp hkey
    have found : Option.Rel SameDecl (some d) (start.decl _) :=
      holds _ (KernelDecl.mem_claims_some.mpr hentry)
    cases hfound : start.decl _ with
    | none =>
      rw [hfound] at found
      cases found
    | some => rfl

/-- The axioms that are reported for what stands behind a name. -/
def Module.ReportsOf (X : Module) : Origin → AxiomId → Prop
  | .builtin name, id => builtinIsAxiom name = true ∧ id.name = name ∧
      builtinDeclInterfaceHash name = some id.declInterfaceHash
  | .imported N declIndex, id => N.cert.Reports declIndex id
  | .own declIndex, id => X.cert.Reports declIndex id

/-- A name of something requested stands for a declaration of the same origin. -/
theorem Settled.denotes_requested (settled : Settled X start) {asked : CertResult String}
    {action : ImportedLoadAction} (requested : Requested X asked (.ok action))
    (names : Names asked (.ok action) decls) {name : String}
    (hname : asked = .ok name) {origin : Origin} (denotes : Denotes X start name origin) :
    (origin = .builtin name ∧ action.origin = none) ∨
      ∃ N declIndex, origin = .imported N declIndex ∧ N ∈ X.imports ∧
        action.origin = some (N.cert, .ok declIndex) := by
  obtain ⟨key, _, hkey, _, _, decl, hdecl, named⟩ := id names
  cases hkey.symm.trans hname
  have inKeys : ∀ {decl : KernelDecl} {d : Decl}, (name, d) ∈ decl.entries →
      name ∈ decl.group.keys := by
    intro decl d mem
    rw [KernelDecl.keys_group]
    exact List.mem_append_right _ (List.mem_map.mpr ⟨_, mem, rfl⟩)
  obtain ⟨⟨_, d⟩, hentry, rfl⟩ := List.mem_map.mp named
  cases denotes with
  | own found mem =>
    have present := settled.present requested names decl hdecl _ named
    rw [settled.free found mem] at present
    cases present
  | @imported N target declIndex decl' d' hN loaded owner source form entry found =>
    obtain ⟨asked', requested'⟩ := settled.requested loaded
    obtain ⟨decls', names'⟩ := settled.kept.named _ _ requested'
    have mem' : decl' ∈ decls' := by
      obtain ⟨_, _, -, hmeaning, hdecls, -⟩ := names'
      cases hmeaning
      simp only [ImportedLoadAction.decls, form, Result.bind_eq_ok, Except.ok.injEq,
        exists_eq_left'] at hdecls
      rw [← hdecls]
      exact List.mem_singleton_self _
    have same := settled.kept.unique _ _ _ _ _ _ requested requested' names names' decl hdecl
      decl' mem' _ (inKeys hentry) (inKeys entry)
    refine .inr ⟨N, declIndex, rfl, hN, ?_⟩
    rw [same, ImportedLoadAction.origin, source, owner]
  | @builtin _ _ _ _ decl' _ requested' hdecls mem entry found =>
    obtain ⟨decls', names'⟩ := settled.kept.named _ _ requested'
    have mem' : decl' ∈ decls' := by
      obtain ⟨_, _, -, hmeaning, hdecls', -⟩ := id names'
      cases hmeaning
      cases hdecls.symm.trans hdecls'
      exact mem
    have same := settled.kept.unique _ _ _ _ _ _ requested requested' names names' decl hdecl
      decl' mem' _ (inKeys hentry) (inKeys entry)
    exact .inl ⟨rfl, same⟩

theorem Verified.honest (verified : Verified X) {entry : ExportEntry}
    (mem : entry ∈ X.cert.exportBlock) : ∀ ref ∈ entry.axiomDependencies, ref.Honest := by
  obtain ⟨run, available, final, checks⟩ := verified.checks
  obtain ⟨decl, hdecl, exported⟩ := checks.wellFormed.mem_exportBlock.mp mem
  obtain ⟨i, hi⟩ := List.mem_iff_getElem?.mp hdecl
  rw [(mem_declExports exported).2.2.2]
  exact honest_of_checked (declChecked_of_accepted checks.dependencies).1 i decl hi

/-- A builtin that a reference names is accounted for where its axiom is listed. -/
theorem builtin_reports {name : String} {hash : Hash}
    (names : Names (.ok name) (.ok (.builtin name hash)) decls)
    (reports : X.ReportsOf (.builtin name) id) : builtinIsAxiom name = true ∧ id = ⟨name, hash⟩ := by
  obtain ⟨_, _, -, hmeaning, hdecls, -⟩ := names
  cases hmeaning
  simp only [ImportedLoadAction.decls, Result.bind_eq_ok, Result.ensure_eq_ok,
    decide_eq_true_eq] at hdecls
  obtain ⟨_, hhash, -⟩ := hdecls
  obtain ⟨isAxiom, rfl, hid⟩ := reports
  refine ⟨isAxiom, ?_⟩
  cases hid.symm.trans hhash
  rfl

/-- What a name of an imported declaration reports is listed in the entry of the request. -/
theorem Settled.reports_of_request (settled : Settled X start)
    {target : Target} (requested : Requested X name (.ok (.declaration target)))
    (names : Names name (.ok (.declaration target)) decls) {N : Module}
    (origin : (ImportedLoadAction.declaration target).origin = some (N.cert, .ok declIndex))
    (reports : N.cert.Reports declIndex id) :
    id ∈ target.entry.axiomDependencies.map AxiomRef.id := by
  obtain ⟨N', _, owner, i, own, _, found, source, exported, -, -⟩ :=
    requested.source (fun N hN => (settled.verified N hN).wellFormed) names
  simp only [ImportedLoadAction.origin, Option.some.injEq, Prod.mk.injEq, owner, source,
    Except.ok.injEq] at origin
  obtain ⟨sameCert, rfl⟩ := origin
  obtain ⟨decl, hdecl, hid⟩ := reports
  rw [← sameCert] at hdecl
  cases found.symm.trans hdecl
  rwa [(mem_declExports exported).2.2.2]

/-- A name in a declaration of the module leads to nothing that it does not report. -/
theorem Settled.own_step (settled : Settled X start) {j : Nat} {decl : DeclCert}
    (found : X.cert.declarations[j]? = some decl) {ref : GlobalRef}
    (mem : ref ∈ decl.decl.terms.flatMap Term.refs) {name : String}
    (hname : X.cert.globalRefName ref = .ok name) {origin : Origin}
    (denotes : Denotes X start name origin) (reports : X.ReportsOf origin id) :
    X.cert.Reports j id := by
  have checked := settled.checked j decl found
  have hdecl := List.mem_of_getElem? found
  have inModule : ref ∈ X.refs := by
    obtain ⟨term, hterm, href⟩ := List.mem_flatMap.mp mem
    exact List.mem_flatMap.mpr ⟨term, List.mem_flatMap.mpr ⟨decl, hdecl, hterm⟩, href⟩
  -- the names of the module itself are free in the environment of the imports
  have isLocal : ∀ target, ref.isSelf target = true → X.cert.Reports j id := by
    intro target isTarget
    obtain ⟨other, _, hother, hname', hmem⟩ := settled.kept.own decl hdecl ref mem target isTarget
    cases hname.symm.trans hname'
    have free := settled.free hother hmem
    cases denotes with
    | own found' mem' =>
      cases settled.wellFormed.distinct found' hother mem' hmem
      exact checked.reports_of_local found mem isTarget reports
    | imported _ _ _ _ _ _ present => cases free.symm.trans present
    | builtin _ _ _ _ present => cases free.symm.trans present
  cases ref with
  | «local» target => exact isLocal target (by simp [GlobalRef.isSelf])
  | localGenerated target _ => exact isLocal target (by simp [GlobalRef.isSelf])
  | builtin builtinName hash =>
    cases hname
    have requested : Requested X (.ok name) (.ok (.builtin name hash)) := .own inModule rfl
    obtain ⟨decls, names⟩ := settled.kept.named _ _ requested
    rcases settled.denotes_requested requested names rfl denotes with ⟨rfl, -⟩ | ⟨_, _, _, _, h⟩
    · obtain ⟨isAxiom, rfl⟩ := builtin_reports names reports
      exact checked.reports_of_builtin found mem isAxiom
    · cases h
  | imported importIndex _ hash =>
    cases hname
    obtain ⟨module, entry, hentry, listed⟩ := checked.reports_of_imported found mem
    have requested : Requested X (.ok name) (.ok (.declaration ⟨module, entry⟩)) := by
      have own : Requested X (.ok name) (X.identify (.imported importIndex name hash)) :=
        .own inModule rfl
      simpa only [Module.identify, hentry, bind, Except.bind] using own
    obtain ⟨decls, names⟩ := settled.kept.named _ _ requested
    rcases settled.denotes_requested requested names rfl denotes with ⟨-, h⟩ |
      ⟨N, declIndex, rfl, hN, horigin⟩
    · cases h
    · apply listed
      · obtain ⟨hmodule, hexported, -⟩ := requested.entry
        obtain ⟨M, hM, rfl⟩ := List.mem_map.mp hmodule
        exact (settled.verified M hM).honest hexported
      · exact settled.reports_of_request requested names horigin reports

theorem importedTerms_subset (payload : DeclPayload) : payload.importedTerms ⊆ payload.terms := by
  cases payload with
  | defDecl _ _ _ _ _ reducibility =>
    cases reducibility <;> simp [DeclPayload.importedTerms, DeclPayload.terms]
  | _ => simp [DeclPayload.importedTerms, DeclPayload.terms]

/-- The module that is loaded for an import has the exports of the one it was verified with. -/
theorem Verified.exportHash_of_import (verified : Verified X) {importIndex : Nat}
    {importEntry : ImportEntry} (hentry : X.cert.imports[importIndex]? = some importEntry)
    {P : ModuleCert} (himport : X.importCerts[importIndex]? = some P) :
    P.exportHash = importEntry.exportHash := by
  obtain ⟨run, available, final, checks⟩ := verified.checks
  rw [Module.importCerts, List.getElem?_map, Option.map_eq_some_iff] at himport
  obtain ⟨M, hM, rfl⟩ := himport
  have resolved := Result.collect_getElem? checks.resolved hentry hM
  simp only [Result.bind_eq_ok] at resolved
  obtain ⟨_, _, resolved⟩ := resolved
  exact (findImport_eq_ok resolved).2

/-- A name in what is seen of an imported declaration leads to nothing that its own module
    does not report. -/
theorem Settled.imported_step (settled : Settled X start) (hashes : HashesIdentify X)
    (exportHashes : ExportHashesIdentify X) {N : Module} (hN : N ∈ X.imports) {target : Target}
    (loaded : Loaded X target) (owner : target.module = N.cert) {j : Nat}
    (source : target.module.sourceDeclIndexForName target.entry.name = .ok j) {decl : DeclCert}
    (found : N.cert.declarations[j]? = some decl) {ref : GlobalRef}
    (mem : ref ∈ decl.decl.importedTerms.flatMap Term.refs) {name : String}
    (hname : N.cert.globalRefName ref = .ok name) {origin : Origin}
    (denotes : Denotes X start name origin) (reports : X.ReportsOf origin id) :
    N.cert.Reports j id := by
  have verifiedN := settled.verified N hN
  obtain ⟨run, available, final, checks⟩ := verifiedN.checks
  have checked := (declChecked_of_accepted checks.dependencies).1 j decl found
  have inTerms : ref ∈ decl.decl.terms.flatMap Term.refs := by
    obtain ⟨term, hterm, href⟩ := List.mem_flatMap.mp mem
    exact List.mem_flatMap.mpr ⟨term, importedTerms_subset _ hterm, href⟩
  have requested : Requested X (.ok name) (X.loads N.cert ref) := by
    obtain ⟨module, entry⟩ := target
    cases owner
    obtain ⟨decl', hdecl', -, -, hterms⟩ :=
      verifiedN.wellFormed.entry_of_source loaded.mem.2 source
    cases hdecl'.symm.trans found
    rw [← hname]
    exact .loader hN loaded rfl hterms mem
  obtain ⟨decls, names⟩ := settled.kept.named _ _ requested
  have named := names
  obtain ⟨_, action, -, hloads, -, -⟩ := named
  rw [hloads] at requested names
  have isLocal : ∀ target, ref.isSelf target = true → N.cert.Reports j id := by
    intro index isTarget
    obtain ⟨entry, own, rfl, -, hown, hhash, -⟩ := loads_self isTarget hloads
    rcases settled.denotes_requested requested names rfl denotes with ⟨-, h⟩ |
      ⟨N', declIndex, rfl, hN', horigin⟩
    · cases h
    · -- the entry was found under the hash of the declaration, so it is one of its entries
      obtain ⟨M, _, sameCert, i, own', _, hi, sourceEntry, exported, -, -⟩ :=
        requested.source (fun N hN => (settled.verified N hN).wellFormed) names
      dsimp only at sameCert sourceEntry
      rw [← sameCert] at hi sourceEntry
      have sameNames := hashes.interfaces N (List.mem_append_left _ hN) N
        (List.mem_append_left _ hN) own' (List.mem_of_getElem? hi) own
        (List.mem_of_getElem? hown) ((mem_declExports exported).2.2.1.symm.trans hhash)
      have same := verifiedN.wellFormed.index_of_primaryName hi hown sameNames.1
      subst same
      simp only [ImportedLoadAction.origin, Option.some.injEq, Prod.mk.injEq, sourceEntry,
        Except.ok.injEq] at horigin
      obtain ⟨sameN, rfl⟩ := horigin
      have reports' : N.cert.Reports i id := by
        rw [sameN]
        exact reports
      exact checked.reports_of_local found inTerms isTarget reports'
  cases ref with
  | «local» target => exact isLocal target (by simp [GlobalRef.isSelf])
  | localGenerated target _ => exact isLocal target (by simp [GlobalRef.isSelf])
  | builtin builtinName hash =>
    cases hname
    cases hloads
    rcases settled.denotes_requested requested names rfl denotes with ⟨rfl, -⟩ | ⟨_, _, _, _, h⟩
    · obtain ⟨isAxiom, rfl⟩ := builtin_reports names reports
      exact checked.reports_of_builtin found inTerms isAxiom
    · cases h
  | imported importIndex _ hash =>
    cases hname
    obtain ⟨P, entry, hentry, listed⟩ := checked.reports_of_imported found inTerms
    obtain ⟨himport, hentry⟩ := importedExportEntryForGlobalRef_eq_ok hentry
    obtain ⟨exported, -, hhash⟩ := exportEntryByName_eq_ok hentry
    simp only [Module.loads, resolveImportedRef, Result.bind_eq_ok, Result.okOr_eq_ok,
      Except.ok.injEq] at hloads
    obtain ⟨_, ⟨importEntry, himportEntry, Q, hfound, entry', hentry', rfl⟩, hloads⟩ := hloads
    cases hloads
    obtain ⟨exported', -, hhash'⟩ := exportEntryByName_eq_ok hentry'
    rcases settled.denotes_requested requested names rfl denotes with ⟨-, h⟩ |
      ⟨N', declIndex, rfl, hN', horigin⟩
    · cases h
    · have inEntry := settled.reports_of_request requested names horigin reports
      -- both modules have the export hash that the import entry asks for
      have sameHash : P.exportHash = Q.exportHash :=
        (verifiedN.exportHash_of_import himportEntry himport).trans
          (findImport_eq_ok hfound).2.symm
      obtain ⟨P, hP, rfl⟩ := List.mem_map.mp (List.mem_of_getElem? himport)
      obtain ⟨Q, hQ, rfl⟩ := List.mem_map.mp (findImport_eq_ok hfound).1
      apply listed ((verifiedN.imports_verified hP).honest exported)
      exact (exportHashes P (List.mem_append_right _ (List.mem_flatMap.mpr ⟨N, hN, hP⟩)) Q
        (List.mem_append_left _ hQ) sameHash entry exported entry' exported'
        (hhash.trans hhash'.symm) id).mpr inEntry

/-- An imported declaration is only reached by a name that stands for it. -/
theorem Reaches.entered {N : Module} {j : Nat}
    (reaches : Reaches X start declIndex (.imported N j)) :
    ∃ target, N ∈ X.imports ∧ Loaded X target ∧ target.module = N.cert ∧
      target.module.sourceDeclIndexForName target.entry.name = .ok j := by
  have named : ∃ name, Denotes X start name (.imported N j) := by
    cases reaches with
    | own _ _ _ _ denotes => exact ⟨_, denotes⟩
    | imported _ _ _ _ denotes => exact ⟨_, denotes⟩
  obtain ⟨_, denotes⟩ := named
  cases denotes with
  | imported hN loaded owner source => exact ⟨_, hN, loaded, owner, source⟩

/-- Whatever a declaration reaches reports nothing that the declaration does not report. -/
theorem Settled.reaches (settled : Settled X start) (hashes : HashesIdentify X)
    (exportHashes : ExportHashesIdentify X) {origin : Origin}
    (reaches : Reaches X start declIndex origin)
    (reports : X.ReportsOf origin id) : X.cert.Reports declIndex id := by
  induction reaches generalizing id with
  | self => exact reports
  | own before found mem hname denotes ih =>
    exact ih (settled.own_step found mem hname denotes reports)
  | @imported N j decl ref name origin before found mem hname denotes ih =>
    obtain ⟨target, hN, loaded, owner, source⟩ := before.entered
    exact ih (settled.imported_step hashes exportHashes hN loaded owner source found mem hname
      denotes reports)

end Steps

/-! ### Completeness -/

/-- What the completeness of the reports of a module rests on. -/
structure Trackable (X : Module) : Prop where
  hashes : HashesIdentify X
  exportHashes : ExportHashesIdentify X
  kept : NamesKept X

theorem reports_of_usesAxiom {X : Module}
    (uses : UsesAxiom X declIndex id) (trackable : Everywhere Trackable X) :
    X.cert.Reports declIndex id := by
  induction uses with
  | @own X start declIndex j decl name _ _ _ accepted reaches found isAxiom =>
    obtain ⟨⟨hashes, exportHashes, kept⟩, -⟩ := trackable
    have settled := settled_of_accepted accepted hashes kept
    refine settled.reaches hashes exportHashes reaches ?_
    have self : ⟨.local j, name, decl.hashes.declInterfaceHash⟩ ∈ selfAxiom j decl := by
      simp [selfAxiom, isAxiom]
    exact ⟨decl, found, List.mem_map.mpr
      ⟨_, (settled.checked j decl found).mem_axiomDependencies.2.1 self, rfl⟩⟩
  | builtin accepted reaches isAxiom hhash =>
    obtain ⟨⟨hashes, exportHashes, kept⟩, -⟩ := trackable
    have settled := settled_of_accepted accepted hashes kept
    exact settled.reaches hashes exportHashes reaches ⟨isAxiom, rfl, hhash⟩
  | imported accepted reaches uses ih =>
    obtain ⟨⟨hashes, exportHashes, kept⟩, below⟩ := trackable
    have settled := settled_of_accepted accepted hashes kept
    obtain ⟨_, hN, -⟩ := reaches.entered
    exact settled.reaches hashes exportHashes reaches (ih (below _ hN))

/-- Every axiom that a declaration of a verified module rests on is on its list, on the list of
    the module and on those of its exports. -/
theorem axiomReport_complete {X : Module} (verified : Verified X)
    (trackable : Everywhere Trackable X) {declIndex : Nat} {id : AxiomId}
    (uses : UsesAxiom X declIndex id) : X.cert.ReportsEverywhere declIndex id := by
  obtain ⟨decl, found, hid⟩ := reports_of_usesAxiom uses trackable
  obtain ⟨ref, href, rfl⟩ := List.mem_map.mp hid
  obtain ⟨run, available, final, checks⟩ := verified.checks
  have wellFormed := checks.wellFormed
  refine ⟨decl, found, ref, rfl, href, ?_, ?_⟩
  · rw [(declChecked_of_accepted checks.dependencies).2, mem_sortedSet]
    exact List.mem_flatten.mpr
      ⟨_, List.mem_map.mpr ⟨decl, List.mem_of_getElem? found, rfl⟩, href⟩
  · intro entry hentry hname
    obtain ⟨own, hown, exported⟩ := wellFormed.mem_exportBlock.mp hentry
    obtain ⟨i, hi⟩ := List.mem_iff_getElem?.mp hown
    obtain ⟨ownName, -, -, axioms⟩ := mem_declExports exported
    have same := wellFormed.distinct found hi hname ownName
    subst same
    cases found.symm.trans hi
    rwa [axioms]

/-! ### A forged reference -/

/-- An axiom, and an inductive type whose constructor refers to the axiom as to a generated
    name of the type itself. -/
def forgedCert : ModuleCert :=
  let base : AxiomRef := ⟨.local 0, "A", "iface A"⟩
  axiomCert "Forged" [] ["A", "I", "I.mk"]
    [⟨.axiomDecl "A" [] [] (.sort (.succ .zero)), [], [base], ⟨"iface A", "cert A"⟩⟩,
      ⟨.inductiveDecl [] []
          ⟨"I", [], [], .succ .zero,
            [⟨"I.mk", .pi () (.const (.localGenerated 1 "A") []) (.const (.local 1) [])⟩], none⟩,
        [], [], ⟨"iface I", "cert I"⟩⟩]
    [[base], []]

def forgedModule : Module := .mk forgedCert []

/-- The type rests on the axiom but reports none. -/
theorem forgedModule_incomplete :
    Verified forgedModule ∧ UsesAxiom forgedModule 1 ⟨"A", "iface A"⟩ ∧
      ¬ forgedModule.cert.Reports 1 ⟨"A", "iface A"⟩ := by
  obtain ⟨final, accepted⟩ := @accepted_of_checks exampleRun forgedModule [] (by decide +kernel)
    rfl (by decide +kernel)
  refine ⟨.intro (by simp) accepted, ?_, ?_⟩
  · obtain ⟨start, loaded, -⟩ := (checks_of_accepted accepted).kernel
    have reaches : Reaches forgedModule start 1 (.own 0) :=
      @Reaches.own _ _ _ _ _ (.localGenerated 1 "A") _ _ .self rfl (by decide +kernel) rfl
        (.own rfl (by decide +kernel))
    exact .own ⟨exampleRun, [], final, by simp, accepted, loaded⟩ reaches rfl rfl
  · rintro ⟨decl, found, mem⟩
    cases found
    cases mem

theorem baseModule_requested {meaning : CertResult ImportedLoadAction} :
    ¬ Requested baseModule name meaning := by
  intro requested
  cases requested with
  | own mem =>
    have refs : baseModule.refs = [] := by decide +kernel
    rw [refs] at mem
    cases mem
  | loader mem => cases mem

theorem baseModule_trackable : Trackable baseModule := by
  refine ⟨⟨?_, ?_⟩, ?_, ⟨?_, ?_, ?_⟩⟩
  · intro N mem
    cases mem
  · intro N mem
    cases mem
  · intro N mem
    cases mem
  · intro decl hdecl ref href
    cases List.mem_singleton.mp hdecl
    cases href
  · intro name meaning requested
    exact absurd requested baseModule_requested
  · intro name action decls name' action' decls' requested
    exact absurd requested baseModule_requested

theorem baseUserModule_trackable : Trackable baseUserModule := by
  refine ⟨⟨?_, ?_⟩, ?_, ⟨?_, baseUserModule_noMergedNames.requestsAgree.named, ?_⟩⟩
  · intro N mem N' mem' _ _
    cases List.mem_singleton.mp mem
    cases List.mem_singleton.mp mem'
    rfl
  · intro N mem N' mem' d hd d' hd' _
    cases List.mem_singleton.mp mem
    cases List.mem_singleton.mp mem'
    cases List.mem_singleton.mp hd
    cases List.mem_singleton.mp hd'
    exact ⟨rfl, rfl⟩
  · intro N mem N' mem' _ entry hentry entry' hentry' _ id
    cases List.mem_singleton.mp mem
    cases List.mem_singleton.mp mem'
    cases List.mem_singleton.mp hentry
    cases List.mem_singleton.mp hentry'
    exact Iff.rfl
  · intro decl hdecl ref href target isTarget
    cases List.mem_singleton.mp hdecl
    cases List.mem_singleton.mp href
    cases isTarget
  · intro name action decls name' action' decls' requested requested' _ _ decl _ decl' _ key _ _
    cases (baseUserModule_requested requested).2
    cases (baseUserModule_requested requested').2
    rfl

/-- The point rests on the axiom of the module it imports, and reports it. -/
theorem baseUserModule_reports :
    UsesAxiom baseUserModule 0 ⟨"Base", "iface Base"⟩ ∧
      baseUserModule.cert.ReportsEverywhere 0 ⟨"Base", "iface Base"⟩ := by
  obtain ⟨baseFinal, base⟩ := @accepted_of_checks exampleRun baseModule [] (by decide +kernel) rfl
    (by decide +kernel)
  obtain ⟨final, accepted⟩ := @accepted_of_checks exampleRun baseUserModule [baseModule]
    (by decide +kernel) rfl (by decide +kernel)
  have verified : ∀ N ∈ [baseModule], Verified N := by
    intro N mem
    cases List.mem_singleton.mp mem
    exact .intro (by simp) base
  obtain ⟨baseStart, baseLoaded, -⟩ := (checks_of_accepted base).kernel
  have baseAccepted : AcceptedWith baseModule baseStart :=
    ⟨exampleRun, [], baseFinal, by simp, base, baseLoaded⟩
  have axiomUsed : UsesAxiom baseModule 0 ⟨"Base", "iface Base"⟩ :=
    @UsesAxiom.own baseModule baseStart 0 0 ⟨_, _, _, "iface Base", "cert Base"⟩ "Base" [] []
      (.sort (.succ .zero)) baseAccepted .self rfl rfl
  have found : (importEnv exampleRun baseUserModule.cert baseUserModule.importCerts).map
      (·.decl "Base") = .ok (some (.axiomDecl "Base" [] [] (.sort (.succ .zero)))) := by
    decide +kernel
  obtain ⟨start, loaded, found⟩ := Result.map_eq_ok.mp found
  have target : Loaded baseUserModule baseTarget :=
    @Loaded.root baseUserModule (.imported 0 "Base" "iface Base") _ (by decide +kernel) rfl
  have denotes : Denotes baseUserModule start "Base" (.imported baseModule 0) :=
    .imported (List.mem_singleton_self _) target rfl (by decide +kernel) rfl
      (List.mem_singleton_self _) found
  have reaches : Reaches baseUserModule start 0 (.imported baseModule 0) :=
    @Reaches.own _ _ _ _ _ (.imported 0 "Base" "iface Base") _ _ .self rfl (by decide +kernel) rfl
      denotes
  have uses : UsesAxiom baseUserModule 0 ⟨"Base", "iface Base"⟩ :=
    .imported ⟨exampleRun, [baseModule], final, verified, accepted, loaded⟩ reaches axiomUsed
  refine ⟨uses, axiomReport_complete (.intro verified accepted) ?_ uses⟩
  refine ⟨baseUserModule_trackable, ?_⟩
  intro N mem
  cases List.mem_singleton.mp mem
  refine ⟨baseModule_trackable, ?_⟩
  intro N mem
  cases mem

end NpaCore.Certificate
