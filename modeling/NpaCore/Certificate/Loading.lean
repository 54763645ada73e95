import NpaCore.Certificate.ImportForm

/-!
# What is loaded for a module

A certificate identifies a constant by module, name and interface hash, the loader
follows these references through the imports, and the kernel knows a declaration by
its dotted name alone.

## Main results

* `LoadRun.holds`: when the requested declarations agree on the names they share, the
  environment of the imports holds all of them.
* `LoadRun.mem_of_loads`: whatever the loader takes for a constant of an imported
  declaration is requested.
-/

namespace NpaCore.Certificate

open NpaCore.Kernel
open NpaCore.FlatLoad
open NpaCore.PostOrder

/-! ### What references identify -/

/-- The declarations that an action loads. -/
def ImportedLoadAction.decls : ImportedLoadAction → CertResult (List KernelDecl)
  | builtin name declInterfaceHash => do
    Result.ensure (builtinDeclInterfaceHash name = some declInterfaceHash)
      (.unknownDependency name)
    .ok (referencedBuiltins [name])
  | declaration target => do
    let decl ← target.module.certificateImportExportEntryToKernelDecl target.entry
    .ok [decl]

def GlobalRef.isLocal : GlobalRef → Bool
  | .local _ | .localGenerated .. => true
  | .builtin .. | .imported .. => false

namespace Module

/-- What a reference of the module identifies, by the modules that its imports were resolved
    to when it was verified itself. -/
def identify (N : Module) : GlobalRef → CertResult ImportedLoadAction
  | .builtin name declInterfaceHash => .ok (.builtin name declInterfaceHash)
  | .imported importIndex name declInterfaceHash => do
    let (imported, entry) ← importedExportEntryForGlobalRef N.importCerts
      (.imported importIndex name declInterfaceHash)
    .ok (.declaration ⟨imported, entry⟩)
  | .local declIndex => do
    let entry ← N.cert.exportEntryForLocalDecl declIndex
    .ok (.declaration ⟨N.cert, entry⟩)
  | .localGenerated declIndex name => do
    let entry ← N.cert.exportEntryForLocalGeneratedDecl declIndex name
    .ok (.declaration ⟨N.cert, entry⟩)

/-- What the loader takes for a reference of an import of `X`. -/
def loads (X : Module) (module : ModuleCert) (ref : GlobalRef) : CertResult ImportedLoadAction := do
  match ← resolveImportedRef X.importCerts module ref with
  | .skip => .error .decodeError
  | .leaf action => .ok action
  | .child target => .ok (.declaration target)

/-- The references in the declarations of the module. -/
def refs (X : Module) : List GlobalRef :=
  (X.cert.declarations.flatMap fun decl => decl.decl.terms).flatMap Term.refs

end Module

/-- The imported declarations that the loader visits for `X`. -/
inductive Loaded (X : Module) : Target → Prop
  | root {ref target} (mem : ref ∈ rootRefs X.cert)
      (h : resolveRootRef X.importCerts ref = .ok (.child target)) : Loaded X target
  | step {target refs ref next} (before : Loaded X target)
      (hrefs : collectImportedKernelRefsForExport target = .ok refs) (mem : ref ∈ refs)
      (h : resolveImportedRef X.importCerts target.module ref = .ok (.child next)) : Loaded X next
/-- The kernel name of a constant and what is loaded for it: a reference of `X` to its imports
    or to a builtin, or a constant in an imported declaration that is loaded. -/
inductive Requested (X : Module) : CertResult String → CertResult ImportedLoadAction → Prop
  | own {ref} (mem : ref ∈ X.refs) (outside : ref.isLocal = false) :
      Requested X (X.cert.globalRefName ref) (X.identify ref)
  | loader {N target terms ref} (mem : N ∈ X.imports) (loaded : Loaded X target)
      (owner : target.module = N.cert) (hterms : target.terms = .ok terms)
      (href : ref ∈ terms.flatMap Term.refs) :
      Requested X (N.cert.globalRefName ref) (X.loads N.cert ref)

/-- The name is one of those of the declarations that are identified. -/
def Names (name : CertResult String) (meaning : CertResult ImportedLoadAction)
    (decls : List KernelDecl) : Prop :=
  ∃ key action, name = .ok key ∧ meaning = .ok action ∧ action.decls = .ok decls ∧
    ∃ decl ∈ decls, key ∈ decl.entries.map Prod.fst
/-- Every constant names a declaration that is loaded for it, and declarations that share
    names have the same entries there, up to binder names. -/
structure RequestsAgree (X : Module) : Prop where
  named : ∀ name meaning, Requested X name meaning → ∃ decls, Names name meaning decls
  agree : ∀ name meaning decls name' meaning' decls', Requested X name meaning →
    Requested X name' meaning' → Names name meaning decls → Names name' meaning' decls' →
      ∀ decl ∈ decls, ∀ decl' ∈ decls', Agree SameDecl decl.group decl'.group

/-- The hashes in the imports of `X` and in their imports have no collision: a certificate
    hash is computed from the certificate, and an interface hash from the kind of a
    declaration and all its names, among others. -/
structure HashesIdentify (X : Module) : Prop where
  certificates : ∀ N ∈ X.imports, ∀ N' ∈ X.imports, N.cert.module = N'.cert.module →
    N.cert.certificateHash = N'.cert.certificateHash → N.cert = N'.cert
  interfaces : ∀ N ∈ X.imports ++ X.imports.flatMap Module.imports,
    ∀ N' ∈ X.imports ++ X.imports.flatMap Module.imports,
      ∀ d ∈ N.cert.declarations, ∀ d' ∈ N'.cert.declarations,
        d.hashes.declInterfaceHash = d'.hashes.declInterfaceHash →
          d.decl.primaryName = d'.decl.primaryName ∧
            d.decl.importedNames = d'.decl.importedNames
/-! ### Imports of accepted modules -/

variable {ref : GlobalRef}

section Imports

/-- An import that is found is available and has the export hash that was asked for. -/
theorem findImport_eq_ok {α : Type} {view : α → ModuleCert} {available : List α}
    {entry : ImportEntry} {mode : TrustMode} {found : α}
    (h : findImport view available entry mode = .ok found) :
    found ∈ available ∧ (view found).exportHash = entry.exportHash := by
  unfold findImport at h
  split at h
  next hfind =>
    cases h
    have matched := List.find?_some hfind
    simp only [ImportEntry.matchesCert, ImportEntry.exportMatches, Bool.and_eq_true,
      decide_eq_true_eq] at matched
    exact ⟨List.mem_of_find?_eq_some hfind, matched.1.2⟩
  next =>
    dsimp only at h
    split at h
    · cases h
    · split at h <;> cases h

variable {run : VerifierRun} {X : Module} {available : List Module} {final : Env}

theorem Checks.mem_available (checks : Checks run X available final) {N : Module}
    (mem : N ∈ X.imports) : N ∈ available := by
  obtain ⟨entry, _, h⟩ := Result.collect_mem_right checks.resolved mem
  simp only [Result.bind_eq_ok] at h
  obtain ⟨_, _, h⟩ := h
  exact (findImport_eq_ok h).1

theorem Verified.imports_verified (verified : Verified X) {N : Module} (mem : N ∈ X.imports) :
    Verified N := by
  cases verified with
  | intro each h => exact each N ((checks_of_accepted (X := .mk _ _) h).mem_available mem)

/-- The dependencies of the declarations are their references to other declarations. -/
theorem Checks.mem_rootRefs (checks : Checks run X available final)
    (outside : ref.isLocal = false) : ref ∈ rootRefs X.cert ↔ ref ∈ X.refs := by
  obtain ⟨each, _⟩ := declChecked_of_accepted checks.dependencies
  simp only [rootRefs, mem_sortedSet, List.mem_flatMap, List.mem_map, Module.refs]
  refine ⟨?_, ?_⟩
  · rintro ⟨decl, hdecl, dependency, hdependency, rfl⟩
    obtain ⟨i, hi⟩ := List.mem_iff_getElem?.mp hdecl
    rcases (each i decl hi).mem_dependencies.2 dependency hdependency with mem | ⟨target, h⟩
    · obtain ⟨term, hterm, hmem⟩ := List.mem_flatMap.mp mem
      exact ⟨term, ⟨decl, hdecl, hterm⟩, hmem⟩
    · rw [h] at outside
      cases outside
  · rintro ⟨term, ⟨decl, hdecl, hterm⟩, hmem⟩
    obtain ⟨i, hi⟩ := List.mem_iff_getElem?.mp hdecl
    have notSelf : (decl.decl.isInductive && ref.isSelf i) = false := by
      cases ref with
      | builtin | imported => simp [GlobalRef.isSelf]
      | _ => cases outside
    obtain ⟨⟨dependency, hdependency, h⟩, -⟩ := (each i decl hi).mem_dependencies.1 ref
      (List.mem_flatMap.mpr ⟨term, hterm, hmem⟩) notSelf
    exact ⟨decl, hdecl, dependency, hdependency, h⟩

end Imports

/-! ### Entries behind references -/

section Entries

variable {module : ModuleCert} {name : String} {hash : Hash} {entry : ExportEntry}

theorem exportEntryByName_eq_ok (h : module.exportEntryByName name hash = .ok entry) :
    entry ∈ module.exportBlock ∧ entry.name = name ∧ entry.declInterfaceHash = hash := by
  rw [ModuleCert.exportEntryByName, Result.okOr_eq_ok] at h
  have matched := List.find?_some h
  simp only [Bool.and_eq_true, decide_eq_true_eq] at matched
  exact ⟨List.mem_of_find?_eq_some h, matched.2, matched.1⟩

theorem exportEntryOfDecl_eq_ok {declIndex : Nat} {nameOf : DeclPayload → String}
    (h : module.exportEntryOfDecl declIndex nameOf = .ok entry) :
    ∃ decl, module.declarations[declIndex]? = some decl ∧ entry ∈ module.exportBlock ∧
      entry.name = nameOf decl.decl ∧ entry.declInterfaceHash = decl.hashes.declInterfaceHash := by
  simp only [ModuleCert.exportEntryOfDecl, Result.bind_eq_ok, Result.okOr_eq_ok] at h
  obtain ⟨decl, hdecl, hfind⟩ := h
  have matched := List.find?_some hfind
  simp only [Bool.and_eq_true, decide_eq_true_eq] at matched
  exact ⟨decl, hdecl, List.mem_of_find?_eq_some hfind, matched⟩

theorem importedExportEntryForGlobalRef_eq_ok {imports : List ModuleCert} {importIndex : Nat}
    (h : importedExportEntryForGlobalRef imports (.imported importIndex name hash) =
      .ok (module, entry)) :
    imports[importIndex]? = some module ∧ module.exportEntryByName name hash = .ok entry := by
  simp only [importedExportEntryForGlobalRef, Result.bind_eq_ok, Result.okOr_eq_ok,
    Except.ok.injEq, Prod.mk.injEq] at h
  obtain ⟨_, himport, _, hentry, rfl, rfl⟩ := h
  exact ⟨himport, hentry⟩

/-- What a reference of an imported module leads to: a builtin, or an entry under the kernel
    name of the reference in an import or in the module itself. -/
theorem resolveImportedRef_eq_ok {imports : List ModuleCert} {step : Step ImportedLoadAction Target}
    (h : resolveImportedRef imports module ref = .ok step) :
    (∃ name hash, ref = .builtin name hash ∧ step = .leaf (.builtin name hash)) ∨
      ∃ target, step = .child target ∧ (target.module ∈ imports ∨ target.module = module) ∧
        target.entry ∈ target.module.exportBlock ∧
          module.globalRefName ref = .ok target.entry.name := by
  cases ref with
  | builtin name hash =>
    cases h
    exact .inl ⟨name, hash, rfl, rfl⟩
  | imported importIndex name hash =>
    simp only [resolveImportedRef, Result.bind_eq_ok, Except.ok.injEq] at h
    obtain ⟨importEntry, _, found, hfound, entry, hentry, rfl⟩ := h
    obtain ⟨mem, rfl, -⟩ := exportEntryByName_eq_ok hentry
    exact .inr ⟨_, rfl, .inl (findImport_eq_ok hfound).1, mem, rfl⟩
  | «local» declIndex =>
    simp only [resolveImportedRef, Result.bind_eq_ok, Except.ok.injEq] at h
    obtain ⟨entry, hentry, rfl⟩ := h
    obtain ⟨decl, hdecl, mem, hname, -⟩ := exportEntryOfDecl_eq_ok hentry
    refine .inr ⟨_, rfl, .inr rfl, mem, ?_⟩
    simp [ModuleCert.globalRefName, ModuleCert.declName, hdecl, hname]
  | localGenerated declIndex name =>
    simp only [resolveImportedRef, Result.bind_eq_ok, Except.ok.injEq] at h
    obtain ⟨entry, hentry, rfl⟩ := h
    obtain ⟨decl, hdecl, mem, rfl, -⟩ := exportEntryOfDecl_eq_ok hentry
    exact .inr ⟨_, rfl, .inr rfl, mem, rfl⟩

theorem resolveRootRef_eq_ok {imports : List ModuleCert}
    {step : Step ImportedLoadAction Target} (h : resolveRootRef imports ref = .ok step) :
    ref.isLocal = true ∧ step = .skip ∨
      ref.isLocal = false ∧
        ((∃ name hash, ref = .builtin name hash ∧ step = .leaf (.builtin name hash)) ∨
          ∃ importIndex target, ref = .imported importIndex target.entry.name
              target.entry.declInterfaceHash ∧ step = .child target ∧
            importedExportEntryForGlobalRef imports ref = .ok (target.module, target.entry)) := by
  cases ref with
  | builtin name hash =>
    cases h
    exact .inr ⟨rfl, .inl ⟨name, hash, rfl, rfl⟩⟩
  | imported importIndex name hash =>
    simp only [resolveRootRef, Result.bind_eq_ok, Except.ok.injEq] at h
    obtain ⟨⟨module, entry⟩, hentry, rfl⟩ := h
    obtain ⟨-, -, rfl, rfl⟩ := And.imp_right exportEntryByName_eq_ok
      (importedExportEntryForGlobalRef_eq_ok hentry)
    exact .inr ⟨rfl, .inr ⟨importIndex, ⟨module, entry⟩, rfl, rfl, hentry⟩⟩
  | «local» | localGenerated =>
    cases h
    exact .inl ⟨rfl, rfl⟩

end Entries

/-! ### The declarations that are loaded -/

section Loaded

variable {X : Module} {target other : Target}

theorem Loaded.mem (loaded : Loaded X target) :
    target.module ∈ X.importCerts ∧ target.entry ∈ target.module.exportBlock := by
  induction loaded with
  | root _ h =>
    rcases resolveRootRef_eq_ok h with ⟨-, h⟩ | ⟨-, ⟨_, _, -, h⟩ | ⟨_, found, rfl, h, hentry⟩⟩
    · cases h
    · cases h
    · cases h
      obtain ⟨himport, hentry⟩ := importedExportEntryForGlobalRef_eq_ok hentry
      exact ⟨List.mem_of_getElem? himport, (exportEntryByName_eq_ok hentry).1⟩
  | step _ _ _ h ih =>
    rcases resolveImportedRef_eq_ok h with ⟨_, _, -, h⟩ | ⟨found, h, hmodule, hentry, -⟩
    · cases h
    · cases h
      refine ⟨?_, hentry⟩
      rcases hmodule with mem | same
      · exact mem
      · rw [same]
        exact ih.1

theorem Loaded.owner (loaded : Loaded X target) : ∃ N ∈ X.imports, N.cert = target.module :=
  List.mem_map.mp loaded.mem.1

theorem collectImportedKernelRefsForExport_eq (target : Target) :
    collectImportedKernelRefsForExport target = target.terms >>= fun terms =>
      let refs := sortedSet (globalRefOrderKey target.module.nameTable) (terms.flatMap Term.refs)
      if target.entry.kind.isFamily then
        target.module.sourceDeclIndexForName target.entry.name >>= fun declIndex =>
          .ok (refs.filter fun ref => !ref.isSelf declIndex)
      else .ok refs := by
  unfold collectImportedKernelRefsForExport
  cases kind : target.entry.kind <;> rfl

/-- The loader asks for the references in the terms, but not for those of a family to
    itself. -/
theorem mem_collected {refs : List GlobalRef}
    (h : collectImportedKernelRefsForExport target = .ok refs) (ref : GlobalRef) :
    ∃ terms, target.terms = .ok terms ∧
      (ref ∈ refs → ref ∈ terms.flatMap Term.refs) ∧
        (ref ∈ terms.flatMap Term.refs → ref ∈ refs ∨ target.entry.kind.isFamily = true ∧
          ∃ declIndex, target.module.sourceDeclIndexForName target.entry.name = .ok declIndex ∧
            ref.isSelf declIndex = true) := by
  rw [collectImportedKernelRefsForExport_eq] at h
  simp only [Result.bind_eq_ok] at h
  obtain ⟨terms, hterms, h⟩ := h
  refine ⟨terms, hterms, ?_⟩
  split at h
  next family =>
    simp only [Result.bind_eq_ok, Except.ok.injEq] at h
    obtain ⟨declIndex, source, rfl⟩ := h
    refine ⟨fun mem => mem_sortedSet.mp (List.mem_filter.mp mem).1, ?_⟩
    intro mem
    cases self : ref.isSelf declIndex with
    | true => exact .inr ⟨family, declIndex, source, self⟩
    | false =>
      refine .inl (List.mem_filter.mpr ⟨mem_sortedSet.mpr mem, ?_⟩)
      rw [self]
      rfl
  next =>
    cases h
    exact ⟨mem_sortedSet.mp, fun mem => .inl (mem_sortedSet.mpr mem)⟩

/-- Two visits with one key are visits of one declaration. -/
theorem same_of_key {identity : ModuleCert → List String}
    (hidentity : identity ∈ [directIdentity, exactIdentity]) (hashes : HashesIdentify X)
    (wellFormed : ∀ N ∈ X.imports, N.cert.WellFormed) (loaded : Loaded X target)
    (loaded' : Loaded X other) {key : List String × Nat}
    (hkey : (loadGraph identity X.importCerts).key target = .ok key)
    (hkey' : (loadGraph identity X.importCerts).key other = .ok key) :
    target.module = other.module ∧
      target.module.certificateImportExportEntryToKernelDecl target.entry =
        other.module.certificateImportExportEntryToKernelDecl other.entry ∧
      collectImportedKernelRefsForExport target = collectImportedKernelRefsForExport other := by
  simp only [loadGraph, Result.bind_eq_ok, Except.ok.injEq] at hkey hkey'
  obtain ⟨declIndex, source, rfl⟩ := hkey
  obtain ⟨declIndex', source', same⟩ := hkey'
  obtain ⟨sameIdentity, rfl⟩ := Prod.mk.inj same
  obtain ⟨N, hN, ownerN⟩ := loaded.owner
  obtain ⟨N', hN', ownerN'⟩ := loaded'.owner
  have sameModule : target.module = other.module := by
    have parts : target.module.module = other.module.module ∧
        target.module.certificateHash = other.module.certificateHash := by
      simp only [List.mem_cons, List.not_mem_nil, or_false] at hidentity
      rcases hidentity with rfl | rfl
      · simp only [directIdentity, List.cons.injEq, and_true] at sameIdentity
        exact ⟨sameIdentity.1.symm, sameIdentity.2.symm⟩
      · simp only [exactIdentity, List.cons.injEq, and_true] at sameIdentity
        exact ⟨sameIdentity.1.symm, sameIdentity.2.2.symm⟩
    rw [← ownerN, ← ownerN'] at parts ⊢
    exact hashes.certificates N hN N' hN' parts.1 parts.2
  obtain ⟨module, entry⟩ := target
  obtain ⟨module', entry'⟩ := other
  cases sameModule
  have formed : module.WellFormed := by
    have own := wellFormed N hN
    rwa [ownerN] at own
  obtain ⟨decl, hdecl, hkind, hform, hterms⟩ := formed.entry_of_source loaded.mem.2 source
  obtain ⟨decl', hdecl', hkind', hform', hterms'⟩ := formed.entry_of_source loaded'.mem.2 source'
  cases hdecl.symm.trans hdecl'
  refine ⟨rfl, hform.trans hform'.symm, ?_⟩
  simp only [collectImportedKernelRefsForExport_eq, hterms, hterms', hkind, hkind', source,
    source']

end Loaded

/-! ### What a walk loads -/

variable {action : ImportedLoadAction} {target : Target}

section Walk

variable {X : Module} {identity : ModuleCert → List String}
  {plan : State (List String × Nat) (List ImportedLoadAction)}

theorem Loaded.of_reached
    (reached : Reached (loadGraph identity X.importCerts) (resolveRootRef X.importCerts)
      (rootRefs X.cert) target) : Loaded X target := by
  induction reached with
  | root mem h => exact .root mem h
  | step _ hrefs mem h ih => exact .step ih hrefs mem h

/-- A loaded declaration is what some reference of `X` or of an import requested for. -/
theorem Loaded.requested {run : VerifierRun} {available : List Module} {final : Env}
    (checks : Checks run X available final) (loaded : Loaded X target) :
    ∃ name, Requested X name (.ok (.declaration target)) := by
  cases loaded with
  | @root ref _ mem h =>
    rcases resolveRootRef_eq_ok h with ⟨-, h⟩ | ⟨outside, ⟨_, _, -, h⟩ | ⟨_, found, href, h, hentry⟩⟩
    · cases h
    · cases h
    · cases h
      have identified : X.identify ref = .ok (.declaration target) := by
        rw [href] at hentry ⊢
        simp [Module.identify, hentry, bind, Except.bind]
      have requested := Requested.own ((checks.mem_rootRefs outside).mp mem) outside
      rw [identified] at requested
      exact ⟨_, requested⟩
  | @step before refs ref _ loaded hrefs mem h =>
    obtain ⟨terms, hterms, inTerms, -⟩ := mem_collected hrefs ref
    obtain ⟨N, hN, owner⟩ := loaded.owner
    have taken : X.loads N.cert ref = .ok (.declaration target) := by
      simp [Module.loads, owner, h, bind, Except.bind]
    have requested := Requested.loader hN loaded owner.symm hterms (inTerms mem)
    rw [taken] at requested
    exact ⟨_, requested⟩

/-- Every action of the walk is what some reference requested for. -/
theorem requested_of_offered {run : VerifierRun} {available : List Module} {final : Env}
    (checks : Checks run X available final)
    (offered : Offered (loadGraph identity X.importCerts) (resolveRootRef X.importCerts)
      (rootRefs X.cert) action) :
    (∃ name, Requested X name (.ok action)) ∧
      ∀ target, action = .declaration target → Loaded X target := by
  cases offered with
  | @root ref _ mem h =>
    rcases resolveRootRef_eq_ok h with ⟨-, h⟩ | ⟨outside, ⟨_, _, rfl, h⟩ | ⟨_, _, _, h, _⟩⟩
    · cases h
    · cases h
      refine ⟨⟨_, .own ((checks.mem_rootRefs outside).mp mem) outside⟩, ?_⟩
      intro target h
      cases h
    · cases h
  | @leaf node refs ref _ reached hrefs mem h =>
    have loaded := Loaded.of_reached reached
    obtain ⟨terms, hterms, inTerms, -⟩ := mem_collected hrefs ref
    obtain ⟨N, hN, owner⟩ := loaded.owner
    have resolved : resolveImportedRef X.importCerts node.module ref = .ok (.leaf action) := h
    have taken : X.loads N.cert ref = .ok action := by
      simp [Module.loads, owner, resolved, bind, Except.bind]
    have requested := Requested.loader hN loaded owner.symm hterms (inTerms mem)
    rw [taken] at requested
    refine ⟨⟨_, requested⟩, ?_⟩
    intro target h
    subst h
    rcases resolveImportedRef_eq_ok resolved with ⟨_, _, -, h⟩ | ⟨_, h, _⟩
    · cases h
    · cases h
  | @finish node reached =>
    have loaded := Loaded.of_reached reached
    refine ⟨loaded.requested checks, ?_⟩
    intro target h
    cases h
    exact loaded

/-- Every loaded declaration was finished by the walk, and so were its references. -/
theorem Loaded.done {run : VerifierRun} {available : List Module} {final : Env}
    (checks : Checks run X available final)
    (hidentity : identity ∈ [directIdentity, exactIdentity]) (hashes : HashesIdentify X)
    (wellFormed : ∀ N ∈ X.imports, N.cert.WellFormed)
    (hplan : visitRefs (loadGraph identity X.importCerts) record (loadDepth X.importCerts)
      (resolveRootRef X.importCerts) (rootRefs X.cert) [] = .ok plan) (loaded : Loaded X target) :
    (∃ other, .declaration other ∈ plan.acc ∧
      target.module.certificateImportExportEntryToKernelDecl target.entry =
        other.module.certificateImportExportEntryToKernelDecl other.entry) ∧
      ∃ refs, collectImportedKernelRefsForExport target = .ok refs ∧
        AllDone (loadGraph identity X.importCerts) plan
          (resolveImportedRef X.importCerts target.module) refs := by
  obtain ⟨finished, rootsDone⟩ := visitRefs_complete hplan
  have offered := visitRefs_offered hplan
  -- a visited declaration and the one that was finished under its key are the same
  have finish : ∀ target, Loaded X target →
      Done (loadGraph identity X.importCerts) plan (.child target) →
      (∃ other, .declaration other ∈ plan.acc ∧
        target.module.certificateImportExportEntryToKernelDecl target.entry =
          other.module.certificateImportExportEntryToKernelDecl other.entry) ∧
        ∃ refs, collectImportedKernelRefsForExport target = .ok refs ∧
          AllDone (loadGraph identity X.importCerts) plan
            (resolveImportedRef X.importCerts target.module) refs := by
    rintro target loaded ⟨key, hkey, mem⟩
    obtain ⟨other, refs, hkey', hrefs, hacc, hdone⟩ := finished key mem
    have loaded' := (requested_of_offered checks (offered _ hacc)).2 other rfl
    obtain ⟨sameModule, sameForm, sameRefs⟩ :=
      same_of_key hidentity hashes wellFormed loaded loaded' hkey hkey'
    refine ⟨⟨other, hacc, sameForm⟩, refs, sameRefs.trans hrefs, ?_⟩
    rw [sameModule]
    exact hdone
  apply finish target loaded
  induction loaded with
  | root mem h =>
    obtain ⟨step, hstep, hdone⟩ := rootsDone _ mem
    cases hstep.symm.trans h
    exact hdone
  | step before hrefs mem h ih =>
    obtain ⟨-, refs, hrefs', allDone⟩ := finish _ before ih
    cases hrefs.symm.trans hrefs'
    obtain ⟨step, hstep, hdone⟩ := allDone _ mem
    cases hstep.symm.trans h
    exact hdone

end Walk
/-! ### The environment of the imports -/

section LoadRun

theorem mem_referencedBuiltins {decl : KernelDecl} {names : List String} :
    decl ∈ referencedBuiltins names ↔ ∃ name ∈ names, decl ∈ referencedBuiltins [name] := by
  simp only [referencedBuiltins, List.mem_append, List.mem_ite_nil_right, List.any_eq_true,
    List.any_cons, List.any_nil, Bool.or_false, List.contains_iff_mem, List.mem_singleton]
  refine ⟨?_, ?_⟩
  · rintro ((⟨⟨name, mem, h⟩, rfl⟩ | ⟨⟨name, mem, h⟩, rfl⟩) | ⟨mem, rfl⟩)
    · exact ⟨name, mem, .inl (.inl ⟨h, rfl⟩)⟩
    · exact ⟨name, mem, .inl (.inr ⟨h, rfl⟩)⟩
    · exact ⟨_, mem, .inr ⟨rfl, rfl⟩⟩
  · rintro ⟨name, mem, (⟨h, rfl⟩ | ⟨h, rfl⟩) | ⟨rfl, rfl⟩⟩
    · exact .inl (.inl ⟨⟨name, mem, h⟩, rfl⟩)
    · exact .inl (.inr ⟨⟨name, mem, h⟩, rfl⟩)
    · exact .inr ⟨mem, rfl⟩

variable {decls : List KernelDecl}

theorem actionDecls_of_decls (h : action.decls = .ok decls) : actionDecls action = decls := by
  cases action with
  | builtin name hash =>
    simp only [ImportedLoadAction.decls, Result.bind_eq_ok, Except.ok.injEq] at h
    obtain ⟨_, _, rfl⟩ := h
    rfl
  | declaration target =>
    simp only [ImportedLoadAction.decls, Result.bind_eq_ok, Except.ok.injEq] at h
    obtain ⟨decl, hdecl, rfl⟩ := h
    simp only [actionDecls, hdecl]

theorem rulesGiven_of_decls (h : action.decls = .ok decls) : ∀ decl ∈ decls, decl.RulesGiven := by
  intro decl mem
  cases action with
  | builtin name hash =>
    simp only [ImportedLoadAction.decls, Result.bind_eq_ok, Except.ok.injEq] at h
    obtain ⟨_, _, rfl⟩ := h
    simp only [referencedBuiltins, List.mem_append, List.mem_ite_nil_right,
      List.mem_singleton] at mem
    rcases mem with (⟨-, rfl⟩ | ⟨-, rfl⟩) | ⟨-, rfl⟩
    · trivial
    · trivial
    · trivial
  | declaration target =>
    simp only [ImportedLoadAction.decls, Result.bind_eq_ok, Except.ok.injEq] at h
    obtain ⟨_, hdecl, rfl⟩ := h
    cases List.mem_singleton.mp mem
    exact rulesGiven_of_entry hdecl

variable {run : VerifierRun} {X : Module} {available : List Module} {final env : Env}

/-- What the reference of an imported module was resolved to. -/
theorem loads_eq_ok {module : ModuleCert} (h : X.loads module ref = .ok action) :
    resolveImportedRef X.importCerts module ref = .ok (.leaf action) ∨
      ∃ target, resolveImportedRef X.importCerts module ref = .ok (.child target) ∧
        action = .declaration target := by
  simp only [Module.loads, Result.bind_eq_ok] at h
  obtain ⟨step, hstep, h⟩ := h
  cases step with
  | skip => cases h
  | leaf =>
    cases h
    exact .inl hstep
  | child target =>
    cases h
    exact .inr ⟨target, hstep, rfl⟩

/-- A reference of a declaration to itself is looked up under its interface hash. -/
theorem loads_self {module : ModuleCert} {declIndex : Nat}
    (self : ref.isSelf declIndex = true) (h : X.loads module ref = .ok action) :
    ∃ entry own, action = .declaration ⟨module, entry⟩ ∧ entry ∈ module.exportBlock ∧
      module.declarations[declIndex]? = some own ∧
        entry.declInterfaceHash = own.hashes.declInterfaceHash ∧
          module.globalRefName ref = .ok entry.name := by
  simp only [Module.loads, Result.bind_eq_ok] at h
  obtain ⟨step, hstep, h⟩ := h
  cases ref with
  | builtin | imported => cases self
  | «local» index =>
    simp only [GlobalRef.isSelf, decide_eq_true_eq] at self
    simp only [resolveImportedRef, Result.bind_eq_ok, Except.ok.injEq] at hstep
    obtain ⟨entry, hentry, rfl⟩ := hstep
    cases h
    obtain ⟨own, hown, mem, hname, hhash⟩ := exportEntryOfDecl_eq_ok hentry
    refine ⟨entry, own, rfl, mem, self ▸ hown, hhash, ?_⟩
    simp [ModuleCert.globalRefName, ModuleCert.declName, hown, hname]
  | localGenerated index name =>
    simp only [GlobalRef.isSelf, decide_eq_true_eq] at self
    simp only [resolveImportedRef, Result.bind_eq_ok, Except.ok.injEq] at hstep
    obtain ⟨entry, hentry, rfl⟩ := hstep
    cases h
    obtain ⟨own, hown, mem, rfl, hhash⟩ := exportEntryOfDecl_eq_ok hentry
    exact ⟨entry, own, rfl, mem, self ▸ hown, hhash, rfl⟩

/-- The declarations of a walk and of the builtins of `X` are identified by its references. -/
theorem requested_of_loadedDecls (checks : Checks run X available final)
    (agrees : RequestsAgree X) {identity : ModuleCert → List String}
    {plan : State (List String × Nat) (List ImportedLoadAction)}
    (hplan : visitRefs (loadGraph identity X.importCerts) record (loadDepth X.importCerts)
      (resolveRootRef X.importCerts) (rootRefs X.cert) [] = .ok plan)
    {builtinRefs : List String} (hrefs : referencedBuiltinsFromCert X.cert = .ok builtinRefs) :
    ∀ decl ∈ plan.acc.flatMap actionDecls ++ referencedBuiltins builtinRefs,
      ∃ name meaning decls, Requested X name meaning ∧ Names name meaning decls ∧ decl ∈ decls := by
  intro decl mem
  rcases List.mem_append.mp mem with mem | mem
  · obtain ⟨action, haction, hdecl⟩ := List.mem_flatMap.mp mem
    obtain ⟨⟨name, requested⟩, -⟩ := requested_of_offered checks (visitRefs_offered hplan action haction)
    obtain ⟨decls, names⟩ := agrees.named _ _ requested
    obtain ⟨key, _, hkey, hmeaning, hdecls, named⟩ := names
    cases hmeaning
    rw [actionDecls_of_decls hdecls] at hdecl
    exact ⟨name, _, decls, requested, ⟨key, _, hkey, rfl, hdecls, named⟩, hdecl⟩
  · obtain ⟨builtin, hbuiltin, hdecl⟩ := mem_referencedBuiltins.mp mem
    simp only [referencedBuiltinsFromCert, Result.bind_eq_ok, Except.ok.injEq] at hrefs
    obtain ⟨parts, hparts, rfl⟩ := hrefs
    obtain ⟨part, hpart, hbuiltin⟩ := List.mem_flatten.mp hbuiltin
    obtain ⟨ref, href, hresult⟩ := Result.collect_mem_right hparts hpart
    cases ref with
    | builtin name hash =>
      simp only [Result.bind_eq_ok, Except.ok.injEq] at hresult
      obtain ⟨_, _, rfl⟩ := hresult
      cases List.mem_singleton.mp hbuiltin
      have requested : Requested X (X.cert.globalRefName (.builtin builtin hash))
          (X.identify (.builtin builtin hash)) := .own href rfl
      obtain ⟨decls, names⟩ := agrees.named _ _ requested
      obtain ⟨key, action, hkey, hmeaning, hdecls, named⟩ := names
      cases hmeaning
      have same := actionDecls_of_decls hdecls
      refine ⟨_, _, decls, requested, ⟨key, _, hkey, rfl, hdecls, named⟩, ?_⟩
      rw [← same]
      exact hdecl
    | _ =>
      cases hresult
      cases hbuiltin

/-- What one run of the loader for `X` has done. -/
structure LoadRun (X : Module) (env : Env) (identity : ModuleCert → List String)
    (plan : State (List String × Nat) (List ImportedLoadAction)) (builtinRefs : List String) :
    Prop where
  exact_or_direct : identity ∈ [directIdentity, exactIdentity]
  walk : visitRefs (loadGraph identity X.importCerts) record (loadDepth X.importCerts)
    (resolveRootRef X.importCerts) (rootRefs X.cert) [] = .ok plan
  builtins : referencedBuiltinsFromCert X.cert = .ok builtinRefs
  loads : Loads (groupsOf (plan.acc.flatMap actionDecls ++ referencedBuiltins builtinRefs)) env.decl

section Run

variable {identity : ModuleCert → List String}
  {plan : State (List String × Nat) (List ImportedLoadAction)} {builtinRefs : List String}

/-- Without merged names the environment holds all that was loaded. -/
theorem LoadRun.holds (loadRun : LoadRun X env identity plan builtinRefs)
    (checks : Checks run X available final) (agrees : RequestsAgree X) :
    ∀ decl ∈ plan.acc.flatMap actionDecls ++ referencedBuiltins builtinRefs,
      HoldsUpTo SameDecl env.decl decl.group := by
  have standing := requested_of_loadedDecls checks agrees loadRun.walk loadRun.builtins
  have agree : ∀ decl ∈ plan.acc.flatMap actionDecls ++ referencedBuiltins builtinRefs,
      ∀ decl' ∈ plan.acc.flatMap actionDecls ++ referencedBuiltins builtinRefs,
        Agree SameDecl decl.group decl'.group := by
    intro decl mem decl' mem'
    obtain ⟨name, meaning, decls, requested, names, hdecl⟩ := standing decl mem
    obtain ⟨name', meaning', decls', requested', names', hdecl'⟩ := standing decl' mem'
    exact agrees.agree _ _ _ _ _ _ requested requested' names names' decl hdecl decl' hdecl'
  have rules : ∀ decl ∈ plan.acc.flatMap actionDecls ++ referencedBuiltins builtinRefs,
      decl.RulesGiven := by
    intro decl mem
    obtain ⟨_, _, decls, -, ⟨_, _, -, -, hdecls, -⟩, hdecl⟩ := standing decl mem
    exact rulesGiven_of_decls hdecls decl hdecl
  have faithful := loadRun.loads.faithful (R := SameDecl) (fun _ => rfl) ?_ ?_ ?_
  · intro decl mem
    exact faithful _ (List.mem_map.mpr ⟨decl, mem, rfl⟩)
  · intro group mem
    obtain ⟨decl, -, rfl⟩ := List.mem_map.mp mem
    exact decl.primary_mem
  · intro group mem group' mem'
    obtain ⟨decl, hdecl, rfl⟩ := List.mem_map.mp mem
    obtain ⟨decl', hdecl', rfl⟩ := List.mem_map.mp mem'
    exact agree decl hdecl decl' hdecl'
  · intro group mem group' mem'
    obtain ⟨decl, hdecl, rfl⟩ := List.mem_map.mp mem
    obtain ⟨decl', hdecl', rfl⟩ := List.mem_map.mp mem'
    exact determines_group (rules decl' hdecl') (agree decl hdecl decl hdecl)

/-- The declaration of a visited entry is among those that were loaded. -/
theorem LoadRun.mem_of_loaded (loadRun : LoadRun X env identity plan builtinRefs)
    (checks : Checks run X available final) (hashes : HashesIdentify X)
    (wellFormed : ∀ N ∈ X.imports, N.cert.WellFormed) (loaded : Loaded X target) {decl : KernelDecl}
    (form : target.module.certificateImportExportEntryToKernelDecl target.entry = .ok decl) :
    decl ∈ plan.acc.flatMap actionDecls ++ referencedBuiltins builtinRefs := by
  obtain ⟨⟨other, hother, same⟩, -⟩ :=
    loaded.done checks loadRun.exact_or_direct hashes wellFormed loadRun.walk
  refine List.mem_append_left _ (List.mem_flatMap.mpr ⟨_, hother, ?_⟩)
  simp only [actionDecls, ← same, form, List.mem_singleton]

/-- The declarations of an action of the walk are among those that were loaded. -/
theorem mem_of_decls (mem : action ∈ plan.acc) (h : action.decls = .ok decls) :
    ∀ decl ∈ decls,
      decl ∈ plan.acc.flatMap actionDecls ++ referencedBuiltins builtinRefs := by
  intro decl hdecl
  refine List.mem_append_left _ (List.mem_flatMap.mpr ⟨action, mem, ?_⟩)
  rwa [actionDecls_of_decls h]

/-- What the loader takes for a constant of an imported declaration was loaded. -/
theorem LoadRun.mem_of_loads (loadRun : LoadRun X env identity plan builtinRefs)
    (checks : Checks run X available final) (hashes : HashesIdentify X)
    (wellFormed : ∀ N ∈ X.imports, N.cert.WellFormed) {N : Module} (hN : N ∈ X.imports)
    (loaded : Loaded X target) (owner : target.module = N.cert)
    {terms : List Term} (hterms : target.terms = .ok terms) (href : ref ∈ terms.flatMap Term.refs)
    (names : Names (N.cert.globalRefName ref) (X.loads N.cert ref) decls) :
    ∀ decl ∈ decls,
      decl ∈ plan.acc.flatMap actionDecls ++ referencedBuiltins builtinRefs := by
  obtain ⟨key, action, hkey, hloads, hdecls, named⟩ := names
  obtain ⟨-, refs, hrefs, allDone⟩ :=
    loaded.done checks loadRun.exact_or_direct hashes wellFormed loadRun.walk
  obtain ⟨_, hterms', -, collected⟩ := mem_collected hrefs ref
  cases hterms.symm.trans hterms'
  rcases collected href with mem | ⟨family, declIndex, source, self⟩
  · obtain ⟨step, hstep, done⟩ := allDone ref mem
    rw [owner] at hstep
    rcases loads_eq_ok hloads with hleaf | ⟨next, hchild, rfl⟩
    · cases hleaf.symm.trans hstep
      exact mem_of_decls done hdecls
    · rw [← owner] at hchild
      have next := Loaded.step loaded hrefs mem hchild
      simp only [ImportedLoadAction.decls, Result.bind_eq_ok, Except.ok.injEq] at hdecls
      obtain ⟨decl, form, rfl⟩ := hdecls
      intro found hfound
      cases List.mem_singleton.mp hfound
      exact loadRun.mem_of_loaded checks hashes wellFormed next form
  · -- a reference of a family to itself is not followed, but it requested for the family
    obtain ⟨entry, own, rfl, hentry, hown, hhash, hname⟩ := loads_self self hloads
    cases hkey.symm.trans hname
    simp only [ImportedLoadAction.decls, Result.bind_eq_ok, Except.ok.injEq] at hdecls
    obtain ⟨decl, form, rfl⟩ := hdecls
    obtain ⟨_, hsingle, named⟩ := named
    cases List.mem_singleton.mp hsingle
    obtain ⟨i, own', hi, -, exported, imported⟩ := (wellFormed N hN).entry_named hentry form named
    have hhash' := (mem_declExports exported).2.2.1
    have same : i = declIndex := by
      have sameNames := hashes.interfaces N (List.mem_append_left _ hN) N
        (List.mem_append_left _ hN) own' (List.mem_of_getElem? hi) own
        (List.mem_of_getElem? hown) (hhash'.symm.trans hhash)
      exact (wellFormed N hN).index_of_primaryName hi hown sameNames.1
    subst same
    cases hi.symm.trans hown
    obtain ⟨module, targetEntry⟩ := target
    cases owner
    obtain ⟨found, hfound, -, hform, -⟩ := (wellFormed N hN).entry_of_source loaded.mem.2 source
    cases hi.symm.trans hfound
    intro decl' hdecl'
    cases List.mem_singleton.mp hdecl'
    exact loadRun.mem_of_loaded checks hashes wellFormed loaded (hform.trans imported)

/-- What is loaded for a constant was loaded. -/
theorem LoadRun.mem_of_requested (loadRun : LoadRun X env identity plan builtinRefs)
    (checks : Checks run X available final) (hashes : HashesIdentify X)
    (wellFormed : ∀ N ∈ X.imports, N.cert.WellFormed) {name : CertResult String}
    {meaning : CertResult ImportedLoadAction} (requested : Requested X name meaning)
    (names : Names name meaning decls) :
    ∀ decl ∈ decls,
      decl ∈ plan.acc.flatMap actionDecls ++ referencedBuiltins builtinRefs := by
  cases requested with
  | loader hN loaded owner hterms href =>
    exact loadRun.mem_of_loads checks hashes wellFormed hN loaded owner hterms href names
  | @own ref mem outside =>
    obtain ⟨-, rootsDone⟩ := visitRefs_complete loadRun.walk
    obtain ⟨step, hstep, done⟩ := rootsDone ref ((checks.mem_rootRefs outside).mpr mem)
    obtain ⟨_, action, -, hidentify, hdecls, -⟩ := names
    intro decl hdecl
    rcases resolveRootRef_eq_ok hstep with ⟨isLocal, -⟩ | ⟨-, ⟨_, _, rfl, rfl⟩ |
      ⟨_, target, href, rfl, hentry⟩⟩
    · cases outside.symm.trans isLocal
    · cases hidentify
      exact mem_of_decls done hdecls decl hdecl
    · have loaded := Loaded.root ((checks.mem_rootRefs outside).mpr mem) hstep
      rw [href] at hidentify hentry
      simp only [Module.identify, hentry, bind, Except.bind, Except.ok.injEq] at hidentify
      subst hidentify
      simp only [ImportedLoadAction.decls, Result.bind_eq_ok, Except.ok.injEq] at hdecls
      obtain ⟨_, form, rfl⟩ := hdecls
      cases List.mem_singleton.mp hdecl
      exact loadRun.mem_of_loaded checks hashes wellFormed loaded form

end Run
end LoadRun

end NpaCore.Certificate
