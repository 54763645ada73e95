import NpaCore.Wire.LocalTransparency

/-!
# Dependencies on implementations

The builder completes the closure of a declaration with the hashes of its definitions and
records the entries. The verifier checks the recorded entries, computes the closure again and
compares, before it checks the hashes of the interfaces.

## Main results

* `expectedDependenciesForDecl_eq`: the verifier comes to the dependencies of the builder, with
  the same budget, and only the hashes of interfaces are left to check.
* `recordsImplementation_iff`: what passes the checks records the reached definitions.
* `localTransparency_exact`: both sides record and demand the same definitions.
-/

namespace NpaCore.Wire

open NpaCore.Result NpaCore.OrderedMap NpaCore.Exploration

/-! ### The entries of the builder -/

/-- `DependencyEntry::checked_local_implementation`. -/
def checkedLocalImplementation (current : Nat) (declarations : List DeclCert) (declIndex : Id) :
    CertResult DependencyEntry := do
  Result.ensure (declIndex.toNat < current) (.dependencyCycle (localName declIndex))
  let target ← Result.okOr declarations[declIndex.toNat]? .decodeError
  Result.ensure (isOpaqueDefinition target.decl) .decodeError
  .ok (.localImplementation (.local declIndex) target.hashes.declInterfaceHash
    target.hashes.declCertificateHash)

def completeLocalTransparencyDependencies (closure : LocalTransparencyDependencies)
    (current : Nat) (declarations : List DeclCert) : CertResult (List DependencyEntry) :=
  Result.foldEach closure.opaqueDefinitionIndices
    (ofList DependencyEntry.cmp closure.interfaceDependencies) fun dependencies declIndex => do
      let entry ← checkedLocalImplementation current declarations declIndex
      .ok (insertKey DependencyEntry.cmp entry dependencies)

/-! ### The checks of the verifier -/

/-- The check of one entry on an implementation, with the index that it names. -/
def validateLocalImplementationEntry (current : Nat) (declarations : List DeclCert)
    (ref : GlobalRef) (interfaceHash certificateHash : Hash) : CertResult Id :=
  match ref with
  | .local declIndex => do
    let target ← Result.okOr declarations[declIndex.toNat]?
      (.invalidLocalImplementationDependency current ref .targetNotEarlier)
    Result.ensure (declIndex.toNat < current)
      (.invalidLocalImplementationDependency current ref .targetNotEarlier)
    Result.ensure (isOpaqueDefinition target.decl)
      (.invalidLocalImplementationDependency current ref .targetNotOpaque)
    Result.ensure (interfaceHash == target.hashes.declInterfaceHash)
      (.invalidLocalImplementationDependency current ref .interfaceHashMismatch)
    Result.ensure (certificateHash == target.hashes.declCertificateHash)
      (.invalidLocalImplementationDependency current ref .certificateHashMismatch)
    .ok declIndex
  | _ => .error (.invalidLocalImplementationDependency current ref .wrongReferenceKind)

/-- One turn of `validate_local_implementation_entries`. -/
def collectImplementation (current : Nat) (declarations : List DeclCert) (actual : List Id) :
    DependencyEntry → CertResult (List Id)
  | .interface _ _ => .ok actual
  | .localImplementation ref interfaceHash certificateHash => do
    let declIndex ← validateLocalImplementationEntry current declarations ref interfaceHash
      certificateHash
    .ok (insertKey compare declIndex actual)

def validateLocalImplementationEntries (current : Nat) (dependencies : List DependencyEntry)
    (declarations : List DeclCert) : CertResult (List Id) :=
  Result.foldEach dependencies [] (collectImplementation current declarations)

def validateLocalImplementationClosure (current : Nat) (actual expected : List Id) :
    CertResult Unit :=
  match expected.find? fun declIndex => !actual.contains declIndex with
  | some declIndex => .error (.invalidLocalImplementationDependency current (.local declIndex)
      .missingImplementationDependency)
  | none =>
    match actual.find? fun declIndex => !expected.contains declIndex with
    | some declIndex => .error (.invalidLocalImplementationDependency current (.local declIndex)
        .surplusImplementationDependency)
    | none => .ok ()

/-- `local_generated_entry_exists`, of a declaration that is there. -/
def localGeneratedEntryExists (name : Id) : DeclPayload → Bool
  | .inductiveDecl _ _ _ _ _ constructors recursor
  | .inductiveConstrained _ _ _ _ _ _ constructors recursor =>
    constructors.any (·.name == name) || recursor.any (·.name == name)
  | .mutualInductiveBlock _ _ _ inductives => inductives.any fun member =>
    member.name == name || member.constructors.any (·.name == name) ||
      member.recursor.any (·.name == name)
  | _ => false

/-- `imported_export_entry_for_global_ref`, with the certificates that the imports are views of. -/
def importedExportEntry (nameTable : List Name) (imports : List ModuleCert) (importIndex name : Id)
    (hash : Hash) : CertResult ExportEntry := do
  let imported ← Result.okOr imports[importIndex.toNat]? .decodeError
  let wanted ← checkedChild nameTable name
  Result.okOr
    (imported.exportBlock.find? fun entry =>
      imported.nameTable[entry.name.toNat]? == some wanted && entry.declInterfaceHash == hash)
    (.importHashMismatch imported.header.module)

def interfaceHashForGlobalRef (sha256 : Bytes → Hash) (cert : ModuleCert)
    (imports : List ModuleCert) (current : Nat) : GlobalRef → CertResult Hash
  | .builtin name hash => do
    let name ← checkedChild cert.nameTable name
    Result.ensure (builtinDeclInterfaceHash sha256 name == some hash) (.unknownDependency name)
    .ok hash
  | .local declIndex => do
    Result.ensure (declIndex.toNat < current) (.dependencyCycle (localName declIndex))
    let declaration ← Result.okOr cert.declarations[declIndex.toNat]? .decodeError
    .ok declaration.hashes.declInterfaceHash
  | .localGenerated declIndex name => do
    Result.ensure (declIndex.toNat < current)
      (.dependencyCycle (cert.nameTable[name.toNat]?.getD (localName declIndex)))
    let declaration ← Result.okOr cert.declarations[declIndex.toNat]? .decodeError
    if localGeneratedEntryExists name declaration.decl then .ok declaration.hashes.declInterfaceHash
    else do
      let name ← checkedChild cert.nameTable name
      .error (.unknownDependency name)
  | .imported importIndex name hash => do
    let entry ← importedExportEntry cert.nameTable imports importIndex name hash
    let imported ← Result.okOr imports[importIndex.toNat]? .decodeError
    Result.ensure (entry.declInterfaceHash == hash) (.importHashMismatch imported.header.module)
    .ok hash

def DependencyEntry.declInterfaceHash : DependencyEntry → Hash
  | .interface _ hash | .localImplementation _ hash _ => hash

/-- The loop of `expected_dependencies_for_decl_with_budget` over the interfaces. -/
def verifyInterfaceHashes (sha256 : Bytes → Hash) (cert : ModuleCert) (imports : List ModuleCert)
    (current : Nat) (dependencies : List DependencyEntry) : CertResult Unit :=
  Result.forEach dependencies fun dependency => do
    let expected ← interfaceHashForGlobalRef sha256 cert imports current dependency.globalRef
    Result.ensure (dependency.declInterfaceHash == expected)
      (.hashMismatch .declInterface dependency.declInterfaceHash expected)

/-- `expected_dependencies_for_decl_with_budget`, with the budget that is left. -/
def expectedDependenciesForDecl (sha256 : Bytes → Hash) (cert : ModuleCert)
    (imports : List ModuleCert) (current : Nat) (decl : DeclPayload) (budget : Nat) :
    CertResult (List DependencyEntry × Nat) := do
  let declaration ← Result.okOr cert.declarations[current]? .decodeError
  let actual ← validateLocalImplementationEntries current declaration.dependencies
    cert.declarations
  let computed ← localTransparencyDependencies current decl cert.declarations cert.termTable budget
  validateLocalImplementationClosure current actual computed.1.opaqueDefinitionIndices
  verifyInterfaceHashes sha256 cert imports current computed.1.interfaceDependencies
  let dependencies ← completeLocalTransparencyDependencies computed.1 current cert.declarations
  .ok (dependencies, computed.2)

/-! ### The checks of the entries -/

variable {dependencies : List DependencyEntry} {imports : List ModuleCert} {ref : GlobalRef}

variable {root : DeclPayload} {cert : ModuleCert} {interfaceHash certificateHash : Hash}

variable {declaration : DeclCert} {budget : Nat}

section Entries

variable {current : Nat} {declarations : List DeclCert}

/-- The implementations that a list of entries records. -/
def RecordsImplementation (dependencies : List DependencyEntry) (declIndex : Id) : Prop :=
  ∃ interfaceHash certificateHash,
    .localImplementation (.local declIndex) interfaceHash certificateHash ∈ dependencies

theorem validateLocalImplementationEntry_local {declIndex : Id}
    (h : validateLocalImplementationEntry current declarations ref interfaceHash certificateHash =
      .ok declIndex) : ref = .local declIndex := by
  cases ref with
  | «local» other =>
    simp only [validateLocalImplementationEntry, bind_eq_ok] at h
    obtain ⟨_, _, _, _, _, _, _, _, _, _, same⟩ := h
    cases same
    rfl
  | _ => cases h

/-- The entries that pass, and the implementations that they name. -/
theorem validateLocalImplementationEntries_spec {actual final : List Id}
    (h : Result.foldEach dependencies actual (collectImplementation current declarations) =
      .ok final) (declIndex : Id) :
    declIndex ∈ final ↔ declIndex ∈ actual ∨ RecordsImplementation dependencies declIndex := by
  induction dependencies generalizing actual with
  | nil =>
    cases h
    simp [RecordsImplementation]
  | cons entry rest ih =>
    obtain ⟨next, step, h⟩ := bind_eq_ok.mp h
    rw [ih h]
    cases entry with
    | interface ref hash =>
      cases step
      simp [RecordsImplementation]
    | localImplementation ref interfaceHash certificateHash =>
      obtain ⟨found, valid, same⟩ := bind_eq_ok.mp step
      cases same
      obtain rfl := validateLocalImplementationEntry_local valid
      rw [mem_insertKey fun _ _ => Std.LawfulEqOrd.eq_of_compare]
      constructor
      · rintro ((rfl | old) | ⟨_, _, later⟩)
        · exact .inr ⟨_, _, List.mem_cons_self⟩
        · exact .inl old
        · exact .inr ⟨_, _, List.mem_cons_of_mem _ later⟩
      · rintro (old | ⟨_, _, mem⟩)
        · exact .inl (.inr old)
        · rcases List.mem_cons.mp mem with same | later
          · cases same
            exact .inl (.inl rfl)
          · exact .inr ⟨_, _, later⟩

theorem validateLocalImplementationEntries_isOk (valid : ∀ ref interfaceHash certificateHash,
      .localImplementation ref interfaceHash certificateHash ∈ dependencies →
      ∃ declIndex, validateLocalImplementationEntry current declarations ref interfaceHash
        certificateHash = .ok declIndex) (actual : List Id) :
    ∃ final, Result.foldEach dependencies actual (collectImplementation current declarations) =
      .ok final := by
  induction dependencies generalizing actual with
  | nil => exact ⟨actual, rfl⟩
  | cons entry rest ih =>
    have later := ih fun ref i c mem => valid ref i c (List.mem_cons_of_mem _ mem)
    cases entry with
    | interface ref hash => exact later actual
    | localImplementation ref interfaceHash certificateHash =>
      obtain ⟨declIndex, passes⟩ := valid ref interfaceHash certificateHash List.mem_cons_self
      obtain ⟨final, h⟩ := later (insertKey compare declIndex actual)
      refine ⟨final, ?_⟩
      rw [Result.foldEach, collectImplementation, passes, ok_bind, ok_bind]
      exact h

/-- The check of the closure passes when the two sets are equal. -/
theorem validateLocalImplementationClosure_eq_ok {actual expected : List Id} {u : Unit} :
    validateLocalImplementationClosure current actual expected = .ok u ↔
      ∀ declIndex, declIndex ∈ actual ↔ declIndex ∈ expected := by
  rw [validateLocalImplementationClosure]
  constructor
  · intro h declIndex
    split at h
    next => cases h
    next noneMissing =>
      split at h
      next => cases h
      next noneSurplus =>
        have missing := List.find?_eq_none.mp noneMissing declIndex
        have surplus := List.find?_eq_none.mp noneSurplus declIndex
        constructor
        · intro mem
          simpa using surplus mem
        · intro mem
          simpa using missing mem
  · intro same
    have noneMissing : expected.find? (fun declIndex => !actual.contains declIndex) = none := by
      apply List.find?_eq_none.mpr
      intro declIndex mem
      simpa using (same declIndex).mpr mem
    have noneSurplus : actual.find? (fun declIndex => !expected.contains declIndex) = none := by
      apply List.find?_eq_none.mpr
      intro declIndex mem
      simpa using (same declIndex).mp mem
    rw [noneMissing]
    dsimp only
    rw [noneSurplus]

/-- What the verifier lets pass records the reached opaque definitions and no others. -/
theorem recordsImplementation_iff {sha256 : Bytes → Hash}
    {expected : List DependencyEntry × Nat} (here : cert.declarations[current]? = some declaration)
    (passes : expectedDependenciesForDecl sha256 cert imports current root budget = .ok expected)
    (declIndex : Id) :
    RecordsImplementation declaration.dependencies declIndex ↔
      ReachedOpaque cert.declarations cert.termTable current root declIndex := by
  obtain ⟨found, found_ok, passes⟩ := bind_eq_ok.mp passes
  rw [okOr_eq_ok, here] at found_ok
  cases found_ok
  obtain ⟨actual, actual_ok, passes⟩ := bind_eq_ok.mp passes
  obtain ⟨⟨closure, paid⟩, closure_ok, passes⟩ := bind_eq_ok.mp passes
  obtain ⟨_, same, _⟩ := bind_eq_ok.mp passes
  have recorded := validateLocalImplementationEntries_spec actual_ok declIndex
  have equal := validateLocalImplementationClosure_eq_ok.mp same declIndex
  rw [← opaqueDefinitionIndices_eq closure_ok, ← equal, recorded]
  simp

end Entries

/-! ### The builder and the verifier -/

section Prefix

variable {declarations : List DeclCert} {table : List TermNode} {current : Nat}

/-- The builder knows the declarations before the current one, and no others are looked at. -/
theorem closeLocalReferences_take (pending : PendingDecls current)
    (visited : List (Earlier current)) (found : List Id) (budget : ScanBudget) :
    closeLocalReferences (declarations.take current) table current pending visited found budget =
      closeLocalReferences declarations table current pending visited found budget := by
  fun_induction closeLocalReferences declarations table current pending visited found budget with
  | case1 visited found budget => rw [closeLocalReferences]
  | case2 declIndex depth pending visited found budget old ih =>
    rw [closeLocalReferences, dif_pos old, ih]
  | case3 declIndex depth pending visited found budget new missing ih =>
    have there : (declarations.take current)[declIndex.1.toNat]? = none := by
      rw [List.getElem?_take_of_lt declIndex.2, missing]
    rw [closeLocalReferences, dif_neg new, there, ih]
  | case4 declIndex depth pending visited found budget new declaration here ih =>
    have there : (declarations.take current)[declIndex.1.toNat]? = some declaration := by
      rw [List.getElem?_take_of_lt declIndex.2, here]
    rw [closeLocalReferences, dif_neg new, there]
    apply bind_congr
    exact ih

theorem interfaceHashForReference_take {hash : Hash}
    (h : interfaceHashForReference (declarations.take current) ref = .ok hash) :
    interfaceHashForReference declarations ref = .ok hash := by
  cases ref with
  | builtin _ _ | imported _ _ _ => exact h
  | «local» declIndex | localGenerated declIndex _ =>
    simp only [interfaceHashForReference, okOr_eq_ok, Option.map_eq_some_iff] at h ⊢
    obtain ⟨declaration, there, same⟩ := h
    exact ⟨declaration, getElem?_of_take there, same⟩

theorem localTransparencyDependencies_take {computed : LocalTransparencyDependencies × Nat}
    (h : localTransparencyDependencies current root (declarations.take current) table budget =
      .ok computed) :
    localTransparencyDependencies current root declarations table budget = .ok computed := by
  obtain ⟨scanned, scanned_ok, h⟩ := bind_eq_ok.mp h
  obtain ⟨closed, closed_ok, h⟩ := bind_eq_ok.mp h
  obtain ⟨interfaces, interfaces_ok, same⟩ := bind_eq_ok.mp h
  cases same
  rw [closeLocalReferences_take] at closed_ok
  have interfaces_ok' : Result.collect (((directRefs current root scanned.1).map Prod.fst).filter
      fun ref => !ref.isLocalIn closed.1) (fun ref => do
        let hash ← interfaceHashForReference declarations ref
        checkedInterface ref hash) = .ok interfaces := by
    rw [collect_eq_ok] at interfaces_ok ⊢
    refine interfaces_ok.imp fun ref entry step => ?_
    obtain ⟨hash, hash_ok, entry_ok⟩ := bind_eq_ok.mp step
    exact bind_eq_ok.mpr ⟨hash, interfaceHashForReference_take hash_ok, entry_ok⟩
  rw [localTransparencyDependencies, scanned_ok, ok_bind]
  dsimp only
  rw [closed_ok, ok_bind, interfaces_ok', ok_bind]

theorem checkedLocalImplementation_take (declIndex : Id) :
    checkedLocalImplementation current (declarations.take current) declIndex =
      checkedLocalImplementation current declarations declIndex := by
  rw [checkedLocalImplementation, checkedLocalImplementation]
  by_cases earlier : declIndex.toNat < current
  · rw [List.getElem?_take_of_lt earlier]
  · simp [Result.ensure, earlier, error_bind]

theorem completeLocalTransparencyDependencies_take (closure : LocalTransparencyDependencies) :
    completeLocalTransparencyDependencies closure current (declarations.take current) =
      completeLocalTransparencyDependencies closure current declarations := by
  simp only [completeLocalTransparencyDependencies, checkedLocalImplementation_take]

/-- The entries of the builder: those on interfaces, and one for each implementation. -/
theorem mem_foldEach_implementations {indices : List Id} {entries final : List DependencyEntry}
    (h : (Result.foldEach indices entries fun dependencies declIndex => do
      let entry ← checkedLocalImplementation current declarations declIndex
      .ok (insertKey DependencyEntry.cmp entry dependencies)) = .ok final)
    (entry : DependencyEntry) :
    entry ∈ final ↔ entry ∈ entries ∨
      ∃ declIndex ∈ indices, checkedLocalImplementation current declarations declIndex = .ok entry := by
  induction indices generalizing entries with
  | nil =>
    cases h
    simp
  | cons declIndex rest ih =>
    obtain ⟨next, step, h⟩ := bind_eq_ok.mp h
    obtain ⟨first, first_ok, same⟩ := bind_eq_ok.mp step
    cases same
    rw [ih h, mem_insertKey DependencyEntry.cmp_lawful, List.exists_mem_cons_iff, first_ok,
      Except.ok.injEq, eq_comm, or_assoc, or_left_comm]

theorem checkedLocalImplementation_eq_ok {declIndex : Id} {entry : DependencyEntry} :
    checkedLocalImplementation current declarations declIndex = .ok entry ↔
      declIndex.toNat < current ∧ ∃ target, declarations[declIndex.toNat]? = some target ∧
        isOpaqueDefinition target.decl = true ∧
        entry = .localImplementation (.local declIndex) target.hashes.declInterfaceHash
          target.hashes.declCertificateHash := by
  simp only [checkedLocalImplementation, bind_eq_ok, ensure_eq_ok, okOr_eq_ok, decide_eq_true_eq,
    Except.ok.injEq]
  constructor
  · rintro ⟨_, earlier, target, there, _, isOpaque, rfl⟩
    exact ⟨earlier, target, there, isOpaque, rfl⟩
  · rintro ⟨earlier, target, there, isOpaque, rfl⟩
    exact ⟨(), earlier, target, there, (), isOpaque, rfl⟩

/-- An entry of the builder passes the check of the verifier. -/
theorem validateLocalImplementationEntry_of_checked {declIndex : Id} {entry : DependencyEntry}
    (checked : checkedLocalImplementation current declarations declIndex = .ok entry)
    (same : entry = .localImplementation ref interfaceHash certificateHash) :
    validateLocalImplementationEntry current declarations ref interfaceHash certificateHash =
      .ok declIndex := by
  obtain ⟨earlier, target, there, isOpaque, rfl⟩ := checkedLocalImplementation_eq_ok.mp checked
  cases same
  simp [validateLocalImplementationEntry, there, earlier, isOpaque, Result.okOr, Result.ensure,
    ok_bind]

variable {closure : LocalTransparencyDependencies}

/-- The entries that the closure makes are entries on interfaces. -/
theorem interfaceDependencies_interface {budget paid : Nat}
    (computed : localTransparencyDependencies current root declarations table budget =
      .ok (closure, paid)) :
    ∀ entry ∈ closure.interfaceDependencies, ∃ ref hash, entry = .interface ref hash := by
  obtain ⟨scanned, _, computed⟩ := bind_eq_ok.mp computed
  obtain ⟨closed, _, computed⟩ := bind_eq_ok.mp computed
  obtain ⟨interfaces, interfaces_ok, same⟩ := bind_eq_ok.mp computed
  cases same
  intro entry mem
  obtain ⟨ref, _, step⟩ := collect_mem_right interfaces_ok mem
  obtain ⟨hash, _, checked⟩ := bind_eq_ok.mp step
  cases ref with
  | builtin _ _ | imported _ _ _ =>
    obtain ⟨_, _, same⟩ := bind_eq_ok.mp checked
    cases same
    exact ⟨_, _, rfl⟩
  | «local» _ | localGenerated _ _ =>
    cases checked
    exact ⟨_, _, rfl⟩

/-- Every implementation that the builder records was checked, for a definition of the closure. -/
theorem implementation_of_complete {budget paid : Nat}
    (computed : localTransparencyDependencies current root declarations table budget =
      .ok (closure, paid))
    (completed : completeLocalTransparencyDependencies closure current declarations =
      .ok dependencies)
    (mem : .localImplementation ref interfaceHash certificateHash ∈ dependencies) :
    ∃ declIndex ∈ closure.opaqueDefinitionIndices,
      checkedLocalImplementation current declarations declIndex =
        .ok (.localImplementation ref interfaceHash certificateHash) := by
  rcases (mem_foldEach_implementations completed _).mp mem with interface | found
  · rw [mem_ofList DependencyEntry.cmp_lawful] at interface
    obtain ⟨_, _, same⟩ := interfaceDependencies_interface computed _ interface
    cases same
  · exact found

/-- The builder records the definitions of the closure. -/
theorem recordsImplementation_of_complete {budget paid : Nat}
    (computed : localTransparencyDependencies current root declarations table budget =
      .ok (closure, paid))
    (completed : completeLocalTransparencyDependencies closure current declarations =
      .ok dependencies) (declIndex : Id) :
    RecordsImplementation dependencies declIndex ↔
      declIndex ∈ closure.opaqueDefinitionIndices := by
  constructor
  · rintro ⟨interfaceHash, certificateHash, mem⟩
    obtain ⟨found, at_found, checked⟩ := implementation_of_complete computed completed mem
    obtain ⟨_, _, _, _, same⟩ := checkedLocalImplementation_eq_ok.mp checked
    cases same
    exact at_found
  · intro mem
    obtain ⟨⟨reached, rfl, _⟩, target, there, isOpaque⟩ :=
      (opaqueDefinitionIndices_eq computed declIndex).mp mem
    have checked := checkedLocalImplementation_eq_ok.mpr ⟨reached.2, target, there, isOpaque, rfl⟩
    exact ⟨_, _, (mem_foldEach_implementations completed _).mpr (.inr ⟨_, mem, checked⟩)⟩

/-- Where the builder recorded its own dependencies, the verifier comes to the same ones with
    the same budget, and only the hashes of interfaces are left to check. -/
theorem expectedDependenciesForDecl_eq {sha256 : Bytes → Hash} {budget paid : Nat}
    (here : cert.declarations[current]? = some declaration)
    (computed : localTransparencyDependencies current declaration.decl
      (cert.declarations.take current) cert.termTable budget = .ok (closure, paid))
    (completed : completeLocalTransparencyDependencies closure current
      (cert.declarations.take current) = .ok declaration.dependencies) :
    expectedDependenciesForDecl sha256 cert imports current declaration.decl budget = (do
      verifyInterfaceHashes sha256 cert imports current closure.interfaceDependencies
      .ok (declaration.dependencies, paid)) := by
  have computed' := localTransparencyDependencies_take computed
  have completed' := completed
  rw [completeLocalTransparencyDependencies_take] at completed'
  obtain ⟨actual, actual_ok⟩ : ∃ actual, validateLocalImplementationEntries current
      declaration.dependencies cert.declarations = .ok actual := by
    apply validateLocalImplementationEntries_isOk
    intro ref interfaceHash certificateHash mem
    obtain ⟨declIndex, _, checked⟩ := implementation_of_complete computed' completed' mem
    exact ⟨declIndex, validateLocalImplementationEntry_of_checked checked rfl⟩
  have equal : validateLocalImplementationClosure current actual closure.opaqueDefinitionIndices =
      .ok () := by
    apply validateLocalImplementationClosure_eq_ok.mpr
    intro declIndex
    rw [validateLocalImplementationEntries_spec actual_ok declIndex,
      recordsImplementation_of_complete computed' completed']
    simp
  rw [expectedDependenciesForDecl, here]
  simp only [Result.okOr, ok_bind, actual_ok, computed', equal, completed']

end Prefix

/-! ### Whole modules -/

section Modules

variable (finish : List DeclCert → DeclPayload → List DependencyEntry →
  CertResult (List AxiomRef × DeclHashes)) (sha256 : Bytes → Hash)

/-- The loop of the builder over `finalize_canon_decl`. The axioms and the hashes of a
    declaration are computed from the dependencies once these are final. -/
def finalizeDeclarations (table : List TermNode) :
    List DeclPayload → List DeclCert → Nat → CertResult (List DeclCert)
  | [], declarations, _ => .ok declarations
  | decl :: rest, declarations, budget => do
    let computed ← localTransparencyDependencies declarations.length decl declarations table budget
    let dependencies ← completeLocalTransparencyDependencies computed.1 declarations.length
      declarations
    let finished ← finish declarations decl dependencies
    finalizeDeclarations table rest
      (declarations ++ [⟨decl, dependencies, finished.1, finished.2⟩]) computed.2

/-- One turn of `verify_dependencies_and_axioms`, without the axioms. -/
def verifyDeclDependencies (cert : ModuleCert) (imports : List ModuleCert) (budget : Nat)
    (entry : DeclCert × Nat) : CertResult Nat := do
  let expected ← expectedDependenciesForDecl sha256 cert imports entry.2 entry.1.decl budget
  if expected.1 = entry.1.dependencies then .ok expected.2
  else do
    let name ← checkedChild cert.nameTable (declNameId entry.1.decl)
    .error (.axiomReportMismatch (some name))

/-- `verify_dependencies_and_axioms`, without the axioms. -/
def verifyDependencies (cert : ModuleCert) (imports : List ModuleCert) : CertResult Nat :=
  Result.foldEach cert.declarations.zipIdx 0 (verifyDeclDependencies sha256 cert imports)

variable {finish sha256} {payloads : List DeclPayload} {declarations built : List DeclCert}

variable {table : List TermNode}

theorem finalizeDeclarations_extends
    (h : finalizeDeclarations finish table payloads declarations budget = .ok built) :
    ∃ rest, built = declarations ++ rest := by
  induction payloads generalizing declarations budget with
  | nil =>
    cases h
    exact ⟨[], by simp⟩
  | cons decl payloads ih =>
    obtain ⟨_, _, h⟩ := bind_eq_ok.mp h
    obtain ⟨_, _, h⟩ := bind_eq_ok.mp h
    obtain ⟨_, _, h⟩ := bind_eq_ok.mp h
    obtain ⟨rest, rfl⟩ := ih h
    exact ⟨_, List.append_assoc _ _ _⟩

/-- The declarations after `declarations`, with what the builder computed for each. -/
theorem finalizeDeclarations_step {decl : DeclPayload}
    (h : finalizeDeclarations finish table (decl :: payloads) declarations budget = .ok built) :
    ∃ declaration rest closure paid, built = declarations ++ declaration :: rest ∧
      declaration.decl = decl ∧
      localTransparencyDependencies declarations.length decl declarations table budget =
        .ok (closure, paid) ∧
      completeLocalTransparencyDependencies closure declarations.length declarations =
        .ok declaration.dependencies ∧
      finalizeDeclarations finish table payloads (declarations ++ [declaration]) paid =
        .ok built := by
  obtain ⟨⟨closure, paid⟩, computed, h⟩ := bind_eq_ok.mp h
  obtain ⟨dependencies, completed, h⟩ := bind_eq_ok.mp h
  obtain ⟨finished, _, h⟩ := bind_eq_ok.mp h
  obtain ⟨rest, same⟩ := finalizeDeclarations_extends h
  refine ⟨_, rest, closure, paid, ?_, rfl, computed, completed, h⟩
  rw [same, List.append_assoc]
  rfl

variable {reason : LocalImplementationDependencyErrorReason}

/-- The comparison of interface hashes has errors of its own. -/
theorem interfaceHashForGlobalRef_avoids {current declIndex : Nat} (target : GlobalRef) :
    Result.Avoids (.invalidLocalImplementationDependency declIndex ref reason)
      (interfaceHashForGlobalRef sha256 cert imports current target) := by
  cases target with
  | builtin name hash =>
    apply avoids_bind
    · exact avoids_okOr nofun
    · intro name _
      apply avoids_bind
      · exact avoids_ensure nofun
      · exact fun _ _ => avoids_ok
  | imported importIndex name hash =>
    apply avoids_bind
    · apply avoids_bind
      · exact avoids_okOr nofun
      · intro imported _
        apply avoids_bind
        · exact avoids_okOr nofun
        · exact fun _ _ => avoids_okOr nofun
    · intro entry _
      apply avoids_bind
      · exact avoids_okOr nofun
      · intro imported _
        apply avoids_bind
        · exact avoids_ensure nofun
        · exact fun _ _ => avoids_ok
  | «local» target =>
    apply avoids_bind
    · exact avoids_ensure nofun
    · intro _ _
      apply avoids_bind
      · exact avoids_okOr nofun
      · exact fun _ _ => avoids_ok
  | localGenerated target name =>
    apply avoids_bind
    · exact avoids_ensure nofun
    · intro _ _
      apply avoids_bind
      · exact avoids_okOr nofun
      · intro declaration _
        split
        · exact avoids_ok
        · apply avoids_bind
          · exact avoids_okOr nofun
          · exact fun _ _ => avoids_error nofun

theorem verifyInterfaceHashes_avoids {current declIndex : Nat}
    (dependencies : List DependencyEntry) :
    Result.Avoids (.invalidLocalImplementationDependency declIndex ref reason)
      (verifyInterfaceHashes sha256 cert imports current dependencies) := by
  apply avoids_forEach
  intro dependency _
  apply avoids_bind (interfaceHashForGlobalRef_avoids dependency.globalRef)
  exact fun _ _ => avoids_ensure nofun

theorem verifyDependencies_avoids_from {declarations rest : List DeclCert}
    (h : finalizeDeclarations finish cert.termTable payloads declarations budget =
      .ok cert.declarations) (split : cert.declarations = declarations ++ rest) {declIndex : Nat} :
    Result.Avoids (.invalidLocalImplementationDependency declIndex ref reason)
      (Result.foldEach (rest.zipIdx declarations.length) budget
        (verifyDeclDependencies sha256 cert imports)) := by
  induction payloads generalizing declarations rest budget with
  | nil =>
    obtain rfl : declarations = cert.declarations := by
      cases h
      rfl
    obtain rfl : rest = [] := by simpa using split
    exact avoids_ok
  | cons decl payloads ih =>
    obtain ⟨declaration, rest', closure, paid, built, rfl, computed, completed, h⟩ :=
      finalizeDeclarations_step h
    obtain rfl : rest = declaration :: rest' := by
      rw [built] at split
      exact (List.append_cancel_left split).symm
    have before : cert.declarations.take declarations.length = declarations := by
      rw [built, List.take_left]
    have here : cert.declarations[declarations.length]? = some declaration := by
      rw [built]
      simp
    have passes : expectedDependenciesForDecl sha256 cert imports declarations.length
        declaration.decl budget = _ :=
      expectedDependenciesForDecl_eq here (by rwa [before]) (by rwa [before])
    have next : cert.declarations = (declarations ++ [declaration]) ++ rest' := by
      rw [built, List.append_assoc]
      rfl
    have later := ih h next
    rw [List.length_append, List.length_singleton] at later
    rw [List.zipIdx_cons, Result.foldEach]
    apply avoids_bind
    · apply avoids_bind
      · rw [passes]
        exact avoids_bind (verifyInterfaceHashes_avoids _) fun _ _ => avoids_ok
      · intro expected expected_ok
        rw [passes] at expected_ok
        obtain ⟨_, _, same⟩ := bind_eq_ok.mp expected_ok
        cases same
        rw [if_pos rfl]
        exact avoids_ok
    · intro next next_ok
      obtain ⟨expected, expected_ok, next_ok⟩ := bind_eq_ok.mp next_ok
      dsimp only at expected_ok
      rw [passes] at expected_ok
      obtain ⟨_, _, same⟩ := bind_eq_ok.mp expected_ok
      cases same
      rw [if_pos rfl] at next_ok
      cases next_ok
      exact later

/-- What the builder computed for each declaration. -/
theorem finalizeDeclarations_computed
    (h : finalizeDeclarations finish table payloads declarations budget = .ok built)
    {current : Nat} (new : declarations.length ≤ current)
    (here : built[current]? = some declaration) :
    ∃ start closure paid, localTransparencyDependencies current declaration.decl
        (built.take current) table start = .ok (closure, paid) ∧
      completeLocalTransparencyDependencies closure current (built.take current) =
        .ok declaration.dependencies := by
  induction payloads generalizing declarations budget with
  | nil =>
    cases h
    rw [List.getElem?_eq_none new] at here
    cases here
  | cons decl payloads ih =>
    obtain ⟨first, rest, closure, paid, same, rfl, computed, completed, h⟩ :=
      finalizeDeclarations_step h
    rcases Nat.eq_or_lt_of_le new with rfl | later
    · have before : built.take declarations.length = declarations := by
        rw [same, List.take_left]
      obtain rfl : first = declaration := by
        rw [same] at here
        simpa using here
      rw [before]
      exact ⟨budget, closure, paid, computed, completed⟩
    · apply ih h
      rw [List.length_append, List.length_singleton]
      exact later

/-- The builder records the opaque definitions that are reached. -/
theorem finalizeDeclarations_records
    {built : List DeclCert} (h : finalizeDeclarations finish table payloads [] 0 = .ok built)
    {current : Nat} (here : built[current]? = some declaration) (declIndex : Id) :
    RecordsImplementation declaration.dependencies declIndex ↔
      ReachedOpaque built table current declaration.decl declIndex := by
  obtain ⟨start, closure, paid, computed, completed⟩ :=
    finalizeDeclarations_computed h (Nat.zero_le _) here
  rw [← opaqueDefinitionIndices_eq (localTransparencyDependencies_take computed)]
  rw [completeLocalTransparencyDependencies_take] at completed
  exact recordsImplementation_of_complete (localTransparencyDependencies_take computed) completed
    declIndex

end Modules

/-- A closure that is computed holds the opaque definitions that the declaration reaches over
    earlier declarations, which are all that it reaches where no reference leads forward. A module
    that the builder finishes records them and never fails the check of implementations, and a
    module that passes the checks records them and no others. -/
theorem localTransparency_exact (finish : List DeclCert → DeclPayload → List DependencyEntry →
      CertResult (List AxiomRef × DeclHashes)) (sha256 : Bytes → Hash) :
    (∀ current root declarations table budget closure paid,
      localTransparencyDependencies current root declarations table budget = .ok (closure, paid) →
      ∀ declIndex,
        (declIndex ∈ closure.opaqueDefinitionIndices ↔
          ReachedOpaque declarations table current root declIndex) ∧
        (RefersBack declarations table current root →
          (declIndex ∈ closure.opaqueDefinitionIndices ↔
            ReachedOpaqueAnywhere declarations table current root declIndex))) ∧
    (∀ payloads cert imports,
      finalizeDeclarations finish cert.termTable payloads [] 0 = .ok cert.declarations →
      (∀ (current : Nat) declaration, cert.declarations[current]? = some declaration →
        ∀ declIndex, RecordsImplementation declaration.dependencies declIndex ↔
          ReachedOpaque cert.declarations cert.termTable current declaration.decl declIndex) ∧
      ∀ declIndex ref reason, verifyDependencies sha256 cert imports ≠
        .error (.invalidLocalImplementationDependency declIndex ref reason)) ∧
    (∀ cert imports budget, verifyDependencies sha256 cert imports = .ok budget →
      ∀ (current : Nat) declaration, cert.declarations[current]? = some declaration →
        ∀ declIndex, RecordsImplementation declaration.dependencies declIndex ↔
          ReachedOpaque cert.declarations cert.termTable current declaration.decl declIndex) := by
  refine ⟨?_, ?_, ?_⟩
  · intro current root declarations table budget closure paid computed declIndex
    have exactly := opaqueDefinitionIndices_eq computed declIndex
    exact ⟨exactly, fun back => exactly.trans (reachedOpaque_iff_anywhere back declIndex)⟩
  · intro payloads cert imports built
    constructor
    · exact fun current declaration here declIndex =>
        finalizeDeclarations_records built here declIndex
    · exact fun declIndex ref reason => verifyDependencies_avoids_from built rfl
  · intro cert imports budget passes current declaration here declIndex
    have mem : (declaration, current) ∈ cert.declarations.zipIdx :=
      List.mem_zipIdx_iff_getElem?.mpr here
    obtain ⟨before, after, _, turn⟩ := foldEach_step (P := fun _ => True) _
      (fun _ _ _ _ _ _ => trivial) passes trivial mem
    obtain ⟨expected, expected_ok, _⟩ := bind_eq_ok.mp turn
    exact recordsImplementation_iff here expected_ok declIndex

/-! ### A module with an opaque definition -/

def noHash : Hash := Vector.replicate 32 0

def hiddenDecl : DeclPayload := .defDecl 0 [] 0 0 .opaqueDef

/-- An axiom about an opaque definition. -/
def hidingModule : ModuleCert where
  header := ⟨"", "", ⟨["M"]⟩⟩
  imports := []
  nameTable := [⟨["hidden"]⟩, ⟨["uses"]⟩]
  levelTable := [.zero]
  termTable := [.sort 0, .const (.local 0) []]
  declarations :=
    [⟨hiddenDecl, [], [], ⟨noHash, noHash⟩⟩,
      ⟨.axiomDecl 1 [] 1, [.localImplementation (.local 0) noHash noHash], [], ⟨noHash, noHash⟩⟩]
  exportBlock := []
  axiomReport := ⟨[], [], []⟩
  hashes := ⟨noHash, noHash, noHash⟩

theorem localTransparencyDependencies_hidden (declarations : List DeclCert) :
    localTransparencyDependencies 0 hiddenDecl declarations hidingModule.termTable 0 =
      .ok (⟨[], []⟩, 2) := by
  have hiddenOnce : ScanBudget.charge ⟨0, 0⟩ 1 = .ok ⟨1, 1⟩ := rfl
  have scanned : scanTermRoots hidingModule.termTable (rootTermIds hiddenDecl) 1 ⟨0, 0⟩ =
      .ok ([], ⟨2, 2⟩) := scanTermRoots_sorts hiddenOnce rfl rfl
  have nothing : queueLocalReferences (directRefs 0 hiddenDecl []) [] = ([] : PendingDecls 0) := rfl
  rw [localTransparencyDependencies, scanned, ok_bind]
  dsimp only
  rw [nothing, closeLocalReferences]
  rfl

theorem localTransparencyDependencies_uses (later : List DeclCert) :
    localTransparencyDependencies 1 (.axiomDecl 1 [] 1)
      (⟨hiddenDecl, [], [], ⟨noHash, noHash⟩⟩ :: later) hidingModule.termTable 2 =
      .ok (⟨[], [0]⟩, 5) := by
  have scanned : scanTermRoots hidingModule.termTable (rootTermIds (.axiomDecl 1 [] 1)) 1 ⟨2, 0⟩ =
      .ok ([(.local 0, 1)], ⟨3, 1⟩) := scanTermRoots_const rfl rfl
  have hiddenOnce : ScanBudget.charge ⟨3, 1⟩ (1 + 1) = .ok ⟨4, 2⟩ := rfl
  have below : scanTermRoots hidingModule.termTable (referencedTermIds hiddenDecl) (1 + 1) ⟨3, 1⟩ =
      .ok ([], ⟨5, 3⟩) := scanTermRoots_sorts hiddenOnce rfl rfl
  have first : queueLocalReferences (directRefs 1 (.axiomDecl 1 [] 1) [(GlobalRef.local 0, 1)]) [] =
      ([(⟨0, by decide⟩, 1)] : PendingDecls 1) := rfl
  rw [localTransparencyDependencies, scanned, ok_bind]
  dsimp only
  rw [first, closeLocalReferences_visit (by simp) rfl below]
  dsimp only [queueLocalReferences, List.foldl_nil]
  rw [closeLocalReferences]
  rfl

theorem finalizeDeclarations_hidingModule :
    finalizeDeclarations (fun _ _ _ => .ok ([], ⟨noHash, noHash⟩)) hidingModule.termTable
      [hiddenDecl, .axiomDecl 1 [] 1] [] 0 = .ok hidingModule.declarations := by
  have unused : completeLocalTransparencyDependencies ⟨[], []⟩ 0 [] = .ok [] := rfl
  rw [finalizeDeclarations, List.length_nil, localTransparencyDependencies_hidden, ok_bind]
  dsimp only
  rw [unused, ok_bind, ok_bind]
  dsimp only [List.nil_append]
  rw [finalizeDeclarations, List.length_singleton, localTransparencyDependencies_uses, ok_bind]
  rfl

theorem verifyDependencies_hidingModule :
    verifyDependencies (fun _ => noHash) hidingModule [] = .ok 5 := by
  have first : verifyDeclDependencies (fun _ => noHash) hidingModule [] 0
      (⟨hiddenDecl, [], [], ⟨noHash, noHash⟩⟩, 0) = .ok 2 := by
    rw [verifyDeclDependencies, expectedDependenciesForDecl, localTransparencyDependencies_hidden]
    rfl
  have second : verifyDeclDependencies (fun _ => noHash) hidingModule [] 2
      (⟨.axiomDecl 1 [] 1, [.localImplementation (.local 0) noHash noHash], [],
        ⟨noHash, noHash⟩⟩, 1) = .ok 5 := by
    have computed : localTransparencyDependencies 1 (.axiomDecl 1 [] 1) hidingModule.declarations
        hidingModule.termTable 2 = .ok (⟨[], [0]⟩, 5) := localTransparencyDependencies_uses _
    rw [verifyDeclDependencies, expectedDependenciesForDecl, computed]
    rfl
  have entries : hidingModule.declarations.zipIdx = [(⟨hiddenDecl, [], [], ⟨noHash, noHash⟩⟩, 0),
      (⟨.axiomDecl 1 [] 1, [.localImplementation (.local 0) noHash noHash], [],
        ⟨noHash, noHash⟩⟩, 1)] := rfl
  rw [verifyDependencies, entries, foldEach, first, ok_bind, foldEach, second]
  rfl

/-- The opaque definition is recorded by both sides. -/
theorem localTransparency_exact_at_hidingModule :
    (ReachedOpaque hidingModule.declarations hidingModule.termTable 1 (.axiomDecl 1 [] 1) 0 ∧
      ∀ declIndex ref reason, verifyDependencies (fun _ => noHash) hidingModule [] ≠
        .error (.invalidLocalImplementationDependency declIndex ref reason)) ∧
      ReachedOpaque hidingModule.declarations hidingModule.termTable 1 (.axiomDecl 1 [] 1) 0 := by
  have recorded : RecordsImplementation
      [.localImplementation (.local 0) noHash noHash] 0 := ⟨noHash, noHash, by simp⟩
  have exact := localTransparency_exact (fun _ _ _ => .ok ([], ⟨noHash, noHash⟩)) fun _ => noHash
  have built := exact.2.1 _ hidingModule [] finalizeDeclarations_hidingModule
  have passes := exact.2.2 hidingModule [] 5 verifyDependencies_hidingModule
  exact ⟨⟨(built.1 1 _ rfl 0).mp recorded, built.2⟩, (passes 1 _ rfl 0).mp recorded⟩

/-! ### A reference that leads forward -/

/-- The closure of an axiom whose type is a later opaque definition. -/
theorem localTransparencyDependencies_forward :
    localTransparencyDependencies 0 (.axiomDecl 0 [] 0)
      [⟨.axiomDecl 0 [] 0, [], [], ⟨noHash, noHash⟩⟩,
        ⟨.defDecl 1 [] 1 1 .opaqueDef, [], [], ⟨noHash, noHash⟩⟩]
      [.const (.local 1) [], .sort 0] 0 =
      .ok (⟨[.interface (.local 1) noHash], []⟩, 1) := by
  have scanned : scanTermRoots [.const (.local 1) [], .sort 0] (rootTermIds (.axiomDecl 0 [] 0)) 1
      ⟨0, 0⟩ = .ok ([(.local 1, 1)], ⟨1, 1⟩) := scanTermRoots_const rfl rfl
  have nothing : queueLocalReferences
      (directRefs 0 (.axiomDecl 0 [] 0) [(GlobalRef.local 1, 1)]) [] = ([] : PendingDecls 0) := rfl
  rw [localTransparencyDependencies, scanned, ok_bind]
  dsimp only
  rw [nothing, closeLocalReferences]
  rfl

/-- A definition that stands later is reached but not collected. -/
theorem localTransparencyDependencies_stops_at_later :
    ¬ ∀ current root declarations table budget closure paid,
      localTransparencyDependencies current root declarations table budget = .ok (closure, paid) →
      ∀ declIndex, declIndex ∈ closure.opaqueDefinitionIndices ↔
        ReachedOpaqueAnywhere declarations table current root declIndex := by
  intro exactly
  have none := exactly _ _ _ _ _ _ _ localTransparencyDependencies_forward 1
  refine absurd (none.mpr ⟨⟨1, ⟨0, by decide, .local 1, .here rfl, ?_, rfl⟩, .refl⟩, ?_⟩) (by simp)
  · simp [DeclPayload.isInductive]
  · exact ⟨_, rfl, rfl⟩

end NpaCore.Wire
