import NpaCore.Wire.Primitive

/-!
# Decoding what was encoded

`decodeModuleCert_eq_ok`: the decoder of certificates succeeds on exactly the encodings
of the certificates that are within the limits of the format and in canonical form. The
decoder checks two things for the canonical form, names and the order of dependencies;
the encoder checks neither.
-/

namespace NpaCore.Wire

open NpaCore.Kernel (UniverseConstraintRelation isCanonicalNameComponent)

open NpaCore.Parser

/-! ### Limits -/

def Name.Fits (name : Name) : Prop :=
  Nested name.components ∧ ∀ component ∈ name.components, component.toByteArray.size < 2 ^ 64

def TermNode.Fits : TermNode → Prop
  | .const _ levels => Nested levels
  | _ => True

def RecursorSpec.Fits (recursor : RecursorSpec) : Prop := Nested recursor.universeParams

def MutualInductiveSpec.Fits (spec : MutualInductiveSpec) : Prop :=
  Nested spec.params ∧ Nested spec.indices ∧ Nested spec.constructors ∧
    ∀ recursor ∈ spec.recursor, recursor.Fits

def DeclPayload.Fits : DeclPayload → Prop
  | .axiomDecl _ universeParams _ => Nested universeParams
  | .axiomConstrained _ universeParams universeConstraints _ =>
    Nested universeParams ∧ Nested universeConstraints
  | .defDecl _ universeParams _ _ _ => Nested universeParams
  | .defConstrained _ universeParams universeConstraints _ _ _ =>
    Nested universeParams ∧ Nested universeConstraints
  | .theoremDecl _ universeParams _ _ _ => Nested universeParams
  | .theoremConstrained _ universeParams universeConstraints _ _ _ =>
    Nested universeParams ∧ Nested universeConstraints
  | .inductiveDecl _ universeParams params indices _ constructors recursor =>
    Nested universeParams ∧ Nested params ∧ Nested indices ∧ Nested constructors ∧
      ∀ spec ∈ recursor, spec.Fits
  | .inductiveConstrained _ universeParams universeConstraints params indices _ constructors
      recursor =>
    Nested universeParams ∧ Nested universeConstraints ∧ Nested params ∧ Nested indices ∧
      Nested constructors ∧ ∀ spec ∈ recursor, spec.Fits
  | .mutualInductiveBlock _ universeParams universeConstraints inductives =>
    Nested universeParams ∧ Nested universeConstraints ∧ Nested inductives ∧
      ∀ spec ∈ inductives, spec.Fits

def DeclCert.Fits (cert : DeclCert) : Prop :=
  cert.decl.Fits ∧ Nested cert.dependencies ∧ Nested cert.axiomDependencies

def ExportEntry.Fits (entry : ExportEntry) : Prop :=
  Nested entry.universeParams ∧ Nested entry.universeConstraints ∧ Nested entry.axiomDependencies

def DeclAxiomReport.Fits (report : DeclAxiomReport) : Prop :=
  Nested report.directAxioms ∧ Nested report.transitiveAxioms

/-- The limits of the format: the supported version, and lengths that the decoder allows. -/
structure ModuleCert.WithinLimits (cert : ModuleCert) : Prop where
  version : cert.header.format = formatName ∧ cert.header.coreSpec = coreSpecName
  module : cert.header.module.Fits
  imports : cert.imports.length ≤ maxImports ∧ ∀ entry ∈ cert.imports, entry.module.Fits
  nameTable : cert.nameTable.length ≤ maxNameTableEntries ∧ ∀ name ∈ cert.nameTable, name.Fits
  levelTable : cert.levelTable.length ≤ maxLevelTableNodes
  termTable : cert.termTable.length ≤ maxTermTableNodes ∧ ∀ node ∈ cert.termTable, node.Fits
  declarations : cert.declarations.length ≤ maxDeclarations ∧
    ∀ declaration ∈ cert.declarations, declaration.Fits
  exportBlock : cert.exportBlock.length ≤ maxExports ∧ ∀ entry ∈ cert.exportBlock, entry.Fits
  perDeclaration : cert.axiomReport.perDeclaration.length ≤ maxDeclarations ∧
    ∀ report ∈ cert.axiomReport.perDeclaration, report.Fits
  moduleAxioms : Nested cert.axiomReport.moduleAxioms
  bytes : (encodeParts cert).length ≤ maxCertificateBytes

/-- The canonical form that the decoder asks for: of names, and of the order of dependencies. -/
structure ModuleCert.Canonical (cert : ModuleCert) : Prop where
  module : cert.header.module.isCanonical = true
  imports : ∀ entry ∈ cert.imports, entry.module.isCanonical = true
  nameTable : ∀ name ∈ cert.nameTable, name.isCanonical = true
  dependencies : ∀ declaration ∈ cert.declarations,
    strictlyOrdered declaration.dependencies = true

namespace Decoder

/-! ### Names and tables -/

theorem nameComponent_reads :
    Reads nameComponent encodeString fun component => component.toByteArray.size < 2 ^ 64 ∧
      component.isEmpty = false ∧ '.' ∉ component.toList := by
  intro input component rest
  simp only [nameComponent, bind_eq_ok, string_reads _ _ _, ensure_eq_ok, pure_eq_ok,
    Bool.and_eq_true, Bool.not_eq_true', List.contains_eq_mem, decide_eq_false_iff_not]
  constructor
  · rintro ⟨_, _, ⟨bound, rfl⟩, _, _, ⟨plain, rfl⟩, rfl, rfl⟩
    exact ⟨⟨bound, plain⟩, rfl⟩
  · rintro ⟨⟨bound, plain⟩, rfl⟩
    exact ⟨component, rest, ⟨bound, rfl⟩, (), rest, ⟨plain, rfl⟩, rfl, rfl⟩

/-- A component in canonical form passes the decoder's own checks. -/
theorem plain_of_isCanonicalNameComponent {component : String}
    (canonical : isCanonicalNameComponent component.toList = true) :
    component.isEmpty = false ∧ '.' ∉ component.toList := by
  constructor
  · cases empty : component.isEmpty with
    | false => rfl
    | true =>
      rw [String.isEmpty_iff.mp empty] at canonical
      cases canonical
  · cases list : component.toList with
    | nil => simp
    | cons first others =>
      rw [list] at canonical
      simp only [isCanonicalNameComponent, Bool.and_eq_true, List.all_eq_true] at canonical
      rintro (_ | ⟨_, mem⟩)
      · exact absurd canonical.1 (by decide)
      · exact absurd (canonical.2 _ mem) (by decide)

theorem name_reads :
    Reads name encodeName fun name => name.Fits ∧ name.isCanonical = true := by
  rintro input ⟨components⟩ rest
  simp only [name, boundedLen, bind_eq_ok, boundedLenFor_eq_ok (by decide : maxNestedVectorEntries
    < 2 ^ 64), ensure_eq_ok, reads_collectN nameComponent_reads _ _ _ _, pure_eq_ok]
  constructor
  · rintro ⟨_, _, ⟨within, _, rfl⟩, _, _, ⟨_, rfl⟩, _, _, ⟨⟨rfl, all⟩, rfl⟩, _, _,
      ⟨canonical, rfl⟩, ⟨rfl⟩, rfl⟩
    exact ⟨⟨⟨within, fun component mem => (all component mem).1⟩, canonical⟩,
      by simp [encodeName, encodeVec, encodeLen]⟩
  · rintro ⟨⟨⟨within, bounds⟩, canonical⟩, rfl⟩
    have enough := length_le_flatMap fun component (_ : component ∈ components) =>
      encodeString_ne_nil component
    have parts := canonical
    simp only [Name.isCanonical, Bool.and_eq_true, List.all_eq_true, Bool.not_eq_true',
      List.isEmpty_eq_false_iff] at parts
    refine ⟨components.length, components.flatMap encodeString ++ rest, ⟨within, ?_, ?_⟩, (), _,
      ⟨?_, rfl⟩, components, rest, ⟨⟨rfl, ?_⟩, rfl⟩, (), rest, ⟨canonical, rfl⟩, rfl, rfl⟩
    · rw [List.length_append]
      omega
    · simp [encodeName, encodeVec, encodeLen]
    · simpa using parts.1
    · intro component mem
      exact ⟨bounds component mem, plain_of_isCanonicalNameComponent (parts.2 component mem)⟩

theorem importEntry_reads :
    Reads importEntry encodeImport fun entry =>
      entry.module.Fits ∧ entry.module.isCanonical = true := by
  rintro input ⟨module, exportHash, certificateHash⟩ rest
  simp only [importEntry, bind_eq_ok, pure_eq_ok, name_reads _ _ _, hash_reads _ _ _,
    option_reads hash_reads _ _ _]
  simp [encodeImport, encodeOptionHash]

theorem levelNode_reads : Reads levelNode encodeLevelNode fun _ => True := by
  intro input node rest
  simp only [levelNode, bind_eq_ok, byte_eq_ok]
  constructor
  · rintro ⟨tag, middle, rfl, h⟩
    split at h <;>
      simp only [bind_eq_ok, pure_eq_ok, usize_reads _ _ _, unsupported, fail_ne_ok] at h
    all_goals grind [encodeLevelNode]
  · rintro ⟨_, rfl⟩
    cases node <;> simp [encodeLevelNode, bind_eq_ok, pure_eq_ok, usize_reads _ _ _]

theorem globalRef_reads : Reads globalRef encodeGlobalRef fun _ => True := by
  intro input ref rest
  simp only [globalRef, bind_eq_ok, byte_eq_ok]
  constructor
  · rintro ⟨tag, middle, rfl, h⟩
    split at h <;>
      simp only [bind_eq_ok, pure_eq_ok, usize_reads _ _ _, hash_reads _ _ _, unsupported,
        fail_ne_ok] at h
    all_goals grind [encodeGlobalRef]
  · rintro ⟨_, rfl⟩
    cases ref <;>
      simp [encodeGlobalRef, bind_eq_ok, pure_eq_ok, usize_reads _ _ _, hash_reads _ _ _]

@[simp] theorem encodeGlobalRef_ne_nil (ref : GlobalRef) : encodeGlobalRef ref ≠ [] := by
  cases ref <;> simp [encodeGlobalRef]

theorem usizeVec_reads : Reads usizeVec encodeUsizeVec Nested :=
  vec_reads_any usize_reads encodeUvar_ne_nil

theorem termNode_reads : Reads termNode encodeTermNode TermNode.Fits := by
  intro input node rest
  simp only [termNode, bind_eq_ok, byte_eq_ok]
  constructor
  · rintro ⟨tag, middle, rfl, h⟩
    split at h <;>
      simp only [bind_eq_ok, pure_eq_ok, usize_reads _ _ _, u32_reads _ _ _, globalRef_reads _ _ _,
        usizeVec_reads _ _ _, unsupported, fail_ne_ok] at h
    all_goals grind [encodeTermNode, TermNode.Fits]
  · rintro ⟨fits, rfl⟩
    cases node <;>
      simp_all [encodeTermNode, bind_eq_ok, pure_eq_ok, usize_reads _ _ _, u32_reads _ _ _,
        globalRef_reads _ _ _, usizeVec_reads _ _ _, TermNode.Fits]

theorem termTable_reads :
    Reads termTable (encodeVec encodeTermNode) fun nodes =>
      nodes.length ≤ maxTermTableNodes ∧ ∀ node ∈ nodes, node.Fits := by
  intro input nodes rest
  simp only [termTable, ensureCountLimit, bind_eq_ok, usize_reads _ _ _, ensure_eq_ok,
    reads_collectN termNode_reads _ _ _ _, decide_eq_true_eq, true_and]
  constructor
  · rintro ⟨len, _, rfl, _, _, ⟨within, rfl⟩, ⟨length, all⟩, rfl⟩
    exact ⟨⟨length ▸ within, all⟩, by simp [encodeVec, encodeLen, length]⟩
  · rintro ⟨⟨within, all⟩, rfl⟩
    have bound : nodes.length < 2 ^ 64 := Nat.lt_of_le_of_lt within (by decide)
    have same := ofNat_toNat_of_lt bound
    refine ⟨UInt64.ofNat nodes.length, nodes.flatMap encodeTermNode ++ rest, ?_, (), _,
      ⟨by rwa [same], rfl⟩, ⟨same.symm, all⟩, rfl⟩
    simp [encodeVec, encodeLen]

/-! ### Declarations -/

theorem relation_reads : Reads relation encodeRelation fun _ => True := by
  intro input value rest
  simp only [relation, bind_eq_ok, byte_eq_ok]
  constructor
  · rintro ⟨tag, middle, rfl, h⟩
    split at h <;> simp only [pure_eq_ok, unsupported, fail_ne_ok] at h
    all_goals grind [encodeRelation]
  · rintro ⟨_, rfl⟩
    cases value <;> simp [encodeRelation, pure_eq_ok]

theorem universeConstraintSpecs_reads :
    Reads universeConstraintSpecs encodeUniverseConstraintSpecs Nested := by
  refine vec_reads_any ?_ fun spec => by simp [encodeUniverseConstraintSpec]
  rintro input ⟨lhs, relation, rhs⟩ rest
  simp only [universeConstraintSpec, bind_eq_ok, pure_eq_ok, usize_reads _ _ _,
    relation_reads _ _ _]
  simp [encodeUniverseConstraintSpec]

theorem binderTypes_reads : Reads binderTypes encodeBinderTypes Nested := by
  refine vec_reads_any ?_ fun binder => by simp
  rintro input ⟨ty⟩ rest
  simp only [binderType, bind_eq_ok, pure_eq_ok, usize_reads _ _ _]
  simp

theorem constructorSpecs_reads : Reads constructorSpecs encodeConstructorSpecs Nested := by
  refine vec_reads_any ?_ fun spec => by simp
  rintro input ⟨name, ty⟩ rest
  simp only [constructorSpec, bind_eq_ok, pure_eq_ok, usize_reads _ _ _]
  simp

theorem recursor_reads : Reads recursor encodeRecursor RecursorSpec.Fits := by
  rintro input ⟨name, universeParams, ty, ⟨minorStart, majorIndex⟩⟩ rest
  simp only [recursor, bind_eq_ok, pure_eq_ok, usize_reads _ _ _, usizeVec_reads _ _ _]
  grind [encodeRecursor, RecursorSpec.Fits]

theorem recursorSpec_reads :
    Reads recursorSpec encodeRecursorSpec fun choice => ∀ spec ∈ choice, spec.Fits :=
  option_reads recursor_reads

theorem mutualInductive_reads :
    Reads mutualInductive encodeMutualInductive MutualInductiveSpec.Fits := by
  rintro input ⟨name, params, indices, sort, constructors, recursor⟩ rest
  simp only [mutualInductive, bind_eq_ok, pure_eq_ok, usize_reads _ _ _, binderTypes_reads _ _ _,
    constructorSpecs_reads _ _ _, recursorSpec_reads _ _ _]
  simp [encodeMutualInductive, MutualInductiveSpec.Fits, and_assoc, and_comm, and_left_comm]

theorem reducibility_reads : Reads reducibility encodeReducibility fun _ => True := by
  intro input value rest
  simp only [reducibility, bind_eq_ok, byte_eq_ok]
  constructor
  · rintro ⟨tag, middle, rfl, h⟩
    split at h <;> simp only [pure_eq_ok, unsupported, fail_ne_ok] at h
    all_goals grind [encodeReducibility]
  · rintro ⟨_, rfl⟩
    cases value <;> simp [encodeReducibility, pure_eq_ok]

theorem opacity_reads : Reads opacity encodeOpacity fun _ => True := by
  intro input value rest
  simp only [opacity, bind_eq_ok, byte_eq_ok]
  constructor
  · rintro ⟨tag, middle, rfl, h⟩
    split at h <;> simp only [pure_eq_ok, unsupported, fail_ne_ok] at h
    all_goals grind [encodeOpacity]
  · rintro ⟨_, rfl⟩
    cases value
    simp [encodeOpacity, pure_eq_ok]

theorem declPayload_reads : Reads declPayload encodeDeclPayload DeclPayload.Fits := by
  intro input decl rest
  simp only [declPayload, bind_eq_ok, byte_eq_ok]
  constructor
  · rintro ⟨tag, middle, rfl, h⟩
    split at h <;>
      simp only [bind_eq_ok, pure_eq_ok, usize_reads _ _ _, usizeVec_reads _ _ _,
        universeConstraintSpecs_reads _ _ _, reducibility_reads _ _ _, opacity_reads _ _ _,
        binderTypes_reads _ _ _, constructorSpecs_reads _ _ _, recursorSpec_reads _ _ _,
        vec_reads mutualInductive_reads (fun spec => by simp [encodeMutualInductive]) _ _ _,
        unsupported, fail_ne_ok] at h
    all_goals grind [encodeDeclPayload, DeclPayload.Fits]
  · rintro ⟨fits, rfl⟩
    cases decl <;>
      simp_all [encodeDeclPayload, bind_eq_ok, pure_eq_ok, usize_reads _ _ _,
        usizeVec_reads _ _ _, universeConstraintSpecs_reads _ _ _, reducibility_reads _ _ _,
        opacity_reads _ _ _, binderTypes_reads _ _ _, constructorSpecs_reads _ _ _,
        recursorSpec_reads _ _ _,
        vec_reads mutualInductive_reads (fun spec => by simp [encodeMutualInductive]) _ _ _,
        DeclPayload.Fits]

theorem dependencyEntry_reads : Reads dependencyEntry encodeDependencyEntry fun _ => True := by
  intro input entry rest
  simp only [dependencyEntry, bind_eq_ok, byte_eq_ok]
  constructor
  · rintro ⟨tag, middle, rfl, h⟩
    split at h <;>
      simp only [bind_eq_ok, pure_eq_ok, globalRef_reads _ _ _, hash_reads _ _ _, unsupported,
        fail_ne_ok] at h
    all_goals grind [encodeDependencyEntry]
  · rintro ⟨_, rfl⟩
    cases entry <;>
      simp [encodeDependencyEntry, bind_eq_ok, pure_eq_ok, globalRef_reads _ _ _, hash_reads _ _ _]

theorem dependencyEntries_reads :
    Reads dependencyEntries (encodeVec encodeDependencyEntry) fun entries =>
      Nested entries ∧ strictlyOrdered entries = true := by
  intro input entries rest
  have nonempty : ∀ entry, encodeDependencyEntry entry ≠ [] := by
    intro entry
    cases entry <;> simp [encodeDependencyEntry]
  simp only [dependencyEntries, bind_eq_ok, pure_eq_ok, ensure_eq_ok,
    vec_reads_any dependencyEntry_reads nonempty _ _ _]
  constructor
  · rintro ⟨_, _, ⟨nested, rfl⟩, _, _, ⟨ordered, rfl⟩, rfl, rfl⟩
    exact ⟨⟨nested, ordered⟩, rfl⟩
  · rintro ⟨⟨nested, ordered⟩, rfl⟩
    exact ⟨entries, rest, ⟨nested, rfl⟩, (), rest, ⟨ordered, rfl⟩, rfl, rfl⟩

theorem axiomRefs_reads : Reads axiomRefs encodeAxiomRefs Nested := by
  refine vec_reads_any ?_ fun ref => by simp [encodeAxiomRef]
  rintro input ⟨ref, name, declInterfaceHash⟩ rest
  simp only [axiomRef, bind_eq_ok, pure_eq_ok, globalRef_reads _ _ _, usize_reads _ _ _,
    hash_reads _ _ _]
  simp [encodeAxiomRef]

theorem declaration_reads :
    Reads declaration encodeDeclaration fun cert =>
      cert.Fits ∧ strictlyOrdered cert.dependencies = true := by
  rintro input ⟨decl, dependencies, axioms, ⟨interfaceHash, certificateHash⟩⟩ rest
  simp only [declaration, bind_eq_ok, pure_eq_ok, declPayload_reads _ _ _,
    dependencyEntries_reads _ _ _, axiomRefs_reads _ _ _, hash_reads _ _ _]
  grind [encodeDeclaration, DeclCert.Fits]

/-! ### Exports and reports -/

theorem exportKind_reads : Reads exportKind encodeExportKind fun _ => True := by
  intro input kind rest
  simp only [exportKind, bind_eq_ok, byte_eq_ok]
  constructor
  · rintro ⟨tag, middle, rfl, h⟩
    split at h <;> simp only [pure_eq_ok, unsupported, fail_ne_ok] at h
    all_goals grind [encodeExportKind]
  · rintro ⟨_, rfl⟩
    cases kind <;> simp [encodeExportKind, pure_eq_ok]

theorem exportEntry_reads : Reads exportEntry encodeExportEntry ExportEntry.Fits := by
  rintro input ⟨name, kind, universeParams, universeConstraints, ty, body, typeHash, bodyHash,
    reducibility, opacity, declInterfaceHash, axioms⟩ rest
  simp only [exportEntry, bind_eq_ok, pure_eq_ok, usize_reads _ _ _, exportKind_reads _ _ _,
    usizeVec_reads _ _ _, universeConstraintSpecs_reads _ _ _, option_reads usize_reads _ _ _,
    hash_reads _ _ _, option_reads hash_reads _ _ _, option_reads reducibility_reads _ _ _,
    option_reads opacity_reads _ _ _, axiomRefs_reads _ _ _]
  simp [encodeExportEntry, encodeOptionUsize, encodeOptionHash, ExportEntry.Fits, and_assoc,
    and_comm, and_left_comm]

theorem declAxiomReport_reads :
    Reads declAxiomReport encodeDeclAxiomReport DeclAxiomReport.Fits := by
  rintro input ⟨declIndex, directAxioms, transitiveAxioms⟩ rest
  simp only [declAxiomReport, bind_eq_ok, pure_eq_ok, usize_reads _ _ _, axiomRefs_reads _ _ _]
  grind [encodeDeclAxiomReport, DeclAxiomReport.Fits]

theorem moduleHashes_reads : Reads moduleHashes encodeHashes fun _ => True := by
  rintro input ⟨exportHash, axiomReportHash, certificateHash⟩ rest
  simp only [moduleHashes, bind_eq_ok, pure_eq_ok, hash_reads _ _ _]
  simp [encodeHashes]

/-! ### Modules -/

theorem header_reads :
    Reads header encodeHeader fun header =>
      (header.format = formatName ∧ header.coreSpec = coreSpecName) ∧ header.module.Fits ∧
        header.module.isCanonical = true := by
  rintro input ⟨format, coreSpec, module⟩ rest
  simp only [header, bind_eq_ok, pure_eq_ok, string_reads _ _ _, name_reads _ _ _, ensure_eq_ok,
    Bool.and_eq_true, decide_eq_true_eq, CertHeader.mk.injEq]
  constructor
  · rintro ⟨_, _, ⟨_, rfl⟩, _, _, ⟨_, rfl⟩, _, _, ⟨version, rfl⟩, _, _, ⟨valid, rfl⟩,
      ⟨rfl, rfl, rfl⟩, rfl⟩
    exact ⟨⟨version, valid⟩, by simp [encodeHeader]⟩
  · rintro ⟨⟨⟨rfl, rfl⟩, valid⟩, rfl⟩
    exact ⟨formatName, _, ⟨by decide, by simp [encodeHeader]⟩, coreSpecName, _,
      ⟨by decide, rfl⟩, (), _, ⟨⟨rfl, rfl⟩, rfl⟩, module, rest, ⟨valid, rfl⟩, ⟨rfl, rfl, rfl⟩, rfl⟩

/-- No feature has a name, so no report of core features is accepted. -/
theorem coreFeatures_ne_ok {input : Bytes} {result : List CoreFeature × Bytes} :
    ¬ coreFeatures input = .ok result := by
  obtain ⟨features, rest⟩ := result
  simp only [coreFeatures, bind_eq_ok, ensure_eq_ok]
  rintro ⟨_, _, _, _, _, _, len, middle, _, _, _, ⟨nonzero, rfl⟩, h⟩
  cases len with
  | zero => cases nonzero
  | succ len =>
    simp only [Parser.collectN, bind_eq_ok, coreFeature, CoreFeature.fromName] at h
    obtain ⟨_, _, ⟨_, _, _, impossible⟩, _⟩ := h
    exact fail_ne_ok impossible

theorem optionalCoreFeatures_eq_ok {input rest : Bytes} {features : List CoreFeature} :
    optionalCoreFeatures input = .ok (features, rest) ↔
      hasCoreFeatureReport input = false ∧ features = [] ∧ rest = input := by
  simp only [optionalCoreFeatures, bind_eq_ok, remaining_eq_ok]
  constructor
  · rintro ⟨_, _, ⟨rfl, rfl⟩, h⟩
    split at h
    next => exact absurd h coreFeatures_ne_ok
    next absent =>
      obtain ⟨rfl, rfl⟩ := pure_eq_ok.mp h
      exact ⟨by simpa using absent, rfl, rfl⟩
  · rintro ⟨absent, rfl, rfl⟩
    exact ⟨rest, rest, ⟨rfl, rfl⟩, by rw [absent]; exact pure_eq_ok.mpr ⟨rfl, rfl⟩⟩

/-- The three hashes at the end are too short to hold a report. -/
theorem hasCoreFeatureReport_encodeHashes (hashes : ModuleHashes) :
    hasCoreFeatureReport (encodeHashes hashes) = false := by
  have length : (encodeHashes hashes).length - moduleHashTrailerLen = 0 := by
    simp [encodeHashes, encodeHash, moduleHashTrailerLen]
  simp [hasCoreFeatureReport, length]

theorem coreFeatures_eq_nil (features : List CoreFeature) : features = [] := by
  cases features with
  | nil => rfl
  | cons feature features => cases feature

theorem encodeCoreFeatures_eq_nil (features : List CoreFeature) :
    encodeCoreFeatures features = [] := by
  rw [coreFeatures_eq_nil features]
  rfl

theorem imports_reads :
    Reads (vecFor .imports maxImports importEntry) (encodeVec encodeImport) fun imports =>
      imports.length ≤ maxImports ∧
        ∀ entry ∈ imports, entry.module.Fits ∧ entry.module.isCanonical = true :=
  vecFor_reads _ (by decide) importEntry_reads fun entry => by simp [encodeImport, encodeName]

theorem nameTable_reads :
    Reads (vecFor .nameTableEntries maxNameTableEntries name) (encodeVec encodeName) fun names =>
      names.length ≤ maxNameTableEntries ∧ ∀ name ∈ names, name.Fits ∧ name.isCanonical = true :=
  vecFor_reads _ (by decide) name_reads fun name => by simp [encodeName]

theorem levelTable_reads :
    Reads (vecFor .levelTableNodes maxLevelTableNodes levelNode) (encodeVec encodeLevelNode)
      fun levels => levels.length ≤ maxLevelTableNodes ∧ ∀ level ∈ levels, True :=
  vecFor_reads _ (by decide) levelNode_reads fun level => by cases level <;> simp [encodeLevelNode]

theorem declarations_reads :
    Reads (vecFor .declarations maxDeclarations declaration) (encodeVec encodeDeclaration)
      fun declarations => declarations.length ≤ maxDeclarations ∧
        ∀ cert ∈ declarations, cert.Fits ∧ strictlyOrdered cert.dependencies = true :=
  vecFor_reads _ (by decide) declaration_reads fun cert => by simp [encodeDeclaration]

theorem exportBlock_reads :
    Reads (vecFor .exports maxExports exportEntry) (encodeVec encodeExportEntry) fun entries =>
      entries.length ≤ maxExports ∧ ∀ entry ∈ entries, entry.Fits :=
  vecFor_reads _ (by decide) exportEntry_reads fun entry => by simp [encodeExportEntry]

theorem perDeclaration_reads :
    Reads (vecFor .declarations maxDeclarations declAxiomReport) (encodeVec encodeDeclAxiomReport)
      fun reports => reports.length ≤ maxDeclarations ∧ ∀ report ∈ reports, report.Fits :=
  vecFor_reads _ (by decide) declAxiomReport_reads fun report => by simp [encodeDeclAxiomReport]

end Decoder

open Decoder

/-- The parts of a certificate one after another; a report of core features adds nothing. -/
theorem encodeParts_eq (cert : ModuleCert) :
    encodeParts cert = encodeHeader cert.header ++ (encodeVec encodeImport cert.imports ++
      (encodeVec encodeName cert.nameTable ++ (encodeVec encodeLevelNode cert.levelTable ++
      (encodeVec encodeTermNode cert.termTable ++ (encodeVec encodeDeclaration cert.declarations ++
      (encodeVec encodeExportEntry cert.exportBlock ++
      (encodeVec encodeDeclAxiomReport cert.axiomReport.perDeclaration ++
      (encodeAxiomRefs cert.axiomReport.moduleAxioms ++ encodeHashes cert.hashes)))))))) := by
  simp only [encodeParts, encodeAxiomReport, encodeCoreFeatures_eq_nil, List.append_assoc,
    List.nil_append]

theorem moduleCertParts_sound {input : Bytes} {cert : ModuleCert}
    (length : input.length ≤ maxCertificateBytes)
    (h : moduleCertParts input = .ok (cert, [])) :
    cert.WithinLimits ∧ cert.Canonical ∧ input = encodeParts cert := by
  simp only [moduleCertParts, bind_eq_ok, pure_eq_ok, header_reads _ _ _, imports_reads _ _ _,
    nameTable_reads _ _ _, levelTable_reads _ _ _, termTable_reads _ _ _,
    declarations_reads _ _ _, exportBlock_reads _ _ _, perDeclaration_reads _ _ _,
    axiomRefs_reads _ _ _, optionalCoreFeatures_eq_ok, moduleHashes_reads _ _ _] at h
  obtain ⟨header, _, ⟨⟨version, fits, canonical⟩, rfl⟩, imports, _, ⟨⟨importCount, imports'⟩, rfl⟩,
    names, _, ⟨⟨nameCount, names'⟩, rfl⟩, levels, _, ⟨⟨levelCount, _⟩, rfl⟩,
    terms, _, ⟨terms', rfl⟩, declarations, _, ⟨⟨declarationCount, declarations'⟩, rfl⟩,
    exports, _, ⟨exports', rfl⟩, reports, _, ⟨reports', rfl⟩, axioms, _, ⟨axioms', rfl⟩,
    _, _, ⟨_, rfl, rfl⟩, hashes, _, ⟨_, rfl⟩, rfl, rfl⟩ := h
  rw [List.append_nil] at length
  refine ⟨⟨version, fits, ⟨importCount, fun entry mem => (imports' entry mem).1⟩,
    ⟨nameCount, fun name mem => (names' name mem).1⟩, levelCount, terms',
    ⟨declarationCount, fun cert mem => (declarations' cert mem).1⟩, exports', reports', axioms',
    ?_⟩, ⟨canonical, fun entry mem => (imports' entry mem).2,
    fun name mem => (names' name mem).2, fun cert mem => (declarations' cert mem).2⟩, ?_⟩
  · rw [encodeParts_eq]
    exact length
  · rw [encodeParts_eq, List.append_nil]

theorem moduleCertParts_complete {cert : ModuleCert} (limits : cert.WithinLimits)
    (canonical : cert.Canonical) : moduleCertParts (encodeParts cert) = .ok (cert, []) := by
  obtain ⟨header, imports, names, levels, terms, declarations, exports, ⟨reports, axioms, features⟩,
    hashes⟩ := cert
  obtain rfl := coreFeatures_eq_nil features
  simp only [moduleCertParts, bind_eq_ok, pure_eq_ok, header_reads _ _ _, imports_reads _ _ _,
    nameTable_reads _ _ _, levelTable_reads _ _ _, termTable_reads _ _ _,
    declarations_reads _ _ _, exportBlock_reads _ _ _, perDeclaration_reads _ _ _,
    axiomRefs_reads _ _ _, optionalCoreFeatures_eq_ok, moduleHashes_reads _ _ _]
  refine ⟨header, _, ⟨⟨limits.version, limits.module, canonical.module⟩, ?_⟩,
    imports, _, ⟨⟨limits.imports.1, fun entry mem =>
      ⟨limits.imports.2 entry mem, canonical.imports entry mem⟩⟩, rfl⟩,
    names, _, ⟨⟨limits.nameTable.1, fun name mem =>
      ⟨limits.nameTable.2 name mem, canonical.nameTable name mem⟩⟩, rfl⟩,
    levels, _, ⟨⟨limits.levelTable, fun _ _ => trivial⟩, rfl⟩, terms, _, ⟨limits.termTable, rfl⟩,
    declarations, _, ⟨⟨limits.declarations.1, fun cert mem =>
      ⟨limits.declarations.2 cert mem, canonical.dependencies cert mem⟩⟩, rfl⟩,
    exports, _, ⟨limits.exportBlock, rfl⟩, reports, _, ⟨limits.perDeclaration, rfl⟩,
    axioms, _, ⟨limits.moduleAxioms, rfl⟩, [], encodeHashes hashes, ⟨?_, rfl, rfl⟩, hashes, [],
    ⟨trivial, by simp⟩, rfl, rfl⟩
  · rw [encodeParts_eq]
  · exact hasCoreFeatureReport_encodeHashes hashes

/-- The decoder accepts the encodings of the canonical certificates within the limits, and
    nothing else. -/
theorem decodeModuleCert_eq_ok {bytes : Bytes} {cert : ModuleCert} :
    decodeModuleCert bytes = .ok cert ↔
      cert.WithinLimits ∧ cert.Canonical ∧ bytes = encodeParts cert := by
  simp only [decodeModuleCert, Result.bind_eq_ok, Result.ensure_eq_ok]
  constructor
  · rintro ⟨_, length, ⟨cert', rest⟩, parts, _, empty, h⟩
    obtain rfl : rest = [] := by simpa using empty
    obtain rfl : cert' = cert := by simpa using h
    exact moduleCertParts_sound (by simpa using length) parts
  · rintro ⟨limits, canonical, rfl⟩
    exact ⟨(), by simpa using limits.bytes, (cert, []),
      moduleCertParts_complete limits canonical, (), rfl, rfl⟩

/-! ### Reading back what was written -/

/-- A module with nothing in it. -/
def emptyModuleCert (module : Name) : ModuleCert where
  header := ⟨formatName, coreSpecName, module⟩
  imports := []
  nameTable := []
  levelTable := []
  termTable := []
  declarations := []
  exportBlock := []
  axiomReport := ⟨[], [], []⟩
  hashes := ⟨.replicate 32 0, .replicate 32 0, .replicate 32 0⟩

theorem Name.fits_singleton {component : String} (small : component.toByteArray.size < 2 ^ 64) :
    (⟨[component]⟩ : Name).Fits := by
  refine ⟨(by decide : 1 ≤ maxNestedVectorEntries), ?_⟩
  simpa using small

end NpaCore.Wire
