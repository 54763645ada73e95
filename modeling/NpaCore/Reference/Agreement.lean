import NpaCore.Lib.Agreement
import NpaCore.Reference.Decoder
import NpaCore.Wire.RoundTrip

/-!
# The decoders of the two checkers agree

The reference checker reads a certificate with a decoder of its own, that keeps offsets
(`Reference.Decoder`). Each of its functions `Agrees` with the one of the fast decoder:
rule by rule through the primitives, the tables, the declarations, the exports and the
report. What is left at the end is the order of the dependencies, which the fast decoder
checks while it reads, and the reference checker when all is read.

`decoders_agree`: the same byte strings, and the same certificates.
-/

namespace NpaCore.Reference

open NpaCore.Parser
open NpaCore.Wire (Bytes Hash Id Name CertHeader ImportEntry ModuleHashes LevelNode GlobalRef
  TermNode UniverseConstraintSpec BinderType ConstructorSpec RecursorSpec MutualInductiveSpec
  CertReducibility Opacity DeclPayload AxiomRef ExportKind ExportEntry encodeUvar)

namespace Decoder

variable {size : Nat} {certSection : ReferenceCertificateSection}

/-! ### Numbers, strings and vectors -/

theorem offset_right {ε α β : Type} {p : Parser UInt8 ε α} {g : Nat → Decoder β} {forget : β → α}
    {accepted : β → Prop} (h : ∀ start, Agrees size p (g start) forget accepted) :
    Agrees size p (offset size >>= g) forget accepted :=
  Agrees.bind_right (fun _ => ⟨_, rfl⟩) h

theorem byte_same : Same size Wire.Decoder.byte (byte size certSection) :=
  offset_right fun _ => Agrees.token

theorem take_same (small : size < 2 ^ 64) (len : Nat) :
    Same size (Wire.Decoder.take len) (take size certSection len) where
  same {input} short bytes rest := by
    simp only [Wire.Decoder.take, take, bind_eq_ok, take_eq_ok, ensure_eq_ok, decide_eq_true_eq,
      offset, Except.ok.injEq, Prod.mk.injEq]
    constructor
    · rintro ⟨length, rfl⟩
      rw [List.length_append] at short
      refine ⟨bytes, ⟨_, _, ⟨rfl, rfl⟩, (), _, ⟨?_, rfl⟩, length, rfl⟩, trivial, rfl⟩
      rw [List.length_append]
      omega
    · rintro ⟨_, ⟨_, _, ⟨rfl, rfl⟩, _, _, ⟨_, rfl⟩, length, rfl⟩, _, rfl⟩
      exact ⟨length, rfl⟩
  shrinks _ ok := by
    simp only [take, bind_eq_ok, take_eq_ok, ensure_eq_ok, offset, Except.ok.injEq,
      Prod.mk.injEq] at ok
    obtain ⟨_, _, ⟨rfl, rfl⟩, _, _, ⟨_, rfl⟩, _, rfl⟩ := ok
    simp

theorem uvarFrom_same {start turns shift value : Nat} {read : Bytes} :
    Same size (Wire.Decoder.uvarFrom turns shift value read)
      (uvarFrom size certSection start turns shift value read) := by
  induction turns generalizing shift value read with
  | zero => exact Agrees.fail
  | succ turns ih =>
    refine byte_same.bind_same fun next => ?_
    dsimp only
    split
    · exact (Agrees.ensure rfl).bind_same fun _ => Agrees.pure trivial rfl
    · split
      · exact Agrees.fail
      · exact ih

theorem uvar_same : Same size Wire.Decoder.uvar (uvar size certSection) :=
  offset_right fun _ => uvarFrom_same

theorem usize_same : Same size Wire.Decoder.usize (usize size certSection) := uvar_same

theorem u32_same : Same size Wire.Decoder.u32 (u32 size certSection) :=
  offset_right fun _ => uvar_same.bind_same fun _ => (Agrees.ensure rfl).bind_same fun _ =>
    Agrees.pure trivial rfl

variable {kind' : ReferenceStructuralLimitKind} {kind : Wire.StructuralLimitKind}

theorem boundedLenFor_same {limit : Nat} :
    Same size (Wire.Decoder.boundedLenFor kind limit)
      (boundedLenFor size certSection kind' limit) :=
  offset_right fun _ => usize_same.bind_same fun _ => (Agrees.ensure rfl).bind_same fun _ =>
    Agrees.remaining.bind_same fun _ => (Agrees.ensure rfl).bind_same fun _ =>
      Agrees.pure trivial rfl

theorem boundedLen_same : Same size Wire.Decoder.boundedLen (boundedLen size certSection) :=
  boundedLenFor_same

section Vectors

variable {α β : Type} {p : Wire.Decoder α} {q : Decoder β} {forget : β → α} {accepted : β → Prop}

theorem located_agrees (h : Agrees size p q forget accepted) :
    Agrees size p (located size q) (fun located => forget located.value)
      fun located => accepted located.value := by
  refine offset_right fun start => ?_
  constructor
  · intro input small a rest
    simp only [bind_eq_ok, pure_eq_ok, h.same small a rest]
    constructor
    · rintro ⟨b, read, hb⟩
      exact ⟨⟨b, start⟩, ⟨b, rest, read, rfl, rfl⟩, hb⟩
    · rintro ⟨_, ⟨b, _, read, rfl, rfl⟩, hb⟩
      exact ⟨b, read, hb⟩
  · intro input rest b small ok
    obtain ⟨_, _, read, last⟩ := bind_eq_ok.mp ok
    obtain ⟨-, rfl⟩ := pure_eq_ok.mp last
    exact h.shrinks small read

theorem tableFor_agrees {limit : Nat} (h : Agrees size p q forget accepted) :
    Agrees size (Wire.Decoder.vecFor kind limit p) (tableFor size certSection kind' limit q)
      (List.map forget) fun items => ∀ item ∈ items, accepted item :=
  boundedLenFor_same.bind_same fun len => h.collectN len

theorem vec_agrees (h : Agrees size p q forget accepted) :
    Agrees size (Wire.Decoder.vec p) (vec size certSection q) (List.map forget)
      fun items => ∀ item ∈ items, accepted item :=
  boundedLen_same.bind_same fun len => h.collectN len

theorem vec_same {q : Decoder α} (h : Same size p q) :
    Same size (Wire.Decoder.vec p) (vec size certSection q) :=
  boundedLen_same.bind_same fun len => h.collectN_same len

theorem table_same {limit : Nat} {q : Decoder α} (h : Same size p q) :
    Agrees size (Wire.Decoder.vecFor kind limit p)
      (tableFor size certSection kind' limit (located size q)) (List.map Located.value)
      fun _ => True :=
  (tableFor_agrees (located_agrees h)).congr (fun _ => rfl) fun _ => by simp

theorem option_same {q : Decoder α} (h : Same size p q) :
    Same size (Wire.Decoder.option p) (option size certSection q) := by
  refine offset_right fun _ => byte_same.bind_same fun tag => ?_
  split
  · exact Agrees.pure trivial rfl
  · exact h.bind_same fun _ => Agrees.pure trivial rfl
  · first
    | exact Agrees.fail
    | split <;> first | exact Agrees.fail | contradiction

end Vectors

theorem usizeVec_same : Same size Wire.Decoder.usizeVec (usizeVec size certSection) :=
  vec_same usize_same

theorem string_same (small : size < 2 ^ 64) :
    Same size Wire.Decoder.string (string size certSection) := by
  refine usize_same.bind_same fun len => offset_right fun _ => ?_
  refine (take_same small _).bind_same fun bytes => ?_
  cases String.fromUTF8? ⟨bytes.toArray⟩ with
  | none => exact Agrees.fail
  | some value => exact Agrees.pure trivial rfl

theorem hash_same (small : size < 2 ^ 64) :
    Same size Wire.Decoder.hash (hash size certSection) := by
  refine offset_right fun _ => (take_same small _).bind_same fun bytes => ?_
  by_cases length : bytes.length = 32
  · have size : bytes.toArray.size = 32 := by simpa using length
    rw [dif_pos length, dif_pos size]
    exact Agrees.pure trivial rfl
  · have size : ¬bytes.toArray.size = 32 := by simpa using length
    rw [dif_neg length, dif_neg size]
    exact Agrees.fail

/-! ### Names -/

/-- The reference checker makes all checks of a component at once. -/
theorem nameComponent_agrees (small : size < 2 ^ 64) :
    Agrees size (nameComponent size certSection) Wire.Decoder.nameComponent id
      fun component => referenceNameComponentIsCanonical component = true where
  same {input} short component rest := by
    have text : Wire.Decoder.string input = .ok (component, rest) ↔
        string size certSection input = .ok (component, rest) := by
      simpa using (string_same small).same short component rest
    simp only [nameComponent, Wire.Decoder.nameComponent, bind_eq_ok, offset, ensure_eq_ok,
      pure_eq_ok, Bool.and_eq_true, Except.ok.injEq, Prod.mk.injEq, id_eq]
    constructor
    · rintro ⟨_, _, read, _, _, ⟨rfl, rfl⟩, _, _, ⟨nonempty, rfl⟩, _, _, ⟨undotted, rfl⟩, _, _,
        ⟨canonical, rfl⟩, rfl, rfl⟩
      exact ⟨_, ⟨_, _, text.mpr read, (), _, ⟨⟨nonempty, undotted⟩, rfl⟩, rfl, rfl⟩, canonical, rfl⟩
    · rintro ⟨_, ⟨_, _, read, _, _, ⟨⟨nonempty, undotted⟩, rfl⟩, rfl, rfl⟩, canonical, rfl⟩
      exact ⟨_, _, text.mp read, _, _, ⟨rfl, rfl⟩, (), _, ⟨nonempty, rfl⟩, (), _, ⟨undotted, rfl⟩,
        (), _, ⟨canonical, rfl⟩, rfl, rfl⟩
  shrinks _ ok := by
    rw [((Wire.Decoder.nameComponent_reads _ _ _).mp ok).2]
    simp

/-- What `ReferenceModuleName::new` checks again is that the components are canonical. -/
theorem validModuleName_iff {components : List String} :
    validModuleName components = true ↔ (⟨components⟩ : Name).isCanonical = true := by
  simp only [validModuleName, Name.isCanonical, referenceNameComponentIsCanonical,
    Bool.and_eq_true, List.all_eq_true]
  constructor
  · rintro ⟨⟨⟨nonempty, _⟩, _⟩, canonical⟩
    exact ⟨nonempty, canonical⟩
  · rintro ⟨nonempty, canonical⟩
    have plain {component : String} (mem : component ∈ components) :=
      Wire.Decoder.plain_of_isCanonicalNameComponent (canonical component mem)
    refine ⟨⟨⟨nonempty, fun component mem => ?_⟩, fun component mem => ?_⟩, canonical⟩
    · simp [(plain mem).1]
    · simpa using (plain mem).2

theorem name_same (small : size < 2 ^ 64) :
    Same size Wire.Decoder.name (name size certSection) := by
  refine boundedLen_same.bind_same fun len => offset_right fun _ => ?_
  refine (Agrees.ensure rfl).bind_same fun _ => ?_
  have parts : Agrees size (Parser.collectN (nameComponent size certSection) len)
      (Parser.collectN Wire.Decoder.nameComponent len) (List.map id) fun components =>
        ∀ component ∈ components, referenceNameComponentIsCanonical component = true :=
    (nameComponent_agrees small).collectN len
  have read {input : Bytes} (short : input.length ≤ size) (components : List String)
      (rest : Bytes) :
      Parser.collectN (nameComponent size certSection) len input = .ok (components, rest) ↔
        Parser.collectN Wire.Decoder.nameComponent len input = .ok (components, rest) ∧
          ∀ component ∈ components, referenceNameComponentIsCanonical component = true := by
    simpa using parts.same short components rest
  constructor
  · intro input short value rest
    simp only [bind_eq_ok, ensure_eq_ok, pure_eq_ok, offset, Except.ok.injEq, Prod.mk.injEq,
      validModuleName_iff, id_eq, true_and, exists_eq_right, read short]
    constructor
    · rintro ⟨components, _, first, _, _, ⟨canonical, rfl⟩, rfl, rfl⟩
      have each := canonical
      simp only [Name.isCanonical, Bool.and_eq_true, List.all_eq_true] at each
      exact ⟨components, _, ⟨first, each.2⟩, _, _, ⟨rfl, rfl⟩, (), _, ⟨canonical, rfl⟩, rfl, rfl⟩
    · rintro ⟨components, _, ⟨first, _⟩, _, _, ⟨rfl, rfl⟩, _, _, ⟨canonical, rfl⟩, rfl, rfl⟩
      exact ⟨components, _, first, (), _, ⟨canonical, rfl⟩, rfl, rfl⟩
  · intro input rest value short ok
    simp only [bind_eq_ok, ensure_eq_ok, pure_eq_ok, offset, Except.ok.injEq, Prod.mk.injEq,
      read short] at ok
    obtain ⟨_, _, ⟨first, _⟩, _, _, ⟨_, rfl⟩, _, _, ⟨_, rfl⟩, _, rfl⟩ := ok
    exact parts.shrinks short first

/-! ### References and tables -/

theorem globalRef_same (small : size < 2 ^ 64) :
    Same size Wire.Decoder.globalRef (globalRef size certSection) := by
  have hashes : Same size Wire.Decoder.hash (hash size certSection) := hash_same small
  refine offset_right fun _ => byte_same.bind_same fun tag => ?_
  split
  · exact usize_same.bind_same fun _ => hashes.bind_same fun _ => Agrees.pure trivial rfl
  · exact usize_same.bind_same fun _ => usize_same.bind_same fun _ => hashes.bind_same fun _ =>
      Agrees.pure trivial rfl
  · exact usize_same.bind_same fun _ => Agrees.pure trivial rfl
  · exact usize_same.bind_same fun _ => usize_same.bind_same fun _ => Agrees.pure trivial rfl
  · first
    | exact Agrees.fail
    | split <;> first | exact Agrees.fail | contradiction

theorem axiomRefs_same (small : size < 2 ^ 64) :
    Same size Wire.Decoder.axiomRefs (axiomRefs size certSection) :=
  vec_same <| (globalRef_same small).bind_same fun _ => usize_same.bind_same fun _ =>
    (hash_same small).bind_same fun _ => Agrees.pure trivial rfl

theorem reducibility_same : Same size Wire.Decoder.reducibility (reducibility size certSection) := by
  refine offset_right fun _ => byte_same.bind_same fun tag => ?_
  split
  · exact Agrees.pure trivial rfl
  · exact Agrees.pure trivial rfl
  · first
    | exact Agrees.fail
    | split <;> first | exact Agrees.fail | contradiction

theorem opacity_same : Same size Wire.Decoder.opacity (opacity size certSection) := by
  refine offset_right fun _ => byte_same.bind_same fun tag => ?_
  split
  · exact Agrees.pure trivial rfl
  · first
    | exact Agrees.fail
    | split <;> first | exact Agrees.fail | contradiction

theorem relation_same : Same size Wire.Decoder.relation (relation size certSection) := by
  refine offset_right fun _ => byte_same.bind_same fun tag => ?_
  split
  · exact Agrees.pure trivial rfl
  · exact Agrees.pure trivial rfl
  · first
    | exact Agrees.fail
    | split <;> first | exact Agrees.fail | contradiction

theorem universeConstraintSpecs_same :
    Same size Wire.Decoder.universeConstraintSpecs (universeConstraintSpecs size certSection) :=
  vec_same <| usize_same.bind_same fun _ => relation_same.bind_same fun _ =>
    usize_same.bind_same fun _ => Agrees.pure trivial rfl

/-- The reference checker compares the two strings one after the other, and again after the
header. -/
theorem header_same (small : size < 2 ^ 64) : Same size Wire.Decoder.header (do
    let header ← header size
    Parser.ensure
      (header.format = referenceCertificateFormat && header.coreSpec = referenceCoreSpec)
      (.malformed .headerFormat 0 .formatMismatch)
    pure header) := by
  simp only [header, bind_bind, pure_bind_eq]
  refine (string_same small).bind_same fun format => offset_right fun _ => ?_
  refine (string_same small).bind_same fun coreSpec => offset_right fun _ => ?_
  by_cases same : format = referenceCertificateFormat
  · by_cases same' : coreSpec = referenceCoreSpec
    · subst same same'
      exact (name_same small).bind_same fun module => Agrees.pure trivial rfl
    · have differ : coreSpec ≠ Wire.coreSpecName := same'
      simp only [same, same', differ, decide_true, decide_false, Bool.and_false, ensure_true_bind,
        ensure_false_bind]
      exact Agrees.fail
  · have differ : format ≠ Wire.formatName := same
    simp only [same, differ, decide_false, Bool.false_and, ensure_false_bind]
    exact Agrees.fail

theorem importEntry_same (small : size < 2 ^ 64) :
    Same size Wire.Decoder.importEntry (importEntry size) :=
  (name_same small).bind_same fun _ => (hash_same small).bind_same fun _ =>
    (option_same (hash_same small)).bind_same fun _ => Agrees.pure trivial rfl

theorem levelNode_same : Same size Wire.Decoder.levelNode (levelNode size) := by
  refine offset_right fun _ => byte_same.bind_same fun tag => ?_
  split
  · exact Agrees.pure trivial rfl
  · exact usize_same.bind_same fun _ => Agrees.pure trivial rfl
  · exact usize_same.bind_same fun _ => usize_same.bind_same fun _ => Agrees.pure trivial rfl
  · exact usize_same.bind_same fun _ => usize_same.bind_same fun _ => Agrees.pure trivial rfl
  · exact usize_same.bind_same fun _ => Agrees.pure trivial rfl
  · first
    | exact Agrees.fail
    | split <;> first | exact Agrees.fail | contradiction

theorem termNode_same (small : size < 2 ^ 64) :
    Same size Wire.Decoder.termNode (termNode size) := by
  refine offset_right fun _ => byte_same.bind_same fun tag => ?_
  split
  · exact usize_same.bind_same fun _ => Agrees.pure trivial rfl
  · exact u32_same.bind_same fun _ => Agrees.pure trivial rfl
  · exact (globalRef_same small).bind_same fun _ => usizeVec_same.bind_same fun _ =>
      Agrees.pure trivial rfl
  · exact usize_same.bind_same fun _ => usize_same.bind_same fun _ => Agrees.pure trivial rfl
  · exact usize_same.bind_same fun _ => usize_same.bind_same fun _ => Agrees.pure trivial rfl
  · exact usize_same.bind_same fun _ => usize_same.bind_same fun _ => Agrees.pure trivial rfl
  · first
    | exact Agrees.fail
    | split <;> first | exact Agrees.fail | contradiction

/-- The fast decoder does not compare the number of terms with the bytes that are left, but
a table that is longer than that cannot be read. -/
theorem termTable_agrees (small : size < 2 ^ 64) :
    Agrees size Wire.Decoder.termTable (termTable size) (List.map Located.value)
      fun _ => True := by
  have table : Agrees size (Wire.Decoder.vecFor .termTableNodes Wire.maxTermTableNodes
      Wire.Decoder.termNode) (termTable size) (List.map Located.value) fun _ => True :=
    table_same (termNode_same small)
  have nonempty (node : TermNode) : Wire.encodeTermNode node ≠ [] := by
    cases node <;> simp [Wire.encodeTermNode]
  exact table.congr_left fun input nodes rest => (Wire.Decoder.termTable_reads _ _ _).trans
    (Wire.Decoder.vecFor_reads _ (by decide) Wire.Decoder.termNode_reads nonempty _ _ _).symm

/-! ### Declarations -/

theorem binderTypes_same : Same size Wire.Decoder.binderTypes (binderTypes size) :=
  vec_same <| usize_same.bind_same fun _ => Agrees.pure trivial rfl

theorem constructorSpecs_same : Same size Wire.Decoder.constructorSpecs (constructorSpecs size) :=
  vec_same <| usize_same.bind_same fun _ => usize_same.bind_same fun _ => Agrees.pure trivial rfl

theorem recursorSpec_same : Same size Wire.Decoder.recursorSpec (recursorSpec size) :=
  option_same <| usize_same.bind_same fun _ => usizeVec_same.bind_same fun _ =>
    usize_same.bind_same fun _ => usize_same.bind_same fun _ => usize_same.bind_same fun _ =>
      Agrees.pure trivial rfl

theorem mutualInductive_same : Same size Wire.Decoder.mutualInductive (mutualInductive size) :=
  usize_same.bind_same fun _ => binderTypes_same.bind_same fun _ =>
    binderTypes_same.bind_same fun _ => usize_same.bind_same fun _ =>
      constructorSpecs_same.bind_same fun _ => recursorSpec_same.bind_same fun _ =>
        Agrees.pure trivial rfl

theorem declPayload_same : Same size Wire.Decoder.declPayload (declPayload size) := by
  have constraints : Same size Wire.Decoder.universeConstraintSpecs
      (universeConstraintSpecs size .declarations) := universeConstraintSpecs_same
  refine offset_right fun _ => byte_same.bind_same fun tag => ?_
  split
  · exact usize_same.bind_same fun _ => usizeVec_same.bind_same fun _ =>
      usize_same.bind_same fun _ => Agrees.pure trivial rfl
  · exact usize_same.bind_same fun _ => usizeVec_same.bind_same fun _ =>
      constraints.bind_same fun _ => usize_same.bind_same fun _ => Agrees.pure trivial rfl
  · exact usize_same.bind_same fun _ => usizeVec_same.bind_same fun _ =>
      usize_same.bind_same fun _ => usize_same.bind_same fun _ =>
        reducibility_same.bind_same fun _ => Agrees.pure trivial rfl
  · exact usize_same.bind_same fun _ => usizeVec_same.bind_same fun _ =>
      constraints.bind_same fun _ => usize_same.bind_same fun _ => usize_same.bind_same fun _ =>
        reducibility_same.bind_same fun _ => Agrees.pure trivial rfl
  · exact usize_same.bind_same fun _ => usizeVec_same.bind_same fun _ =>
      usize_same.bind_same fun _ => usize_same.bind_same fun _ =>
        opacity_same.bind_same fun _ => Agrees.pure trivial rfl
  · exact usize_same.bind_same fun _ => usizeVec_same.bind_same fun _ =>
      constraints.bind_same fun _ => usize_same.bind_same fun _ => usize_same.bind_same fun _ =>
        opacity_same.bind_same fun _ => Agrees.pure trivial rfl
  · exact usize_same.bind_same fun _ => usizeVec_same.bind_same fun _ =>
      binderTypes_same.bind_same fun _ => binderTypes_same.bind_same fun _ =>
        usize_same.bind_same fun _ => constructorSpecs_same.bind_same fun _ =>
          recursorSpec_same.bind_same fun _ => Agrees.pure trivial rfl
  · exact usize_same.bind_same fun _ => usizeVec_same.bind_same fun _ =>
      constraints.bind_same fun _ => binderTypes_same.bind_same fun _ =>
        binderTypes_same.bind_same fun _ => usize_same.bind_same fun _ =>
          constructorSpecs_same.bind_same fun _ => recursorSpec_same.bind_same fun _ =>
            Agrees.pure trivial rfl
  · exact usize_same.bind_same fun _ => usizeVec_same.bind_same fun _ =>
      constraints.bind_same fun _ => (vec_same mutualInductive_same).bind_same fun _ =>
        Agrees.pure trivial rfl
  · first
    | exact Agrees.fail
    | split <;> first | exact Agrees.fail | contradiction

end Decoder

/-! ### What a decoded certificate stands for -/

def DependencyEntry.toCert (entry : DependencyEntry) : Wire.DependencyEntry :=
  match entry.declCertificateHash with
  | none => .interface entry.globalRef entry.declInterfaceHash
  | some hash => .localImplementation entry.globalRef entry.declInterfaceHash hash

def DeclCert.toCert (cert : DeclCert) : Wire.DeclCert where
  decl := cert.decl
  dependencies := cert.dependencies.map DependencyEntry.toCert
  axiomDependencies := cert.axiomDependencies
  hashes := ⟨cert.hashes.declInterfaceHash, cert.hashes.declCertificateHash⟩

def DeclAxiomReport.toCert (report : DeclAxiomReport) : Wire.DeclAxiomReport where
  declIndex := report.declIndex
  directAxioms := report.directAxioms
  transitiveAxioms := report.transitiveAxioms

def ReferenceCoreFeature.toCert : ReferenceCoreFeature → Wire.CoreFeature := nofun

def AxiomReport.toCert (report : AxiomReport) : Wire.AxiomReport where
  perDeclaration := report.perDeclaration.map DeclAxiomReport.toCert
  moduleAxioms := report.moduleAxioms
  coreFeatures := report.coreFeatures.map ReferenceCoreFeature.toCert

/-- The certificate that the fast decoder makes of the same bytes: field by field the same,
without the offsets. -/
def DecodedModuleCertificate.toCert (cert : DecodedModuleCertificate) : Wire.ModuleCert where
  header := cert.header
  imports := cert.imports.map Located.value
  nameTable := cert.nameTable.map Located.value
  levelTable := cert.levelTable.map Located.value
  termTable := cert.termTable.map Located.value
  declarations := cert.declarations.map fun located => located.value.toCert
  exportBlock := cert.exportBlock.map Located.value
  axiomReport := cert.axiomReport.toCert
  hashes := cert.hashes

/-- The check of the order of dependencies lets the declaration pass. -/
def DeclCert.DependenciesOrdered (cert : DeclCert) : Prop :=
  strictOrder dependencyEntryOrderKey cert.dependencies = true

theorem dependencyEntryOrderKey_toCert (entry : DependencyEntry) :
    Wire.dependencyEntryOrderKey entry.toCert = dependencyEntryOrderKey entry := by
  obtain ⟨ref, hash, certificateHash, kind, agrees⟩ := entry
  cases certificateHash with
  | none =>
    cases kind with
    | interface => simp [DependencyEntry.toCert, Wire.dependencyEntryOrderKey, dependencyEntryOrderKey]
    | localImplementation => simp at agrees
  | some certificateHash =>
    cases kind with
    | interface => simp at agrees
    | localImplementation =>
      simp [DependencyEntry.toCert, Wire.dependencyEntryOrderKey, dependencyEntryOrderKey]

theorem strictlyOrdered_toCert (entries : List DependencyEntry) :
    Wire.strictlyOrdered (entries.map DependencyEntry.toCert) =
      strictOrder dependencyEntryOrderKey entries := by
  induction entries with
  | nil => rfl
  | cons first rest ih =>
    cases rest with
    | nil => rfl
    | cons second rest =>
      rw [List.map_cons, List.map_cons, Wire.strictlyOrdered, strictOrder, ← List.map_cons, ih,
        dependencyEntryOrderKey_toCert, dependencyEntryOrderKey_toCert]

theorem validateDependencyOrders_eq_ok {cert : DecodedModuleCertificate} {u : Unit} :
    validateDependencyOrders cert = .ok u ↔
      ∀ located ∈ cert.declarations, located.value.DependenciesOrdered := by
  simp [validateDependencyOrders, Result.forEach_eq_ok, DeclCert.DependenciesOrdered]

namespace Decoder

variable {size : Nat} {certSection : ReferenceCertificateSection}

theorem dependencyEntry_agrees (small : size < 2 ^ 64) :
    Agrees size Wire.Decoder.dependencyEntry (dependencyEntry size certSection)
      DependencyEntry.toCert fun _ => True := by
  have hashes : Same size Wire.Decoder.hash (hash size certSection) := hash_same small
  refine byte_same.bind_same fun tag => ?_
  split
  · exact (globalRef_same small).bind_same fun _ => hashes.bind_same fun _ =>
      Agrees.pure trivial rfl
  · exact (globalRef_same small).bind_same fun _ => hashes.bind_same fun _ =>
      hashes.bind_same fun _ => Agrees.pure trivial rfl
  · first
    | exact offset_right fun _ => Agrees.fail
    | split <;> first | exact offset_right fun _ => Agrees.fail | contradiction

theorem dependencyEntries_agrees (small : size < 2 ^ 64) :
    Agrees size Wire.Decoder.dependencyEntries (dependencyEntries size certSection)
      (List.map DependencyEntry.toCert)
      fun entries => strictOrder dependencyEntryOrderKey entries = true := by
  refine ((vec_agrees (dependencyEntry_agrees small)).check _).congr (fun _ => rfl) fun entries => ?_
  simp [strictlyOrdered_toCert]

/-- Only the order of the dependencies is left for later. -/
theorem declaration_agrees (small : size < 2 ^ 64) :
    Agrees size Wire.Decoder.declaration (declaration size) DeclCert.toCert
      DeclCert.DependenciesOrdered := by
  have hashes : Same size Wire.Decoder.hash (hash size .declarations) := hash_same small
  refine declPayload_same.bind_same fun decl => ?_
  refine (dependencyEntries_agrees small).bind_kept (fun _ => True) (fun entries => ?_)
    fun entries => ?_
  · refine (axiomRefs_same small).bind_same fun _ => offset_right fun _ => ?_
    refine hashes.bind_same fun _ => offset_right fun _ => ?_
    exact hashes.bind_same fun _ => Agrees.pure trivial rfl
  · refine Yields.bind fun _ => Yields.bind fun _ => Yields.bind fun _ => Yields.bind fun _ => ?_
    exact Yields.bind fun _ => Yields.pure (and_true _).symm.to_iff

/-! ### Exports and reports -/

theorem exportKind_same : Same size Wire.Decoder.exportKind (exportKind size) := by
  refine offset_right fun _ => byte_same.bind_same fun tag => ?_
  split
  · exact Agrees.pure trivial rfl
  · exact Agrees.pure trivial rfl
  · exact Agrees.pure trivial rfl
  · exact Agrees.pure trivial rfl
  · exact Agrees.pure trivial rfl
  · exact Agrees.pure trivial rfl
  · first
    | exact Agrees.fail
    | split <;> first | exact Agrees.fail | contradiction

theorem exportEntry_same (small : size < 2 ^ 64) :
    Same size Wire.Decoder.exportEntry (exportEntry size) := by
  have hashes : Same size Wire.Decoder.hash (hash size .exportBlock) := hash_same small
  refine usize_same.bind_same fun _ => exportKind_same.bind_same fun _ => ?_
  refine usizeVec_same.bind_same fun _ => universeConstraintSpecs_same.bind_same fun _ => ?_
  refine usize_same.bind_same fun _ => (option_same usize_same).bind_same fun _ => ?_
  refine hashes.bind_same fun _ => (option_same hashes).bind_same fun _ => ?_
  refine (option_same reducibility_same).bind_same fun _ => ?_
  refine (option_same opacity_same).bind_same fun _ => hashes.bind_same fun _ => ?_
  exact (axiomRefs_same small).bind_same fun _ => Agrees.pure trivial rfl

theorem declAxiomReport_agrees (small : size < 2 ^ 64) :
    Agrees size Wire.Decoder.declAxiomReport (declAxiomReport size) DeclAxiomReport.toCert
      fun _ => True :=
  offset_right fun _ => usize_same.bind_same fun _ => (axiomRefs_same small).bind_same fun _ =>
    (axiomRefs_same small).bind_same fun _ => Agrees.pure trivial rfl

/-- Neither decoder knows a feature. -/
theorem coreFeature_agrees (small : size < 2 ^ 64) (start : Nat) :
    Agrees size Wire.Decoder.coreFeature (coreFeature size start) ReferenceCoreFeature.toCert
      fun _ => True :=
  (string_same small).bind_same fun _ => Agrees.fail

theorem coreFeatures_agrees (small : size < 2 ^ 64) :
    Agrees size Wire.Decoder.coreFeatures (coreFeatures size)
      (List.map ReferenceCoreFeature.toCert) fun _ => True := by
  refine offset_right fun start => (string_same small).bind_same fun _ => ?_
  refine (Agrees.ensure rfl).bind_same fun _ => boundedLen_same.bind_same fun len => ?_
  refine (Agrees.ensure rfl).bind_same fun _ => ?_
  exact ((coreFeature_agrees small start).collectN len).congr (fun _ => rfl) fun _ => by simp

/-! ### Modules -/

theorem hashes_agrees (small : size < 2 ^ 64) (header : CertHeader)
    (imports : List (Located ImportEntry)) (nameTable : List (Located Name))
    (levelTable : List (Located LevelNode)) (termTable : List (Located TermNode))
    (declarations : List (Located DeclCert)) (exportBlock : List (Located ExportEntry))
    (axiomReport : AxiomReport) :
    Agrees size (Wire.Decoder.moduleHashes >>= fun hashes => pure
      ⟨header, imports.map Located.value, nameTable.map Located.value,
        levelTable.map Located.value, termTable.map Located.value,
        declarations.map fun located => located.value.toCert, exportBlock.map Located.value,
        axiomReport.toCert, hashes⟩)
      (do
        let exportHashOffset ← offset size
        let exportHash ← hash size .hashes
        let axiomReportHashOffset ← offset size
        let axiomReportHash ← hash size .hashes
        let certificateHashOffset ← offset size
        let certificateHash ← hash size .hashes
        pure ⟨header, imports, nameTable, levelTable, termTable, declarations, exportBlock,
          axiomReport, ⟨exportHash, axiomReportHash, certificateHash⟩,
          ⟨exportHashOffset, axiomReportHashOffset, certificateHashOffset⟩⟩)
      DecodedModuleCertificate.toCert fun _ => True := by
  have hashes : Same size Wire.Decoder.hash (hash size .hashes) := hash_same small
  simp only [Wire.Decoder.moduleHashes, bind_bind, pure_bind_eq]
  refine offset_right fun _ => hashes.bind_same fun _ => ?_
  refine offset_right fun _ => hashes.bind_same fun _ => ?_
  exact offset_right fun _ => hashes.bind_same fun _ => Agrees.pure trivial rfl

/-- The fast decoder reads the report and the features apart from each other. -/
theorem axiomReport_agrees (small : size < 2 ^ 64) : Agrees size (do
      let perDeclaration ← Wire.Decoder.vecFor .declarations Wire.maxDeclarations
        Wire.Decoder.declAxiomReport
      let moduleAxioms ← Wire.Decoder.axiomRefs
      let coreFeatures ← Wire.Decoder.optionalCoreFeatures
      pure ⟨perDeclaration, moduleAxioms, coreFeatures⟩)
    (axiomReportWithCoreFeatures size) AxiomReport.toCert fun _ => True := by
  simp only [axiomReportWithCoreFeatures, axiomReport, Wire.Decoder.optionalCoreFeatures, bind_bind,
    pure_bind_eq]
  have reports : Agrees size
      (Wire.Decoder.vecFor .declarations Wire.maxDeclarations Wire.Decoder.declAxiomReport)
      (tableFor size .axiomReport .declarations maxDeclarations (declAxiomReport size))
      (List.map DeclAxiomReport.toCert) fun _ => True :=
    (tableFor_agrees (declAxiomReport_agrees small)).congr (fun _ => rfl) fun _ => by simp
  refine reports.bind fun reports => ?_
  refine offset_right fun _ => (axiomRefs_same small).bind_same fun _ => ?_
  refine Agrees.remaining.bind_same fun remaining => ?_
  by_cases report : hasCoreFeatureReport remaining
  · have report' : Wire.Decoder.hasCoreFeatureReport remaining = true := report
    rw [if_pos report, if_pos report']
    refine offset_right fun _ => (coreFeatures_agrees small).bind fun features => ?_
    exact Agrees.pure trivial rfl
  · have report' : ¬Wire.Decoder.hasCoreFeatureReport remaining = true := report
    rw [if_neg report, if_neg report']
    exact Agrees.pure trivial rfl

/-- All that the reference decoder leaves for later is the order of the dependencies of
each declaration. -/
theorem moduleCertificate_agrees (small : size < 2 ^ 64) :
    Agrees size Wire.Decoder.moduleCertParts (moduleCertificate size)
      DecodedModuleCertificate.toCert
      fun cert => ∀ located ∈ cert.declarations, located.value.DependenciesOrdered := by
  have declarationTable : Agrees size
      (Wire.Decoder.vecFor .declarations Wire.maxDeclarations Wire.Decoder.declaration)
      (declarations size) (List.map fun located => located.value.toCert)
      fun table => ∀ located ∈ table, located.value.DependenciesOrdered :=
    tableFor_agrees (located_agrees (declaration_agrees small))
  -- both decoders regrouped, so that each part of the one stands against a part of the other
  have reorder : Wire.Decoder.moduleCertParts = (do
      let header ← Wire.Decoder.header
      let imports ← Wire.Decoder.vecFor .imports Wire.maxImports Wire.Decoder.importEntry
      let nameTable ← Wire.Decoder.vecFor .nameTableEntries Wire.maxNameTableEntries
        Wire.Decoder.name
      let levelTable ← Wire.Decoder.vecFor .levelTableNodes Wire.maxLevelTableNodes
        Wire.Decoder.levelNode
      let termTable ← Wire.Decoder.termTable
      let declarations ← Wire.Decoder.vecFor .declarations Wire.maxDeclarations
        Wire.Decoder.declaration
      let exportBlock ← Wire.Decoder.vecFor .exports Wire.maxExports Wire.Decoder.exportEntry
      let axiomReport ← (do
        let perDeclaration ← Wire.Decoder.vecFor .declarations Wire.maxDeclarations
          Wire.Decoder.declAxiomReport
        let moduleAxioms ← Wire.Decoder.axiomRefs
        let coreFeatures ← Wire.Decoder.optionalCoreFeatures
        pure ⟨perDeclaration, moduleAxioms, coreFeatures⟩)
      let hashes ← Wire.Decoder.moduleHashes
      pure ⟨header, imports, nameTable, levelTable, termTable, declarations, exportBlock,
        axiomReport, hashes⟩) := by
    simp only [Wire.Decoder.moduleCertParts, bind_bind, pure_bind_eq]
  have reorder' : moduleCertificate size = (do
      let header ← (do
        let header ← header size
        Parser.ensure
          (header.format = referenceCertificateFormat && header.coreSpec = referenceCoreSpec)
          (.malformed .headerFormat 0 .formatMismatch)
        pure header)
      let imports ← imports size
      let nameTable ← nameTable size
      let levelTable ← levelTable size
      let termTable ← termTable size
      let declarations ← declarations size
      let exportBlock ← exportBlock size
      let axiomReport ← axiomReportWithCoreFeatures size
      let exportHashOffset ← offset size
      let exportHash ← hash size .hashes
      let axiomReportHashOffset ← offset size
      let axiomReportHash ← hash size .hashes
      let certificateHashOffset ← offset size
      let certificateHash ← hash size .hashes
      pure ⟨header, imports, nameTable, levelTable, termTable, declarations, exportBlock,
        axiomReport, ⟨exportHash, axiomReportHash, certificateHash⟩,
        ⟨exportHashOffset, axiomReportHashOffset, certificateHashOffset⟩⟩) := by
    simp only [moduleCertificate, bind_bind, pure_bind_eq]
  rw [reorder, reorder']
  refine (header_same small).bind_same fun _ => ?_
  refine (table_same (importEntry_same small)).bind fun _ => ?_
  refine (table_same (name_same small)).bind fun _ => ?_
  refine (table_same levelNode_same).bind fun _ => ?_
  refine (termTable_agrees small).bind fun _ => ?_
  refine declarationTable.bind_kept (fun _ => True) (fun _ => ?_) fun _ => ?_
  · refine (table_same (exportEntry_same small)).bind fun _ => ?_
    exact (axiomReport_agrees small).bind fun _ => hashes_agrees small _ _ _ _ _ _ _ _
  · refine Yields.bind fun _ => Yields.bind fun _ => Yields.bind fun _ => Yields.bind fun _ => ?_
    refine Yields.bind fun _ => Yields.bind fun _ => Yields.bind fun _ => Yields.bind fun _ => ?_
    exact Yields.pure (and_true _).symm.to_iff

end Decoder

/-- The fast decoder has no check for it. -/
theorem moduleCertParts_nil : Wire.Decoder.moduleCertParts [] = .error .decodeError := rfl

/-- The two decoders read the same certificates, the one of the reference checker together
with its later check of the order of dependencies. -/
theorem decoders_agree (bytes : Bytes) (cert : Wire.ModuleCert) :
    Wire.decodeModuleCert bytes = .ok cert ↔
      ∃ decoded, decodeModuleCertificate bytes = .ok decoded ∧
        validateDependencyOrders decoded = .ok () ∧ decoded.toCert = cert := by
  have limits : Wire.maxCertificateBytes = maxCertificateBytes := rfl
  simp only [Wire.decodeModuleCert, decodeModuleCertificate, Result.bind_eq_ok, Result.ensure_eq_ok,
    decide_eq_true_eq, validateDependencyOrders_eq_ok, Prod.exists, Except.ok.injEq, limits]
  constructor
  · rintro ⟨_, short, parts, rest, read, _, ended, rfl⟩
    have small : bytes.length < 2 ^ 64 := lt_of_le_of_lt short (by decide)
    obtain ⟨decoded, read', ordered, rfl⟩ :=
      ((Decoder.moduleCertificate_agrees small).same (Nat.le_refl _) _ _).mp read
    have nonempty : (!bytes.isEmpty) = true := by
      cases bytes with
      | nil => rw [moduleCertParts_nil] at read; cases read
      | cons => rfl
    exact ⟨decoded, ⟨(), short, (), nonempty, decoded, rest, read', (), ended, rfl⟩, ordered, rfl⟩
  · rintro ⟨decoded, ⟨_, short, _, _, _, rest, read, _, ended, rfl⟩, ordered, rfl⟩
    have small : bytes.length < 2 ^ 64 := lt_of_le_of_lt short (by decide)
    have read' := ((Decoder.moduleCertificate_agrees small).same (Nat.le_refl _) _ _).mpr
      ⟨_, read, ordered, rfl⟩
    exact ⟨(), short, _, rest, read', (), ended, rfl⟩

end NpaCore.Reference
