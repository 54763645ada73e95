import NpaCore.Kernel.Universe
import NpaCore.Wire.LevelNormality
import NpaCore.Wire.Scope

/-!
# The validation of the tables

`verify_tables` of `npa-cert/src/verify.rs` goes over a table once: it encodes the key of a
node from the hashes before it, compares the key with the one of the node before, and hashes
it. The passes that it replaced are kept as an oracle. They hash the whole table first and
look at the order of the keys afterwards, with heights that are checked again.

## Main results

* `verifyTables_accepts`: the hashes of a certificate that passes, and the order of its keys.
* `verifyTables_eq_legacyTableOracle`: the answers are the same, and so are the errors.
-/

namespace NpaCore.Wire

open NpaCore.Result NpaCore.ForwardPass

/-! ### Hashes -/

/-- `hash_with_domain`. -/
def hashWithDomain (sha256 : Bytes → Hash) (domain : String) (payload : Bytes) : Hash :=
  sha256 (domain.toUTF8.toList ++ payload)

/-- `BUILTIN_NAT` and the constants after it, with their tags. -/
def builtinTag : String → Option String
  | "Nat" => some "npa.machine-tactic.builtin.nat.v1"
  | "Nat.zero" => some "npa.machine-tactic.builtin.nat.zero.v1"
  | "Nat.succ" => some "npa.machine-tactic.builtin.nat.succ.v1"
  | "Nat.rec" => some "npa.machine-tactic.builtin.nat.rec.v1"
  | "Eq" => some "npa.machine-tactic.builtin.eq.v1"
  | "Eq.refl" => some "npa.machine-tactic.builtin.eq.refl.v1"
  | "Eq.rec" => some "npa.machine-tactic.builtin.eq.rec.v1"
  | _ => none

def builtinDeclInterfaceHash (sha256 : Bytes → Hash) (name : Name) : Option Hash :=
  (builtinTag name.asDotted).map fun tag =>
    hashWithDomain sha256 "NPA-BUILTIN-INTERFACE-0.1" tag.toUTF8.toList

/-! ### The order of imports and names -/

/-- The derived order of `Name`. -/
def Name.cmp (lhs rhs : Name) : Ordering := compare lhs.components rhs.components

/-- The order of the triples of module, export hash and certificate hash. -/
def importCmp (lhs rhs : ImportEntry) : Ordering :=
  (lhs.module.cmp rhs.module).then
    ((compare lhs.exportHash rhs.exportHash).then (compare lhs.certificateHash rhs.certificateHash))

/-- `windows(2).all(|pair| pair[0] < pair[1])`. -/
def strictlyIncreasing {α : Type} (cmp : α → α → Ordering) : List α → Bool
  | first :: second :: rest => (cmp first second).isLT && strictlyIncreasing cmp (second :: rest)
  | _ => true

def verifyImportOrdering (cert : ModuleCert) : CertResult Unit :=
  Result.ensure (strictlyIncreasing importCmp cert.imports) (.nonCanonicalEncoding "Imports")

def verifyNameOrdering (cert : ModuleCert) : CertResult Unit :=
  Result.ensure (strictlyIncreasing Name.cmp cert.nameTable) (.nonCanonicalEncoding "NameTable")

/-! ### References of terms -/

def globalRefIsInRange (sha256 : Bytes → Hash) (cert : ModuleCert) : GlobalRef → Bool
  | .builtin name declInterfaceHash =>
    (cert.nameTable[name.toNat]?).any fun name =>
      builtinDeclInterfaceHash sha256 name == some declInterfaceHash
  | .imported importIndex name _ =>
    importIndex.toNat < cert.imports.length && name.toNat < cert.nameTable.length
  | .local declIndex => declIndex.toNat < cert.declarations.length
  | .localGenerated declIndex name =>
    declIndex.toNat < cert.declarations.length && name.toNat < cert.nameTable.length

/-- What `validate_term_references` has seen. -/
structure ValidatedTermReferences (sha256 : Bytes → Hash) (cert : ModuleCert) : Prop where
  ordered : Ordered TermNode.children cert.termTable
  levels : ∀ node ∈ cert.termTable, ∀ level ∈ node.levels, level.toNat < cert.levelTable.length
  globalRefs : ∀ globalRef ids, .const globalRef ids ∈ cert.termTable →
    globalRefIsInRange sha256 cert globalRef = true

/-- The condition on the order of the nodes. -/
def termOrderOk (index : Nat) : TermNode → Bool
  | .sort _ | .bvar _ | .const _ _ => true
  | .app fn arg => fn.toNat < index && arg.toNat < index
  | .lam ty body | .pi ty body => ty.toNat < index && body.toNat < index

/-- The condition on what else a node refers to. -/
def termReferencesOk (sha256 : Bytes → Hash) (cert : ModuleCert) : TermNode → Bool
  | .sort level => level.toNat < cert.levelTable.length
  | .const globalRef levels =>
    globalRefIsInRange sha256 cert globalRef &&
      levels.all fun level => level.toNat < cert.levelTable.length
  | _ => true

/-- The loop of `validate_term_references`. -/
def checkTermReferences (sha256 : Bytes → Hash) (cert : ModuleCert) : CertResult Unit :=
  Result.forEach cert.termTable.zipIdx fun entry =>
    Result.ensure (termOrderOk entry.2 entry.1 && termReferencesOk sha256 cert entry.1)
      (.nonCanonicalEncoding "TermTable")

theorem termOrderOk_iff {index : Nat} {node : TermNode} :
    termOrderOk index node = true ↔ ∀ child ∈ node.children, child < index := by
  cases node <;> simp [termOrderOk, TermNode.children, TermNode.terms]

variable {cert : ModuleCert} {sha256 : Bytes → Hash}

theorem termReferencesOk_iff {node : TermNode} :
    termReferencesOk sha256 cert node = true ↔
      (∀ level ∈ node.levels, level.toNat < cert.levelTable.length) ∧
        ∀ globalRef ids, node = .const globalRef ids →
          globalRefIsInRange sha256 cert globalRef = true := by
  cases node <;> simp [termReferencesOk, TermNode.levels, and_comm]

theorem checkTermReferences_eq_ok_iff {u : Unit} :
    checkTermReferences sha256 cert = .ok u ↔ ValidatedTermReferences sha256 cert := by
  simp only [checkTermReferences, forEach_eq_ok, ensure_eq_ok, Prod.forall, Bool.and_eq_true,
    List.mem_zipIdx_iff_getElem?, termOrderOk_iff, termReferencesOk_iff]
  constructor
  · intro checked
    constructor
    · exact fun index node at_index => (checked node index at_index).1
    · intro node mem
      obtain ⟨index, at_index⟩ := List.mem_iff_getElem?.mp mem
      exact (checked node index at_index).2.1
    · intro globalRef ids mem
      obtain ⟨index, at_index⟩ := List.mem_iff_getElem?.mp mem
      exact (checked _ index at_index).2.2 globalRef ids rfl
  · rintro ⟨ordered, levels, globalRefs⟩ node index at_index
    have mem := List.mem_of_getElem? at_index
    refine ⟨ordered index node at_index, levels node mem, ?_⟩
    rintro globalRef ids rfl
    exact globalRefs globalRef ids mem

def validateTermReferences (sha256 : Bytes → Hash) (cert : ModuleCert) :
    CertResult (PLift (ValidatedTermReferences sha256 cert)) :=
  match checked : checkTermReferences sha256 cert with
  | .ok _ => .ok ⟨checkTermReferences_eq_ok_iff.mp checked⟩
  | .error e => .error e

/-! ### Heights -/

/-- The height of the child. A child that is missing would stop the program; the references
    have been validated. -/
def childHeight (heights : List Nat) (index : Id) : Nat := heights.getD index.toNat 0

def levelNodeHeight (heights : List Nat) : LevelNode → Nat
  | .zero | .param _ => 0
  | .succ inner => childHeight heights inner + 1
  | .max lhs rhs | .imax lhs rhs => max (childHeight heights lhs) (childHeight heights rhs) + 1

def levelNodeHeights (cert : ModuleCert) (_references : ValidatedLevelReferences cert) : List Nat :=
  runTotal levelNodeHeight [] cert.levelTable

def termNodeHeight (heights : List Nat) : TermNode → Nat
  | .sort _ | .bvar _ | .const _ _ => 0
  | .app fn arg => max (childHeight heights fn) (childHeight heights arg) + 1
  | .lam ty body | .pi ty body => max (childHeight heights ty) (childHeight heights body) + 1

def termNodeHeights (sha256 : Bytes → Hash) (cert : ModuleCert)
    (_references : ValidatedTermReferences sha256 cert) : List Nat :=
  runTotal termNodeHeight [] cert.termTable

/-- `level_heights` of the oracle. -/
def legacyLevelHeight (heights : List Nat) : LevelNode → CertResult Nat
  | .zero | .param _ => .ok 0
  | .succ inner => do
    let inner ← checkedChild heights inner
    .ok (inner + 1)
  | .max lhs rhs | .imax lhs rhs => do
    let lhs ← checkedChild heights lhs
    let rhs ← checkedChild heights rhs
    .ok (max lhs rhs + 1)

def legacyLevelHeights (table : List LevelNode) : CertResult (List Nat) :=
  run legacyLevelHeight [] table

/-- `term_heights` of the oracle. -/
def legacyTermHeight (heights : List Nat) : TermNode → CertResult Nat
  | .sort _ | .bvar _ | .const _ _ => .ok 0
  | .app fn arg => do
    let fn ← checkedChild heights fn
    let arg ← checkedChild heights arg
    .ok (max fn arg + 1)
  | .lam ty body | .pi ty body => do
    let ty ← checkedChild heights ty
    let body ← checkedChild heights body
    .ok (max ty body + 1)

def legacyTermHeights (table : List TermNode) : CertResult (List Nat) :=
  run legacyTermHeight [] table

variable {heights : List Nat}

theorem checkedChild_eq_childHeight {index : Id} (inside : index.toNat < heights.length) :
    checkedChild heights index = .ok (childHeight heights index) := by
  rw [checkedChild_eq_ok, childHeight, List.getD_eq_getElem?_getD,
    List.getElem?_eq_getElem inside, Option.getD_some]

theorem legacyLevelHeight_eq {node : LevelNode}
    (inside : ∀ child ∈ node.children, child < heights.length) :
    legacyLevelHeight heights node = .ok (levelNodeHeight heights node) := by
  cases node with
  | zero | param _ => rfl
  | succ inner =>
    have there := checkedChild_eq_childHeight (inside inner.toNat (by simp [LevelNode.children,
      LevelNode.levels]))
    rw [legacyLevelHeight, there, ok_bind, levelNodeHeight]
  | max lhs rhs | imax lhs rhs =>
    have left := checkedChild_eq_childHeight (inside lhs.toNat (by simp [LevelNode.children,
      LevelNode.levels]))
    have right := checkedChild_eq_childHeight (inside rhs.toNat (by simp [LevelNode.children,
      LevelNode.levels]))
    rw [legacyLevelHeight, left, ok_bind, right, ok_bind, levelNodeHeight]

theorem legacyTermHeight_eq {node : TermNode}
    (inside : ∀ child ∈ node.children, child < heights.length) :
    legacyTermHeight heights node = .ok (termNodeHeight heights node) := by
  cases node with
  | sort _ | bvar _ | const _ _ => rfl
  | app lhs rhs | lam lhs rhs | pi lhs rhs =>
    have left := checkedChild_eq_childHeight (inside lhs.toNat (by simp [TermNode.children,
      TermNode.terms]))
    have right := checkedChild_eq_childHeight (inside rhs.toNat (by simp [TermNode.children,
      TermNode.terms]))
    rw [legacyTermHeight, left, ok_bind, right, ok_bind, termNodeHeight]

theorem legacyLevelHeights_eq (references : ValidatedLevelReferences cert) :
    legacyLevelHeights cert.levelTable = .ok (levelNodeHeights cert references) := by
  apply run_eq_runTotal fun _ _ => legacyLevelHeight_eq
  exact ordered_iff_from.mp references.ordered

theorem legacyTermHeights_eq (references : ValidatedTermReferences sha256 cert) :
    legacyTermHeights cert.termTable = .ok (termNodeHeights sha256 cert references) := by
  apply run_eq_runTotal fun _ _ => legacyTermHeight_eq
  exact ordered_iff_from.mp references.ordered

/-! ### Keys -/

/-- `level_node_key`. The sinks write names and numbers as the encoder of certificates does. -/
def levelNodeKey (names : List Name) (childHashes : List Hash) : LevelNode → CertResult Bytes
  | .zero => .ok [0x00]
  | .succ inner => do
    let inner ← checkedChild childHashes inner
    .ok (0x01 :: encodeHash inner)
  | .max lhs rhs => do
    let lhs ← checkedChild childHashes lhs
    let rhs ← checkedChild childHashes rhs
    .ok (0x02 :: encodeHash lhs ++ encodeHash rhs)
  | .imax lhs rhs => do
    let lhs ← checkedChild childHashes lhs
    let rhs ← checkedChild childHashes rhs
    .ok (0x03 :: encodeHash lhs ++ encodeHash rhs)
  | .param name => do
    let name ← checkedChild names name
    .ok (0x04 :: encodeName name)

/-- `term_node_key`. -/
def termNodeKey (levelHashes childHashes : List Hash) : TermNode → CertResult Bytes
  | .sort level => do
    let level ← checkedChild levelHashes level
    .ok (0x00 :: encodeHash level)
  | .bvar index => .ok (0x01 :: encodeUvar index.toUInt64)
  | .const globalRef levels => do
    let hashes ← Result.collect levels (checkedChild levelHashes)
    .ok (0x02 :: encodeGlobalRef globalRef ++ encodeLen levels ++ hashes.flatMap encodeHash)
  | .app fn arg => do
    let fn ← checkedChild childHashes fn
    let arg ← checkedChild childHashes arg
    .ok (0x03 :: encodeHash fn ++ encodeHash arg)
  | .lam ty body => do
    let ty ← checkedChild childHashes ty
    let body ← checkedChild childHashes body
    .ok (0x04 :: encodeHash ty ++ encodeHash body)
  | .pi ty body => do
    let ty ← checkedChild childHashes ty
    let body ← checkedChild childHashes body
    .ok (0x05 :: encodeHash ty ++ encodeHash body)

def levelHash (sha256 : Bytes → Hash) : Bytes → Hash := hashWithDomain sha256 "NPA-LEVEL-0.1"

def termHash (sha256 : Bytes → Hash) : Bytes → Hash := hashWithDomain sha256 "NPA-TERM-0.1"

def computeLevelHashes (sha256 : Bytes → Hash) (names : List Name) (levels : List LevelNode) :
    CertResult (List Hash) :=
  run (keyStep (levelNodeKey names) (levelHash sha256)) [] levels

def computeTermHashes (sha256 : Bytes → Hash) (levelHashes : List Hash) (terms : List TermNode) :
    CertResult (List Hash) :=
  run (keyStep (termNodeKey levelHashes) (termHash sha256)) [] terms

theorem checkedChild_append {α : Type} {done : List α} {index : Id} {value : α} (more : List α)
    (found : checkedChild done index = .ok value) :
    checkedChild (done ++ more) index = .ok value := by
  rw [checkedChild_eq_ok] at found ⊢
  rw [List.getElem?_append_left (List.getElem?_eq_some_iff.mp found).1, found]

theorem levelNodeKey_stable (names : List Name) : Stable (levelNodeKey names) := by
  intro done more node key found
  cases node with
  | zero | param _ => exact found
  | succ inner =>
    obtain ⟨hash, there, rest⟩ := bind_eq_ok.mp found
    rw [levelNodeKey, checkedChild_append more there, ok_bind]
    exact rest
  | max lhs rhs | imax lhs rhs =>
    obtain ⟨left, at_lhs, rest⟩ := bind_eq_ok.mp found
    obtain ⟨right, at_rhs, rest⟩ := bind_eq_ok.mp rest
    rw [levelNodeKey, checkedChild_append more at_lhs, ok_bind, checkedChild_append more at_rhs,
      ok_bind]
    exact rest

theorem termNodeKey_stable (levelHashes : List Hash) : Stable (termNodeKey levelHashes) := by
  intro done more node key found
  cases node with
  | sort _ | bvar _ | const _ _ => exact found
  | app lhs rhs | lam lhs rhs | pi lhs rhs =>
    obtain ⟨left, at_lhs, rest⟩ := bind_eq_ok.mp found
    obtain ⟨right, at_rhs, rest⟩ := bind_eq_ok.mp rest
    rw [termNodeKey, checkedChild_append more at_lhs, ok_bind, checkedChild_append more at_rhs,
      ok_bind]
    exact rest

/-- Once the references are validated only a child can be missing. -/
theorem levelNodeKey_isOk_iff (references : ValidatedLevelReferences cert)
    {node : LevelNode} (mem : node ∈ cert.levelTable) (done : List Hash) :
    (∃ key, levelNodeKey cert.nameTable done node = .ok key) ↔
      ∀ child ∈ node.children, child < done.length := by
  cases node with
  | zero => simp [levelNodeKey, LevelNode.children, LevelNode.levels]
  | param name =>
    obtain ⟨entry, there⟩ := checkedChild_isOk_iff.mpr (references.names name mem)
    simp [levelNodeKey, LevelNode.children, LevelNode.levels, there, ok_bind]
  | succ inner => exact checkedOne_isOk_iff
  | max lhs rhs | imax lhs rhs => exact checkedPair_isOk_iff

theorem termNodeKey_isOk_iff {levelHashes : List Hash} {node : TermNode}
    (levelsFound : ∀ level ∈ node.levels, level.toNat < levelHashes.length) (done : List Hash) :
    (∃ key, termNodeKey levelHashes done node = .ok key) ↔
      ∀ child ∈ node.children, child < done.length := by
  cases node with
  | sort level =>
    obtain ⟨hash, there⟩ := checkedChild_isOk_iff.mpr (levelsFound level (by simp [TermNode.levels]))
    simp [termNodeKey, TermNode.children, TermNode.terms, there, ok_bind]
  | bvar index => simp [termNodeKey, TermNode.children, TermNode.terms]
  | const globalRef ids =>
    obtain ⟨hashes, there⟩ := collect_checkedChild_isOk_iff.mpr levelsFound
    rw [TermNode.levels] at there
    simp [termNodeKey, TermNode.children, TermNode.terms, there, ok_bind]
  | app first second | lam first second | pi first second => exact checkedPair_isOk_iff

/-! ### Processing a table -/

/-- `previous_height` and `previous_key` of the loops of `process_level_table` and
    `process_term_table`. -/
structure PreviousNode where
  height : Option Nat
  key : Bytes

def noPreviousNode : PreviousNode := ⟨none, []⟩

/-- The comparison of the loops with the node before. -/
def checkNodeOrder (object : String) (previous : PreviousNode) (height : Nat) (key : Bytes) :
    CertResult PreviousNode := do
  Result.ensure
    (!previous.height.any fun before =>
      decide (before > height) || (before == height && compare previous.key key != .lt))
    (.nonCanonicalEncoding object)
  .ok ⟨some height, key⟩

def processLevelTable (sha256 : Bytes → Hash) (cert : ModuleCert)
    (_references : ValidatedLevelReferences cert) (heights : List Nat) : CertResult (List Hash) :=
  runChecking (levelNodeKey cert.nameTable) (levelHash sha256) (checkNodeOrder "LevelTable")
    noPreviousNode [] (cert.levelTable.zip heights)

def processTermTable (sha256 : Bytes → Hash) (cert : ModuleCert)
    (_references : ValidatedTermReferences sha256 cert) (levelHashes : List Hash)
    (heights : List Nat) : CertResult (List Hash) :=
  runChecking (termNodeKey levelHashes) (termHash sha256) (checkNodeOrder "TermTable")
    noPreviousNode [] (cert.termTable.zip heights)

/-- The order of pairs of a height and a key. -/
def keyCmp (lhs rhs : Nat × Bytes) : Ordering :=
  (compare lhs.1 rhs.1).then (compare lhs.2 rhs.2)

/-- The comparison of the oracle with the pair before. -/
def legacyCheckNodeOrder (object : String) (previous : Option (Nat × Bytes)) (height : Nat)
    (key : Bytes) : CertResult (Option (Nat × Bytes)) := do
  Result.ensure (!previous.any fun before => keyCmp before (height, key) != .lt)
    (.nonCanonicalEncoding object)
  .ok (some (height, key))

/-- The pair of the oracle for the two variables of the loop. -/
def PreviousNode.pair (previous : PreviousNode) : Option (Nat × Bytes) :=
  previous.height.map fun height => (height, previous.key)

theorem keyCmp_ne_lt (before height : Nat) (previousKey key : Bytes) :
    (keyCmp (before, previousKey) (height, key) != .lt) =
      (decide (before > height) || (before == height && compare previousKey key != .lt)) := by
  rw [keyCmp]
  rcases Nat.lt_trichotomy before height with less | rfl | greater
  · have first : compare before height = .lt := Nat.compare_eq_lt.mpr less
    have no : ¬ before > height := by omega
    have differ : (before == height) = false := by simpa using less.ne
    simp only [first, Ordering.then, no, differ, decide_false, Bool.false_and, Bool.or_false]
    rfl
  · simp [Ordering.then]
  · have first : compare before height = .gt := Nat.compare_eq_gt.mpr greater
    simp only [first, Ordering.then, greater, decide_true, Bool.true_or]
    rfl

theorem legacyCheckNodeOrder_eq (object : String) (previous : PreviousNode) (height : Nat)
    (key : Bytes) :
    legacyCheckNodeOrder object previous.pair height key =
      PreviousNode.pair <$> checkNodeOrder object previous height key := by
  obtain ⟨before, previousKey⟩ := previous
  cases before with
  | none => rfl
  | some before =>
    simp only [legacyCheckNodeOrder, checkNodeOrder, PreviousNode.pair, Option.map_some,
      Option.any_some, keyCmp_ne_lt]
    cases Result.ensure _ _ with
    | error e => rfl
    | ok u => rfl

/-- The two passes of the oracle over a table. -/
theorem runChecking_order_eq {N : Type} {children : N → List Nat}
    {key : List Hash → N → CertResult Bytes} {digest : Bytes → Hash} {object : String}
    {nodes : List N} (sameLength : heights.length = nodes.length) (stable : Stable key)
    (finds : ∀ node ∈ nodes, ∀ done, (∃ found, key done node = .ok found) ↔
      ∀ child ∈ children node, child < done.length) (ordered : Ordered children nodes) :
    runChecking key digest (checkNodeOrder object) noPreviousNode [] (nodes.zip heights) = (do
      let hashes ← run (keyStep key digest) [] nodes
      let _ ← checkKeys key (legacyCheckNodeOrder object) hashes none (nodes.zip heights)
      .ok hashes) := by
  have firsts : (nodes.zip heights).map Prod.fst = nodes :=
    List.map_fst_zip sameLength.ge
  have finds' : ∀ node ∈ (nodes.zip heights).map Prod.fst, ∀ done,
      (∃ found, key done node = .ok found) ↔ ∀ child ∈ children node, child < done.length := by
    rwa [firsts]
  have ordered' : OrderedFrom children ([] : List Hash).length
      ((nodes.zip heights).map Prod.fst) := by
    rw [firsts]
    exact ordered_iff_from.mp ordered
  rw [runChecking_eq stable finds' PreviousNode.pair (legacyCheckNodeOrder_eq object) ordered',
    firsts]
  rfl

/-! ### The checks after the tables -/

def nameToString (cert : ModuleCert) (name : Id) : CertResult String := do
  let name ← checkedChild cert.nameTable name
  .ok name.asDotted

def universeNames (cert : ModuleCert) (names : List Id) : CertResult (List String) :=
  Result.collect names (nameToString cert)

/-- `level_from_node`. `Level::max` and `Level::imax` normalise what they build. -/
def levelFromNode {cert : ModuleCert} (references : ValidatedLevelReferences cert) (level : Id) :
    CertResult Kernel.Level :=
  match _at_level : cert.levelTable[level.toNat]? with
  | none => .error .decodeError
  | some .zero => .ok .zero
  | some (.succ inner) => do
    let inner ← levelFromNode references inner
    .ok (.succ inner)
  | some (.max lhs rhs) => do
    let lhs ← levelFromNode references lhs
    let rhs ← levelFromNode references rhs
    .ok (.mkMax lhs rhs)
  | some (.imax lhs rhs) => do
    let lhs ← levelFromNode references lhs
    let rhs ← levelFromNode references rhs
    .ok (.mkIMax lhs rhs)
  | some (.param name) => do
    let name ← nameToString cert name
    .ok (.param name)
  termination_by level.toNat
  decreasing_by
    all_goals
      apply references.ordered _ _ _at_level
      simp [LevelNode.children, LevelNode.levels]

def declUniverseParams : DeclPayload → List Id
  | .axiomDecl _ params _ | .axiomConstrained _ params _ _ | .defDecl _ params _ _ _
  | .defConstrained _ params _ _ _ _ | .theoremDecl _ params _ _ _
  | .theoremConstrained _ params _ _ _ _ | .inductiveDecl _ params _ _ _ _ _
  | .inductiveConstrained _ params _ _ _ _ _ _ | .mutualInductiveBlock _ params _ _ => params

def declHasEmptyConstrainedUniversePayload : DeclPayload → Bool
  | .axiomConstrained _ _ constraints _ | .defConstrained _ _ constraints _ _ _
  | .theoremConstrained _ _ constraints _ _ _ | .inductiveConstrained _ _ constraints _ _ _ _ _ =>
    constraints.isEmpty
  | .axiomDecl _ _ _ | .defDecl _ _ _ _ _ | .theoremDecl _ _ _ _ _ | .inductiveDecl _ _ _ _ _ _ _
  | .mutualInductiveBlock _ _ _ _ => false

/-- `map_err(CertError::Kernel)`. -/
def kernelResult {α : Type} : Kernel.Result α → CertResult α
  | .ok value => .ok value
  | .error e => .error (.kernel e)

def verifyDeclUniverseContexts {cert : ModuleCert} (references : ValidatedLevelReferences cert) :
    CertResult Unit :=
  Result.forEach cert.declarations fun declaration => do
    Result.ensure (!declHasEmptyConstrainedUniversePayload declaration.decl)
      (.nonCanonicalEncoding "UniverseConstraints")
    let paramNames ← universeNames cert (declUniverseParams declaration.decl)
    let delta ← kernelResult (Kernel.validateUniverseParams paramNames)
    let kernelConstraints ← Result.collect (declConstraints declaration.decl) fun constraint => do
      let lhs ← levelFromNode references constraint.lhs
      let rhs ← levelFromNode references constraint.rhs
      .ok { lhs, relation := constraint.relation, rhs : Kernel.UniverseConstraint }
    kernelResult (Kernel.ensureUniverseConstraintsWf delta kernelConstraints)

/-! ### The names that are used -/

/-- `BTreeSet::insert`. -/
def insertName (name : Name) : List Name → List Name
  | [] => [name]
  | first :: rest =>
    match name.cmp first with
    | .lt => name :: first :: rest
    | .eq => first :: rest
    | .gt => first :: insertName name rest

def collectNameId (cert : ModuleCert) (names : List Name) (id : Id) : CertResult (List Name) := do
  let name ← checkedChild cert.nameTable id
  .ok (insertName name names)

def collectNameIds (cert : ModuleCert) (names : List Name) (ids : List Id) :
    CertResult (List Name) :=
  Result.foldEach ids names (collectNameId cert)

def collectGlobalRefNames (cert : ModuleCert) (names : List Name) :
    GlobalRef → CertResult (List Name)
  | .builtin name _ | .imported _ name _ | .localGenerated _ name => collectNameId cert names name
  | .local _ => .ok names

def collectLevelNodeNames (cert : ModuleCert) (names : List Name) :
    LevelNode → CertResult (List Name)
  | .param name => collectNameId cert names name
  | _ => .ok names

def collectTermNodeNames (cert : ModuleCert) (names : List Name) :
    TermNode → CertResult (List Name)
  | .const globalRef _ => collectGlobalRefNames cert names globalRef
  | _ => .ok names

/-- The search comes to every node before a name is looked up. Whatever is missing, the error
    is the same. -/
def collectLevelNamesFromLevelId (cert : ModuleCert) (names : List Name) (level : Id) :
    CertResult (List Name) := do
  let seen ← (levelSearch cert.levelTable).close [level.toNat] []
  Result.foldEach seen.reverse names fun names index =>
    match cert.levelTable[index]? with
    | some node => collectLevelNodeNames cert names node
    | none => .error .decodeError

def collectUniverseConstraintNames (cert : ModuleCert) (names : List Name)
    (constraints : List UniverseConstraintSpec) : CertResult (List Name) :=
  Result.foldEach constraints names fun names constraint => do
    let names ← collectLevelNamesFromLevelId cert names constraint.lhs
    collectLevelNamesFromLevelId cert names constraint.rhs

/-- The names of constructors and of a recursor. -/
def collectMemberNames (cert : ModuleCert) (names : List Name)
    (constructors : List ConstructorSpec) (recursor : Option RecursorSpec) :
    CertResult (List Name) := do
  let names ← Result.foldEach constructors names fun names constructor =>
    collectNameId cert names constructor.name
  Result.foldEach recursor.toList names fun names recursor => do
    let names ← collectNameId cert names recursor.name
    collectNameIds cert names recursor.universeParams

def declNameId : DeclPayload → Id
  | .axiomDecl name _ _ | .axiomConstrained name _ _ _ | .defDecl name _ _ _ _
  | .defConstrained name _ _ _ _ _ | .theoremDecl name _ _ _ _
  | .theoremConstrained name _ _ _ _ _ | .inductiveDecl name _ _ _ _ _ _
  | .inductiveConstrained name _ _ _ _ _ _ _ | .mutualInductiveBlock name _ _ _ => name

/-- What `collect_decl_payload_names` does after the part that all declarations share. -/
def collectGeneratedNames (cert : ModuleCert) (names : List Name) :
    DeclPayload → CertResult (List Name)
  | .axiomDecl _ _ _ | .axiomConstrained _ _ _ _ | .defDecl _ _ _ _ _
  | .defConstrained _ _ _ _ _ _ | .theoremDecl _ _ _ _ _ | .theoremConstrained _ _ _ _ _ _ =>
    .ok names
  | .inductiveDecl _ _ _ _ _ constructors recursor
  | .inductiveConstrained _ _ _ _ _ _ constructors recursor =>
    collectMemberNames cert names constructors recursor
  | .mutualInductiveBlock _ _ _ inductives =>
    Result.foldEach inductives names fun names member => do
      let names ← collectNameId cert names member.name
      collectMemberNames cert names member.constructors member.recursor

def collectDeclPayloadNames (cert : ModuleCert) (names : List Name) (decl : DeclPayload) :
    CertResult (List Name) := do
  let names ← collectNameId cert names (declNameId decl)
  let names ← collectNameIds cert names (declUniverseParams decl)
  let names ← collectUniverseConstraintNames cert names (declConstraints decl)
  collectGeneratedNames cert names decl

def DependencyEntry.globalRef : DependencyEntry → GlobalRef
  | .interface globalRef _ | .localImplementation globalRef _ _ => globalRef

def collectDependencyEntryNames (cert : ModuleCert) (names : List Name)
    (dependencies : List DependencyEntry) : CertResult (List Name) :=
  Result.foldEach dependencies names fun names dependency =>
    collectGlobalRefNames cert names dependency.globalRef

def collectAxiomRefNames (cert : ModuleCert) (names : List Name) (axioms : List AxiomRef) :
    CertResult (List Name) :=
  Result.foldEach axioms names fun names ref => do
    let names ← collectGlobalRefNames cert names ref.globalRef
    collectNameId cert names ref.name

/-- The set that `verify_name_table_reachable` builds. -/
def ModuleCert.usedNames (cert : ModuleCert) : CertResult (List Name) := do
  let names := (cert.header.module :: cert.imports.map (·.module)).foldl
    (fun names name => insertName name names) []
  let names ← Result.foldEach cert.levelTable names (collectLevelNodeNames cert)
  let names ← Result.foldEach cert.termTable names (collectTermNodeNames cert)
  let names ← Result.foldEach cert.declarations names fun names declaration => do
    let names ← collectDeclPayloadNames cert names declaration.decl
    let names ← collectDependencyEntryNames cert names declaration.dependencies
    collectAxiomRefNames cert names declaration.axiomDependencies
  let names ← Result.foldEach cert.exportBlock names fun names entry => do
    let names ← collectNameId cert names entry.name
    let names ← collectNameIds cert names entry.universeParams
    let names ← collectUniverseConstraintNames cert names entry.universeConstraints
    collectAxiomRefNames cert names entry.axiomDependencies
  let names ← Result.foldEach cert.axiomReport.perDeclaration names fun names report => do
    let names ← collectAxiomRefNames cert names report.directAxioms
    collectAxiomRefNames cert names report.transitiveAxioms
  collectAxiomRefNames cert names cert.axiomReport.moduleAxioms

def verifyNameTableReachable (cert : ModuleCert) : CertResult Unit := do
  let expected ← cert.usedNames
  Result.ensure (expected == cert.nameTable) (.nonCanonicalEncoding "NameTable")

/-! ### The validator and its oracle -/

structure ValidatedCertificateTables where
  levelHashes : List Hash
  termHashes : List Hash
  deriving DecidableEq

def verifyTables (sha256 : Bytes → Hash) (cert : ModuleCert) :
    CertResult ValidatedCertificateTables := do
  verifyImportOrdering cert
  verifyNameOrdering cert
  let levelReferences ← validateLevelReferences cert
  let normalized ← levelTableIsNormalized cert levelReferences.down
  Result.ensure normalized (.nonCanonicalEncoding "LevelTable")
  let levelHeights := levelNodeHeights cert levelReferences.down
  let levelHashes ← processLevelTable sha256 cert levelReferences.down levelHeights
  let termReferences ← validateTermReferences sha256 cert
  let termHeights := termNodeHeights sha256 cert termReferences.down
  let termHashes ← processTermTable sha256 cert termReferences.down levelHashes termHeights
  verifyDeclUniverseContexts levelReferences.down
  verifyReachableTablesAndBvars cert
  verifyNameTableReachable cert
  .ok { levelHashes, termHashes }

/-- `validation_reuse_verify_tables_with_counter_for_test`, without the counter. -/
def validationReuseVerifyTables (sha256 : Bytes → Hash) (cert : ModuleCert) :
    CertResult (List Hash × List Hash) := do
  let tables ← verifyTables sha256 cert
  .ok (tables.levelHashes, tables.termHashes)

/-- `validation_reuse_legacy_table_oracle_for_test`. The orders of imports and names, the
    references and the normal forms are checked by loops with the text of the current ones. -/
def legacyTableOracle (sha256 : Bytes → Hash) (cert : ModuleCert) :
    CertResult (List Hash × List Hash) := do
  verifyImportOrdering cert
  verifyNameOrdering cert
  let levelReferences ← validateLevelReferences cert
  let normalized ← levelTableIsNormalized cert levelReferences.down
  Result.ensure normalized (.nonCanonicalEncoding "LevelTable")
  let levelHashes ← computeLevelHashes sha256 cert.nameTable cert.levelTable
  let levelHeights ← legacyLevelHeights cert.levelTable
  let _ ← checkKeys (levelNodeKey cert.nameTable) (legacyCheckNodeOrder "LevelTable") levelHashes
    none (cert.levelTable.zip levelHeights)
  let _ ← validateTermReferences sha256 cert
  let termHashes ← computeTermHashes sha256 levelHashes cert.termTable
  let termHeights ← legacyTermHeights cert.termTable
  let _ ← checkKeys (termNodeKey levelHashes) (legacyCheckNodeOrder "TermTable") termHashes
    none (cert.termTable.zip termHeights)
  verifyDeclUniverseContexts levelReferences.down
  verifyReachableTablesAndBvars cert
  verifyNameTableReachable cert
  .ok (levelHashes, termHashes)

theorem processLevelTable_eq (references : ValidatedLevelReferences cert) :
    processLevelTable sha256 cert references (levelNodeHeights cert references) = (do
      let hashes ← computeLevelHashes sha256 cert.nameTable cert.levelTable
      let heights ← legacyLevelHeights cert.levelTable
      let _ ← checkKeys (levelNodeKey cert.nameTable) (legacyCheckNodeOrder "LevelTable") hashes
        none (cert.levelTable.zip heights)
      .ok hashes) := by
  have sameLength : (levelNodeHeights cert references).length = cert.levelTable.length := by
    rw [levelNodeHeights, runTotal_length, List.length_nil, Nat.zero_add]
  rw [processLevelTable, runChecking_order_eq sameLength (levelNodeKey_stable cert.nameTable)
    (fun node mem done => levelNodeKey_isOk_iff references mem done) references.ordered,
    legacyLevelHeights_eq references]
  rfl

theorem processTermTable_eq
    (references : ValidatedTermReferences sha256 cert) {levelHashes : List Hash}
    (oneEach : levelHashes.length = cert.levelTable.length) :
    processTermTable sha256 cert references levelHashes (termNodeHeights sha256 cert references) =
      (do
        let hashes ← computeTermHashes sha256 levelHashes cert.termTable
        let heights ← legacyTermHeights cert.termTable
        let _ ← checkKeys (termNodeKey levelHashes) (legacyCheckNodeOrder "TermTable") hashes
          none (cert.termTable.zip heights)
        .ok hashes) := by
  have sameLength : (termNodeHeights sha256 cert references).length = cert.termTable.length := by
    rw [termNodeHeights, runTotal_length, List.length_nil, Nat.zero_add]
  have finds : ∀ node ∈ cert.termTable, ∀ done,
      (∃ found, termNodeKey levelHashes done node = .ok found) ↔
        ∀ child ∈ node.children, child < done.length := by
    intro node mem
    apply termNodeKey_isOk_iff
    rw [oneEach]
    exact references.levels node mem
  rw [processTermTable, runChecking_order_eq sameLength (termNodeKey_stable levelHashes) finds
    references.ordered, legacyTermHeights_eq references]
  rfl

/-! ### What the order says -/

/-- The height of an entry with its key. -/
def entryKey {N : Type} (key : List Hash → N → CertResult Bytes) (values : List Hash)
    (entry : N × Nat) : CertResult (Nat × Bytes) := do
  let found ← key values entry.1
  .ok (entry.2, found)

theorem legacyCheckNodeOrder_eq_ok {object : String} {previous next : Option (Nat × Bytes)}
    {height : Nat} {key : Bytes} :
    legacyCheckNodeOrder object previous height key = .ok next ↔
      (∀ before ∈ previous, keyCmp before (height, key) = .lt) ∧ next = some (height, key) := by
  have increasing : (!previous.any fun before => keyCmp before (height, key) != .lt) = true ↔
      ∀ before ∈ previous, keyCmp before (height, key) = .lt := by
    cases previous with
    | none => simp
    | some before => simp
  simp only [legacyCheckNodeOrder, bind_eq_ok, ensure_eq_ok, increasing, Except.ok.injEq]
  constructor
  · rintro ⟨_, below, rfl⟩
    exact ⟨below, rfl⟩
  · rintro ⟨below, rfl⟩
    exact ⟨(), below, rfl⟩

/-- The loop accepts the strictly increasing sequences. -/
theorem checkKeys_isOk_iff {N : Type} {key : List Hash → N → CertResult Bytes}
    {object : String} {values : List Hash} {previous : Option (Nat × Bytes)}
    {entries : List (N × Nat)} :
    (∃ state, checkKeys key (legacyCheckNodeOrder object) values previous entries = .ok state) ↔
      ∃ keys, Result.collect entries (entryKey key values) = .ok keys ∧
        (previous.toList ++ keys).IsChain fun before after => keyCmp before after = .lt := by
  induction entries generalizing previous with
  | nil =>
    cases previous with
    | none => simp [checkKeys, Result.foldEach, Result.collect]
    | some before => simp [checkKeys, Result.foldEach, Result.collect]
  | cons entry rest ih =>
    obtain ⟨node, height⟩ := entry
    cases found : key values node with
    | error e =>
      simp [checkKeys, Result.foldEach, Result.collect, entryKey, found, error_bind]
    | ok bytes =>
      have joined : ∀ keys : List (Nat × Bytes),
          (previous.toList ++ (height, bytes) :: keys).IsChain
            (fun before after => keyCmp before after = .lt) ↔
          (∀ before ∈ previous, keyCmp before (height, bytes) = .lt) ∧
            ((some (height, bytes)).toList ++ keys).IsChain
              fun before after => keyCmp before after = .lt := by
        intro keys
        cases previous with
        | none => simp
        | some before => simp
      have first : entryKey key values (node, height) = .ok (height, bytes) := by
        rw [entryKey, found, ok_bind]
      rw [checkKeys, Result.foldEach, Result.collect, first, ok_bind]
      simp only [found, ok_bind, bind_eq_ok, Except.ok.injEq, legacyCheckNodeOrder_eq_ok]
      constructor
      · rintro ⟨state, next, ⟨increasing, rfl⟩, later⟩
        obtain ⟨keys, keys_ok, chain⟩ := ih.mp ⟨state, later⟩
        exact ⟨_, ⟨keys, keys_ok, rfl⟩, (joined keys).mpr ⟨increasing, chain⟩⟩
      · rintro ⟨_, ⟨keys, keys_ok, rfl⟩, chain⟩
        obtain ⟨increasing, chain⟩ := (joined keys).mp chain
        obtain ⟨state, later⟩ := ih.mpr ⟨keys, keys_ok, chain⟩
        exact ⟨state, _, ⟨increasing, rfl⟩, later⟩

/-- A table as it was accepted: its hashes, and heights and keys that increase. -/
structure AcceptedTable {N : Type} (key : List Hash → N → CertResult Bytes)
    (heightsOf : List N → CertResult (List Nat)) (digest : Bytes → Hash) (nodes : List N)
    (hashes : List Hash) : Prop where
  hashed : run (keyStep key digest) [] nodes = .ok hashes
  increasing : ∃ heights keys, heightsOf nodes = .ok heights ∧
    Result.collect (nodes.zip heights) (entryKey key hashes) = .ok keys ∧
    keys.IsChain fun before after => keyCmp before after = .lt

theorem acceptedTable_of_passes {N : Type} {key : List Hash → N → CertResult Bytes}
    {heightsOf : List N → CertResult (List Nat)} {digest : Bytes → Hash} {nodes : List N}
    {object : String} {accepted : List Hash}
    (passes : (do
      let hashes ← run (keyStep key digest) [] nodes
      let heights ← heightsOf nodes
      let _ ← checkKeys key (legacyCheckNodeOrder object) hashes none (nodes.zip heights)
      .ok hashes) = .ok accepted) : AcceptedTable key heightsOf digest nodes accepted := by
  obtain ⟨hashes, hashed, passes⟩ := bind_eq_ok.mp passes
  obtain ⟨heights, heights_ok, passes⟩ := bind_eq_ok.mp passes
  obtain ⟨state, checked, same⟩ := bind_eq_ok.mp passes
  cases same
  obtain ⟨keys, keys_ok, chain⟩ := checkKeys_isOk_iff.mp ⟨state, checked⟩
  exact ⟨hashed, heights, keys, heights_ok, keys_ok, chain⟩

/-- The hashes that are returned are those of the tables, and the keys of a table increase. -/
theorem verifyTables_accepts
    {tables : ValidatedCertificateTables} (accepted : verifyTables sha256 cert = .ok tables) :
    AcceptedTable (levelNodeKey cert.nameTable) legacyLevelHeights (levelHash sha256)
        cert.levelTable tables.levelHashes ∧
      AcceptedTable (termNodeKey tables.levelHashes) legacyTermHeights (termHash sha256)
        cert.termTable tables.termHashes := by
  obtain ⟨_, _, accepted⟩ := bind_eq_ok.mp accepted
  obtain ⟨_, _, accepted⟩ := bind_eq_ok.mp accepted
  obtain ⟨levelReferences, _, accepted⟩ := bind_eq_ok.mp accepted
  obtain ⟨_, _, accepted⟩ := bind_eq_ok.mp accepted
  obtain ⟨_, _, accepted⟩ := bind_eq_ok.mp accepted
  obtain ⟨levelHashes, levels_ok, accepted⟩ := bind_eq_ok.mp accepted
  obtain ⟨termReferences, _, accepted⟩ := bind_eq_ok.mp accepted
  obtain ⟨termHashes, terms_ok, accepted⟩ := bind_eq_ok.mp accepted
  obtain ⟨_, _, accepted⟩ := bind_eq_ok.mp accepted
  obtain ⟨_, _, accepted⟩ := bind_eq_ok.mp accepted
  obtain ⟨_, _, same⟩ := bind_eq_ok.mp accepted
  cases same
  rw [processLevelTable_eq] at levels_ok
  have levelTable := acceptedTable_of_passes levels_ok
  have oneEach : levelHashes.length = cert.levelTable.length := by
    rw [run_length levelTable.hashed, List.length_nil, Nat.zero_add]
  rw [processTermTable_eq _ oneEach] at terms_ok
  exact ⟨levelTable, acceptedTable_of_passes terms_ok⟩

/-- For every certificate the pass over the tables has the answer of the passes it replaced:
    the same hashes, or the same error. -/
theorem verifyTables_eq_legacyTableOracle (sha256 : Bytes → Hash) (cert : ModuleCert) :
    validationReuseVerifyTables sha256 cert = legacyTableOracle sha256 cert := by
  rw [validationReuseVerifyTables, verifyTables, legacyTableOracle]
  simp only [bind_assoc]
  -- The guards before the hashes are shared.
  apply bind_congr
  intro _
  apply bind_congr
  intro _
  apply bind_congr
  intro levelReferences
  apply bind_congr
  intro _
  apply bind_congr
  intro _
  rw [processLevelTable_eq levelReferences.down]
  cases hashed : computeLevelHashes sha256 cert.nameTable cert.levelTable with
  | error e => rfl
  | ok levelHashes =>
    have oneEach : levelHashes.length = cert.levelTable.length := by
      rw [run_length hashed, List.length_nil, Nat.zero_add]
    simp only [ok_bind, bind_assoc, processTermTable_eq _ oneEach]

end NpaCore.Wire
