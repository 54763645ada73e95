import NpaCore.Lib.Exploration
import NpaCore.Lib.OrderedMap
import NpaCore.Wire.TableValidation

/-!
# Local transparency

`npa-cert/src/local_transparency.rs`: a declaration depends on the implementations of the
opaque definitions that it reaches over local references, since unfolding may expose them. The
builder records the dependencies and the verifier computes them again; both walk the terms of
the table as trees and pay for every node.

Depths stay far below the largest `usize`, so they are added without a bound.

## Main results

* `opaqueDefinitionIndices_eq`: the closure is the set of the opaque definitions that are
  reached over earlier declarations, whatever is visited first.
* `reachedOpaque_iff_anywhere`: where references lead back only, these are all that are reached.
-/

namespace NpaCore.Wire

open NpaCore.Result NpaCore.ForwardPass NpaCore.OrderedMap NpaCore.Exploration

/-! ### The order of references and dependencies -/

def GlobalRef.cmp (lhs rhs : GlobalRef) : Ordering :=
  compare (globalRefOrderKey lhs) (globalRefOrderKey rhs)

def DependencyEntry.cmp (lhs rhs : DependencyEntry) : Ordering :=
  compare (dependencyEntryOrderKey lhs) (dependencyEntryOrderKey rhs)

theorem globalRefOrderKey_eq (ref : GlobalRef) : globalRefOrderKey ref = encodeGlobalRef ref := by
  cases ref <;> rfl

theorem dependencyEntryOrderKey_eq (entry : DependencyEntry) :
    dependencyEntryOrderKey entry = encodeDependencyEntry entry := by
  cases entry <;> rw [dependencyEntryOrderKey, encodeDependencyEntry, globalRefOrderKey_eq] <;> rfl

/-- What is read back from one encoding is one value. -/
theorem reads_injective {α : Type} {decode : Decoder α} {encode : α → Bytes}
    (reads : Parser.Reads decode encode fun _ => True) {a b : α} (same : encode a = encode b) :
    a = b := by
  have first : decode (encode a) = .ok (a, []) := (reads _ _ _).mpr ⟨trivial, by simp⟩
  have second : decode (encode a) = .ok (b, []) := (reads _ _ _).mpr ⟨trivial, by simp [same]⟩
  rw [first] at second
  cases second
  rfl

theorem GlobalRef.cmp_lawful (a b : GlobalRef) (same : a.cmp b = .eq) : a = b := by
  have keys : globalRefOrderKey a = globalRefOrderKey b := Std.LawfulEqOrd.eq_of_compare same
  rw [globalRefOrderKey_eq, globalRefOrderKey_eq] at keys
  exact reads_injective Decoder.globalRef_reads keys

theorem DependencyEntry.cmp_lawful (a b : DependencyEntry) (same : a.cmp b = .eq) : a = b := by
  have keys : dependencyEntryOrderKey a = dependencyEntryOrderKey b :=
    Std.LawfulEqOrd.eq_of_compare same
  rw [dependencyEntryOrderKey_eq, dependencyEntryOrderKey_eq] at keys
  exact reads_injective Decoder.dependencyEntry_reads keys

/-! ### The budget -/

/-- The nodes charged to the certificate, in `LocalTransparencyBudget`, and to the declaration
    at hand. -/
structure ScanBudget where
  certificateExpandedNodes : Nat
  rootExpandedNodes : Nat
  deriving DecidableEq

/-- `LocalTransparencyBudget::charge`. -/
def ScanBudget.charge (budget : ScanBudget) (depth : Nat) : CertResult ScanBudget := do
  Result.ensure (depth ≤ maxStructuralDepth)
    (.structuralLimitExceeded .structuralDepth maxStructuralDepth (maxStructuralDepth + 1))
  let root := min (budget.rootExpandedNodes + 1) (maxRootExpandedNodes + 1)
  Result.ensure (root ≤ maxRootExpandedNodes)
    (.structuralLimitExceeded .rootExpandedNodes maxRootExpandedNodes (maxRootExpandedNodes + 1))
  let certificate := min (budget.certificateExpandedNodes + 1) (maxCertificateExpandedNodes + 1)
  Result.ensure (certificate ≤ maxCertificateExpandedNodes)
    (.structuralLimitExceeded .certificateExpandedNodes maxCertificateExpandedNodes
      (maxCertificateExpandedNodes + 1))
  .ok ⟨certificate, root⟩

variable {depth : Nat}

theorem ScanBudget.charge_lt {budget next : ScanBudget} (h : budget.charge depth = .ok next) :
    maxRootExpandedNodes - next.rootExpandedNodes <
      maxRootExpandedNodes - budget.rootExpandedNodes := by
  simp only [charge, bind_eq_ok, ensure_eq_ok, decide_eq_true_eq] at h
  obtain ⟨_, _, _, root, _, _, same⟩ := h
  cases same
  dsimp only
  omega

/-! ### The references of terms -/

/-- References with the least depth at which each was seen: `BTreeMap<GlobalRef, usize>`. -/
abbrev RefDepths := List (GlobalRef × Nat)

def RefDepths.note (refs : RefDepths) (ref : GlobalRef) (depth : Nat) : RefDepths :=
  insertWith GlobalRef.cmp min ref depth refs

def noteNode (refs : RefDepths) (depth : Nat) : TermNode → RefDepths
  | .const ref _ => refs.note ref depth
  | _ => refs

/-- The loop of `scan_term_roots`, from the top of the stack. Shared nodes are walked again;
    the budget bounds the turns. -/
def scanTerms (table : List TermNode) :
    List (Id × Nat) → ScanBudget → RefDepths → CertResult (RefDepths × ScanBudget)
  | [], budget, refs => .ok (refs, budget)
  | (term, depth) :: pending, budget, refs =>
    match _charged : budget.charge depth with
    | .error e => .error e
    | .ok paid => do
      let node ← checkedChild table term
      scanTerms table (node.terms.map (·, depth + 1) ++ pending) paid (noteNode refs depth node)
  termination_by _ budget _ => maxRootExpandedNodes - budget.rootExpandedNodes
  decreasing_by exact ScanBudget.charge_lt _charged

variable {table : List TermNode}

theorem scanTerms_node {term : Id} {node : TermNode}
    {pending : List (Id × Nat)} {budget paid : ScanBudget} {refs : RefDepths}
    (charged : budget.charge depth = .ok paid) (at_term : checkedChild table term = .ok node) :
    scanTerms table ((term, depth) :: pending) budget refs =
      scanTerms table (node.terms.map (·, depth + 1) ++ pending) paid (noteNode refs depth node) := by
  rw [scanTerms]
  split
  next e fails =>
    rw [charged] at fails
    cases fails
  next paid' same =>
    rw [charged] at same
    cases same
    rw [at_term, ok_bind]

/-- `scan_term_roots`. The roots are sorted first. -/
def scanTermRoots (table : List TermNode) (roots : List Id) (baseDepth : Nat)
    (budget : ScanBudget) : CertResult (RefDepths × ScanBudget) :=
  scanTerms table ((roots.insertionSort (· ≤ ·)).map (·, baseDepth)) budget []

variable {ref : GlobalRef}

/-- A scan of one constant. -/
theorem scanTermRoots_const {root : Id} {levels : List Id}
    {budget paid : ScanBudget} (charged : budget.charge depth = .ok paid)
    (at_root : checkedChild table root = .ok (.const ref levels)) :
    scanTermRoots table [root] depth budget = .ok ([(ref, depth)], paid) := by
  have sorted : [root].insertionSort (· ≤ ·) = [root] := rfl
  rw [scanTermRoots, sorted, List.map_singleton, scanTerms_node charged at_root]
  simp only [TermNode.terms, List.map_nil, List.nil_append]
  rw [scanTerms]
  rfl

/-- A scan of a definition whose type and value are one sort. -/
theorem scanTermRoots_sorts {root level : Id}
    {budget once paid : ScanBudget} (charged : budget.charge depth = .ok once)
    (again : once.charge depth = .ok paid) (at_root : checkedChild table root = .ok (.sort level)) :
    scanTermRoots table [root, root] depth budget = .ok ([], paid) := by
  have sorted : [root, root].insertionSort (· ≤ ·) = [root, root] := by
    simp [List.insertionSort]
  rw [scanTermRoots, sorted, List.map_cons, List.map_singleton, scanTerms_node charged at_root]
  simp only [TermNode.terms, List.map_nil, List.nil_append]
  rw [scanTerms_node again at_root]
  simp only [TermNode.terms, List.map_nil, List.nil_append]
  rw [scanTerms]
  rfl

/-- The tree of the term has the constant. -/
inductive Mentions (table : List TermNode) (ref : GlobalRef) : Id → Prop where
  | here {term : Id} {levels : List Id} :
    table[term.toNat]? = some (.const ref levels) → Mentions table ref term
  | under {term child : Id} {node : TermNode} :
    table[term.toNat]? = some node → child ∈ node.terms → Mentions table ref child →
    Mentions table ref term

theorem mentions_iff {term : Id} {node : TermNode} (at_term : table[term.toNat]? = some node) :
    Mentions table ref term ↔
      (∃ levels, node = .const ref levels) ∨ ∃ child ∈ node.terms, Mentions table ref child := by
  constructor
  · intro mentions
    cases mentions with
    | here here =>
      rw [at_term] at here
      cases here
      exact .inl ⟨_, rfl⟩
    | under here mem below =>
      rw [at_term] at here
      cases here
      exact .inr ⟨_, mem, below⟩
  · rintro (⟨levels, rfl⟩ | ⟨child, mem, below⟩)
    · exact .here at_term
    · exact .under at_term mem below

theorem mem_noteNode {refs : RefDepths} {node : TermNode} :
    ref ∈ (noteNode refs depth node).map Prod.fst ↔
      (∃ levels, node = .const ref levels) ∨ ref ∈ refs.map Prod.fst := by
  cases node with
  | const other levels =>
    rw [noteNode, RefDepths.note, mem_keys_insertWith GlobalRef.cmp_lawful]
    simp [eq_comm]
  | _ => simp [noteNode]

/-- A scan that ends has noted the constants of the trees, however much they share. -/
theorem mem_scanTerms {pending : List (Id × Nat)}
    {budget final : ScanBudget} {refs found : RefDepths}
    (h : scanTerms table pending budget refs = .ok (found, final)) (ref : GlobalRef) :
    ref ∈ found.map Prod.fst ↔
      ref ∈ refs.map Prod.fst ∨ ∃ entry ∈ pending, Mentions table ref entry.1 := by
  fun_induction scanTerms table pending budget refs with
  | case1 budget refs =>
    cases h
    simp
  | case2 term depth pending budget refs e charged => cases h
  | case3 term depth pending budget refs paid charged ih =>
    obtain ⟨node, at_term, h⟩ := bind_eq_ok.mp h
    rw [ih node h, mem_noteNode, List.exists_mem_cons_iff, mentions_iff (checkedChild_eq_ok.mp at_term)]
    constructor
    · rintro ((here | old) | ⟨entry, mem, below⟩)
      · exact .inr (.inl (.inl here))
      · exact .inl old
      · rcases List.mem_append.mp mem with at_child | later
        · obtain ⟨child, at_node, rfl⟩ := List.mem_map.mp at_child
          exact .inr (.inl (.inr ⟨child, at_node, below⟩))
        · exact .inr (.inr ⟨entry, later, below⟩)
    · rintro (old | (here | ⟨child, at_node, below⟩) | ⟨entry, later, below⟩)
      · exact .inl (.inr old)
      · exact .inl (.inl here)
      · exact .inr ⟨_, List.mem_append_left _ (List.mem_map_of_mem at_node), below⟩
      · exact .inr ⟨entry, List.mem_append_right _ later, below⟩

theorem mem_scanTermRoots {roots : List Id} {baseDepth : Nat}
    {budget final : ScanBudget} {found : RefDepths}
    (h : scanTermRoots table roots baseDepth budget = .ok (found, final)) (ref : GlobalRef) :
    ref ∈ found.map Prod.fst ↔ ∃ root ∈ roots, Mentions table ref root := by
  rw [mem_scanTerms h]
  simp

/-! ### The declarations of the references -/

def isOpaqueDefinition : DeclPayload → Bool
  | .defDecl _ _ _ _ reducibility | .defConstrained _ _ _ _ _ reducibility =>
    reducibility == .opaqueDef
  | _ => false

def inductiveTermIds (params indices : List BinderType) (constructors : List ConstructorSpec)
    (recursor : Option RecursorSpec) : List Id :=
  params.map (·.ty) ++ indices.map (·.ty) ++ constructors.map (·.ty) ++
    recursor.toList.map (·.ty)

def rootTermIds : DeclPayload → List Id
  | .axiomDecl _ _ ty | .axiomConstrained _ _ _ ty => [ty]
  | .defDecl _ _ ty value _ | .defConstrained _ _ _ ty value _ => [ty, value]
  | .theoremDecl _ _ ty proof _ | .theoremConstrained _ _ _ ty proof _ => [ty, proof]
  | .inductiveDecl _ _ params indices _ constructors recursor
  | .inductiveConstrained _ _ _ params indices _ constructors recursor =>
    inductiveTermIds params indices constructors recursor
  | .mutualInductiveBlock _ _ _ inductives => inductives.flatMap fun member =>
    inductiveTermIds member.params member.indices member.constructors member.recursor

/-- What a use of the declaration may unfold to. Proofs are never unfolded. -/
def referencedTermIds : DeclPayload → List Id
  | .theoremDecl _ _ ty _ _ | .theoremConstrained _ _ _ ty _ _ => [ty]
  | decl => rootTermIds decl

/-- `allow_self`. -/
def DeclPayload.isInductive : DeclPayload → Bool
  | .inductiveDecl _ _ _ _ _ _ _ | .inductiveConstrained _ _ _ _ _ _ _ _
  | .mutualInductiveBlock _ _ _ _ => true
  | _ => false

/-- The declaration of a local reference. -/
def GlobalRef.localIndex : GlobalRef → Option Id
  | .local declIndex | .localGenerated declIndex _ => some declIndex
  | .imported _ _ _ | .builtin _ _ => none

/-- A declaration before the current one. -/
abbrev Earlier (current : Nat) := {declIndex : Id // declIndex.toNat < current}

/-- The declarations that are still to be looked at: `BTreeMap<usize, usize>`. -/
abbrev PendingDecls (current : Nat) := List (Earlier current × Nat)

def Earlier.cmp {current : Nat} (lhs rhs : Earlier current) : Ordering := compare lhs.1 rhs.1

variable {current : Nat}

theorem Earlier.cmp_lawful (a b : Earlier current) (same : a.cmp b = .eq) : a = b :=
  Subtype.ext (Std.LawfulEqOrd.eq_of_compare same)

/-- The declaration that `queue_local_reference` queues for a reference. -/
def followed (current : Nat) (ref : GlobalRef) : Option (Earlier current) :=
  ref.localIndex.bind fun declIndex =>
    if earlier : declIndex.toNat < current then some ⟨declIndex, earlier⟩ else none

def queueLocalReference {current : Nat} (pending : PendingDecls current) (ref : GlobalRef)
    (depth : Nat) : PendingDecls current :=
  match followed current ref with
  | some declIndex => insertWith Earlier.cmp min declIndex depth pending
  | none => pending

def queueLocalReferences {current : Nat} (refs : RefDepths) (pending : PendingDecls current) :
    PendingDecls current :=
  refs.foldl (fun pending entry => queueLocalReference pending entry.1 entry.2) pending

theorem mem_queueLocalReferences {refs : RefDepths} {pending : PendingDecls current}
    {declIndex : Earlier current} :
    declIndex ∈ (queueLocalReferences refs pending).map Prod.fst ↔
      declIndex ∈ pending.map Prod.fst ∨
        ∃ ref ∈ refs.map Prod.fst, followed current ref = some declIndex := by
  induction refs generalizing pending with
  | nil => simp [queueLocalReferences]
  | cons entry rest ih =>
    have first : declIndex ∈ (queueLocalReference pending entry.1 entry.2).map Prod.fst ↔
        declIndex ∈ pending.map Prod.fst ∨ followed current entry.1 = some declIndex := by
      rw [queueLocalReference]
      cases followed current entry.1 with
      | none => simp
      | some other =>
        simp only [mem_keys_insertWith Earlier.cmp_lawful, Option.some.injEq]
        rw [or_comm, eq_comm]
    have rest_eq : queueLocalReferences (entry :: rest) pending =
        queueLocalReferences rest (queueLocalReference pending entry.1 entry.2) := rfl
    rw [rest_eq, ih, first, List.map_cons, List.exists_mem_cons_iff, or_assoc]

/-- The number of earlier declarations that were not visited. -/
def unvisited {current : Nat} (visited : List (Earlier current)) : Nat :=
  ((List.range current).filter fun index => index ∉ visited.map (·.1.toNat)).length

theorem unvisited_cons_lt {declIndex : Earlier current}
    {visited : List (Earlier current)} (new : declIndex ∉ visited) :
    unvisited (declIndex :: visited) < unvisited visited := by
  have fresh : declIndex.1.toNat ∉ visited.map (·.1.toNat) := by
    intro mem
    obtain ⟨other, at_other, same⟩ := List.mem_map.mp mem
    have equal : other = declIndex := Subtype.ext (UInt64.toNat_inj.mp same)
    exact new (equal ▸ at_other)
  have left : ((List.range current).filter fun index =>
      index ∉ (declIndex :: visited).map (·.1.toNat)) =
      ((List.range current).filter fun index => index ∉ visited.map (·.1.toNat)).filter
        (· ≠ declIndex.1.toNat) := by
    rw [List.filter_filter]
    apply List.filter_congr
    intro index _
    simp only [List.map_cons, List.mem_cons, not_or, Bool.decide_and, ne_eq]
  rw [unvisited, unvisited, left]
  apply List.length_filter_lt_length_iff_exists.mpr
  refine ⟨declIndex.1.toNat, ?_, by simp⟩
  simpa using ⟨declIndex.2, fun a earlier mem same => fresh (List.mem_map.mpr ⟨⟨a, earlier⟩, mem, same⟩)⟩

/-- The loop over the declarations, least index first, which collects the opaque definitions. -/
def closeLocalReferences (declarations : List DeclCert) (table : List TermNode) (current : Nat) :
    PendingDecls current → List (Earlier current) → List Id → ScanBudget →
      CertResult (List Id × ScanBudget)
  | [], _, found, budget => .ok (found, budget)
  | (declIndex, depth) :: pending, visited, found, budget =>
    if _new : declIndex ∈ visited then
      closeLocalReferences declarations table current pending visited found budget
    else
      match declarations[declIndex.1.toNat]? with
      | none =>
        closeLocalReferences declarations table current pending (declIndex :: visited) found budget
      | some declaration => do
        let scanned ← scanTermRoots table (referencedTermIds declaration.decl) (depth + 1) budget
        closeLocalReferences declarations table current
          (queueLocalReferences scanned.1 pending) (declIndex :: visited)
          (if isOpaqueDefinition declaration.decl then insertKey compare declIndex.1 found
            else found)
          scanned.2
  termination_by pending visited _ _ => (unvisited visited, pending.length)
  decreasing_by
    · exact .right _ (by simp)
    · exact .left _ _ (unvisited_cons_lt _new)
    · exact .left _ _ (unvisited_cons_lt _new)

theorem closeLocalReferences_visit {declarations : List DeclCert}
    {declIndex : Earlier current} {pending : PendingDecls current}
    {visited : List (Earlier current)} {found : List Id} {budget : ScanBudget}
    {declaration : DeclCert} {scanned : RefDepths × ScanBudget} (new : declIndex ∉ visited)
    (here : declarations[declIndex.1.toNat]? = some declaration)
    (scanned_ok : scanTermRoots table (referencedTermIds declaration.decl) (depth + 1) budget =
      .ok scanned) :
    closeLocalReferences declarations table current ((declIndex, depth) :: pending) visited found
        budget =
      closeLocalReferences declarations table current (queueLocalReferences scanned.1 pending)
        (declIndex :: visited)
        (if isOpaqueDefinition declaration.decl then insertKey compare declIndex.1 found else found)
        scanned.2 := by
  rw [closeLocalReferences, dif_neg new, here]
  dsimp only
  rw [scanned_ok, ok_bind]

/-! ### What the loop collects -/

section Closure

variable (declarations : List DeclCert) (table : List TermNode) (current : Nat)

/-- The declarations that a declaration may unfold to, before the current one. -/
def unfoldsTo (declIndex : Earlier current) : Set (Earlier current) :=
  {other | ∃ declaration, declarations[declIndex.1.toNat]? = some declaration ∧
    ∃ root ∈ referencedTermIds declaration.decl, ∃ ref, Mentions table ref root ∧
      followed current ref = some other}

/-- An opaque definition stands there. -/
def OpaqueAt (declIndex : Id) : Prop :=
  ∃ declaration, declarations[declIndex.toNat]? = some declaration ∧
    isOpaqueDefinition declaration.decl = true

variable {declarations table current}

/-- The opaque definitions that were collected are those that were visited. -/
def Collected (declarations : List DeclCert) {current : Nat} (visited : List (Earlier current))
    (found : List Id) : Prop :=
  ∀ declIndex, declIndex ∈ found ↔
    ∃ seen ∈ visited, seen.1 = declIndex ∧ OpaqueAt declarations declIndex

theorem Collected.visit {visited : List (Earlier current)} {found : List Id}
    (collected : Collected declarations visited found) {declIndex : Earlier current}
    {declaration : DeclCert} (here : declarations[declIndex.1.toNat]? = some declaration) :
    Collected declarations (declIndex :: visited)
      (if isOpaqueDefinition declaration.decl then insertKey compare declIndex.1 found
        else found) := by
  intro other
  have at_other : OpaqueAt declarations declIndex.1 ↔ isOpaqueDefinition declaration.decl = true := by
    constructor
    · rintro ⟨same, there, isOpaque⟩
      rw [here] at there
      cases there
      exact isOpaque
    · exact fun isOpaque => ⟨declaration, here, isOpaque⟩
  rw [List.exists_mem_cons_iff]
  split
  next isOpaque =>
    rw [mem_insertKey fun _ _ => Std.LawfulEqOrd.eq_of_compare, collected other]
    constructor
    · rintro (rfl | old)
      · exact .inl ⟨rfl, at_other.mpr isOpaque⟩
      · exact .inr old
    · rintro (⟨rfl, _⟩ | old)
      · exact .inl rfl
      · exact .inr old
  next transparent =>
    rw [collected other]
    constructor
    · exact .inr
    · rintro (⟨rfl, isOpaque⟩ | old)
      · exact absurd (at_other.mp isOpaque) transparent
      · exact old

theorem Collected.skip {visited : List (Earlier current)} {found : List Id}
    (collected : Collected declarations visited found) {declIndex : Earlier current}
    (missing : declarations[declIndex.1.toNat]? = none) :
    Collected declarations (declIndex :: visited) found := by
  intro other
  rw [collected other, List.exists_mem_cons_iff]
  constructor
  · exact .inr
  · rintro (⟨rfl, declaration, there, _⟩ | old)
    · rw [missing] at there
      cases there
    · exact old

/-- Whatever is visited first, the loop ends with the reached opaque definitions. -/
theorem closeLocalReferences_spec {starts : Set (Earlier current)} {pending : PendingDecls current}
    {visited : List (Earlier current)} {found final : List Id} {budget paid : ScanBudget}
    (explored : Explored (unfoldsTo declarations table current) starts
      {key | key ∈ pending.map Prod.fst} {key | key ∈ visited})
    (collected : Collected declarations visited found)
    (h : closeLocalReferences declarations table current pending visited found budget =
      .ok (final, paid)) :
    ∀ declIndex, declIndex ∈ final ↔
      ∃ reached, Reached (unfoldsTo declarations table current) starts reached ∧
        reached.1 = declIndex ∧ OpaqueAt declarations declIndex := by
  fun_induction closeLocalReferences declarations table current pending visited found budget with
  | case1 visited found budget =>
    cases h
    intro declIndex
    have all := Explored.seen_eq (by simpa using explored)
    rw [collected declIndex]
    simp only [Set.ext_iff, Set.mem_ofPred_eq] at all
    simp only [all]
  | case2 declIndex depth pending visited found budget old ih =>
    apply ih (explored.drop old fun other => by simp [eq_comm]) collected h
  | case3 declIndex depth pending visited found budget new missing ih =>
    apply ih ?_ (collected.skip missing) h
    have waits : declIndex ∈ {key | key ∈ ((declIndex, depth) :: pending).map Prod.fst} := by simp
    apply explored.visit waits
    · intro other mem
      simpa using mem
    · intro other mem
      exact .inl (List.mem_cons_of_mem _ mem)
    · rintro other ⟨declaration, there, _⟩
      rw [missing] at there
      cases there
    · intro other
      exact List.mem_cons
  | case4 declIndex depth pending visited found budget new declaration here ih =>
    obtain ⟨scanned, scanned_ok, h⟩ := bind_eq_ok.mp h
    apply ih scanned ?_ (collected.visit here) h
    have waits : declIndex ∈ {key | key ∈ ((declIndex, depth) :: pending).map Prod.fst} := by simp
    apply explored.visit waits
    · intro other mem
      rcases List.mem_cons.mp mem with rfl | later
      · exact .inl rfl
      · exact .inr (mem_queueLocalReferences.mpr (.inl later))
    · intro other mem
      rcases mem_queueLocalReferences.mp mem with later | ⟨ref, noted, follows⟩
      · exact .inl (List.mem_cons_of_mem _ later)
      · obtain ⟨root, at_root, mentions⟩ := (mem_scanTermRoots scanned_ok ref).mp noted
        exact .inr ⟨declaration, here, root, at_root, ref, mentions, follows⟩
    · rintro other ⟨declaration', there, root, at_root, ref, mentions, follows⟩
      rw [here] at there
      cases there
      have noted := (mem_scanTermRoots scanned_ok ref).mpr ⟨root, at_root, mentions⟩
      exact mem_queueLocalReferences.mpr (.inr ⟨ref, noted, follows⟩)
    · intro other
      exact List.mem_cons

end Closure

/-! ### The dependencies of a declaration -/

structure LocalTransparencyDependencies where
  interfaceDependencies : List DependencyEntry
  opaqueDefinitionIndices : List Id
  deriving DecidableEq

def GlobalRef.isSelf (current : Nat) (ref : GlobalRef) : Bool :=
  ref.localIndex.any fun declIndex => declIndex.toNat == current

/-- A plain reference to one of the definitions. -/
def GlobalRef.isLocalIn (indices : List Id) : GlobalRef → Bool
  | .local declIndex => indices.contains declIndex
  | _ => false

/-- `Name::from_dotted` of `local.` and the index. -/
def localName (declIndex : Id) : Name := ⟨["local", toString declIndex.toNat]⟩

def interfaceHashForReference (declarations : List DeclCert) : GlobalRef → CertResult Hash
  | .builtin _ hash | .imported _ _ hash => .ok hash
  | .local declIndex | .localGenerated declIndex _ =>
    Result.okOr (declarations[declIndex.toNat]?.map (·.hashes.declInterfaceHash))
      (.dependencyCycle (localName declIndex))

/-- `DependencyEntry::checked_interface`. -/
def checkedInterface (ref : GlobalRef) (hash : Hash) : CertResult DependencyEntry :=
  match ref with
  | .builtin _ embedded | .imported _ _ embedded => do
    Result.ensure (embedded == hash) (.hashMismatch .declInterface embedded hash)
    .ok (.interface ref hash)
  | .local _ | .localGenerated _ _ => .ok (.interface ref hash)

/-- The references of a declaration. Inductive declarations refer to themselves. -/
def directRefs (current : Nat) (root : DeclPayload) (refs : RefDepths) : RefDepths :=
  refs.filter fun entry => !(root.isInductive && entry.1.isSelf current)

def localTransparencyDependencies (current : Nat) (root : DeclPayload)
    (declarations : List DeclCert) (table : List TermNode) (budget : Nat) :
    CertResult (LocalTransparencyDependencies × Nat) := do
  let scanned ← scanTermRoots table (rootTermIds root) 1 ⟨budget, 0⟩
  let direct := directRefs current root scanned.1
  let closed ← closeLocalReferences declarations table current
    (queueLocalReferences direct []) [] [] scanned.2
  let interfaceDependencies ← Result.collect
    ((direct.map Prod.fst).filter fun ref => !ref.isLocalIn closed.1) fun ref => do
      let hash ← interfaceHashForReference declarations ref
      checkedInterface ref hash
  .ok (⟨interfaceDependencies, closed.1⟩, closed.2.certificateExpandedNodes)

/-! ### The closure -/

section Exact

variable {current : Nat} {root : DeclPayload} {declarations : List DeclCert}
  {table : List TermNode} {budget paid : Nat} {closure : LocalTransparencyDependencies}

/-- The earlier declarations that the terms of a declaration refer to. -/
def directStarts (table : List TermNode) (current : Nat) (root : DeclPayload) :
    Set (Earlier current) :=
  {declIndex | ∃ term ∈ rootTermIds root, ∃ ref, Mentions table ref term ∧
    followed current ref = some declIndex}

/-- An opaque definition that a declaration reaches over references to the declarations before
    it, without looking into the proofs of theorems on the way. -/
def ReachedOpaque (declarations : List DeclCert) (table : List TermNode) (current : Nat)
    (root : DeclPayload) (declIndex : Id) : Prop :=
  (∃ reached : Earlier current, reached.1 = declIndex ∧
    Reached (unfoldsTo declarations table current) (directStarts table current root) reached) ∧
  OpaqueAt declarations declIndex

/-- A reference to the declaration itself is not followed. -/
theorem followed_of_isSelf (self : ref.isSelf current = true) :
    followed current ref = none := by
  cases ref with
  | «local» declIndex | localGenerated declIndex _ =>
    have same : declIndex.toNat = current := by simpa [GlobalRef.isSelf, GlobalRef.localIndex] using self
    simp [followed, GlobalRef.localIndex, same]
  | _ => rfl

theorem mem_pendingStarts {baseDepth : Nat} {start left : ScanBudget} {refs : RefDepths}
    (scanned : scanTermRoots table (rootTermIds root) baseDepth start = .ok (refs, left))
    {declIndex : Earlier current} :
    declIndex ∈ (queueLocalReferences (directRefs current root refs) []).map Prod.fst ↔
      declIndex ∈ directStarts table current root := by
  rw [mem_queueLocalReferences]
  constructor
  · rintro (none | ⟨ref, noted, follows⟩)
    · cases none
    · obtain ⟨entry, kept, rfl⟩ := List.mem_map.mp noted
      have noted := List.mem_map_of_mem (f := Prod.fst) (List.mem_of_mem_filter kept)
      obtain ⟨term, at_term, mentions⟩ := (mem_scanTermRoots scanned entry.1).mp noted
      exact ⟨term, at_term, entry.1, mentions, follows⟩
  · rintro ⟨term, at_term, ref, mentions, follows⟩
    have noted := (mem_scanTermRoots scanned ref).mpr ⟨term, at_term, mentions⟩
    obtain ⟨entry, at_entry, rfl⟩ := List.mem_map.mp noted
    refine .inr ⟨entry.1, List.mem_map.mpr ⟨entry, List.mem_filter.mpr ⟨at_entry, ?_⟩, rfl⟩, follows⟩
    have other : entry.1.isSelf current = false := by
      by_contra self
      rw [followed_of_isSelf (by simpa using self)] at follows
      cases follows
    simp [other]

/-- The closure is the set of the opaque definitions that are reached. -/
theorem opaqueDefinitionIndices_eq
    (computed : localTransparencyDependencies current root declarations table budget =
      .ok (closure, paid)) (declIndex : Id) :
    declIndex ∈ closure.opaqueDefinitionIndices ↔
      ReachedOpaque declarations table current root declIndex := by
  obtain ⟨scanned, scanned_ok, computed⟩ := bind_eq_ok.mp computed
  obtain ⟨closed, closed_ok, computed⟩ := bind_eq_ok.mp computed
  obtain ⟨interfaces, _, same⟩ := bind_eq_ok.mp computed
  cases same
  have explored : Explored (unfoldsTo declarations table current) (directStarts table current root)
      {key | key ∈ (queueLocalReferences (directRefs current root scanned.1) []).map Prod.fst}
      {key | key ∈ ([] : List (Earlier current))} := by
    have pending : {key | key ∈ (queueLocalReferences (directRefs current root scanned.1)
        []).map Prod.fst} = directStarts table current root :=
      Set.ext fun _ => mem_pendingStarts scanned_ok
    have seen : {key | key ∈ ([] : List (Earlier current))} = (∅ : Set (Earlier current)) := by
      simp
    rw [pending, seen]
    exact explored_start
  rw [closeLocalReferences_spec explored (by simp [Collected]) closed_ok, ReachedOpaque]
  constructor
  · rintro ⟨reached, reach, same, isOpaque⟩
    exact ⟨⟨reached, same, reach⟩, isOpaque⟩
  · rintro ⟨⟨reached, same, reach⟩, isOpaque⟩
    exact ⟨reached, reach, same, isOpaque⟩

end Exact

/-! ### References to later declarations -/

section Anywhere

variable (declarations : List DeclCert) (table : List TermNode)

/-- The declarations that a declaration may unfold to. -/
def unfoldsToAnywhere (declIndex : Id) : Set Id :=
  {other | ∃ declaration, declarations[declIndex.toNat]? = some declaration ∧
    ∃ root ∈ referencedTermIds declaration.decl, ∃ ref, Mentions table ref root ∧
      ref.localIndex = some other}

/-- The declarations that the terms of a declaration refer to. -/
def startsAnywhere (current : Nat) (root : DeclPayload) : Set Id :=
  {declIndex | ∃ term ∈ rootTermIds root, ∃ ref, Mentions table ref term ∧
    ¬(root.isInductive = true ∧ ref.isSelf current = true) ∧ ref.localIndex = some declIndex}

/-- An opaque definition that a declaration reaches over any local references. -/
def ReachedOpaqueAnywhere (current : Nat) (root : DeclPayload) (declIndex : Id) : Prop :=
  Reached (unfoldsToAnywhere declarations table) (startsAnywhere table current root) declIndex ∧
    OpaqueAt declarations declIndex

/-- The declarations before the current one and the current one itself refer to none that come
    later, as in every module that the builder accepts. -/
structure RefersBack (current : Nat) (root : DeclPayload) : Prop where
  root : ∀ other ∈ startsAnywhere table current root, other.toNat < current
  earlier : ∀ declIndex : Id, declIndex.toNat < current →
    ∀ other ∈ unfoldsToAnywhere declarations table declIndex, other.toNat < current

variable {declarations table}

theorem followed_eq_some {declIndex : Earlier current} :
    followed current ref = some declIndex ↔ ref.localIndex = some declIndex.1 := by
  rw [followed, Option.bind_eq_some_iff]
  constructor
  · rintro ⟨other, named, within⟩
    split at within
    next =>
      cases within
      exact named
    next => cases within
  · intro named
    exact ⟨declIndex.1, named, by rw [dif_pos declIndex.2]⟩

/-- Where no reference leads forward, the closure follows all local references. -/
theorem reachedOpaque_iff_anywhere {root : DeclPayload}
    (back : RefersBack declarations table current root) (declIndex : Id) :
    ReachedOpaque declarations table current root declIndex ↔
      ReachedOpaqueAnywhere declarations table current root declIndex := by
  apply and_congr_left'
  constructor
  · rintro ⟨reached, rfl, start, ⟨term, at_term, ref, mentions, follows⟩, reach⟩
    have named := followed_eq_some.mp follows
    have other : ¬(root.isInductive = true ∧ ref.isSelf current = true) := by
      rintro ⟨_, self⟩
      rw [followed_of_isSelf self] at follows
      cases follows
    refine ⟨start.1, ⟨term, at_term, ref, mentions, other, named⟩, ?_⟩
    apply reach.lift
    rintro a b ⟨declaration, here, root, at_root, ref, mentions, follows⟩
    exact ⟨declaration, here, root, at_root, ref, mentions, followed_eq_some.mp follows⟩
  · rintro ⟨start, starts, reach⟩
    induction reach with
    | refl =>
      obtain ⟨term, at_term, ref, mentions, _, named⟩ := id starts
      have earlier := back.root start starts
      refine ⟨⟨start, earlier⟩, rfl, ⟨start, earlier⟩, ⟨term, at_term, ref, mentions, ?_⟩, .refl⟩
      exact followed_eq_some.mpr named
    | @tail b c _ step ih =>
      obtain ⟨reached, rfl, first, at_first, reach⟩ := ih
      obtain ⟨declaration, here, term, at_term, ref, mentions, named⟩ := id step
      have earlier := back.earlier reached.1 reached.2 c step
      refine ⟨⟨c, earlier⟩, rfl, first, at_first, reach.tail ?_⟩
      exact ⟨declaration, here, term, at_term, ref, mentions, followed_eq_some.mpr named⟩

end Anywhere

end NpaCore.Wire
