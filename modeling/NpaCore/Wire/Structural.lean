import NpaCore.Wire.RoundTrip
import NpaCore.Wire.Tables

/-!
# The structural preflight

`structural_preflight` of `npa-cert/src/structural.rs`: before anything is unfolded, one
pass over each table computes how deep and how large the trees are, with sums cut off just
above the limit. Reserving memory for the tables of costs cannot fail here.

## Main results

* `validateCounts_eq_ok_iff`: the counts are the ones within their limits.
* `structuralPreflight_eq_ok_iff`: the preflight succeeds exactly when the true depths and
  sizes are within the limits, and returns the true ones.
-/

namespace NpaCore.Wire

open NpaCore.Result NpaCore.ForwardPass

def maxStructuralDepth : Nat := 8192
def maxRootExpandedNodes : Nat := 1048576
def maxCertificateExpandedNodes : Nat := 16777216

structure StructuralCost where
  maxDepth : Nat
  maxRootExpansion : Nat
  certificateExpansion : Nat
  deriving DecidableEq, Repr

/-! ### Counts -/

def ensureCountLimit (kind : StructuralLimitKind) (limit observed : Nat) : CertResult Unit :=
  Result.ensure (observed ≤ limit) (.structuralLimitExceeded kind limit observed)

def nested (observed : Nat) : CertResult Unit :=
  ensureCountLimit .nestedVectorEntries maxNestedVectorEntries observed

def inductiveCounts (params indices : List BinderType) (constructors : List ConstructorSpec)
    (recursor : Option RecursorSpec) : List Nat :=
  [params.length, indices.length, constructors.length] ++
    recursor.toList.map (·.universeParams.length)

/-- The counts that `check_decl_counts` passes to `nested`, in order. -/
def declCounts : DeclPayload → List Nat
  | .axiomDecl _ universeParams _
  | .defDecl _ universeParams _ _ _
  | .theoremDecl _ universeParams _ _ _ => [universeParams.length]
  | .axiomConstrained _ universeParams universeConstraints _
  | .defConstrained _ universeParams universeConstraints _ _ _
  | .theoremConstrained _ universeParams universeConstraints _ _ _ =>
    [universeParams.length, universeConstraints.length]
  | .inductiveDecl _ universeParams params indices _ constructors recursor =>
    universeParams.length :: inductiveCounts params indices constructors recursor
  | .inductiveConstrained _ universeParams universeConstraints params indices _ constructors
      recursor =>
    universeParams.length :: universeConstraints.length ::
      inductiveCounts params indices constructors recursor
  | .mutualInductiveBlock _ universeParams universeConstraints inductives =>
    universeParams.length :: universeConstraints.length :: inductives.length ::
      inductives.flatMap fun member =>
        inductiveCounts member.params member.indices member.constructors member.recursor

/-- `check_decl_counts`. -/
def checkDeclCounts (decl : DeclPayload) : CertResult Unit :=
  Result.forEach (declCounts decl) nested

def validateCounts (cert : ModuleCert) : CertResult Unit := do
  ensureCountLimit .imports maxImports cert.imports.length
  ensureCountLimit .nameTableEntries maxNameTableEntries cert.nameTable.length
  ensureCountLimit .levelTableNodes maxLevelTableNodes cert.levelTable.length
  ensureCountLimit .termTableNodes maxTermTableNodes cert.termTable.length
  ensureCountLimit .declarations maxDeclarations cert.declarations.length
  ensureCountLimit .exports maxExports cert.exportBlock.length
  nested cert.header.module.components.length
  Result.forEach cert.imports fun entry => nested entry.module.components.length
  Result.forEach cert.nameTable fun name => nested name.components.length
  Result.forEach cert.termTable fun
    | .const _ levels => nested levels.length
    | _ => .ok ()
  Result.forEach cert.declarations fun declaration => do
    nested declaration.dependencies.length
    nested declaration.axiomDependencies.length
    checkDeclCounts declaration.decl
  Result.forEach cert.exportBlock fun entry => do
    nested entry.universeParams.length
    nested entry.universeConstraints.length
    nested entry.axiomDependencies.length
  ensureCountLimit .declarations maxDeclarations cert.axiomReport.perDeclaration.length
  nested cert.axiomReport.moduleAxioms.length
  nested cert.axiomReport.coreFeatures.length
  Result.forEach cert.axiomReport.perDeclaration fun report => do
    nested report.directAxioms.length
    nested report.transitiveAxioms.length

/-- The counts of a certificate that have a limit of their own. -/
structure ModuleCert.WithinTableCounts (cert : ModuleCert) : Prop where
  imports : cert.imports.length ≤ maxImports
  nameTable : cert.nameTable.length ≤ maxNameTableEntries
  levelTable : cert.levelTable.length ≤ maxLevelTableNodes
  termTable : cert.termTable.length ≤ maxTermTableNodes
  declarations : cert.declarations.length ≤ maxDeclarations
  exportBlock : cert.exportBlock.length ≤ maxExports
  perDeclaration : cert.axiomReport.perDeclaration.length ≤ maxDeclarations

/-- All other counts of a certificate. -/
def ModuleCert.nestedCounts (cert : ModuleCert) : List Nat :=
  cert.header.module.components.length ::
    cert.imports.map (·.module.components.length) ++
    cert.nameTable.map (·.components.length) ++
    cert.termTable.map (fun
      | .const _ levels => levels.length
      | _ => 0) ++
    cert.declarations.flatMap (fun declaration =>
      declaration.dependencies.length :: declaration.axiomDependencies.length ::
        declCounts declaration.decl) ++
    cert.exportBlock.flatMap (fun entry =>
      [entry.universeParams.length, entry.universeConstraints.length,
        entry.axiomDependencies.length]) ++
    [cert.axiomReport.moduleAxioms.length, cert.axiomReport.coreFeatures.length] ++
    cert.axiomReport.perDeclaration.flatMap fun report =>
      [report.directAxioms.length, report.transitiveAxioms.length]

structure ModuleCert.WithinCounts (cert : ModuleCert) : Prop where
  tables : cert.WithinTableCounts
  nested : ∀ count ∈ cert.nestedCounts, count ≤ maxNestedVectorEntries

theorem ensureCountLimit_eq_ok {kind : StructuralLimitKind} {limit observed : Nat} {u : Unit} :
    ensureCountLimit kind limit observed = .ok u ↔ observed ≤ limit := by
  rw [ensureCountLimit, ensure_eq_ok, decide_eq_true_eq]

theorem nested_eq_ok {observed : Nat} {u : Unit} :
    nested observed = .ok u ↔ observed ≤ maxNestedVectorEntries := ensureCountLimit_eq_ok

variable {cert : ModuleCert}

theorem validateCounts_eq_ok_iff {u : Unit} :
    validateCounts cert = .ok u ↔ cert.WithinCounts := by
  have constCounts : ∀ node : TermNode,
      (match node with
        | .const _ levels => nested levels.length
        | _ => .ok ()) = .ok () ↔
        (match node with
        | .const _ levels => levels.length
        | _ => 0) ≤ maxNestedVectorEntries := by
    intro node
    cases node with
    | const _ _ => exact nested_eq_ok
    | _ => simp
  simp only [validateCounts, bind_eq_ok, forEach_eq_ok, ensureCountLimit_eq_ok, nested_eq_ok,
    constCounts, checkDeclCounts]
  constructor
  · rintro ⟨_, imports, _, names, _, levels, _, terms, _, declarations, _, exports, _, header,
      _, imports', _, names', _, terms', _, declarations', _, exports', _, reports, _, axioms,
      _, features, reports'⟩
    refine ⟨⟨imports, names, levels, terms, declarations, exports, reports⟩, ?_⟩
    simp only [ModuleCert.nestedCounts, List.cons_append, List.append_assoc, List.mem_cons,
      List.mem_append, List.mem_map, List.mem_flatMap, List.not_mem_nil, or_false, false_or]
    -- each of the listed counts is held to the limit by one of the checks
    rintro count (rfl | ⟨entry, mem, rfl⟩ | ⟨name, mem, rfl⟩ | ⟨node, mem, rfl⟩ |
      ⟨declaration, mem, here⟩ | ⟨entry, mem, here⟩ | rfl | rfl | ⟨report, mem, here⟩)
    · exact header
    · exact imports' entry mem
    · exact names' name mem
    · exact terms' node mem
    · obtain ⟨_, dependencies, _, axiomDependencies, payload⟩ := declarations' declaration mem
      rcases here with rfl | rfl | here
      · exact dependencies
      · exact axiomDependencies
      · exact payload count here
    · obtain ⟨_, params, _, constraints, axiomDependencies⟩ := exports' entry mem
      rcases here with rfl | rfl | rfl
      · exact params
      · exact constraints
      · exact axiomDependencies
    · exact axioms
    · exact features
    · obtain ⟨_, direct, transitive⟩ := reports' report mem
      rcases here with rfl | rfl
      · exact direct
      · exact transitive
  · rintro ⟨⟨imports, names, levels, terms, declarations, exports, reports⟩, nested⟩
    simp only [ModuleCert.nestedCounts, List.cons_append, List.append_assoc, List.mem_cons,
      List.mem_append, List.mem_map, List.mem_flatMap, List.not_mem_nil, or_false,
      false_or] at nested
    have within := fun {count : Nat} => nested count
    refine ⟨(), imports, (), names, (), levels, (), terms, (), declarations, (), exports, (),
      within (.inl rfl), (), fun entry mem => ?_, (), fun name mem => ?_, (), fun node mem => ?_,
      (), fun declaration mem => ?_, (), fun entry mem => ?_, (), reports, (), ?_, (), ?_,
      fun report mem => ?_⟩
    · exact within (.inr (.inl ⟨entry, mem, rfl⟩))
    · exact within (.inr (.inr (.inl ⟨name, mem, rfl⟩)))
    · exact within (.inr (.inr (.inr (.inl ⟨node, mem, rfl⟩))))
    · have here : ∀ {count : Nat}, count = declaration.dependencies.length ∨
          count = declaration.axiomDependencies.length ∨ count ∈ declCounts declaration.decl →
          count ≤ maxNestedVectorEntries := fun at_count =>
        within (.inr (.inr (.inr (.inr (.inl ⟨declaration, mem, at_count⟩)))))
      exact ⟨(), here (.inl rfl), (), here (.inr (.inl rfl)),
        fun count at_count => here (.inr (.inr at_count))⟩
    · have here : ∀ {count : Nat}, count = entry.universeParams.length ∨
          count = entry.universeConstraints.length ∨ count = entry.axiomDependencies.length →
          count ≤ maxNestedVectorEntries := fun at_count =>
        within (.inr (.inr (.inr (.inr (.inr (.inl ⟨entry, mem, at_count⟩))))))
      exact ⟨(), here (.inl rfl), (), here (.inr (.inl rfl)), here (.inr (.inr rfl))⟩
    · exact within (.inr (.inr (.inr (.inr (.inr (.inr (.inl rfl)))))))
    · exact within (.inr (.inr (.inr (.inr (.inr (.inr (.inr (.inl rfl))))))))
    · have here : ∀ {count : Nat}, count = report.directAxioms.length ∨
          count = report.transitiveAxioms.length → count ≤ maxNestedVectorEntries :=
        fun at_count => within
          (.inr (.inr (.inr (.inr (.inr (.inr (.inr (.inr ⟨report, mem, at_count⟩))))))))
      exact ⟨(), here (.inl rfl), here (.inr rfl)⟩

/-! ### Semantic roots -/

/-- A level or a term that a declaration or an export mentions. -/
inductive SemanticRoot where
  | level (id : Id)
  | term (id : Id)
  deriving DecidableEq, Repr

def constraintRoots (constraints : List UniverseConstraintSpec) : List SemanticRoot :=
  constraints.flatMap fun constraint => [.level constraint.lhs, .level constraint.rhs]

def declConstraints : DeclPayload → List UniverseConstraintSpec
  | .axiomConstrained _ _ universeConstraints _
  | .defConstrained _ _ universeConstraints _ _ _
  | .theoremConstrained _ _ universeConstraints _ _ _
  | .inductiveConstrained _ _ universeConstraints _ _ _ _ _
  | .mutualInductiveBlock _ _ universeConstraints _ => universeConstraints
  | .axiomDecl .. | .defDecl .. | .theoremDecl .. | .inductiveDecl .. => []

def inductiveRoots (params indices : List BinderType) (sort : Id)
    (constructors : List ConstructorSpec) (recursor : Option RecursorSpec) : List SemanticRoot :=
  (params ++ indices).map (.term ·.ty) ++ .level sort :: constructors.map (.term ·.ty) ++
    recursor.toList.map (.term ·.ty)

/-- The roots of a declaration after those of its constraints. -/
def payloadRoots : DeclPayload → List SemanticRoot
  | .axiomDecl _ _ ty | .axiomConstrained _ _ _ ty => [.term ty]
  | .defDecl _ _ ty value _ | .defConstrained _ _ _ ty value _ => [.term ty, .term value]
  | .theoremDecl _ _ ty proof _ | .theoremConstrained _ _ _ ty proof _ => [.term ty, .term proof]
  | .inductiveDecl _ _ params indices sort constructors recursor
  | .inductiveConstrained _ _ _ params indices sort constructors recursor =>
    inductiveRoots params indices sort constructors recursor
  | .mutualInductiveBlock _ _ _ inductives => inductives.flatMap fun member =>
    inductiveRoots member.params member.indices member.sort member.constructors member.recursor

def exportRoots (entry : ExportEntry) : List SemanticRoot :=
  constraintRoots entry.universeConstraints ++ .term entry.ty :: entry.body.toList.map .term

/-- The roots in the order in which `validate_semantic_root_references` and
    `structural_preflight` come to them. -/
def ModuleCert.semanticRoots (cert : ModuleCert) : List SemanticRoot :=
  cert.declarations.flatMap (fun declaration =>
    constraintRoots (declConstraints declaration.decl) ++ payloadRoots declaration.decl) ++
  cert.exportBlock.flatMap exportRoots

/-- The root is in its table. -/
def ModuleCert.hasRoot (cert : ModuleCert) : SemanticRoot → Bool
  | .level id => id.toNat < cert.levelTable.length
  | .term id => id.toNat < cert.termTable.length

def validateSemanticRootReferences (cert : ModuleCert) : CertResult Unit :=
  Result.forEach cert.semanticRoots fun root => Result.ensure (cert.hasRoot root) .decodeError

/-! ### Costs -/

def usizeMax : Nat := 18446744073709551615

/-- `usize::saturating_add`. -/
def saturatingAdd (lhs rhs : Nat) : Nat := min (lhs + rhs) usizeMax

def expansionCap : Nat := maxRootExpandedNodes + 1

def cappedSum (values : List Nat) (cap : Nat) : Nat :=
  values.foldl (fun total value => min (saturatingAdd total value) cap) 0

/-- An entry of the tables of depths and of expansions. -/
structure NodeCost where
  depth : Nat
  expansion : Nat
  deriving DecidableEq, Repr

/-- The body of the loop over the level table, with `names` names in the name table. -/
def levelCost (names : Nat) (done : List NodeCost) : LevelNode → CertResult NodeCost
  | .zero => .ok ⟨1, 1⟩
  | .param name => do
    Result.ensure (name.toNat < names) .decodeError
    .ok ⟨1, 1⟩
  | .succ inner => do
    Result.ensure (inner.toNat < done.length) .decodeError
    let child ← checkedChild done inner
    .ok ⟨saturatingAdd child.depth 1, min (saturatingAdd child.expansion 1) expansionCap⟩
  | .max lhs rhs | .imax lhs rhs => do
    Result.ensure (lhs.toNat < done.length && rhs.toNat < done.length) .decodeError
    let left ← checkedChild done lhs
    let right ← checkedChild done rhs
    .ok ⟨saturatingAdd (max left.depth right.depth) 1,
      cappedSum [1, left.expansion, right.expansion] expansionCap⟩

/-- The condition of `validate_global_ref_shape`. -/
def ModuleCert.globalRefShape (cert : ModuleCert) : GlobalRef → Bool
  | .builtin name _ => name.toNat < cert.nameTable.length
  | .imported importIndex name _ =>
    importIndex.toNat < cert.imports.length && name.toNat < cert.nameTable.length
  | .local declIndex => declIndex.toNat < cert.declarations.length
  | .localGenerated declIndex name =>
    declIndex.toNat < cert.declarations.length && name.toNat < cert.nameTable.length

def validateGlobalRefShape (cert : ModuleCert) (globalRef : GlobalRef) : CertResult Unit :=
  Result.ensure (cert.globalRefShape globalRef) .decodeError

/-- The check that only a constant needs. -/
def validateTermShape (cert : ModuleCert) : TermNode → CertResult Unit
  | .const globalRef _ => validateGlobalRefShape cert globalRef
  | _ => .ok ()

/-- The body of the loop over the term table. -/
def termCost (cert : ModuleCert) (levels done : List NodeCost) (node : TermNode) :
    CertResult NodeCost := do
  validateTermShape cert node
  Result.ensure (node.terms.all fun child => child.toNat < done.length) .decodeError
  Result.ensure (node.levels.all fun level => level.toNat < cert.levelTable.length) .decodeError
  let terms ← Result.collect node.terms (checkedChild done)
  let levels ← Result.collect node.levels (checkedChild levels)
  let childDepth := ((terms ++ levels).map NodeCost.depth).foldl max 0
  .ok ⟨saturatingAdd 1 childDepth,
    cappedSum (1 :: (terms ++ levels).map NodeCost.expansion) expansionCap⟩

def addRoot (roots : StructuralCost) (expansion : Nat) : CertResult StructuralCost := do
  Result.ensure (expansion ≤ maxRootExpandedNodes)
    (.structuralLimitExceeded .rootExpandedNodes maxRootExpandedNodes (maxRootExpandedNodes + 1))
  let certificateExpansion :=
    min (saturatingAdd roots.certificateExpansion expansion) (maxCertificateExpandedNodes + 1)
  Result.ensure (certificateExpansion ≤ maxCertificateExpandedNodes)
    (.structuralLimitExceeded .certificateExpandedNodes maxCertificateExpandedNodes
      (maxCertificateExpandedNodes + 1))
  .ok { roots with
    maxRootExpansion := max roots.maxRootExpansion expansion
    certificateExpansion }

/-- `add_level_root` and `add_term_root`. -/
def addSemanticRoot (levels terms : List NodeCost) (roots : StructuralCost)
    (root : SemanticRoot) : CertResult StructuralCost := do
  let cost ← match root with
    | .level id => checkedChild levels id
    | .term id => checkedChild terms id
  addRoot { roots with maxDepth := max roots.maxDepth cost.depth } cost.expansion

def structuralPreflight (cert : ModuleCert) : CertResult StructuralCost := do
  validateCounts cert
  validateSemanticRootReferences cert
  let levels ← run (levelCost cert.nameTable.length) [] cert.levelTable
  let terms ← run (termCost cert levels) [] cert.termTable
  Result.ensure ((levels ++ terms).all fun cost => cost.depth ≤ maxStructuralDepth)
    (.structuralLimitExceeded .structuralDepth maxStructuralDepth (maxStructuralDepth + 1))
  let maxDepth := ((levels ++ terms).map NodeCost.depth).foldl max 0
  Result.foldEach cert.semanticRoots ⟨maxDepth, 0, 0⟩ (addSemanticRoot levels terms)

/-! ### True depths and sizes -/

/-- How deep an expression nests, its levels included. -/
def treeDepth : TableExpr → Nat
  | .sort level => 1 + level.height
  | .bvar _ => 1
  | .const _ levels => 1 + (levels.map Level.height).foldl max 0
  | .app fn arg => 1 + max (treeDepth fn) (treeDepth arg)
  | .lam _ ty body | .pi _ ty body => 1 + max (treeDepth ty) (treeDepth body)

/-- The number of nodes of an expression, its levels included. -/
def treeSize : TableExpr → Nat
  | .sort level => 1 + level.size
  | .bvar _ => 1
  | .const _ levels => 1 + (levels.map Level.size).sum
  | .app fn arg => 1 + treeSize fn + treeSize arg
  | .lam _ ty body | .pi _ ty body => 1 + treeSize ty + treeSize body

/-- The size of the tree of a root. -/
def rootSize (levels : List TableLevel) (terms : List TableExpr) : SemanticRoot → Nat
  | .level id => (levels[id.toNat]?).elim 0 Level.size
  | .term id => (terms[id.toNat]?).elim 0 treeSize

def rootSizes (cert : ModuleCert) (levels : List TableLevel) (terms : List TableExpr) : List Nat :=
  cert.semanticRoots.map (rootSize levels terms)

/-- The cost of a certificate, of the trees themselves. -/
def trueCost (cert : ModuleCert) (levels : List TableLevel) (terms : List TableExpr) :
    StructuralCost where
  maxDepth := (levels.map Level.height ++ terms.map treeDepth).foldl max 0
  maxRootExpansion := (rootSizes cert levels terms).foldl max 0
  certificateExpansion := (rootSizes cert levels terms).sum

/-- The trees are within the limits. -/
structure WithinTreeLimits (cert : ModuleCert) (levels : List TableLevel)
    (terms : List TableExpr) : Prop where
  levelDepths : ∀ level ∈ levels, level.height ≤ maxStructuralDepth
  termDepths : ∀ term ∈ terms, treeDepth term ≤ maxStructuralDepth
  rootSizes : ∀ size ∈ rootSizes cert levels terms, size ≤ maxRootExpandedNodes
  total : (Wire.rootSizes cert levels terms).sum ≤ maxCertificateExpandedNodes

/-- The names, imports, declarations and roots that the certificate mentions exist. -/
structure ModuleCert.ReferencesExist (cert : ModuleCert) : Prop where
  params : ∀ name, .param name ∈ cert.levelTable → name.toNat < cert.nameTable.length
  globalRefs : ∀ globalRef levels, .const globalRef levels ∈ cert.termTable →
    cert.globalRefShape globalRef = true
  roots : ∀ root ∈ cert.semanticRoots, cert.hasRoot root = true

/-! ### The costs that the passes compute -/

/-- The entry of a tree of this depth and size. -/
structure Prices (cost : NodeCost) (depth size : Nat) : Prop where
  depth : cost.depth = min depth usizeMax
  expansion : cost.expansion = min size expansionCap

theorem foldl_saturating {values sizes : List Nat} {cap : Nat} (fits : cap ≤ usizeMax)
    (capped : List.Forall₂ (fun value size => value = min size cap) values sizes) (start : Nat) :
    values.foldl (fun total value => min (saturatingAdd total value) cap) (min start cap) =
      min (start + sizes.sum) cap := by
  induction capped generalizing start with
  | nil => simp
  | @cons value size values sizes head _ ih =>
    have next : min (saturatingAdd (min start cap) value) cap = min (start + size) cap := by
      rw [saturatingAdd, head]
      omega
    rw [List.foldl_cons, next, ih, List.sum_cons, Nat.add_assoc]

/-- Cutting off the sum at each step, and the summands before, changes nothing below the cap. -/
theorem cappedSum_eq {values sizes : List Nat} {cap : Nat} (fits : cap ≤ usizeMax)
    (capped : List.Forall₂ (fun value size => value = min size cap) values sizes) :
    cappedSum values cap = min sizes.sum cap := by
  have sum := foldl_saturating fits capped 0
  rwa [Nat.zero_min, Nat.zero_add] at sum

theorem foldl_max_eq {values depths : List Nat} {cap : Nat}
    (capped : List.Forall₂ (fun value depth => value = min depth cap) values depths) (start : Nat) :
    values.foldl max (min start cap) = min (depths.foldl max start) cap := by
  induction capped generalizing start with
  | nil => rfl
  | @cons value depth values depths head _ ih =>
    have next : max (min start cap) value = min (max start depth) cap := by
      rw [head]
      omega
    rw [List.foldl_cons, List.foldl_cons, next, ih]

theorem expansionCap_fits : expansionCap ≤ usizeMax := by decide

/-- A level and the entry of its node. -/
def PricesLevel (cost : NodeCost) (level : TableLevel) : Prop :=
  Prices cost level.height level.size

/-- A term and the entry of its node. -/
def PricesTerm (cost : NodeCost) (term : TableExpr) : Prop :=
  Prices cost (treeDepth term) (treeSize term)

theorem cappedSum_pair {left right : NodeCost} {leftDepth leftSize rightDepth rightSize : Nat}
    (first : Prices left leftDepth leftSize) (second : Prices right rightDepth rightSize) :
    cappedSum [1, left.expansion, right.expansion] expansionCap =
      min (1 + leftSize + rightSize) expansionCap := by
  have one : 1 = min 1 expansionCap := by decide
  have sum : cappedSum [1, left.expansion, right.expansion] expansionCap =
      min [1, leftSize, rightSize].sum expansionCap :=
    cappedSum_eq expansionCap_fits
      (.cons one (.cons first.expansion (.cons second.expansion .nil)))
  simpa [Nat.add_assoc] using sum

/-- A child that is there passes the check of its range before. -/
theorem ensure_checkedChild {α β : Type} (done : List α) (id : Id) (rest : α → CertResult β) :
    (do
      Result.ensure (id.toNat < done.length) .decodeError
      let child ← checkedChild done id
      rest child) = checkedChild done id >>= rest := by
  by_cases bound : id.toNat < done.length
  · simp only [Result.ensure, bound, decide_true]
    rfl
  · simp only [Result.ensure, bound, decide_false, checkedChild,
      List.getElem?_eq_none (Nat.le_of_not_lt bound)]
    rfl

theorem ensure_checkedChildren {α β : Type} (done : List α) (lhs rhs : Id)
    (rest : α → α → CertResult β) :
    (do
      Result.ensure (lhs.toNat < done.length && rhs.toNat < done.length) .decodeError
      let left ← checkedChild done lhs
      let right ← checkedChild done rhs
      rest left right) =
      checkedChild done lhs >>= fun left => checkedChild done rhs >>= fun right =>
        rest left right := by
  by_cases left : lhs.toNat < done.length <;> by_cases right : rhs.toNat < done.length
  · simp only [Result.ensure, left, right, decide_true]
    rfl
  · simp only [Result.ensure, left, right, decide_true, decide_false, checkedChild,
      List.getElem?_eq_getElem left, List.getElem?_eq_none (Nat.le_of_not_lt right)]
    rfl
  · simp only [Result.ensure, left, decide_false, checkedChild,
      List.getElem?_eq_none (Nat.le_of_not_lt left)]
    rfl
  · simp only [Result.ensure, left, decide_false, checkedChild,
      List.getElem?_eq_none (Nat.le_of_not_lt left)]
    rfl

variable {trees : List TableLevel}

/-- With its references in place, a level node is priced exactly when it unfolds. -/
theorem levelCost_matches {names : Nat} {node : LevelNode}
    (params : ∀ name, node = .param name → name.toNat < names) {done : List NodeCost}
    (related : List.Forall₂ PricesLevel done trees) :
    Matches PricesLevel (levelCost names done node) (unfoldLevelNode trees node) := by
  have leaf : Prices ⟨1, 1⟩ 1 1 := ⟨by decide, by decide⟩
  cases node with
  | zero => exact leaf
  | param name =>
    have exists_name := params name rfl
    simp only [levelCost, unfoldLevelNode, exists_name, decide_true]
    exact leaf
  | succ inner =>
    rw [levelCost, unfoldLevelNode, ensure_checkedChild]
    refine matches_bind (checkedChild_matches related inner) fun cost level _ _ priced => ?_
    refine ⟨?_, ?_⟩
    · simp only [saturatingAdd, priced.depth, Level.height]
      omega
    · have fits := expansionCap_fits
      simp only [saturatingAdd, priced.expansion, Level.size]
      omega
  | max lhs rhs | imax lhs rhs =>
    rw [levelCost, unfoldLevelNode, ensure_checkedChildren]
    refine matches_bind (checkedChild_matches related lhs) fun left level _ _ first => ?_
    refine matches_bind (checkedChild_matches related rhs) fun right level' _ _ second => ?_
    refine ⟨?_, ?_⟩
    · simp only [saturatingAdd, first.depth, second.depth, Level.height]
      omega
    · simp only [cappedSum_pair first second, Level.size]
      omega

theorem collect_checkedChild_error {α : Type} {values : List α} {ids : List Id}
    (missing : ¬ ∀ id ∈ ids, id.toNat < values.length) :
    Result.collect ids (checkedChild values) = .error .decodeError := by
  induction ids with
  | nil => exact absurd nofun missing
  | cons id ids ih =>
    rw [Result.collect]
    by_cases bound : id.toNat < values.length
    · obtain ⟨value, found⟩ := checkedChild_isOk_iff.mpr bound
      rw [found, ok_bind, ih fun others => missing (List.forall_mem_cons.mpr ⟨bound, others⟩)]
      rfl
    · rw [checkedChild, List.getElem?_eq_none (Nat.le_of_not_lt bound)]
      rfl

/-- The cost of a node from the costs of its children, which the checks before let through. -/
theorem termCost_eq {levels done : List NodeCost} {node : TermNode}
    (lengths : levels.length = cert.levelTable.length)
    (globalRefs : ∀ globalRef ids, node = .const globalRef ids →
      cert.globalRefShape globalRef = true) :
    termCost cert levels done node = (do
      let terms ← Result.collect node.terms (checkedChild done)
      let levels ← Result.collect node.levels (checkedChild levels)
      .ok ⟨saturatingAdd 1 (((terms ++ levels).map NodeCost.depth).foldl max 0),
        cappedSum (1 :: (terms ++ levels).map NodeCost.expansion) expansionCap⟩) := by
  have shape : validateTermShape cert node = .ok () := by
    cases node with
    | const globalRef ids => exact ensure_eq_ok.mpr (globalRefs globalRef ids rfl)
    | _ => rfl
  rw [termCost, shape, ok_bind]
  by_cases terms : ∀ child ∈ node.terms, child.toNat < done.length
  · have checked : (node.terms.all fun child => child.toNat < done.length) = true := by
      simpa using terms
    rw [checked]
    obtain ⟨costs, found⟩ := collect_checkedChild_isOk_iff.mpr terms
    by_cases inside : ∀ level ∈ node.levels, level.toNat < levels.length
    · have checked : (node.levels.all fun level => level.toNat < cert.levelTable.length) = true := by
        rw [← lengths]
        simpa using inside
      rw [checked]
      rfl
    · have unchecked :
          (node.levels.all fun level => level.toNat < cert.levelTable.length) = false := by
        rw [← lengths, Bool.eq_false_iff]
        simpa using inside
      rw [unchecked, found, ok_bind, collect_checkedChild_error inside]
      rfl
  · have unchecked : (node.terms.all fun child => child.toNat < done.length) = false := by
      rw [Bool.eq_false_iff]
      simpa using terms
    rw [unchecked, collect_checkedChild_error terms]
    rfl

theorem collect_nil_bind {α β γ : Type} {f : α → CertResult β} {rest : List β → CertResult γ} :
    (Result.collect [] f >>= rest) = rest [] := rfl

theorem collect_singleton_bind {α β γ : Type} {a : α} {f : α → CertResult β}
    {rest : List β → CertResult γ} :
    (Result.collect [a] f >>= rest) = f a >>= fun x => rest [x] := by
  rw [Result.collect]
  cases f a <;> rfl

theorem collect_pair_bind {α β γ : Type} {a b : α} {f : α → CertResult β}
    {rest : List β → CertResult γ} :
    (Result.collect [a, b] f >>= rest) = f a >>= fun x => f b >>= fun y => rest [x, y] := by
  rw [Result.collect, Result.collect]
  cases f a with
  | error e => rfl
  | ok x => cases f b <;> rfl

variable {costs : List NodeCost}

/-- The entry of a node with these children. -/
theorem prices_node {depths sizes : List Nat}
    (depth : List.Forall₂ (fun cost depth => cost.depth = min depth usizeMax) costs depths)
    (size : List.Forall₂ (fun cost size => cost.expansion = min size expansionCap) costs sizes) :
    Prices ⟨saturatingAdd 1 ((costs.map NodeCost.depth).foldl max 0),
      cappedSum (1 :: costs.map NodeCost.expansion) expansionCap⟩
      (1 + depths.foldl max 0) (1 + sizes.sum) where
  depth := by
    have deepest : (costs.map NodeCost.depth).foldl max (min 0 usizeMax) =
        min (depths.foldl max 0) usizeMax :=
      foldl_max_eq (List.forall₂_map_left_iff.mpr depth) 0
    rw [Nat.zero_min] at deepest
    simp only [saturatingAdd, deepest]
    omega
  expansion := by
    have one : 1 = min 1 expansionCap := by decide
    have sum := cappedSum_eq expansionCap_fits
      (.cons one (List.forall₂_map_left_iff.mpr size))
    simpa using sum

/-- With its references in place, a term node is priced exactly when it unfolds. -/
theorem termCost_matches {levels : List NodeCost}
    {node : TermNode} (lengths : levels.length = cert.levelTable.length)
    (globalRefs : ∀ globalRef ids, node = .const globalRef ids →
      cert.globalRefShape globalRef = true) (relatedLevels : List.Forall₂ PricesLevel levels trees)
    {done : List NodeCost} {terms : List TableExpr} (related : List.Forall₂ PricesTerm done terms) :
    Matches PricesTerm (termCost cert levels done node) (unfoldTermNode trees terms node) := by
  rw [termCost_eq lengths globalRefs]
  cases node with
  | sort level =>
    simp only [TermNode.terms, TermNode.levels, collect_nil_bind, collect_singleton_bind,
      unfoldTermNode]
    refine matches_bind (checkedChild_matches relatedLevels level) fun cost tree _ _ priced => ?_
    have entry := prices_node (.cons priced.depth .nil) (.cons priced.expansion .nil)
    simpa [Matches, PricesTerm, treeDepth, treeSize] using entry
  | bvar index =>
    simp only [TermNode.terms, TermNode.levels, collect_nil_bind, unfoldTermNode]
    exact prices_node .nil .nil
  | const globalRef ids =>
    simp only [TermNode.terms, TermNode.levels, collect_nil_bind, unfoldTermNode, List.nil_append]
    refine matches_bind (collect_checkedChild_matches relatedLevels ids) ?_
    intro costs args _ _ priced
    have depths : List.Forall₂ (fun cost depth => cost.depth = min depth usizeMax) costs
        (args.map Level.height) :=
      List.forall₂_map_right_iff.mpr (priced.imp fun _ _ price => price.depth)
    have sizes : List.Forall₂ (fun cost size => cost.expansion = min size expansionCap) costs
        (args.map Level.size) :=
      List.forall₂_map_right_iff.mpr (priced.imp fun _ _ price => price.expansion)
    exact prices_node depths sizes
  | app first second | lam first second | pi first second =>
    simp only [TermNode.terms, TermNode.levels, collect_nil_bind, collect_pair_bind,
      unfoldTermNode]
    refine matches_bind (checkedChild_matches related first) fun left tree _ _ priced => ?_
    refine matches_bind (checkedChild_matches related second) fun right tree' _ _ priced' => ?_
    have entry := prices_node (.cons priced.depth (.cons priced'.depth .nil))
      (.cons priced.expansion (.cons priced'.expansion .nil))
    simpa [Matches, PricesTerm, treeDepth, treeSize, Nat.add_assoc] using entry

theorem levelCost_params {names : Nat} {done : List NodeCost} {node : LevelNode} {cost : NodeCost}
    (h : levelCost names done node = .ok cost) : ∀ name, node = .param name → name.toNat < names := by
  rintro name rfl
  obtain ⟨_, inside, _⟩ := bind_eq_ok.mp h
  simpa using inside

theorem termCost_globalRefs {levels done : List NodeCost} {node : TermNode}
    {cost : NodeCost} (h : termCost cert levels done node = .ok cost) :
    ∀ globalRef ids, node = .const globalRef ids → cert.globalRefShape globalRef = true := by
  rintro globalRef ids rfl
  obtain ⟨_, shape, _⟩ := bind_eq_ok.mp h
  exact ensure_eq_ok.mp shape

theorem levelPass_params {names : Nat} {table : List LevelNode}
    (h : run (levelCost names) [] table = .ok costs) :
    ∀ name, .param name ∈ table → name.toNat < names := by
  have checks : ∀ done node cost, levelCost names done node = .ok cost →
      ∀ name, node = .param name → name.toNat < names := fun _ _ _ => levelCost_params
  exact fun name mem => run_checks checks h _ mem name rfl

theorem termPass_globalRefs {levels : List NodeCost}
    (h : run (termCost cert levels) [] cert.termTable = .ok costs) :
    ∀ globalRef ids, .const globalRef ids ∈ cert.termTable →
      cert.globalRefShape globalRef = true := by
  have checks : ∀ done node cost, termCost cert levels done node = .ok cost →
      ∀ globalRef ids, node = .const globalRef ids → cert.globalRefShape globalRef = true :=
    fun _ _ _ => termCost_globalRefs
  exact fun globalRef ids mem => run_checks checks h _ mem globalRef ids rfl

/-! ### The roots -/

/-- Adding a root whose size was cut off above the limit of a root. -/
theorem addRoot_eq_ok {roots next : StructuralCost} {expansion size : Nat}
    (capped : expansion = min size expansionCap) :
    addRoot roots expansion = .ok next ↔
      size ≤ maxRootExpandedNodes ∧
      roots.certificateExpansion + size ≤ maxCertificateExpandedNodes ∧
      next = { roots with
        maxRootExpansion := max roots.maxRootExpansion size
        certificateExpansion := roots.certificateExpansion + size } := by
  simp only [addRoot, bind_eq_ok, ensure_eq_ok, decide_eq_true_eq, Except.ok.injEq,
    exists_and_left, exists_const, saturatingAdd, capped, expansionCap, maxRootExpandedNodes,
    maxCertificateExpandedNodes, usizeMax]
  constructor
  · rintro ⟨root, total, rfl⟩
    have exact_size : min size (1048576 + 1) = size := by omega
    rw [exact_size] at total ⊢
    refine ⟨by omega, by omega, ?_⟩
    congr 1
    omega
  · rintro ⟨root, total, rfl⟩
    have exact_size : min size (1048576 + 1) = size := by omega
    rw [exact_size]
    refine ⟨by omega, by omega, ?_⟩
    congr 1
    omega

/-- The entries of the tables, for the trees of the tables. -/
structure PricesTables (levels terms : List NodeCost) (trees : List TableLevel)
    (exprs : List TableExpr) : Prop where
  levels : List.Forall₂ PricesLevel levels trees
  terms : List.Forall₂ PricesTerm terms exprs

/-- What stands at the place of an id in two related tables. -/
theorem checkedChild_related {α β : Type} {R : α → β → Prop} {xs : List α} {ys : List β}
    (related : List.Forall₂ R xs ys) {id : Id} (bound : id.toNat < xs.length) :
    ∃ x ∈ xs, ∃ y, checkedChild xs id = .ok x ∧ ys[id.toNat]? = some y ∧ R x y := by
  obtain ⟨x, at_x⟩ := checkedChild_isOk_iff.mpr bound
  obtain ⟨y, at_y, both⟩ := (checkedChild_matches related id).of_left at_x
  exact ⟨x, List.mem_of_getElem? (checkedChild_eq_ok.mp at_x), y, at_x, checkedChild_eq_ok.mp at_y,
    both⟩

section Roots

variable {cert : ModuleCert} {levels terms : List NodeCost} {trees : List TableLevel}
  {exprs : List TableExpr}

/-- Adding a root, in terms of its tree; the depth of a root is one of those in the tables. -/
theorem addSemanticRoot_eq_ok (prices : PricesTables levels terms trees exprs)
    (levelCount : levels.length = cert.levelTable.length)
    (termCount : terms.length = cert.termTable.length) {root : SemanticRoot}
    (has : cert.hasRoot root = true) {roots next : StructuralCost}
    (deepest : ∀ cost ∈ levels ++ terms, cost.depth ≤ roots.maxDepth) :
    addSemanticRoot levels terms roots root = .ok next ↔
      rootSize trees exprs root ≤ maxRootExpandedNodes ∧
      roots.certificateExpansion + rootSize trees exprs root ≤ maxCertificateExpandedNodes ∧
      next = { roots with
        maxRootExpansion := max roots.maxRootExpansion (rootSize trees exprs root)
        certificateExpansion := roots.certificateExpansion + rootSize trees exprs root } := by
  cases root with
  | level id =>
    have bound : id.toNat < levels.length := by simpa [ModuleCert.hasRoot, levelCount] using has
    obtain ⟨cost, mem, tree, at_cost, at_tree, priced⟩ := checkedChild_related prices.levels bound
    have size : rootSize trees exprs (.level id) = tree.size := by
      rw [rootSize, at_tree, Option.elim_some]
    have depth : max roots.maxDepth cost.depth = roots.maxDepth :=
      Nat.max_eq_left (deepest cost (List.mem_append_left _ mem))
    simp only [addSemanticRoot, at_cost, ok_bind, depth, size]
    exact addRoot_eq_ok priced.expansion
  | term id =>
    have bound : id.toNat < terms.length := by simpa [ModuleCert.hasRoot, termCount] using has
    obtain ⟨cost, mem, term, at_cost, at_term, priced⟩ := checkedChild_related prices.terms bound
    have size : rootSize trees exprs (.term id) = treeSize term := by
      rw [rootSize, at_term, Option.elim_some]
    have depth : max roots.maxDepth cost.depth = roots.maxDepth :=
      Nat.max_eq_left (deepest cost (List.mem_append_right _ mem))
    simp only [addSemanticRoot, at_cost, ok_bind, depth, size]
    exact addRoot_eq_ok priced.expansion

/-- The loop over the roots, by what it started with. -/
theorem addSemanticRoots_eq_ok (prices : PricesTables levels terms trees exprs)
    (levelCount : levels.length = cert.levelTable.length)
    (termCount : terms.length = cert.termTable.length) {pending : List SemanticRoot}
    (has : ∀ root ∈ pending, cert.hasRoot root = true) {roots final : StructuralCost}
    (within : roots.certificateExpansion ≤ maxCertificateExpandedNodes)
    (deepest : ∀ cost ∈ levels ++ terms, cost.depth ≤ roots.maxDepth) :
    Result.foldEach pending roots (addSemanticRoot levels terms) = .ok final ↔
      (∀ root ∈ pending, rootSize trees exprs root ≤ maxRootExpandedNodes) ∧
      roots.certificateExpansion + (pending.map (rootSize trees exprs)).sum ≤
        maxCertificateExpandedNodes ∧
      final = { roots with
        maxRootExpansion := (pending.map (rootSize trees exprs)).foldl max roots.maxRootExpansion
        certificateExpansion :=
          roots.certificateExpansion + (pending.map (rootSize trees exprs)).sum } := by
  induction pending generalizing roots with
  | nil => simp [Result.foldEach, within, eq_comm]
  | cons root pending ih =>
    obtain ⟨first, others⟩ := List.forall_mem_cons.mp has
    simp only [Result.foldEach, bind_eq_ok,
      addSemanticRoot_eq_ok prices levelCount termCount first deepest, List.forall_mem_cons,
      List.map_cons, List.sum_cons, List.foldl_cons]
    constructor
    · rintro ⟨next, ⟨small, total, rfl⟩, rest⟩
      rw [ih others] at rest
      · obtain ⟨smaller, total', rfl⟩ := rest
        refine ⟨⟨small, smaller⟩, ?_, ?_⟩
        · simpa [Nat.add_assoc] using total'
        · simp [Nat.add_assoc]
      · exact total
      · exact deepest
    · rintro ⟨⟨small, smaller⟩, total, rfl⟩
      have partly : roots.certificateExpansion + rootSize trees exprs root ≤
          maxCertificateExpandedNodes := by omega
      refine ⟨_, ⟨small, partly, rfl⟩, ?_⟩
      rw [ih others]
      · refine ⟨smaller, ?_, ?_⟩
        · simpa [Nat.add_assoc] using total
        · simp [Nat.add_assoc]
      · exact partly
      · exact deepest

end Roots

/-! ### The preflight -/

/-- Depths within the limit were not cut off. -/
theorem depths_eq {depths : List Nat}
    (priced : List.Forall₂ (fun cost depth => cost.depth = min depth usizeMax) costs depths) :
    ((∀ cost ∈ costs, cost.depth ≤ maxStructuralDepth) ↔
      ∀ depth ∈ depths, depth ≤ maxStructuralDepth) ∧
    ((∀ depth ∈ depths, depth ≤ maxStructuralDepth) → costs.map NodeCost.depth = depths) := by
  have below : maxStructuralDepth < usizeMax := by decide
  induction priced with
  | nil => simp
  | @cons cost depth costs depths head _ ih =>
    obtain ⟨same, equal⟩ := ih
    refine ⟨?_, ?_⟩
    · rw [List.forall_mem_cons, List.forall_mem_cons, same, head]
      have uncut : min depth usizeMax ≤ maxStructuralDepth ↔ depth ≤ maxStructuralDepth := by omega
      rw [uncut]
    · intro within
      obtain ⟨first, others⟩ := List.forall_mem_cons.mp within
      rw [List.map_cons, equal others, head, Nat.min_eq_left (by omega)]

theorem PricesTables.depths {levels terms : List NodeCost}
    {exprs : List TableExpr} (prices : PricesTables levels terms trees exprs) :
    List.Forall₂ (fun cost depth => cost.depth = min depth usizeMax) (levels ++ terms)
      (trees.map Level.height ++ exprs.map treeDepth) :=
  List.rel_append
    (List.forall₂_map_right_iff.mpr (prices.levels.imp fun _ _ price => price.depth))
    (List.forall₂_map_right_iff.mpr (prices.terms.imp fun _ _ price => price.depth))

theorem le_foldl_max (values : List Nat) (start : Nat) :
    start ≤ values.foldl max start ∧ ∀ value ∈ values, value ≤ values.foldl max start := by
  induction values generalizing start with
  | nil => simp
  | cons value values ih =>
    obtain ⟨above, others⟩ := ih (max start value)
    rw [List.foldl_cons, List.forall_mem_cons]
    exact ⟨by omega, by omega, others⟩

/-- With the references in place, the two passes succeed exactly when the tables unfold. -/
theorem passes_match (references : cert.ReferencesExist) :
    Matches (fun costs trees => PricesTables costs.1 costs.2 trees.1 trees.2)
      (do
        let levels ← run (levelCost cert.nameTable.length) [] cert.levelTable
        let terms ← run (termCost cert levels) [] cert.termTable
        (.ok (levels, terms) : CertResult (List NodeCost × List NodeCost)))
      (do
        let levels ← unfoldLevels cert.levelTable
        let terms ← unfoldTerms levels cert.termTable
        (.ok (levels, terms) : CertResult (List TableLevel × List TableExpr))) := by
  have levelPass : Matches (List.Forall₂ PricesLevel)
      (run (levelCost cert.nameTable.length) [] cert.levelTable) (unfoldLevels cert.levelTable) :=
    run_matches (fun done trees related node mem =>
      levelCost_matches (fun name shape => references.params name (shape ▸ mem)) related) .nil
  refine matches_bind levelPass fun levels trees at_levels _ relatedLevels => ?_
  have lengths : levels.length = cert.levelTable.length := by simpa using run_length at_levels
  have termPass : Matches (List.Forall₂ PricesTerm)
      (run (termCost cert levels) [] cert.termTable) (unfoldTerms trees cert.termTable) :=
    run_matches (fun done exprs related node mem =>
      termCost_matches lengths (fun globalRef ids shape =>
        references.globalRefs globalRef ids (shape ▸ mem)) relatedLevels related) .nil
  exact matches_bind termPass fun terms exprs _ _ relatedTerms => ⟨relatedLevels, relatedTerms⟩

/-- What the preflight does after the passes, in terms of the trees. -/
theorem limits_iff {levels terms : List NodeCost}
    {exprs : List TableExpr} (prices : PricesTables levels terms trees exprs)
    (levelCount : levels.length = cert.levelTable.length)
    (termCount : terms.length = cert.termTable.length)
    (has : ∀ root ∈ cert.semanticRoots, cert.hasRoot root = true) {cost : StructuralCost} :
    ((∀ entry ∈ levels ++ terms, entry.depth ≤ maxStructuralDepth) ∧
      Result.foldEach cert.semanticRoots
        ⟨((levels ++ terms).map NodeCost.depth).foldl max 0, 0, 0⟩
        (addSemanticRoot levels terms) = .ok cost) ↔
      WithinTreeLimits cert trees exprs ∧ cost = trueCost cert trees exprs := by
  have deepest : ∀ entry ∈ levels ++ terms,
      entry.depth ≤ ((levels ++ terms).map NodeCost.depth).foldl max 0 := fun entry mem =>
    (le_foldl_max _ 0).2 _ (List.mem_map_of_mem mem)
  obtain ⟨same, equal⟩ := depths_eq prices.depths
  rw [same, addSemanticRoots_eq_ok prices levelCount termCount has (Nat.zero_le _) deepest]
  simp only [Nat.zero_add]
  constructor
  · rintro ⟨depths, small, total, rfl⟩
    refine ⟨⟨?_, ?_, ?_, total⟩, ?_⟩
    · exact fun level mem =>
        depths _ (List.mem_append_left _ (List.mem_map_of_mem mem))
    · exact fun term mem =>
        depths _ (List.mem_append_right _ (List.mem_map_of_mem mem))
    · simpa [rootSizes] using small
    · rw [trueCost, equal depths, rootSizes]
  · rintro ⟨limits, rfl⟩
    have depths : ∀ depth ∈ trees.map Level.height ++ exprs.map treeDepth,
        depth ≤ maxStructuralDepth := by
      intro depth mem
      rcases List.mem_append.mp mem with mem | mem
      · obtain ⟨level, at_level, rfl⟩ := List.mem_map.mp mem
        exact limits.levelDepths level at_level
      · obtain ⟨term, at_term, rfl⟩ := List.mem_map.mp mem
        exact limits.termDepths term at_term
    refine ⟨depths, ?_, limits.total, ?_⟩
    · simpa [rootSizes] using limits.rootSizes
    · rw [trueCost, equal depths, rootSizes]

/-- The preflight succeeds exactly on the certificates whose counts are within their limits,
    whose nodes refer to earlier nodes and to names, imports, declarations and roots that
    exist, and whose trees are within the limits; the cost is that of the trees. -/
theorem structuralPreflight_eq_ok_iff (cert : ModuleCert) (cost : StructuralCost) :
    structuralPreflight cert = .ok cost ↔
      cert.WithinCounts ∧ cert.ReferencesExist ∧ cert.Topological ∧
        ∃ levels terms, cert.Unfolds levels terms ∧ WithinTreeLimits cert levels terms ∧
          cost = trueCost cert levels terms := by
  simp only [structuralPreflight, bind_eq_ok, validateCounts_eq_ok_iff,
    validateSemanticRootReferences, forEach_eq_ok, ensure_eq_ok, List.all_eq_true,
    decide_eq_true_eq, exists_and_left, exists_const]
  constructor
  · rintro ⟨counts, roots, levels, at_levels, terms, at_terms, depths, rest⟩
    have references : cert.ReferencesExist := ⟨levelPass_params at_levels,
      termPass_globalRefs at_terms, roots⟩
    obtain ⟨⟨trees, exprs⟩, unfolds, prices⟩ := (passes_match references).of_left
      (bind_eq_ok.mpr ⟨levels, at_levels, bind_eq_ok.mpr ⟨terms, at_terms, rfl⟩⟩)
    obtain ⟨_, at_trees, unfolds⟩ := bind_eq_ok.mp unfolds
    obtain ⟨_, at_exprs, ⟨⟩⟩ := bind_eq_ok.mp unfolds
    have unfolds : cert.Unfolds trees exprs := ⟨at_trees, at_exprs⟩
    have limits := (limits_iff prices (by simpa using run_length at_levels)
      (by simpa using run_length at_terms) roots).mp ⟨depths, rest⟩
    exact ⟨counts, references, unfolds_iff.mp ⟨trees, exprs, unfolds⟩, trees, exprs, unfolds,
      limits⟩
  · rintro ⟨counts, references, _, trees, exprs, unfolds, limits⟩
    obtain ⟨⟨levels, terms⟩, passes, prices⟩ := (passes_match references).of_right
      (bind_eq_ok.mpr ⟨trees, unfolds.levelTable, bind_eq_ok.mpr ⟨exprs, unfolds.termTable, rfl⟩⟩)
    obtain ⟨_, at_levels, passes⟩ := bind_eq_ok.mp passes
    obtain ⟨_, at_terms, ⟨⟩⟩ := bind_eq_ok.mp passes
    obtain ⟨depths, rest⟩ := (limits_iff prices (by simpa using run_length at_levels)
      (by simpa using run_length at_terms) references.roots).mpr limits
    exact ⟨counts, references.roots, levels, at_levels, terms, at_terms, depths, rest⟩

/-- One level, a parameter whose name is not in the empty name table. -/
def danglingName : ModuleCert := { emptyModuleCert ⟨["Std"]⟩ with levelTable := [.param 0] }

/-- Counts, topology and tree sizes alone do not let a certificate through: names, too, must
    exist. -/
theorem structuralPreflight_rejects_danglingName :
    ¬ ∀ bytes cert cost, decodeModuleCert bytes = .ok cert →
      (structuralPreflight cert = .ok cost ↔
        cert.WithinCounts ∧ cert.Topological ∧
          ∃ levels terms, cert.Unfolds levels terms ∧ WithinTreeLimits cert levels terms ∧
            cost = trueCost cert levels terms) := by
  intro all
  have limits : danglingName.WithinLimits :=
    { version := ⟨rfl, rfl⟩
      module := Name.fits_singleton (by decide)
      imports := ⟨Nat.zero_le _, nofun⟩
      nameTable := ⟨Nat.zero_le _, nofun⟩
      levelTable := (by decide : 1 ≤ maxLevelTableNodes)
      termTable := ⟨Nat.zero_le _, nofun⟩
      declarations := ⟨Nat.zero_le _, nofun⟩
      exportBlock := ⟨Nat.zero_le _, nofun⟩
      perDeclaration := ⟨Nat.zero_le _, nofun⟩
      moduleAxioms := Nat.zero_le _
      bytes := by decide +kernel }
  have read : decodeModuleCert (encodeParts danglingName) = .ok danglingName :=
    decodeModuleCert_eq_ok.mpr ⟨limits, ⟨by decide, nofun, nofun, nofun⟩, rfl⟩
  have counts : danglingName.WithinCounts :=
    ⟨⟨by decide, by decide, by decide, by decide, by decide, by decide, by decide⟩, by decide⟩
  have unfolds : danglingName.Unfolds [.param 0] [] := ⟨rfl, rfl⟩
  have within : WithinTreeLimits danglingName [.param 0] [] :=
    ⟨by decide, nofun, nofun, Nat.zero_le _⟩
  have accepted := (all _ _ _ read).mpr
    ⟨counts, unfolds_iff.mp ⟨_, _, unfolds⟩, _, _, unfolds, within, rfl⟩
  have rejected : structuralPreflight danglingName = .error .decodeError := by decide +kernel
  rw [rejected] at accepted
  cases accepted

end NpaCore.Wire
