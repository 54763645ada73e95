import Mathlib.Data.List.Sort
import NpaCore.Kernel.Universe
import NpaCore.Reference.Name
import NpaCore.Syntax.Renormalize

/-!
# Universe contexts of the reference checker

`normalize_reference_level` and `ReferenceUniverseContext` of `npa-checker-ref/src/decode.rs`.
The solver was written anew: it recurses where the kernel uses work stacks, it normalises
again at every step of a decomposition, and it sorts the constraints to compare them with
their order. Every function is given the `offset` that its errors report.
-/

namespace NpaCore.Reference

open NpaCore.Kernel (UniverseConstraintRelation relationCmp maxUniverseContextNodes
  maxUniverseAtomInequalities withLowerBounds addI128 dedupConsecutive)
open NpaCore.Level (NumeralReader renormalize renormalize_size levelCmpStackSafe)
open ReferenceModuleName (isUnresolvedUniverseMetaName)

abbrev ReferenceCoreLevel := Level ReferenceModuleName

/-! ### Normalisation -/

/-- `reference_level_as_nat`, wrapping as in a build without overflow checks. -/
def referenceLevelAsNat : ReferenceCoreLevel → Option Nat
  | .zero => some 0
  | .succ inner => (referenceLevelAsNat inner).map fun n => (n + 1) % 2 ^ 32
  | .max _ _ | .imax _ _ | .param _ => none

theorem referenceLevelAsNat_lt_size {level : ReferenceCoreLevel} {n : Nat}
    (h : referenceLevelAsNat level = some n) : n < level.size := by
  induction level generalizing n with
  | zero =>
    cases h
    exact Nat.one_pos
  | succ inner ih =>
    obtain ⟨m, found, rfl⟩ := Option.map_eq_some_iff.mp h
    have below := ih found
    have wrapped := Nat.mod_le (m + 1) (2 ^ 32)
    simp only [Level.size]
    omega
  | max | imax | param => cases h

def referenceReader : NumeralReader ReferenceModuleName where
  asNat := referenceLevelAsNat
  lt_size := referenceLevelAsNat_lt_size

def normalizeReferenceLevel (level : ReferenceCoreLevel) : ReferenceCoreLevel :=
  renormalize referenceReader level

theorem normalizeReferenceLevel_size (level : ReferenceCoreLevel) :
    (normalizeReferenceLevel level).size ≤ level.size :=
  renormalize_size referenceReader level

/-! ### Constraints and atoms -/

structure ReferenceUniverseConstraint where
  lhs : ReferenceCoreLevel
  relation : UniverseConstraintRelation
  rhs : ReferenceCoreLevel
  deriving DecidableEq

/-- The derived order of `ReferenceUniverseConstraint`. -/
def ReferenceUniverseConstraint.cmp (lhs rhs : ReferenceUniverseConstraint) : Ordering :=
  (levelCmpStackSafe lhs.lhs rhs.lhs).then
    ((relationCmp lhs.relation rhs.relation).then (levelCmpStackSafe lhs.rhs rhs.rhs))

inductive ReferenceAtomBase where
  | zero
  | param (name : ReferenceModuleName)
  deriving DecidableEq

structure ReferenceAtom where
  base : ReferenceAtomBase
  offset : Nat
  deriving DecidableEq

structure ReferenceAtomInequality where
  lhs : ReferenceAtom
  rhs : ReferenceAtom
  deriving DecidableEq

/-- The derived order of `ReferenceAtomBase`. -/
def ReferenceAtomBase.cmp : ReferenceAtomBase → ReferenceAtomBase → Ordering
  | zero, zero => .eq
  | zero, param _ => .lt
  | param _, zero => .gt
  | param lhs, param rhs => compare lhs rhs

/-- The derived order of `ReferenceAtom`. -/
def ReferenceAtom.cmp (lhs rhs : ReferenceAtom) : Ordering :=
  (lhs.base.cmp rhs.base).then (compare lhs.offset rhs.offset)

/-- `atoms.sort(); atoms.dedup();`. -/
def sortDedup (atoms : List ReferenceAtom) : List ReferenceAtom :=
  dedupConsecutive (atoms.insertionSort fun a b => (a.cmp b).isLE)

section Offset

variable (offset : Nat)

def typeError (reason : ReferenceCheckReason) : ReferenceCheckError :=
  .typeCheck .declarations offset reason

def malformedError (reason : ReferenceCheckReason) : ReferenceCheckError :=
  .malformed .declarations offset reason

/-! ### Well-formed parameters and levels -/

def ensureLevelWf (delta : List ReferenceModuleName) : ReferenceCoreLevel → DecodeResult Unit
  | .zero => .ok ()
  | .succ inner => ensureLevelWf delta inner
  | .max lhs rhs | .imax lhs rhs => do
    ensureLevelWf delta lhs
    ensureLevelWf delta rhs
  | .param name => do
    Result.ensure (!isUnresolvedUniverseMetaName name) (typeError offset .unresolvedMetavariable)
    Result.ensure (delta.contains name) (typeError offset .unknownReference)

/-- The loop of `ensure_unique_names` over the names seen so far. -/
def ensureUniqueFrom (seen : List ReferenceModuleName) :
    List ReferenceModuleName → DecodeResult Unit
  | [] => .ok ()
  | param :: rest => do
    Result.ensure (!seen.contains param) (typeError offset .duplicateUniverseParam)
    ensureUniqueFrom (param :: seen) rest

def ensureUniqueNames (params : List ReferenceModuleName) : DecodeResult Unit :=
  ensureUniqueFrom offset [] params

/-- `windows(2).all(|pair| pair[0] < pair[1])`. -/
def strictlySorted : List ReferenceModuleName → Bool
  | first :: second :: rest => (compare first second).isLT && strictlySorted (second :: rest)
  | _ => true

def validateReferenceUniverseParams (params : List ReferenceModuleName) : DecodeResult Unit := do
  Result.ensure (!params.any isUnresolvedUniverseMetaName)
    (malformedError offset .unresolvedMetavariable)
  Result.ensure (strictlySorted params) (malformedError offset .nonCanonicalOrder)
  ensureUniqueNames offset params

def ensureReferenceCanonicalLevel (level : ReferenceCoreLevel)
    (params : List ReferenceModuleName) : DecodeResult Unit := do
  ensureLevelWf offset params level
  Result.ensure (normalizeReferenceLevel level = level) (malformedError offset .nonNormalizedLevel)

/-- `windows(2).any(|pair| pair[0] == pair[1])`. -/
def adjacentEqual : List ReferenceUniverseConstraint → Bool
  | first :: second :: rest => first = second || adjacentEqual (second :: rest)
  | _ => false

/-- `canonical.sort()`. -/
def sortConstraints (constraints : List ReferenceUniverseConstraint) :
    List ReferenceUniverseConstraint :=
  constraints.insertionSort fun a b => (a.cmp b).isLE

def ensureReferenceUniverseConstraintsWf (params : List ReferenceModuleName)
    (constraints : List ReferenceUniverseConstraint) : DecodeResult Unit := do
  Result.forEach constraints fun constraint => do
    ensureReferenceCanonicalLevel offset constraint.lhs params
    ensureReferenceCanonicalLevel offset constraint.rhs params
  let canonical := sortConstraints constraints
  Result.ensure (constraints = canonical) (malformedError offset .nonCanonicalOrder)
  Result.ensure (!adjacentEqual canonical) (malformedError offset .duplicateUniverseConstraint)

def ensureReferenceUniverseNodeLimit (paramCount : Nat) : DecodeResult Unit :=
  Result.ensure (paramCount + 1 ≤ maxUniverseContextNodes) (typeError offset .resourceLimit)

def ensureReferenceUniverseEdgeLimit (edgeCount : Nat) : DecodeResult Unit :=
  Result.ensure (edgeCount ≤ maxUniverseAtomInequalities) (typeError offset .resourceLimit)

/-! ### Decomposition -/

/-- `reference_universe_param_indices` with its lookup. Of the entries with one name, the
    last one counts. -/
def referenceUniverseParamIndex (params : List ReferenceModuleName)
    (name : ReferenceModuleName) : Option Nat :=
  ((params.zipIdx 1).reverse.find? fun entry => entry.1 = name).map (·.2)

def referenceAtomBaseIndex (params : List ReferenceModuleName) :
    ReferenceAtomBase → DecodeResult Nat
  | .zero => .ok 0
  | .param name =>
    Result.okOr (referenceUniverseParamIndex params name) (typeError offset .unknownReference)

def normalizeReferenceConstraint (constraint : ReferenceUniverseConstraint) :
    ReferenceUniverseConstraint :=
  { constraint with
    lhs := normalizeReferenceLevel constraint.lhs
    rhs := normalizeReferenceLevel constraint.rhs }

def referenceOffsetBound (atom : ReferenceAtom) : DecodeResult Int :=
  if atom.offset < 2 ^ 63 then .ok atom.offset
  else .error (typeError offset .unsupportedUniverseConstraint)

def decomposeReferenceAtom (level : ReferenceCoreLevel) : DecodeResult ReferenceAtom :=
  match _shape : normalizeReferenceLevel level with
  | .zero => .ok ⟨.zero, 0⟩
  | .param name => .ok ⟨.param name, 0⟩
  | .succ inner => do
    let atom ← decomposeReferenceAtom inner
    Result.ensure (atom.offset + 1 < 2 ^ 64) (typeError offset .unsupportedUniverseConstraint)
    let atom := { atom with offset := atom.offset + 1 }
    let _ ← referenceOffsetBound offset atom
    .ok atom
  | .max _ _ | .imax _ _ => .error (typeError offset .unsupportedUniverseConstraint)
  termination_by level.size
  decreasing_by
    have bound := normalizeReferenceLevel_size level
    rw [_shape] at bound
    simp only [Level.size] at bound
    omega

/-- `decompose_reference_level_expr`, used on the right of `<=`. -/
def decomposeReferenceLevelExpr (level : ReferenceCoreLevel) : DecodeResult (List ReferenceAtom) :=
  match _shape : normalizeReferenceLevel level with
  | .max lhs rhs => do
    let atoms ← decomposeReferenceLevelExpr lhs
    let more ← decomposeReferenceLevelExpr rhs
    .ok (sortDedup (atoms ++ more))
  | normalized => do
    let atom ← decomposeReferenceAtom offset normalized
    .ok [atom]
  termination_by level.size
  decreasing_by
    all_goals
      have bound := normalizeReferenceLevel_size level
      rw [_shape] at bound
      simp only [Level.size] at bound
      omega

/-- `decompose_reference_lhs_level_expr`, used on the left of `<=`. -/
def decomposeReferenceLhsLevelExpr (level : ReferenceCoreLevel) :
    DecodeResult (List ReferenceAtom) :=
  match _shape : normalizeReferenceLevel level with
  | .max lhs rhs | .imax lhs rhs => do
    let atoms ← decomposeReferenceLhsLevelExpr lhs
    let more ← decomposeReferenceLhsLevelExpr rhs
    .ok (sortDedup (atoms ++ more))
  | normalized => do
    let atom ← decomposeReferenceAtom offset normalized
    .ok [atom]
  termination_by level.size
  decreasing_by
    all_goals
      have bound := normalizeReferenceLevel_size level
      rw [_shape] at bound
      simp only [Level.size] at bound
      omega

def decomposeReferenceLeConstraint (lhs rhs : ReferenceCoreLevel) :
    DecodeResult (List ReferenceAtomInequality) := do
  let lhs := normalizeReferenceLevel lhs
  let rhs := normalizeReferenceLevel rhs
  if lhs = rhs then
    .ok []
  else
    let lhsAtoms ← decomposeReferenceLhsLevelExpr offset lhs
    let rhsAtoms ← decomposeReferenceLevelExpr offset rhs
    match rhsAtoms with
    | [rhsAtom] => .ok (lhsAtoms.map fun atom => ⟨atom, rhsAtom⟩)
    | _ => .error (typeError offset .unsupportedUniverseConstraint)

def decomposeReferenceConstraint (constraint : ReferenceUniverseConstraint) :
    DecodeResult (List ReferenceAtomInequality) := do
  let normalized := normalizeReferenceConstraint constraint
  match normalized.relation with
  | .le => decomposeReferenceLeConstraint offset normalized.lhs normalized.rhs
  | .eq =>
    if normalized.lhs = normalized.rhs then
      .ok []
    else
      let forward ← decomposeReferenceLeConstraint offset normalized.lhs normalized.rhs
      let backward ← decomposeReferenceLeConstraint offset normalized.rhs normalized.lhs
      .ok (forward ++ backward)

/-! ### The context -/

/-- One inequality of a declared constraint, as an edge of the table. -/
def addReferenceInequality (params : List ReferenceModuleName) (table : DifferenceBounds.Table)
    (inequality : ReferenceAtomInequality) : DecodeResult DifferenceBounds.Table := do
  let source ← referenceAtomBaseIndex offset params inequality.rhs.base
  let target ← referenceAtomBaseIndex offset params inequality.lhs.base
  let rhsOffset ← referenceOffsetBound offset inequality.rhs
  let lhsOffset ← referenceOffsetBound offset inequality.lhs
  .ok (DifferenceBounds.addEdge table source target (rhsOffset - lhsOffset))

/-- One declared constraint; the state is the edge count with the table. -/
def addReferenceConstraint (params : List ReferenceModuleName)
    (state : Nat × DifferenceBounds.Table) (constraint : ReferenceUniverseConstraint) :
    DecodeResult (Nat × DifferenceBounds.Table) := do
  let inequalities ← decomposeReferenceConstraint offset constraint
  let edgeCount := state.1 + inequalities.length
  ensureReferenceUniverseEdgeLimit offset edgeCount
  let table ← Result.foldEach inequalities state.2 (addReferenceInequality offset params)
  .ok (edgeCount, table)

structure ReferenceUniverseContext where
  params : List ReferenceModuleName
  constraints : List ReferenceUniverseConstraint
  closure : DifferenceBounds.Table
  deriving DecidableEq

namespace ReferenceUniverseContext

def fromParams (params : List ReferenceModuleName) : DecodeResult ReferenceUniverseContext := do
  validateReferenceUniverseParams offset params
  ensureReferenceUniverseNodeLimit offset params.length
  ensureReferenceUniverseEdgeLimit offset params.length
  .ok ⟨params, [], withLowerBounds params.length⟩

def new (params : List ReferenceModuleName) (constraints : List ReferenceUniverseConstraint) :
    DecodeResult ReferenceUniverseContext := do
  if constraints.isEmpty then
    fromParams offset params
  else
    validateReferenceUniverseParams offset params
    ensureReferenceUniverseNodeLimit offset params.length
    ensureReferenceUniverseConstraintsWf offset params constraints
    let (_, table) ← Result.foldEach constraints (params.length, withLowerBounds params.length)
      (addReferenceConstraint offset params)
    let closure := DifferenceBounds.close addI128 table
    Result.ensure (!DifferenceBounds.hasNegativeDiagonal closure)
      (typeError offset .unsatisfiableUniverseConstraints)
    .ok ⟨params, constraints, closure⟩

variable (context : ReferenceUniverseContext)

/-- `ReferenceUniverseConstraintClosure::entails`. -/
def closureEntails (source target : Nat) (bound : Int) : Bool :=
  match DifferenceBounds.get context.closure source target with
  | none => false
  | some actual => actual ≤ bound

/-- The inner loop of `entails_level_le`: some atom on the right bounds the one on the left. -/
def someAtomBounds (target : Nat) (lhsOffset : Int) : List ReferenceAtom → DecodeResult Bool
  | [] => .ok false
  | rhsAtom :: rest => do
    let source ← referenceAtomBaseIndex offset context.params rhsAtom.base
    let rhsOffset ← referenceOffsetBound offset rhsAtom
    if context.closureEntails source target (rhsOffset - lhsOffset) then .ok true
    else someAtomBounds target lhsOffset rest

/-- The outer loop of `entails_level_le`: every atom on the left is bounded. -/
def everyAtomBounded (rhsAtoms : List ReferenceAtom) : List ReferenceAtom → DecodeResult Bool
  | [] => .ok true
  | lhsAtom :: rest => do
    let target ← referenceAtomBaseIndex offset context.params lhsAtom.base
    let lhsOffset ← referenceOffsetBound offset lhsAtom
    let witnessed ← context.someAtomBounds offset target lhsOffset rhsAtoms
    if witnessed then everyAtomBounded rhsAtoms rest else .ok false

/-- The comparison of `entails_level_le` after the special case for `imax`. -/
def entailsAtoms (lhs rhs : ReferenceCoreLevel) : DecodeResult Bool := do
  let lhsAtoms ← decomposeReferenceLhsLevelExpr offset lhs
  let rhsAtoms ← decomposeReferenceLevelExpr offset rhs
  ensureReferenceUniverseEdgeLimit offset (lhsAtoms.length * rhsAtoms.length)
  context.everyAtomBounded offset rhsAtoms lhsAtoms

/-- `entails_level_le`. The recursive call is on the left part of an `imax`. -/
def entailsLevelLe (lhs rhs : ReferenceCoreLevel) : DecodeResult Bool := do
  ensureLevelWf offset context.params lhs
  ensureLevelWf offset context.params rhs
  let rhs := normalizeReferenceLevel rhs
  if normalizeReferenceLevel lhs = rhs then
    .ok true
  else
    match _shape : normalizeReferenceLevel lhs with
    | .imax imaxLhs imaxRhs =>
      if imaxRhs = rhs then
        if ← entailsLevelLe imaxLhs (.succ .zero) then .ok true
        else context.entailsAtoms offset (.imax imaxLhs imaxRhs) rhs
      else context.entailsAtoms offset (.imax imaxLhs imaxRhs) rhs
    | lhs => context.entailsAtoms offset lhs rhs
  termination_by lhs.size
  decreasing_by
    have bound := normalizeReferenceLevel_size lhs
    rw [_shape] at bound
    simp only [Level.size] at bound
    omega

end ReferenceUniverseContext

end Offset

end NpaCore.Reference
