import Mathlib.Data.List.Sort
import NpaCore.Lib.DifferenceBounds
import NpaCore.Kernel.Error

/-!
# Universe contexts

`UniverseContext` of `npa-kernel/src/level.rs`: a parameter list with declared
constraints, decomposed into difference constraints between parameters and zero
and closed once, when the context is built. Entailment of a level inequality is
decided against the closed table.
-/

namespace NpaCore.Kernel

open NpaCore.Level

def maxUniverseContextNodes : Nat := 65

def maxUniverseAtomInequalities : Nat := 1024

def humanUniverseMetaPrefix : String := "__npa_internal_human_universe_meta#"

/-! ### Well-formed parameters and levels -/

def isUnresolvedUniverseMetaParam (param : String) : Bool :=
  humanUniverseMetaPrefix.toList.isPrefixOf param.toList || param.toList.contains '?'

/-- The loop of `validate_universe_params` over the parameters seen so far. -/
def checkUniverseParams (seen : List String) : List String → Result Unit
  | [] => .ok ()
  | name :: rest => do
    Result.ensure (!isUnresolvedUniverseMetaParam name) (.unresolvedUniverseMeta name)
    Result.ensure (!seen.contains name) (.duplicateUniverseParam name)
    checkUniverseParams (name :: seen) rest

/-- `windows(2).all(|pair| pair[0] < pair[1])`. -/
def strictlySorted : List String → Bool
  | first :: second :: rest => (compare first second).isLT && strictlySorted (second :: rest)
  | _ => true

def validateUniverseParams (params : List String) : Result (List String) := do
  checkUniverseParams [] params
  Result.ensure (strictlySorted params) (.nonCanonicalUniverseParams params)
  .ok params

def ensureLevelWf (delta : List String) : Level → Result Unit
  | .zero => .ok ()
  | .succ inner => ensureLevelWf delta inner
  | .max lhs rhs => do
    ensureLevelWf delta lhs
    ensureLevelWf delta rhs
  | .imax lhs rhs => do
    ensureLevelWf delta lhs
    ensureLevelWf delta rhs
  | .param name => do
    Result.ensure (!isUnresolvedUniverseMetaParam name) (.unresolvedUniverseMeta name)
    Result.ensure (delta.contains name) (.unknownUniverseParam name)

def ensureCanonicalLevel (delta : List String) (level : Level) : Result Unit := do
  ensureLevelWf delta level
  Result.ensure (levelEqStackSafe (normalizeLevel level) level) (.nonCanonicalUniverseLevel level)

def relationCmp : UniverseConstraintRelation → UniverseConstraintRelation → Ordering
  | .le, .le => .eq
  | .le, .eq => .lt
  | .eq, .le => .gt
  | .eq, .eq => .eq

def universeConstraintCmpStackSafe (lhs rhs : UniverseConstraint) : Ordering :=
  (levelCmpStackSafe lhs.lhs rhs.lhs).then
    ((relationCmp lhs.relation rhs.relation).then (levelCmpStackSafe lhs.rhs rhs.rhs))

/-- The loop over adjacent constraints. -/
def ensureConstraintOrder : List UniverseConstraint → Result Unit
  | first :: second :: rest =>
    match universeConstraintCmpStackSafe first second with
    | .gt => .error .nonCanonicalUniverseConstraints
    | .eq => .error .duplicateUniverseConstraint
    | .lt => ensureConstraintOrder (second :: rest)
  | _ => .ok ()

def ensureUniverseConstraintsWf (delta : List String) (constraints : List UniverseConstraint) :
    Result Unit := do
  Result.forEach constraints fun constraint => do
    ensureCanonicalLevel delta constraint.lhs
    ensureCanonicalLevel delta constraint.rhs
  ensureConstraintOrder constraints

def ensureUniverseNodeLimit (paramCount : Nat) : Result Unit :=
  Result.ensure (paramCount + 1 ≤ maxUniverseContextNodes) (.resourceLimit .universeConstraints)

def ensureUniverseEdgeLimit (edgeCount : Nat) : Result Unit :=
  Result.ensure (edgeCount ≤ maxUniverseAtomInequalities) (.resourceLimit .universeConstraints)

/-! ### Atoms -/

inductive AtomBase where
  | zero
  | param (name : String)
  deriving DecidableEq, Repr

structure Atom where
  base : AtomBase
  offset : Nat
  deriving DecidableEq, Repr

structure AtomInequality where
  lhs : Atom
  rhs : Atom
  deriving DecidableEq, Repr

/-- The derived order of `AtomBase`. -/
def AtomBase.cmp : AtomBase → AtomBase → Ordering
  | zero, zero => .eq
  | zero, param _ => .lt
  | param _, zero => .gt
  | param lhs, param rhs => compare lhs rhs

/-- The derived order of `Atom`. -/
def Atom.cmp (lhs rhs : Atom) : Ordering :=
  (lhs.base.cmp rhs.base).then (compare lhs.offset rhs.offset)

/-- `dedup` of a vector: drop an element equal to the one kept before it. -/
def dedupConsecutive {α : Type} [DecidableEq α] : List α → List α
  | first :: second :: rest =>
    if first = second then dedupConsecutive (second :: rest)
    else first :: dedupConsecutive (second :: rest)
  | short => short

/-- `atoms.sort(); atoms.dedup();`. -/
def sortDedupAtoms (atoms : List Atom) : List Atom :=
  dedupConsecutive (atoms.insertionSort fun a b => (a.cmp b).isLE)

def offsetBound (atom : Atom) : Result Int :=
  if atom.offset < 2 ^ 63 then .ok atom.offset
  else .error (.unsupportedUniverseConstraint ⟨.zero, .le, .zero⟩)

/-- The walk of `decompose_atom` down a tower of successors; `whole` is the level the
    walk started from, which the error reports. -/
def decomposeAtomFrom (whole : Level) (offset : Nat) : Level → Result Atom
  | .succ inner =>
    if offset + 1 < 2 ^ 64 then decomposeAtomFrom whole (offset + 1) inner
    else .error (.unsupportedUniverseConstraint ⟨whole, .le, whole⟩)
  | .zero => .ok ⟨.zero, offset⟩
  | .param name => .ok ⟨.param name, offset⟩
  | _ => .error (.unsupportedUniverseConstraint ⟨whole, .le, whole⟩)

def decomposeAtom (level : Level) : Result Atom := do
  let atom ← decomposeAtomFrom level 0 level
  let _ ← offsetBound atom
  .ok atom

/-- The atoms of a `max`, in the order the work stack of the source visits them. -/
def maxAtoms : Level → Result (List Atom)
  | .max lhs rhs => do
    let left ← maxAtoms lhs
    let right ← maxAtoms rhs
    .ok (left ++ right)
  | level => do
    let atom ← decomposeAtom level
    .ok [atom]

/-- As `maxAtoms`, reading an `imax` as a `max`. -/
def lhsAtoms : Level → Result (List Atom)
  | .max lhs rhs => do
    let left ← lhsAtoms lhs
    let right ← lhsAtoms rhs
    .ok (left ++ right)
  | .imax lhs rhs => do
    let left ← lhsAtoms lhs
    let right ← lhsAtoms rhs
    .ok (left ++ right)
  | level => do
    let atom ← decomposeAtom level
    .ok [atom]

/-- `decompose_level_expr`, used on the right of `<=`. -/
def decomposeLevelExpr (level : Level) : Result (List Atom) := do
  let atoms ← maxAtoms (normalizeLevel level)
  .ok (sortDedupAtoms atoms)

/-- `decompose_lhs_level_expr`, used on the left of `<=`. -/
def decomposeLhsLevelExpr (level : Level) : Result (List Atom) := do
  let atoms ← lhsAtoms (normalizeLevel level)
  .ok (sortDedupAtoms atoms)

/-! ### Decomposition of constraints -/

def normalizeConstraint (constraint : UniverseConstraint) : UniverseConstraint :=
  { constraint with lhs := normalizeLevel constraint.lhs, rhs := normalizeLevel constraint.rhs }

def decomposeLeConstraint (lhs rhs : Level) : Result (List AtomInequality) := do
  let lhs := normalizeLevel lhs
  let rhs := normalizeLevel rhs
  if levelEqStackSafe lhs rhs then
    .ok []
  else
    let lhsAtoms ← decomposeLhsLevelExpr lhs
    let rhsAtoms ← decomposeLevelExpr rhs
    match rhsAtoms with
    | [rhsAtom] => .ok (lhsAtoms.map fun atom => ⟨atom, rhsAtom⟩)
    | _ => .error (.unsupportedUniverseConstraint ⟨lhs, .le, rhs⟩)

def decomposeConstraint (constraint : UniverseConstraint) : Result (List AtomInequality) := do
  let normalized := normalizeConstraint constraint
  match normalized.relation with
  | .le => decomposeLeConstraint normalized.lhs normalized.rhs
  | .eq =>
    if levelEqStackSafe normalized.lhs normalized.rhs then
      .ok []
    else
      let forward ← decomposeLeConstraint normalized.lhs normalized.rhs
      let backward ← decomposeLeConstraint normalized.rhs normalized.lhs
      .ok (forward ++ backward)

/-! ### The closed table -/

/-- `with_lower_bounds`: every node bounds itself, and zero is below every parameter. -/
def withLowerBounds (paramCount : Nat) : DifferenceBounds.Table :=
  (List.range (paramCount + 1)).map fun i =>
    (List.range (paramCount + 1)).map fun j =>
      if i = j then some 0 else if j = 0 then some 0 else none

/-- The node of an atom: zero is node `0` and parameter number `i` is node `i + 1`. -/
def atomBaseIndex (params : List String) : AtomBase → Result Nat
  | .zero => .ok 0
  | .param name =>
    (Result.okOr (params.findIdx? (· = name)) (.unknownUniverseParam name)).map (· + 1)

/-- One inequality of a declared constraint, as an edge of the table. -/
def addInequality (params : List String) (table : DifferenceBounds.Table)
    (inequality : AtomInequality) : Result DifferenceBounds.Table := do
  let source ← atomBaseIndex params inequality.rhs.base
  let target ← atomBaseIndex params inequality.lhs.base
  let rhsOffset ← offsetBound inequality.rhs
  let lhsOffset ← offsetBound inequality.lhs
  .ok (DifferenceBounds.addEdge table source target (rhsOffset - lhsOffset))

/-- One declared constraint; the state is the edge count with the table. -/
def addConstraint (params : List String) (state : Nat × DifferenceBounds.Table)
    (constraint : UniverseConstraint) : Result (Nat × DifferenceBounds.Table) := do
  let inequalities ← decomposeConstraint constraint
  let edgeCount := state.1 + inequalities.length
  ensureUniverseEdgeLimit edgeCount
  let table ← Result.foldEach inequalities state.2 (addInequality params)
  .ok (edgeCount, table)

/-- Addition of `i128`, wrapping as in a build without overflow checks. -/
def addI128 (a b : Int) : Int := (a + b).bmod (2 ^ 128)

structure UniverseContext where
  params : List String
  constraints : List UniverseConstraint
  closure : DifferenceBounds.Table
  deriving DecidableEq, Repr

namespace UniverseContext

def fromParams (params : List String) : Result UniverseContext := do
  let params ← validateUniverseParams params
  ensureUniverseNodeLimit params.length
  ensureUniverseEdgeLimit params.length
  .ok ⟨params, [], withLowerBounds params.length⟩

def new (params : List String) (constraints : List UniverseConstraint) :
    Result UniverseContext := do
  if constraints.isEmpty then
    fromParams params
  else
    let params ← validateUniverseParams params
    ensureUniverseConstraintsWf params constraints
    ensureUniverseNodeLimit params.length
    let (_, table) ← Result.foldEach constraints (params.length, withLowerBounds params.length)
      (addConstraint params)
    let closure := DifferenceBounds.close addI128 table
    Result.ensure (!DifferenceBounds.hasNegativeDiagonal closure) .unsatisfiableUniverseConstraints
    .ok ⟨params, constraints, closure⟩

/-- `UniverseConstraintClosure::entails`. -/
def closureEntails (context : UniverseContext) (source target : Nat) (bound : Int) : Bool :=
  match DifferenceBounds.get context.closure source target with
  | none => false
  | some actual => actual ≤ bound

/-- The inner loop of `entails_level_le`: some atom on the right bounds the one on the left. -/
def someAtomBounds (context : UniverseContext) (target : Nat) (lhsOffset : Int) :
    List Atom → Result Bool
  | [] => .ok false
  | rhsAtom :: rest => do
    let source ← atomBaseIndex context.params rhsAtom.base
    let rhsOffset ← offsetBound rhsAtom
    if context.closureEntails source target (rhsOffset - lhsOffset) then .ok true
    else someAtomBounds context target lhsOffset rest

/-- The outer loop of `entails_level_le`: every atom on the left is bounded. -/
def everyAtomBounded (context : UniverseContext) (rhsAtoms : List Atom) :
    List Atom → Result Bool
  | [] => .ok true
  | lhsAtom :: rest => do
    let target ← atomBaseIndex context.params lhsAtom.base
    let lhsOffset ← offsetBound lhsAtom
    let witnessed ← context.someAtomBounds target lhsOffset rhsAtoms
    if witnessed then everyAtomBounded context rhsAtoms rest else .ok false

/-- The comparison of `entails_level_le` after the special case for `imax`. -/
def entailsAtoms (context : UniverseContext) (lhs rhs : Level) : Result Bool := do
  let lhsAtoms ← decomposeLhsLevelExpr lhs
  let rhsAtoms ← decomposeLevelExpr rhs
  ensureUniverseEdgeLimit (lhsAtoms.length * rhsAtoms.length)
  context.everyAtomBounded rhsAtoms lhsAtoms

/-- `entails_level_le`. The recursive call is on the left part of an `imax`; `depth`
    bounds the nesting of such calls. -/
def entailsLevelLeAt (context : UniverseContext) : Nat → Level → Level → Result Bool
  | 0, _, _ => .error (.resourceLimit .universeConstraints)
  | depth + 1, lhs, rhs => do
    ensureLevelWf context.params lhs
    ensureLevelWf context.params rhs
    let lhs := normalizeLevel lhs
    let rhs := normalizeLevel rhs
    if levelEqStackSafe lhs rhs then
      .ok true
    else
      match lhs with
      | .imax imaxLhs imaxRhs =>
        if levelEqStackSafe imaxRhs rhs then
          if ← context.entailsLevelLeAt depth imaxLhs (.succ .zero) then .ok true
          else context.entailsAtoms (.imax imaxLhs imaxRhs) rhs
        else context.entailsAtoms (.imax imaxLhs imaxRhs) rhs
      | lhs => context.entailsAtoms lhs rhs

/-- `entails_level_le`, with room for every recursive call (`entailsLevelLeAt_depth`). -/
def entailsLevelLe (context : UniverseContext) (lhs rhs : Level) : Result Bool :=
  context.entailsLevelLeAt (lhs.size + 1) lhs rhs

/-- The obligation loop of `entails`. -/
def entails (context : UniverseContext) (obligations : List UniverseConstraint) : Result Unit :=
  Result.forEach obligations fun obligation => do
    let normalized := normalizeConstraint obligation
    let entailed ← match normalized.relation with
      | .le => context.entailsLevelLe normalized.lhs normalized.rhs
      | .eq => do
        if ← context.entailsLevelLe normalized.lhs normalized.rhs then
          context.entailsLevelLe normalized.rhs normalized.lhs
        else .ok false
    Result.ensure entailed (.universeConstraintViolation "" normalized)

/-- `obligations.sort(); obligations.dedup();`. -/
def sortDedupConstraints (constraints : List UniverseConstraint) : List UniverseConstraint :=
  dedupConsecutive (constraints.insertionSort fun a b => (universeConstraintCmpStackSafe a b).isLE)

/-- `substitute_constraints`. -/
def substituteConstraints (context : UniverseContext) (params : List String)
    (levels : List Level) (constraints : List UniverseConstraint) :
    Result (List UniverseConstraint) := do
  Result.ensure (params.length == levels.length)
    (.badUniverseArity "<universe-constraints>" params.length levels.length)
  let params ← validateUniverseParams params
  ensureUniverseConstraintsWf params constraints
  Result.forEach levels (ensureLevelWf context.params)
  .ok (sortDedupConstraints (constraints.map fun constraint =>
    { constraint with
      lhs := substituteLevel params levels constraint.lhs
      rhs := substituteLevel params levels constraint.rhs }))

end UniverseContext

end NpaCore.Kernel
