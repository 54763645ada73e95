import Mathlib.Data.List.Sort
import NpaCore.Lib.CheckedBounds
import NpaCore.Kernel.Universe
import NpaCore.External.Level

/-!
# The universe solver of the external checker

`ext_universe.ml`: a parameter list with constraints, decomposed into difference constraints
and closed by Floyd and Warshall with checked additions. Its integers are native, of 63 bits;
an operation whose exact result is outside the range is a fault of its own here, so that a
run that never meets the fault is a run in which nothing wraps.
-/

namespace NpaCore.External

open NpaCore.Kernel (UniverseConstraintRelation relationCmp withLowerBounds maxUniverseContextNodes
  maxUniverseAtomInequalities)

/-! ### Native integers -/

def maxInt : Int := 2 ^ 62 - 1

def minInt : Int := -2 ^ 62

/-- The range of native integers. -/
def Fits (n : Int) : Prop := minInt ≤ n ∧ n ≤ maxInt

instance (n : Int) : Decidable (Fits n) := inferInstanceAs (Decidable (_ ∧ _))

inductive ErrorReason where
  | noncanonicalUniverseParams
  | duplicateUniverseParam
  | unresolvedMetavariable
  | unknownUniverseParam
  | noncanonicalUniverseConstraints
  | duplicateUniverseConstraint
  | unsupportedUniverseConstraint
  | unsatisfiableUniverseConstraints
  | resourceLimit
  deriving DecidableEq, Repr

/-- How a run may end without a value: the checker rejects, or a native operation wraps. -/
inductive Fault where
  | wrapped
  | rejected (reason : ErrorReason)
  deriving DecidableEq, Repr

abbrev ExtResult (α : Type) := Except Fault α

/-- `error`. -/
def reject {α : Type} (reason : ErrorReason) : ExtResult α := .error (.rejected reason)

/-- A native operation with this exact result. -/
def native (exact : Int) : ExtResult Int := if Fits exact then .ok exact else .error .wrapped

def checkedAdd (lhs rhs : Int) : ExtResult (Option Int) := do
  let above ← if rhs > 0 then (native (maxInt - rhs)).map fun room => decide (lhs > room)
    else .ok false
  if above then .ok none
  else
    let below ← if rhs < 0 then
        if rhs = minInt then .ok true else (native (minInt - rhs)).map fun room => decide (lhs < room)
      else .ok false
    if below then .ok none
    else (native (lhs + rhs)).map some

/-! ### Well-formed parameters and constraints -/

structure UniverseConstraint where
  lhs : Level
  relation : UniverseConstraintRelation
  rhs : Level
  deriving DecidableEq, Repr

/-- The loop of `validate_params`. -/
def validateParamsFrom (previous : Option Name) (seen : List Name) : List Name → ExtResult Unit
  | [] => .ok ()
  | name :: rest =>
    if componentContainsUniverseMeta name then reject .unresolvedMetavariable
    else if seen.contains name then reject .duplicateUniverseParam
    else match previous with
      | some previous =>
        if (compare previous name).isGE then reject .noncanonicalUniverseParams
        else validateParamsFrom (some name) (name :: seen) rest
      | none => validateParamsFrom (some name) (name :: seen) rest

def validateParams (params : List Name) : ExtResult Unit :=
  if params.length + 1 > maxUniverseContextNodes then reject .resourceLimit
  else validateParamsFrom none [] params

def ensureLevelWf (params : List Name) : Level → ExtResult Unit
  | .zero => .ok ()
  | .succ inner => ensureLevelWf params inner
  | .max lhs rhs | .imax lhs rhs => do
    ensureLevelWf params lhs
    ensureLevelWf params rhs
  | .param name =>
    if componentContainsUniverseMeta name then reject .unresolvedMetavariable
    else if params.contains name then .ok ()
    else reject .unknownUniverseParam

def ensureCanonicalLevel (params : List Name) (level : Level) : ExtResult Unit := do
  ensureLevelWf params level
  if normalize level = level then .ok () else reject .noncanonicalUniverseConstraints

def compareConstraint (lhs rhs : UniverseConstraint) : Ordering :=
  (compareLevel lhs.lhs rhs.lhs).then
    ((relationCmp lhs.relation rhs.relation).then (compareLevel lhs.rhs rhs.rhs))

def validateLevels (params : List Name) (constraints : List UniverseConstraint) : ExtResult Unit :=
  Result.forEach constraints fun constraint => do
    ensureCanonicalLevel params constraint.lhs
    ensureCanonicalLevel params constraint.rhs

def validateOrder (previous : Option UniverseConstraint) :
    List UniverseConstraint → ExtResult Unit
  | [] => .ok ()
  | constraint :: rest =>
    match previous with
    | some previous =>
      match compareConstraint previous constraint with
      | .eq => reject .duplicateUniverseConstraint
      | .gt => reject .noncanonicalUniverseConstraints
      | .lt => validateOrder (some constraint) rest
    | none => validateOrder (some constraint) rest

def validateConstraints (params : List Name) (constraints : List UniverseConstraint) :
    ExtResult Unit := do
  validateLevels params constraints
  validateOrder none constraints

/-! ### Atoms -/

inductive AtomBase where
  | zero
  | param (name : Name)
  deriving DecidableEq, Repr

structure Atom where
  base : AtomBase
  offset : Int
  deriving DecidableEq, Repr

def compareAtomBase : AtomBase → AtomBase → Ordering
  | .zero, .zero => .eq
  | .zero, .param _ => .lt
  | .param _, .zero => .gt
  | .param lhs, .param rhs => compare lhs rhs

def compareAtom (lhs rhs : Atom) : Ordering :=
  (compareAtomBase lhs.base rhs.base).then (compare lhs.offset rhs.offset)

def decomposeAtom : Level → ExtResult Atom
  | .zero => .ok ⟨.zero, 0⟩
  | .param name => .ok ⟨.param name, 0⟩
  | .succ inner => do
    let atom ← decomposeAtom inner
    if atom.offset = maxInt then reject .unsupportedUniverseConstraint
    else
      let offset ← native (atom.offset + 1)
      .ok { atom with offset }
  | .max _ _ | .imax _ _ => reject .unsupportedUniverseConstraint

/-- The loop `deduplicate`, which drops an atom that compares equal to the last one kept. -/
def deduplicate (previous : Option Atom) : List Atom → List Atom
  | [] => []
  | atom :: rest =>
    match previous with
    | some previous =>
      if compareAtom previous atom = .eq then deduplicate (some previous) rest
      else atom :: deduplicate (some atom) rest
    | none => atom :: deduplicate (some atom) rest

def sortUniqueAtoms (atoms : List Atom) : List Atom :=
  deduplicate none (atoms.insertionSort fun a b => (compareAtom a b).isLE)

def decomposeLevel (level : Level) : ExtResult (List Atom) :=
  match _shape : normalize level with
  | .max lhs rhs => do
    let lhsAtoms ← decomposeLevel lhs
    let rhsAtoms ← decomposeLevel rhs
    .ok (sortUniqueAtoms (lhsAtoms ++ rhsAtoms))
  | normalized => do
    let atom ← decomposeAtom normalized
    .ok [atom]
  termination_by level.size
  decreasing_by
    all_goals
      have bound := normalize_size level
      rw [_shape] at bound
      simp only [Level.size] at bound
      omega

def paramIndex (params : List Name) (name : Name) : Option Nat :=
  (params.findIdx? (· = name)).map (· + 1)

def atomIndex (params : List Name) (atom : Atom) : ExtResult Nat :=
  match atom.base with
  | .zero => .ok 0
  | .param name => Result.okOr (paramIndex params name) (.rejected .unknownUniverseParam)

/-! ### Decomposition of constraints -/

def decomposeLeConstraint (lhs rhs : Level) : ExtResult (List (Atom × Atom)) := do
  let lhs := normalize lhs
  let rhs := normalize rhs
  if lhs = rhs then .ok []
  else
    let lhsAtoms ← decomposeLevel lhs
    let rhsAtoms ← decomposeLevel rhs
    match rhsAtoms with
    | [rhsAtom] => .ok (lhsAtoms.map fun lhsAtom => (lhsAtom, rhsAtom))
    | _ => reject .unsupportedUniverseConstraint

def decomposeConstraint (constraint : UniverseConstraint) : ExtResult (List (Atom × Atom)) :=
  match constraint.relation with
  | .le => decomposeLeConstraint constraint.lhs constraint.rhs
  | .eq =>
    if normalize constraint.lhs = normalize constraint.rhs then .ok []
    else do
      let forward ← decomposeLeConstraint constraint.lhs constraint.rhs
      let backward ← decomposeLeConstraint constraint.rhs constraint.lhs
      .ok (forward ++ backward)

/-! ### The closed table -/

open DifferenceBounds (Table addEdge closeChecked hasNegativeDiagonal)

/-- `add_inequalities`: one edge, from the node of the right atom to that of the left one. -/
def addInequality (params : List Name) (closure : Table) (inequality : Atom × Atom) :
    ExtResult Table := do
  let fromIndex ← atomIndex params inequality.2
  let toIndex ← atomIndex params inequality.1
  let weight ← native (inequality.2.offset - inequality.1.offset)
  .ok (addEdge closure fromIndex toIndex weight)

/-- `add_constraints` for one constraint; the state is the edge count with the table. -/
def addConstraint (params : List Name) (state : Nat × Table) (constraint : UniverseConstraint) :
    ExtResult (Nat × Table) := do
  let inequalities ← decomposeConstraint constraint
  if inequalities.length > maxUniverseAtomInequalities - state.1 then reject .resourceLimit
  else
    let closure ← Result.foldEach inequalities state.2 (addInequality params)
    .ok (state.1 + inequalities.length, closure)

/-- `close`: a refused sum is reported after the loops, before the diagonal is looked at. -/
def close (closure : Table) : ExtResult Table := do
  let (closure, overflow) ← closeChecked checkedAdd closure
  if overflow then reject .resourceLimit
  else if hasNegativeDiagonal closure then reject .unsatisfiableUniverseConstraints
  else .ok closure

structure Context where
  params : List Name
  constraints : List UniverseConstraint
  closure : Table
  deriving DecidableEq, Repr

/-- `create`. The table starts with zero on the diagonal and from every parameter to zero. -/
def create (params : List Name) (constraints : List UniverseConstraint) : ExtResult Context := do
  validateParams params
  validateConstraints params constraints
  let (_, closure) ← Result.foldEach constraints (params.length, withLowerBounds params.length)
    (addConstraint params)
  let closure ← close closure
  .ok ⟨params, constraints, closure⟩

namespace Context

/-- `any_rhs`: some atom on the right bounds the one on the left. -/
def anyRhs (context : Context) (toIndex : Nat) (lhsAtom : Atom) : List Atom → ExtResult Bool
  | [] => .ok false
  | rhsAtom :: rest => do
    let fromIndex ← atomIndex context.params rhsAtom
    let requiredBound ← native (rhsAtom.offset - lhsAtom.offset)
    match DifferenceBounds.get context.closure fromIndex toIndex with
    | some actual =>
      if actual ≤ requiredBound then .ok true else anyRhs context toIndex lhsAtom rest
    | none => anyRhs context toIndex lhsAtom rest

/-- `all_lhs`: every atom on the left is bounded. -/
def allLhs (context : Context) (rhsAtoms : List Atom) : List Atom → ExtResult Bool
  | [] => .ok true
  | lhsAtom :: rest => do
    let toIndex ← atomIndex context.params lhsAtom
    let witnessed ← context.anyRhs toIndex lhsAtom rhsAtoms
    if witnessed then allLhs context rhsAtoms rest else .ok false

def entailsLevelLe (context : Context) (lhs rhs : Level) : ExtResult Bool := do
  ensureLevelWf context.params lhs
  ensureLevelWf context.params rhs
  let lhs := normalize lhs
  let rhs := normalize rhs
  if lhs = rhs then .ok true
  else
    let lhsAtoms ← decomposeLevel lhs
    let rhsAtoms ← decomposeLevel rhs
    if rhsAtoms.length ≠ 0 ∧ lhsAtoms.length > maxUniverseAtomInequalities / rhsAtoms.length then
      reject .resourceLimit
    else context.allLhs rhsAtoms lhsAtoms

end Context

end NpaCore.External
