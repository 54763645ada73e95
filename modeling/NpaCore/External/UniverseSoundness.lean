import Mathlib.Data.List.Pairwise
import NpaCore.Lib.ClosedBounds
import NpaCore.Kernel.UniverseSoundness
import NpaCore.External.Universe

/-!
# Soundness of the external universe solver

The atoms of a level bound it from below and together say what its value is; an accepted list
of constraints becomes a table that the valuations of the constraints satisfy, and no others.
Every native operation stays in range: offsets are not negative, sums are guarded.

## Main result

`create_sound`: no operation wraps, in `create` for any input and in `entails_level_le` against
what it accepts; what it accepts is satisfiable; and what is then entailed holds.
-/

namespace NpaCore.External

open NpaCore.Kernel (withLowerBounds withLowerBounds_square withLowerBounds_grounded
  get_withLowerBounds)
open NpaCore.DifferenceBounds

/-! ### Meaning -/

def UniverseConstraint.Holds (ρ : Name → Nat) (constraint : UniverseConstraint) : Prop :=
  match constraint.relation with
  | .le => constraint.lhs.eval ρ ≤ constraint.rhs.eval ρ
  | .eq => constraint.lhs.eval ρ = constraint.rhs.eval ρ

/-- The valuation satisfies every constraint of the list. -/
def Satisfies (ρ : Name → Nat) (constraints : List UniverseConstraint) : Prop :=
  ∀ constraint ∈ constraints, constraint.Holds ρ

def AtomBase.value (ρ : Name → Nat) : AtomBase → Nat
  | zero => 0
  | param name => ρ name

def Atom.value (ρ : Name → Nat) (atom : Atom) : Int := atom.base.value ρ + atom.offset

/-- The parameters of an atom. -/
def AtomBase.params : AtomBase → List Name
  | zero => []
  | param name => [name]

/-! ### Native operations -/

theorem native_of_fits {n : Int} (fits : Fits n) : native n = .ok n := if_pos fits

/-- The guards of `checked_add` compute in range, and let through the sums that are in range. -/
theorem checkedAdd_spec (lhs rhs : Int) (left : Fits lhs) (right : Fits rhs) :
    (Fits (lhs + rhs) ∧ checkedAdd lhs rhs = .ok (some (lhs + rhs))) ∨
      checkedAdd lhs rhs = .ok none := by
  unfold Fits minInt maxInt at left right
  unfold checkedAdd
  -- the guards subtract on the side on which there is room
  by_cases positive : rhs > 0
  · have room : Fits (maxInt - rhs) := by
      unfold Fits minInt maxInt
      omega
    rw [if_pos positive, native_of_fits room]
    by_cases above : lhs > maxInt - rhs
    · right
      change (if decide (lhs > maxInt - rhs) = true then (Except.ok none : ExtResult _) else _) = _
      rw [if_pos (decide_eq_true above)]
    · left
      have fits : Fits (lhs + rhs) := by
        unfold Fits minInt
        unfold maxInt at *
        omega
      refine ⟨fits, ?_⟩
      change (if decide (lhs > maxInt - rhs) = true then (Except.ok none : ExtResult _) else _) = _
      rw [if_neg (by simpa using above), if_neg (by omega), native_of_fits fits]
      rfl
  · rw [if_neg positive]
    change (_ ∧ (if false = true then (Except.ok none : ExtResult _) else _) = _) ∨
      (if false = true then (Except.ok none : ExtResult _) else _) = _
    rw [if_neg Bool.false_ne_true]
    by_cases negative : rhs < 0
    · rw [if_pos negative]
      by_cases least : rhs = minInt
      · right
        rw [if_pos least]
        rfl
      · have room : Fits (minInt - rhs) := by
          unfold Fits maxInt
          unfold minInt at *
          omega
        rw [if_neg least, native_of_fits room]
        by_cases below : lhs < minInt - rhs
        · right
          change (if decide (lhs < minInt - rhs) = true then (Except.ok none : ExtResult _) else _) = _
          rw [if_pos (decide_eq_true below)]
        · left
          have fits : Fits (lhs + rhs) := by
            unfold Fits maxInt
            unfold minInt at *
            omega
          refine ⟨fits, ?_⟩
          change (if decide (lhs < minInt - rhs) = true then (Except.ok none : ExtResult _) else _) = _
          rw [if_neg (by simpa using below), native_of_fits fits]
          rfl
    · left
      obtain rfl : rhs = 0 := by omega
      have fits : Fits (lhs + 0) := by
        rw [Int.add_zero]
        exact left
      refine ⟨fits, ?_⟩
      rw [if_neg negative, native_of_fits fits]
      rfl

/-! ### Well-formed levels -/

variable {params : List Name}

theorem ensureLevelWf_params {level : Level}
    (h : ensureLevelWf params level = .ok ()) : level.params ⊆ params := by
  induction level with
  | zero => exact List.nil_subset _
  | succ inner ih => exact ih h
  | max lhs rhs ihl ihr | imax lhs rhs ihl ihr =>
    obtain ⟨_, left, right⟩ := Result.bind_eq_ok.mp h
    exact List.append_subset.mpr ⟨ihl left, ihr right⟩
  | param name =>
    simp only [ensureLevelWf] at h
    split at h
    next => cases h
    next =>
      split at h
      next member => simpa [Level.params] using member
      next => cases h

/-- Names of the list are told apart by their dotted strings. -/
def Distinct (names : List Name) : Prop :=
  names.Nodup ∧ ∀ a ∈ names, ∀ b ∈ names, compare a b = .eq → a = b

/-- The loop accepts names in increasing order of their dotted strings. -/
theorem validateParamsFrom_sorted {previous : Option Name} {seen params : List Name}
    (h : validateParamsFrom previous seen params = .ok ()) :
    (∀ p ∈ previous, ∀ name ∈ params, compare p name = .lt) ∧
      params.Pairwise fun a b => compare a b = .lt := by
  induction params generalizing previous seen with
  | nil => simp
  | cons name rest ih =>
    simp only [validateParamsFrom] at h
    split at h
    next => cases h
    next =>
      split at h
      next => cases h
      next =>
        cases previous with
        | none =>
          obtain ⟨above, sorted⟩ := ih h
          exact ⟨nofun, List.pairwise_cons.mpr ⟨above name rfl, sorted⟩⟩
        | some p =>
          dsimp only at h
          split at h
          next => cases h
          next less =>
            have less : compare p.toString name.toString = .lt := by
              change ¬(compare p.toString name.toString).isGE = true at less
              cases order : compare p.toString name.toString <;> simp_all
            obtain ⟨above, sorted⟩ := ih h
            refine ⟨fun q same other mem => ?_, List.pairwise_cons.mpr ⟨above name rfl, sorted⟩⟩
            obtain rfl : p = q := Option.some.inj same
            rcases List.mem_cons.mp mem with rfl | mem
            · exact less
            · have step : compare name.toString other.toString = .lt := above name rfl other mem
              have far : compare p.toString other.toString = .lt := Std.TransCmp.lt_trans less step
              exact far

theorem validateParams_distinct (h : validateParams params = .ok ()) :
    params.length ≤ 64 ∧ Distinct params := by
  unfold validateParams at h
  split at h
  next => cases h
  next few =>
    obtain ⟨_, sorted⟩ := validateParamsFrom_sorted h
    have apart : params.Pairwise fun a b => compare a.toString b.toString ≠ .eq :=
      sorted.imp fun less same => by
        have order : Ordering.lt = .eq := less.symm.trans same
        cases order
    refine ⟨Nat.le_of_succ_le_succ (Nat.le_of_not_lt few), ?_, fun a ha b hb same => ?_⟩
    · refine apart.imp fun differ same => differ ?_
      rw [same]
      exact Std.ReflCmp.compare_self
    · by_contra differ
      have symm : Std.Symm fun a b : Name => compare a.toString b.toString ≠ .eq :=
        ⟨fun a b apart same => apart (Std.OrientedCmp.eq_symm same)⟩
      exact apart.forall ha hb differ same

/-! ### Atoms -/

/-- An atom of a level over these parameters. -/
structure Atom.Over (params : List Name) (atom : Atom) : Prop where
  nonneg : 0 ≤ atom.offset
  small : atom.offset ≤ maxInt
  within : atom.base.params ⊆ params

theorem decomposeAtom_spec {level : Level} {atom : Atom} (h : decomposeAtom level = .ok atom) :
    atom.Over level.params ∧ ∀ ρ, atom.value ρ = level.eval ρ := by
  induction level generalizing atom with
  | zero =>
    cases h
    exact ⟨⟨by decide, by decide, List.Subset.refl _⟩, fun ρ => rfl⟩
  | param name =>
    cases h
    exact ⟨⟨Int.le_refl 0, show (0 : Int) ≤ maxInt by decide, List.Subset.refl _⟩,
      fun ρ => Int.add_zero _⟩
  | succ inner ih =>
    obtain ⟨atom', found, rest⟩ := Result.bind_eq_ok.mp h
    obtain ⟨overParams, value⟩ := ih found
    split at rest
    next => cases rest
    next less =>
      have small := overParams.small
      have nonneg := overParams.nonneg
      have fits : Fits (atom'.offset + 1) := by
        unfold Fits minInt
        omega
      rw [native_of_fits fits] at rest
      cases rest
      refine ⟨⟨by simpa using by omega, fits.2, overParams.within⟩, fun ρ => ?_⟩
      have below := value ρ
      simp only [Atom.value, Level.eval] at below ⊢
      omega
  | max | imax => cases h

theorem decomposeAtom_avoids (level : Level) : Result.Avoids .wrapped (decomposeAtom level) := by
  induction level with
  | zero | param => exact Result.avoids_ok
  | succ inner ih =>
    refine Result.avoids_bind ih fun atom found => ?_
    obtain ⟨overParams, _⟩ := decomposeAtom_spec found
    split
    next => exact Result.avoids_error nofun
    next less =>
      have small := overParams.small
      have nonneg := overParams.nonneg
      have fits : Fits (atom.offset + 1) := by
        unfold Fits minInt
        omega
      rw [native_of_fits fits]
      exact Result.avoids_ok
  | max | imax => exact Result.avoids_error nofun

theorem Atom.Over.mono {params more : List Name} {atom : Atom} (h : atom.Over params)
    (sub : params ⊆ more) : atom.Over more :=
  ⟨h.nonneg, h.small, List.Subset.trans h.within sub⟩

/-- The difference of two offsets is in range. -/
theorem Atom.Over.sub_fits {lhs rhs : Atom} (hl : lhs.Over params)
    (hr : rhs.Over params) : Fits (rhs.offset - lhs.offset) := by
  have lower := hl.nonneg
  have lower' := hr.nonneg
  have upper := hl.small
  have upper' := hr.small
  unfold Fits minInt
  unfold maxInt at *
  omega

section Sorted

variable {params : List Name} (distinct : Distinct params)
include distinct

theorem eq_of_compareAtom {a b : Atom} (ha : a.Over params) (hb : b.Over params)
    (same : compareAtom a b = .eq) : a = b := by
  obtain ⟨base, offset⟩ := a
  obtain ⟨base', offset'⟩ := b
  obtain ⟨bases, offsets⟩ := Level.then_eq_eq same
  obtain rfl : offset = offset' := Std.LawfulEqCmp.eq_of_compare offsets
  cases base with
  | zero =>
    cases base' with
    | zero => rfl
    | param name => cases bases
  | param name =>
    cases base' with
    | zero => cases bases
    | param name' =>
      have mem : name ∈ params := ha.within List.mem_cons_self
      have mem' : name' ∈ params := hb.within List.mem_cons_self
      rw [distinct.2 name mem name' mem' bases]

theorem mem_deduplicate {previous : Option Atom} {atoms : List Atom}
    (kept : ∀ p ∈ previous, p.Over params) (overParams : ∀ a ∈ atoms, a.Over params) (atom : Atom) :
    (atom ∈ deduplicate previous atoms → atom ∈ atoms) ∧
      (atom ∈ atoms → atom ∈ deduplicate previous atoms ∨ previous = some atom) := by
  induction atoms generalizing previous with
  | nil => simp [deduplicate]
  | cons first rest ih =>
    obtain ⟨here, others⟩ := List.forall_mem_cons.mp overParams
    have self : ∀ p ∈ some first, p.Over params := by
      rintro p same
      exact Option.some.inj same ▸ here
    have onward := ih self others
    have keeps : (atom ∈ first :: deduplicate (some first) rest → atom ∈ first :: rest) ∧
        (atom ∈ first :: rest → atom ∈ first :: deduplicate (some first) rest) := by
      refine ⟨fun mem => ?_, fun mem => ?_⟩
      · rcases List.mem_cons.mp mem with rfl | mem
        · exact List.mem_cons_self
        · exact List.mem_cons_of_mem _ (onward.1 mem)
      · rcases List.mem_cons.mp mem with rfl | mem
        · exact List.mem_cons_self
        · rcases onward.2 mem with mem | same
          · exact List.mem_cons_of_mem _ mem
          · rw [Option.some.inj same]
            exact List.mem_cons_self
    cases previous with
    | none => exact ⟨keeps.1, fun mem => .inl (keeps.2 mem)⟩
    | some p =>
      have p_over := kept p rfl
      simp only [deduplicate]
      split
      next same =>
        obtain rfl := eq_of_compareAtom distinct p_over here same
        refine ⟨fun mem => List.mem_cons_of_mem _ (onward.1 mem), fun mem => ?_⟩
        rcases List.mem_cons.mp mem with rfl | mem
        · exact .inr rfl
        · exact onward.2 mem
      next => exact ⟨keeps.1, fun mem => .inl (keeps.2 mem)⟩

theorem mem_sortUniqueAtoms {atoms : List Atom} (overParams : ∀ a ∈ atoms, a.Over params) (atom : Atom) :
    atom ∈ sortUniqueAtoms atoms ↔ atom ∈ atoms := by
  have sorted (a : Atom) : a ∈ atoms.insertionSort (fun a b => (compareAtom a b).isLE) ↔ a ∈ atoms :=
    List.mem_insertionSort _
  have start : ∀ p ∈ (none : Option Atom), p.Over params := nofun
  have same := mem_deduplicate distinct start (fun a mem => overParams a ((sorted a).mp mem)) atom
  constructor
  · exact fun mem => (sorted atom).mp (same.1 mem)
  · intro mem
    rcases same.2 ((sorted atom).mpr mem) with mem | absent
    · exact mem
    · cases absent

/-- The atoms of a level decompose its value: a number bounds the level exactly when it bounds
    every atom. The induction follows `decompose_level`. -/
theorem decomposeLevel_spec {level : Level} {atoms : List Atom} (sub : level.params ⊆ params)
    (h : decomposeLevel level = .ok atoms) :
    (∀ atom ∈ atoms, atom.Over params) ∧
      ∀ ρ (n : Int), (level.eval ρ : Int) ≤ n ↔ ∀ atom ∈ atoms, atom.value ρ ≤ n := by
  fun_induction decomposeLevel level generalizing atoms with
  | case1 level lhs rhs shape ihl ihr =>
    have parts : (Level.max lhs rhs).params ⊆ params :=
      shape ▸ List.Subset.trans (normalize_params level) sub
    obtain ⟨left, right⟩ := List.append_subset.mp parts
    obtain ⟨lhsAtoms, lhsFound, h⟩ := Result.bind_eq_ok.mp h
    obtain ⟨rhsAtoms, rhsFound, h⟩ := Result.bind_eq_ok.mp h
    cases h
    obtain ⟨lhsOver, lhsBound⟩ := ihl left lhsFound
    obtain ⟨rhsOver, rhsBound⟩ := ihr right rhsFound
    have overParams : ∀ atom ∈ lhsAtoms ++ rhsAtoms, atom.Over params :=
      List.forall_mem_append.mpr ⟨lhsOver, rhsOver⟩
    refine ⟨fun atom mem => overParams atom ((mem_sortUniqueAtoms distinct overParams atom).mp mem),
      fun ρ n => ?_⟩
    simp only [mem_sortUniqueAtoms distinct overParams, List.mem_append, or_imp, forall_and,
      ← lhsBound ρ n, ← rhsBound ρ n]
    rw [← normalize_eval ρ level, shape, Level.eval]
    omega
  | case2 level other =>
    obtain ⟨atom, found, rest⟩ := Result.bind_eq_ok.mp h
    cases rest
    obtain ⟨overParams, value⟩ := decomposeAtom_spec found
    have within := List.Subset.trans (normalize_params level) sub
    refine ⟨List.forall_mem_singleton.mpr (overParams.mono within), fun ρ n => ?_⟩
    rw [List.forall_mem_singleton, value ρ, normalize_eval]

end Sorted

theorem decomposeLevel_avoids (level : Level) : Result.Avoids .wrapped (decomposeLevel level) := by
  fun_induction decomposeLevel level with
  | case1 level lhs rhs shape ihl ihr =>
    exact Result.avoids_bind ihl fun _ _ => Result.avoids_bind ihr fun _ _ => Result.avoids_ok
  | case2 level other =>
    exact Result.avoids_bind (decomposeAtom_avoids _) fun _ _ => Result.avoids_ok

/-! ### Constraints -/

/-- An inequality between two atoms. -/
def AtomHolds (ρ : Name → Nat) (inequality : Atom × Atom) : Prop :=
  inequality.1.value ρ ≤ inequality.2.value ρ

variable {inequalities : List (Atom × Atom)} {constraint : UniverseConstraint}

section Constraints

variable {params : List Name} (distinct : Distinct params)
include distinct

/-- What the inequalities of a constraint are over, and that they mean what it says. -/
theorem decomposeLeConstraint_spec {lhs rhs : Level}
    (hl : lhs.params ⊆ params) (hr : rhs.params ⊆ params)
    (h : decomposeLeConstraint lhs rhs = .ok inequalities) :
    (∀ q ∈ inequalities, q.1.Over params ∧ q.2.Over params) ∧
      ∀ ρ, (∀ q ∈ inequalities, AtomHolds ρ q) ↔ lhs.eval ρ ≤ rhs.eval ρ := by
  simp only [decomposeLeConstraint] at h
  split at h
  next same =>
    cases h
    refine ⟨nofun, fun ρ => ?_⟩
    rw [← normalize_eval ρ lhs, same, normalize_eval]
    simp
  next =>
    obtain ⟨lhsAtoms, lhsFound, h⟩ := Result.bind_eq_ok.mp h
    obtain ⟨rhsAtoms, rhsFound, h⟩ := Result.bind_eq_ok.mp h
    have lhsSub := List.Subset.trans (normalize_params lhs) hl
    have rhsSub := List.Subset.trans (normalize_params rhs) hr
    obtain ⟨lhsOver, lhsBound⟩ := decomposeLevel_spec distinct lhsSub lhsFound
    obtain ⟨rhsOver, rhsBound⟩ := decomposeLevel_spec distinct rhsSub rhsFound
    split at h
    next rhsAtom =>
      cases h
      refine ⟨List.forall_mem_map.mpr fun atom mem =>
        ⟨lhsOver atom mem, rhsOver rhsAtom List.mem_cons_self⟩, fun ρ => ?_⟩
      -- the one atom on the right is the value of the right side
      have value : (rhs.eval ρ : Int) = rhsAtom.value ρ := by
        have upper := (rhsBound ρ (rhsAtom.value ρ)).mpr (by simp)
        have lower := (rhsBound ρ ((normalize rhs).eval ρ)).mp (Int.le_refl _) rhsAtom (by simp)
        rw [normalize_eval] at upper lower
        omega
      have bound := lhsBound ρ (rhs.eval ρ)
      rw [normalize_eval, value] at bound
      rw [List.forall_mem_map]
      refine bound.symm.trans ?_
      rw [← value]
      exact Int.ofNat_le
    next => cases h

theorem decomposeConstraint_spec (hl : constraint.lhs.params ⊆ params)
    (hr : constraint.rhs.params ⊆ params) (h : decomposeConstraint constraint = .ok inequalities) :
    (∀ q ∈ inequalities, q.1.Over params ∧ q.2.Over params) ∧
      ∀ ρ, (∀ q ∈ inequalities, AtomHolds ρ q) ↔ constraint.Holds ρ := by
  obtain ⟨lhs, relation, rhs⟩ := constraint
  cases relation with
  | le => exact decomposeLeConstraint_spec distinct hl hr h
  | eq =>
    simp only [decomposeConstraint] at h
    split at h
    next same =>
      cases h
      refine ⟨nofun, fun ρ => ?_⟩
      change _ ↔ lhs.eval ρ = rhs.eval ρ
      rw [← normalize_eval ρ lhs, same, normalize_eval]
      simp
    next =>
      obtain ⟨forward, there, h⟩ := Result.bind_eq_ok.mp h
      obtain ⟨backward, back, h⟩ := Result.bind_eq_ok.mp h
      cases h
      obtain ⟨overParams, holds⟩ := decomposeLeConstraint_spec distinct hl hr there
      obtain ⟨overParams', holds'⟩ := decomposeLeConstraint_spec distinct hr hl back
      refine ⟨List.forall_mem_append.mpr ⟨overParams, overParams'⟩, fun ρ => ?_⟩
      rw [List.forall_mem_append, holds, holds']
      change lhs.eval ρ ≤ rhs.eval ρ ∧ rhs.eval ρ ≤ lhs.eval ρ ↔ lhs.eval ρ = rhs.eval ρ
      omega

end Constraints

theorem decomposeLeConstraint_avoids (lhs rhs : Level) :
    Result.Avoids .wrapped (decomposeLeConstraint lhs rhs) := by
  simp only [decomposeLeConstraint]
  split
  next => exact Result.avoids_ok
  next =>
    refine Result.avoids_bind (decomposeLevel_avoids _) fun _ _ => ?_
    refine Result.avoids_bind (decomposeLevel_avoids _) fun _ _ => ?_
    split
    next => exact Result.avoids_ok
    next => exact Result.avoids_error nofun

theorem decomposeConstraint_avoids (constraint : UniverseConstraint) :
    Result.Avoids .wrapped (decomposeConstraint constraint) := by
  unfold decomposeConstraint
  split
  next => exact decomposeLeConstraint_avoids _ _
  next =>
    split
    next => exact Result.avoids_ok
    next =>
      exact Result.avoids_bind (decomposeLeConstraint_avoids _ _) fun _ _ =>
        Result.avoids_bind (decomposeLeConstraint_avoids _ _) fun _ _ => Result.avoids_ok

/-! ### The table -/

/-- The value of a node of the table: zero, or the parameter with that number. -/
def nodeValue (params : List Name) (ρ : Name → Nat) : Nat → Int
  | 0 => 0
  | i + 1 => ((params[i]?).map ρ).getD 0

theorem nodeValue_nonneg (params : List Name) (ρ : Name → Nat) (i : Nat) :
    0 ≤ nodeValue params ρ i := by
  cases i with
  | zero => exact Int.le_refl _
  | succ i => exact Int.natCast_nonneg _

theorem atomIndex_spec {atom : Atom} {i : Nat} (h : atomIndex params atom = .ok i) :
    i < params.length + 1 ∧ ∀ ρ, nodeValue params ρ i = atom.base.value ρ := by
  obtain ⟨base, offset⟩ := atom
  cases base with
  | zero =>
    cases h
    exact ⟨Nat.succ_pos _, fun ρ => rfl⟩
  | param name =>
    obtain ⟨idx, found, rfl⟩ := Option.map_eq_some_iff.mp (Result.okOr_eq_ok.mp h)
    obtain ⟨bound, same, _⟩ := List.findIdx?_eq_some_iff_getElem.mp found
    simp only [decide_eq_true_eq] at same
    exact ⟨Nat.succ_lt_succ bound, fun ρ => by simp [nodeValue, AtomBase.value, bound, same]⟩

theorem atomIndex_avoids (params : List Name) (atom : Atom) :
    Result.Avoids .wrapped (atomIndex params atom) := by
  unfold atomIndex
  split
  next => exact Result.avoids_ok
  next =>
    cases paramIndex params _ with
    | none => exact Result.avoids_error nofun
    | some i => exact Result.avoids_ok

/-- A table over the parameters whose valuations are those with `P`. -/
structure Represents (params : List Name) (table : Table) (P : (Name → Nat) → Prop) : Prop where
  square : Square (params.length + 1) table
  tightens : Tightens (withLowerBounds params.length) table
  fit : AllFit Fits table
  sat : ∀ ρ, Sat (nodeValue params ρ) table ↔ P ρ

theorem withLowerBounds_represents (params : List Name) :
    Represents params (withLowerBounds params.length) fun _ => True where
  square := withLowerBounds_square _
  tightens := .refl _
  fit i j w some := by
    rw [get_withLowerBounds] at some
    split at some
    next =>
      cases some
      decide
    next => cases some
  sat ρ := by
    refine ⟨fun _ => trivial, fun _ i j w some => ?_⟩
    have nonneg := nodeValue_nonneg params ρ i
    rw [get_withLowerBounds] at some
    split at some
    next inside =>
      cases some
      rcases inside.2.2 with rfl | rfl
      · omega
      · simpa [nodeValue] using nonneg
    next => cases some

variable {P : (Name → Nat) → Prop} {constraints : List UniverseConstraint}

section Adding

variable {params : List Name}

theorem addInequality_avoids {table : Table} {q : Atom × Atom}
    (overParams : q.1.Over params ∧ q.2.Over params) :
    Result.Avoids .wrapped (addInequality params table q) := by
  refine Result.avoids_bind (atomIndex_avoids _ _) fun _ _ => ?_
  refine Result.avoids_bind (atomIndex_avoids _ _) fun _ _ => ?_
  rw [native_of_fits (overParams.1.sub_fits overParams.2)]
  exact Result.avoids_ok

theorem addInequality_represents {table next : Table}
    (represents : Represents params table P) {q : Atom × Atom}
    (overParams : q.1.Over params ∧ q.2.Over params) (h : addInequality params table q = .ok next) :
    Represents params next fun ρ => P ρ ∧ AtomHolds ρ q := by
  have fits := overParams.1.sub_fits overParams.2
  simp only [addInequality, native_of_fits fits, Result.bind_eq_ok, Except.ok.injEq] at h
  obtain ⟨source, hsource, target, htarget, _, rfl, rfl⟩ := h
  obtain ⟨sourceLt, sourceValue⟩ := atomIndex_spec hsource
  obtain ⟨targetLt, targetValue⟩ := atomIndex_spec htarget
  refine ⟨addEdge_square represents.square _ _ _,
    represents.tightens.trans (addEdge_tightens _ _ _ _), addEdge_allFit represents.fit fits,
    fun ρ => ?_⟩
  rw [sat_addEdge_iff represents.square sourceLt targetLt, represents.sat ρ, sourceValue ρ,
    targetValue ρ]
  refine and_congr_right fun _ => ?_
  simp only [AtomHolds, Atom.value]
  omega

theorem addInequalities_represents {table next : Table} (represents : Represents params table P)
    (overParams : ∀ q ∈ inequalities, q.1.Over params ∧ q.2.Over params)
    (h : Result.foldEach inequalities table (addInequality params) = .ok next) :
    Represents params next fun ρ => P ρ ∧ ∀ q ∈ inequalities, AtomHolds ρ q := by
  induction inequalities generalizing table P with
  | nil =>
    cases h
    simpa using represents
  | cons q rest ih =>
    obtain ⟨here, others⟩ := List.forall_mem_cons.mp overParams
    obtain ⟨middle, first, h⟩ := Result.bind_eq_ok.mp h
    have all := ih (addInequality_represents represents here first) others h
    simpa only [List.forall_mem_cons, and_assoc] using all

variable (distinct : Distinct params)
include distinct

theorem addConstraint_represents {state next : Nat × Table}
    (represents : Represents params state.2 P)
    (hl : constraint.lhs.params ⊆ params) (hr : constraint.rhs.params ⊆ params)
    (h : addConstraint params state constraint = .ok next) :
    Represents params next.2 fun ρ => P ρ ∧ constraint.Holds ρ := by
  obtain ⟨inequalities, found, h⟩ := Result.bind_eq_ok.mp h
  obtain ⟨overParams, holds⟩ := decomposeConstraint_spec distinct hl hr found
  split at h
  next => cases h
  next =>
    obtain ⟨table, added, h⟩ := Result.bind_eq_ok.mp h
    cases h
    simpa only [holds] using addInequalities_represents represents overParams added

theorem addConstraint_avoids {state : Nat × Table}
    (hl : constraint.lhs.params ⊆ params) (hr : constraint.rhs.params ⊆ params) :
    Result.Avoids .wrapped (addConstraint params state constraint) := by
  refine Result.avoids_bind (decomposeConstraint_avoids _) fun inequalities found => ?_
  obtain ⟨overParams, _⟩ := decomposeConstraint_spec distinct hl hr found
  split
  next => exact Result.avoids_error nofun
  next =>
    have each (table : Table) : ∀ q ∈ inequalities,
        Result.Avoids .wrapped (addInequality params table q) :=
      fun q mem => addInequality_avoids (overParams q mem)
    exact Result.avoids_bind (Result.avoids_foldEach each _) fun _ _ => Result.avoids_ok

theorem addConstraints_represents {state next : Nat × Table}
    (represents : Represents params state.2 P)
    (sub : ∀ c ∈ constraints, c.lhs.params ⊆ params ∧ c.rhs.params ⊆ params)
    (h : Result.foldEach constraints state (addConstraint params) = .ok next) :
    Represents params next.2 fun ρ => P ρ ∧ Satisfies ρ constraints := by
  induction constraints generalizing state P with
  | nil =>
    cases h
    simpa [Satisfies] using represents
  | cons c rest ih =>
    obtain ⟨here, others⟩ := List.forall_mem_cons.mp sub
    obtain ⟨middle, first, h⟩ := Result.bind_eq_ok.mp h
    have all := ih (addConstraint_represents distinct represents here.1 here.2 first) others h
    simpa only [Satisfies, List.forall_mem_cons, and_assoc] using all

end Adding

/-! ### Closing -/

theorem close_avoids {closure : Table} (fit : AllFit Fits closure) :
    Result.Avoids .wrapped (close closure) := by
  obtain ⟨next, ran, _, _⟩ := closeChecked_spec checkedAdd_spec fit
  unfold close
  rw [ran]
  refine Result.avoids_bind Result.avoids_ok fun ⟨table, overflow⟩ _ => ?_
  dsimp only
  split
  next => exact Result.avoids_error nofun
  next =>
    split
    next => exact Result.avoids_error nofun
    next => exact Result.avoids_ok

/-- What `close` returns is the exact closure, with no negative bound on the diagonal. -/
theorem close_spec {closure closed : Table} {n : Nat} (square : Square n closure)
    (fit : AllFit Fits closure) (h : close closure = .ok closed) :
    closed = DifferenceBounds.close (· + ·) closure ∧ NoNegative closed := by
  obtain ⟨⟨table, overflow⟩, ran, _, exact⟩ := closeChecked_spec checkedAdd_spec fit
  obtain ⟨pair, same, h⟩ := Result.bind_eq_ok.mp h
  rw [ran] at same
  cases same
  dsimp only at h
  split at h
  next => cases h
  next clear =>
    split at h
    next => cases h
    next nonneg =>
      cases h
      have same : closed = DifferenceBounds.close (· + ·) closure := exact (by simpa using clear)
      have squared : Square n closed := same ▸ close_square square
      exact ⟨same, (hasNegativeDiagonal_eq_false squared).mp (by simpa using nonneg)⟩

/-! ### Assignments as valuations -/

/-- The values of the parameters relative to node `0`. -/
def relativeValue (params : List Name) (val : Nat → Int) (name : Name) : Nat :=
  (val ((paramIndex params name).getD 0) - val 0).toNat

theorem nodeValue_relativeValue (nodup : params.Nodup) {val : Nat → Int}
    (ground : ∀ i < params.length + 1, val 0 ≤ val i) {i : Nat} (hi : i < params.length + 1) :
    nodeValue params (relativeValue params val) i = val i - val 0 := by
  cases i with
  | zero => simp [nodeValue]
  | succ i =>
    have bound : i < params.length := Nat.lt_of_succ_lt_succ hi
    have index : params.findIdx? (· = params[i]) = some i := by
      rw [List.findIdx?_eq_some_iff_getElem]
      refine ⟨bound, by simp, fun j earlier => ?_⟩
      simp only [decide_eq_true_eq]
      intro same
      have indices := (nodup.getElem_inj_iff).mp same
      omega
    have above := ground (i + 1) hi
    simp only [nodeValue, List.getElem?_eq_getElem bound, Option.map_some, Option.getD_some,
      relativeValue, paramIndex, index]
    omega

theorem sat_relativeValue (nodup : params.Nodup) {table : Table}
    (square : Square (params.length + 1) table) {val : Nat → Int}
    (ground : ∀ i < params.length + 1, val 0 ≤ val i) (h : Sat val table) :
    Sat (nodeValue params (relativeValue params val)) table := by
  intro i j w some
  obtain ⟨hi, hj⟩ := lt_of_get square some
  have edge := h i j w some
  rw [nodeValue_relativeValue nodup ground hi, nodeValue_relativeValue nodup ground hj]
  omega

/-! ### Accepted contexts -/

/-- What an accepted context stands for. -/
structure Accepted (params : List Name) (constraints : List UniverseConstraint)
    (context : Context) : Prop where
  params_eq : context.params = params
  distinct : Distinct params
  satisfiable : ∃ ρ, Satisfies ρ constraints
  sat : ∀ ρ, Satisfies ρ constraints → Sat (nodeValue params ρ) context.closure

theorem validateConstraints_params (h : validateConstraints params constraints = .ok ()) :
    ∀ c ∈ constraints, c.lhs.params ⊆ params ∧ c.rhs.params ⊆ params := by
  obtain ⟨_, levels, _⟩ := Result.bind_eq_ok.mp h
  intro c mem
  obtain ⟨_, left, right⟩ := Result.bind_eq_ok.mp (Result.forEach_eq_ok.mp levels c mem)
  obtain ⟨_, left, _⟩ := Result.bind_eq_ok.mp left
  obtain ⟨_, right, _⟩ := Result.bind_eq_ok.mp right
  exact ⟨ensureLevelWf_params left, ensureLevelWf_params right⟩

/-- The valuations of a represented table satisfy its closure. -/
theorem Represents.close_sat {table : Table}
    (h : Represents params table P) {ρ : Name → Nat} (hρ : P ρ) :
    Sat (nodeValue params ρ) (DifferenceBounds.close (· + ·) table) := by
  have length : table.length = (withLowerBounds params.length).length :=
    h.square.1.trans (withLowerBounds_square params.length).1.symm
  have within : Within (2 ^ 62) table := by
    intro i j w some
    have fits := h.fit i j w some
    unfold Fits minInt maxInt at fits
    omega
  exact DifferenceBounds.close_sat (fun _ _ _ _ => rfl) (nodeValue_nonneg params ρ) rfl
    ((withLowerBounds_grounded params.length).mono h.tightens length) ((h.sat ρ).mpr hρ) within
    (Int.le_refl _)

/-- A closed table without a negative diagonal has a valuation. -/
theorem Represents.exists_valuation (nodup : params.Nodup) {table : Table}
    (h : Represents params table P)
    (noNegative : NoNegative (DifferenceBounds.close (· + ·) table)) : ∃ ρ, P ρ := by
  have length : table.length = (withLowerBounds params.length).length :=
    h.square.1.trans (withLowerBounds_square params.length).1.symm
  have grounded := (withLowerBounds_grounded params.length).mono h.tightens length
  have closed := close_closed h.square grounded noNegative
  have groundedClosed := grounded.mono (close_tightens (· + ·) table)
    (closed.square.1.trans h.square.1.symm)
  have origin : (0 : Nat) < params.length + 1 := Nat.succ_pos _
  obtain ⟨val, hsat, _⟩ := exists_sat_of_le_bound closed groundedClosed origin origin
    (closed.diagonal 0 origin).ge
  have ground : ∀ i < params.length + 1, val 0 ≤ val i := by
    intro i hi
    obtain ⟨w, low, edge⟩ := (groundedClosed i (closed.square.1.symm ▸ hi)).2
    have below := hsat i 0 w edge
    omega
  have open_sat : Sat val table := hsat.of_tightens (close_tightens (· + ·) table)
  exact ⟨_, (h.sat _).mp (sat_relativeValue nodup h.square ground open_sat)⟩

theorem create_accepted {context : Context} (h : create params constraints = .ok context) :
    Accepted params constraints context := by
  obtain ⟨_, valid, h⟩ := Result.bind_eq_ok.mp h
  obtain ⟨_, wf, h⟩ := Result.bind_eq_ok.mp h
  obtain ⟨⟨count, table⟩, added, h⟩ := Result.bind_eq_ok.mp h
  obtain ⟨closure, closed, h⟩ := Result.bind_eq_ok.mp h
  cases h
  obtain ⟨_, distinct⟩ := validateParams_distinct valid
  have represents := addConstraints_represents distinct (withLowerBounds_represents params)
    (validateConstraints_params wf) added
  obtain ⟨rfl, noNegative⟩ := close_spec represents.square represents.fit closed
  obtain ⟨ρ, _, hρ⟩ := represents.exists_valuation distinct.1 noNegative
  exact ⟨rfl, distinct, ⟨ρ, hρ⟩, fun ρ hρ => represents.close_sat ⟨trivial, hρ⟩⟩

/-! ### Checks -/

theorem ensureLevelWf_avoids (params : List Name) (level : Level) :
    Result.Avoids .wrapped (ensureLevelWf params level) := by
  induction level with
  | zero => exact Result.avoids_ok
  | succ inner ih => exact ih
  | max lhs rhs ihl ihr | imax lhs rhs ihl ihr => exact Result.avoids_bind ihl fun _ _ => ihr
  | param name =>
    simp only [ensureLevelWf]
    split
    next => exact Result.avoids_error nofun
    next =>
      split
      next => exact Result.avoids_ok
      next => exact Result.avoids_error nofun

theorem validateParamsFrom_avoids (previous : Option Name) (seen params : List Name) :
    Result.Avoids .wrapped (validateParamsFrom previous seen params) := by
  fun_induction validateParamsFrom previous seen params with
  | case1 => exact Result.avoids_ok
  | case2 | case3 | case4 => exact Result.avoids_error nofun
  | case5 _ _ _ _ _ _ _ ih => exact ih
  | case6 _ _ _ _ _ ih => exact ih

theorem validateParams_avoids (params : List Name) : Result.Avoids .wrapped (validateParams params) := by
  unfold validateParams
  split
  next => exact Result.avoids_error nofun
  next => exact validateParamsFrom_avoids none [] params

theorem validateOrder_avoids (previous : Option UniverseConstraint)
    (constraints : List UniverseConstraint) :
    Result.Avoids .wrapped (validateOrder previous constraints) := by
  fun_induction validateOrder previous constraints with
  | case1 => exact Result.avoids_ok
  | case2 | case3 => exact Result.avoids_error nofun
  | case4 _ _ _ _ ih => exact ih
  | case5 _ _ ih => exact ih

theorem validateConstraints_avoids (params : List Name) (constraints : List UniverseConstraint) :
    Result.Avoids .wrapped (validateConstraints params constraints) := by
  have level (l : Level) : Result.Avoids .wrapped (ensureCanonicalLevel params l) := by
    refine Result.avoids_bind (ensureLevelWf_avoids params l) fun _ _ => ?_
    split
    next => exact Result.avoids_ok
    next => exact Result.avoids_error nofun
  exact Result.avoids_bind (Result.avoids_forEach fun c _ =>
    Result.avoids_bind (level c.lhs) fun _ _ => level c.rhs) fun _ _ => validateOrder_avoids _ _

/-- No operation wraps, whatever the constraints: a sum out of range is refused before it is
    formed, also when the bounds of a negative cycle double with every node. -/
theorem create_avoids (params : List Name) (constraints : List UniverseConstraint) :
    Result.Avoids .wrapped (create params constraints) := by
  refine Result.avoids_bind (validateParams_avoids params) fun _ valid => ?_
  refine Result.avoids_bind (validateConstraints_avoids params constraints) fun _ wf => ?_
  obtain ⟨_, distinct⟩ := validateParams_distinct valid
  have sub := validateConstraints_params wf
  refine Result.avoids_bind (Result.avoids_foldEach (fun state c mem =>
    addConstraint_avoids distinct (sub c mem).1 (sub c mem).2) _) fun ⟨count, table⟩ added => ?_
  have represents := addConstraints_represents distinct (withLowerBounds_represents params) sub added
  exact Result.avoids_bind (close_avoids represents.fit) fun _ _ => Result.avoids_ok

/-! ### Entailment -/

section Entails

variable {context : Context} {params : List Name} {constraints : List UniverseConstraint}
  (accepted : Accepted params constraints context)
include accepted

variable {rhsAtoms : List Atom}

/-- An atom on the right that the table finds is above the one on the left. -/
theorem anyRhs_sound {ρ : Name → Nat} (hρ : Satisfies ρ constraints) {lhsAtom : Atom}
    {toIndex : Nat} (index : atomIndex context.params lhsAtom = .ok toIndex) (left : lhsAtom.Over params)
    (overParams : ∀ a ∈ rhsAtoms, a.Over params)
    (h : context.anyRhs toIndex lhsAtom rhsAtoms = .ok true) :
    ∃ rhsAtom ∈ rhsAtoms, lhsAtom.value ρ ≤ rhsAtom.value ρ := by
  induction rhsAtoms with
  | nil => cases h
  | cons rhsAtom rest ih =>
    obtain ⟨right, others⟩ := List.forall_mem_cons.mp overParams
    rw [List.exists_mem_cons_iff]
    simp only [Context.anyRhs, native_of_fits (left.sub_fits right), Result.bind_eq_ok,
      Except.ok.injEq] at h
    obtain ⟨fromIndex, index', _, rfl, h⟩ := h
    split at h
    next actual edge =>
      split at h
      next enough =>
        have sat := accepted.sat ρ hρ fromIndex toIndex actual edge
        have from_value := (atomIndex_spec index').2 ρ
        have to_value := (atomIndex_spec index).2 ρ
        rw [accepted.params_eq] at from_value to_value
        left
        simp only [Atom.value]
        omega
      next => exact .inr (ih others h)
    next => exact .inr (ih others h)

theorem allLhs_sound {ρ : Name → Nat} (hρ : Satisfies ρ constraints)
    (right : ∀ a ∈ rhsAtoms, a.Over params) {lhsAtoms : List Atom}
    (left : ∀ a ∈ lhsAtoms, a.Over params) (h : context.allLhs rhsAtoms lhsAtoms = .ok true) :
    ∀ lhsAtom ∈ lhsAtoms, ∃ rhsAtom ∈ rhsAtoms, lhsAtom.value ρ ≤ rhsAtom.value ρ := by
  induction lhsAtoms with
  | nil => simp
  | cons lhsAtom rest ih =>
    obtain ⟨here, others⟩ := List.forall_mem_cons.mp left
    obtain ⟨toIndex, index, h⟩ := Result.bind_eq_ok.mp h
    obtain ⟨witnessed, found, h⟩ := Result.bind_eq_ok.mp h
    split at h
    next yes =>
      subst yes
      exact List.forall_mem_cons.mpr
        ⟨anyRhs_sound accepted hρ index here right found, ih others h⟩
    next => cases h

omit accepted in
theorem anyRhs_avoids {toIndex : Nat} {lhsAtom : Atom} (left : lhsAtom.Over params)
    (overParams : ∀ a ∈ rhsAtoms, a.Over params) :
    Result.Avoids .wrapped (context.anyRhs toIndex lhsAtom rhsAtoms) := by
  induction rhsAtoms with
  | nil => exact Result.avoids_ok
  | cons rhsAtom rest ih =>
    obtain ⟨right, others⟩ := List.forall_mem_cons.mp overParams
    refine Result.avoids_bind (atomIndex_avoids _ _) fun fromIndex _ => ?_
    rw [native_of_fits (left.sub_fits right)]
    refine Result.avoids_bind Result.avoids_ok fun bound _ => ?_
    split
    next =>
      split
      next => exact Result.avoids_ok
      next => exact ih others
    next => exact ih others

omit accepted in
theorem allLhs_avoids (right : ∀ a ∈ rhsAtoms, a.Over params)
    {lhsAtoms : List Atom} (left : ∀ a ∈ lhsAtoms, a.Over params) :
    Result.Avoids .wrapped (context.allLhs rhsAtoms lhsAtoms) := by
  induction lhsAtoms with
  | nil => exact Result.avoids_ok
  | cons lhsAtom rest ih =>
    obtain ⟨here, others⟩ := List.forall_mem_cons.mp left
    refine Result.avoids_bind (atomIndex_avoids _ _) fun toIndex _ => ?_
    refine Result.avoids_bind (anyRhs_avoids here right) fun witnessed _ => ?_
    split
    next => exact ih others
    next => exact Result.avoids_ok

theorem entailsLevelLe_sound {lhs rhs : Level} (h : context.entailsLevelLe lhs rhs = .ok true)
    {ρ : Name → Nat} (hρ : Satisfies ρ constraints) : lhs.eval ρ ≤ rhs.eval ρ := by
  obtain ⟨_, lhsWf, h⟩ := Result.bind_eq_ok.mp h
  obtain ⟨_, rhsWf, h⟩ := Result.bind_eq_ok.mp h
  rw [accepted.params_eq] at lhsWf rhsWf
  rw [← normalize_eval ρ lhs, ← normalize_eval ρ rhs]
  dsimp only at h
  split at h
  next same => rw [same]
  next =>
    obtain ⟨lhsAtoms, lhsFound, h⟩ := Result.bind_eq_ok.mp h
    obtain ⟨rhsAtoms, rhsFound, h⟩ := Result.bind_eq_ok.mp h
    have lhsSub := List.Subset.trans (normalize_params lhs) (ensureLevelWf_params lhsWf)
    have rhsSub := List.Subset.trans (normalize_params rhs) (ensureLevelWf_params rhsWf)
    obtain ⟨lhsOver, lhsBound⟩ := decomposeLevel_spec accepted.distinct lhsSub lhsFound
    obtain ⟨rhsOver, rhsBound⟩ := decomposeLevel_spec accepted.distinct rhsSub rhsFound
    split at h
    next => cases h
    next =>
      -- each atom of the left side is below one of the right side, and that is below the level
      have below : ∀ a ∈ lhsAtoms, a.value ρ ≤ (normalize rhs).eval ρ := by
        intro a mem
        obtain ⟨b, mem', le⟩ := allLhs_sound accepted hρ rhsOver lhsOver h a mem
        exact Int.le_trans le ((rhsBound ρ _).mp (Int.le_refl _) b mem')
      exact Int.ofNat_le.mp ((lhsBound ρ _).mpr below)

theorem entailsLevelLe_avoids (lhs rhs : Level) :
    Result.Avoids .wrapped (context.entailsLevelLe lhs rhs) := by
  refine Result.avoids_bind (ensureLevelWf_avoids _ lhs) fun _ lhsWf => ?_
  refine Result.avoids_bind (ensureLevelWf_avoids _ rhs) fun _ rhsWf => ?_
  rw [accepted.params_eq] at lhsWf rhsWf
  dsimp only
  split
  next => exact Result.avoids_ok
  next =>
    refine Result.avoids_bind (decomposeLevel_avoids _) fun lhsAtoms lhsFound => ?_
    refine Result.avoids_bind (decomposeLevel_avoids _) fun rhsAtoms rhsFound => ?_
    have lhsSub := List.Subset.trans (normalize_params lhs) (ensureLevelWf_params lhsWf)
    have rhsSub := List.Subset.trans (normalize_params rhs) (ensureLevelWf_params rhsWf)
    split
    next => exact Result.avoids_error nofun
    next =>
      exact allLhs_avoids (decomposeLevel_spec accepted.distinct rhsSub rhsFound).1
        (decomposeLevel_spec accepted.distinct lhsSub lhsFound).1

end Entails

/-- The solver never wraps, accepts only what some valuation satisfies, and answers `true` only
    for what holds under every valuation of the constraints. -/
theorem create_sound (params : List Name) (constraints : List UniverseConstraint) :
    Result.Avoids .wrapped (create params constraints) ∧
      ∀ context, create params constraints = .ok context →
        (∃ ρ, Satisfies ρ constraints) ∧
        ∀ lhs rhs, Result.Avoids .wrapped (context.entailsLevelLe lhs rhs) ∧
          (context.entailsLevelLe lhs rhs = .ok true →
            ∀ ρ, Satisfies ρ constraints → lhs.eval ρ ≤ rhs.eval ρ) := by
  refine ⟨create_avoids params constraints, fun context created => ?_⟩
  have accepted := create_accepted created
  exact ⟨accepted.satisfiable, fun lhs rhs => ⟨entailsLevelLe_avoids accepted lhs rhs,
    fun entailed ρ hρ => entailsLevelLe_sound accepted entailed hρ⟩⟩

theorem create_sound_at_order :
    let u : Name := ⟨["u"]⟩
    let v : Name := ⟨["v"]⟩
    ∃ context, create [u, v] [⟨.param u, .le, .param v⟩] = .ok context ∧
      context.entailsLevelLe (.succ (.param u)) (.succ (.param v)) = .ok true ∧
      ∀ ρ : Name → Nat, Satisfies ρ [⟨.param u, .le, .param v⟩] → ρ u + 1 ≤ ρ v + 1 := by
  intro u v
  let context : Context := ⟨[u, v], [⟨.param u, .le, .param v⟩],
    [[some 0, none, none], [some 0, some 0, none], [some 0, some 0, some 0]]⟩
  have created : create [u, v] [⟨.param u, .le, .param v⟩] = .ok context := by
    decide +kernel
  have entailed : context.entailsLevelLe (.succ (.param u)) (.succ (.param v)) = .ok true := by
    decide +kernel
  exact ⟨context, created, entailed,
    ((create_sound _ _).2 context created).2 _ _ |>.2 entailed⟩

end NpaCore.External
