import Mathlib.Data.Finset.SDiff
import Mathlib.Data.Finset.Card
import NpaCore.Lib.Exploration

/-!
# Floods

A flood takes a key from its worklist, marks the keys it leads to and puts the new ones on the
worklist: a key is marked when it enters the worklist, and a marked key does not enter it
again. How the marks are kept and in which order the worklist is worked through do not matter.

## Main results

* `isMarked_fill`: a flood marks what the keys marked at its start can reach.
* `fill_preserves`: what holds of the marks when only new keys are marked holds at the end.
-/

namespace NpaCore

open Exploration (Reached)

/-- A record of marks: marking a key marks this key and no other one. -/
structure Marking (K M : Type) where
  isMarked : M → K → Bool
  mark : M → K → M
  isMarked_mark : ∀ marks key other,
    isMarked (mark marks key) other = true ↔ other = key ∨ isMarked marks other = true

/-- One bit for each key; what has no bit counts as marked. -/
def Marking.bits : Marking Nat (List Bool) where
  isMarked marks key := marks[key]?.getD true
  mark marks key := marks.set key true
  isMarked_mark marks key other := by
    rw [List.getElem?_set]
    by_cases same : key = other
    · subst same
      by_cases bound : key < marks.length
      · simp [bound]
      · simp [bound]
    · simp [same, Ne.symm same]

/-- Where a key is put on a worklist, whose front is worked on next. -/
structure Discipline (K : Type) where
  place : K → List K → List K
  mem_place : ∀ key pending other, other ∈ place key pending ↔ other = key ∨ other ∈ pending
  length_place : ∀ key pending, (place key pending).length = pending.length + 1

def Discipline.queue (K : Type) : Discipline K where
  place key pending := pending ++ [key]
  mem_place key pending other := by simp [or_comm]
  length_place key pending := by simp

def Discipline.stack (K : Type) : Discipline K where
  place key pending := key :: pending
  mem_place key pending other := by simp
  length_place key pending := by simp

/-- Keys and where they lead: to finitely many targets altogether. -/
structure Flood (K M : Type) extends Marking K M, Discipline K where
  next : K → List K
  targets : Finset K
  next_targets : ∀ key, ∀ other ∈ next key, other ∈ targets

namespace Flood

structure State (K M : Type) where
  pending : List K
  marks : M

variable {K M : Type} (flood : Flood K M)

/-! ### One key -/

def enter (state : State K M) (key : K) : State K M :=
  if flood.isMarked state.marks key then state
  else { pending := flood.place key state.pending, marks := flood.mark state.marks key }

variable {flood} {state : State K M}

theorem isMarked_enter {key other : K} :
    flood.isMarked (flood.enter state key).marks other = true ↔
      other = key ∨ flood.isMarked state.marks other = true := by
  unfold enter
  split
  next old =>
    constructor
    · exact .inr
    · rintro (rfl | marked)
      · exact old
      · exact marked
  next => exact flood.isMarked_mark _ _ _

/-- What is newly marked waits on the worklist, and nothing leaves it. -/
theorem mem_pending_enter {key other : K} :
    other ∈ (flood.enter state key).pending ↔
      other ∈ state.pending ∨ other = key ∧ flood.isMarked state.marks key = false := by
  unfold enter
  split
  next old => simp [old]
  next new =>
    rw [Bool.not_eq_true] at new
    simp [flood.mem_place, new, or_comm]

theorem isMarked_foldl {keys : List K} {other : K} :
    flood.isMarked (keys.foldl flood.enter state).marks other = true ↔
      other ∈ keys ∨ flood.isMarked state.marks other = true := by
  induction keys generalizing state with
  | nil => simp
  | cons key keys ih =>
    rw [List.foldl_cons, ih, isMarked_enter, List.mem_cons, ← or_assoc, or_comm (a := other ∈ keys)]

theorem mem_pending_foldl {keys : List K} {other : K} :
    other ∈ (keys.foldl flood.enter state).pending ↔
      other ∈ state.pending ∨ other ∈ keys ∧ flood.isMarked state.marks other = false := by
  induction keys generalizing state with
  | nil => simp
  | cons key keys ih =>
    have later : flood.isMarked (flood.enter state key).marks other = false ↔
        other ≠ key ∧ flood.isMarked state.marks other = false := by
      rw [← Bool.not_eq_true, isMarked_enter, not_or, Bool.not_eq_true]
    rw [List.foldl_cons, ih, mem_pending_enter, later, List.mem_cons]
    by_cases same : other = key
    · subst same
      simp
    · simp [same]

/-! ### The loop -/

/-- A key that enters the worklist is no longer among the unmarked targets. -/
def cost (flood : Flood K M) (state : State K M) : Nat :=
  (flood.targets.filter fun key => flood.isMarked state.marks key = false).card +
    state.pending.length

theorem enter_cost {key : K} (target : key ∈ flood.targets) :
    flood.cost (flood.enter state key) ≤ flood.cost state := by
  unfold enter
  split
  next => exact Nat.le_refl _
  next new =>
    rw [Bool.not_eq_true] at new
    have less : (flood.targets.filter fun other =>
        flood.isMarked (flood.mark state.marks key) other = false).card <
          (flood.targets.filter fun other => flood.isMarked state.marks other = false).card := by
      apply Finset.card_lt_card
      rw [Finset.ssubset_iff_of_subset]
      · refine ⟨key, Finset.mem_filter.mpr ⟨target, new⟩, fun mem => ?_⟩
        have unmarked := (Finset.mem_filter.mp mem).2
        rw [(flood.isMarked_mark _ _ _).mpr (.inl rfl)] at unmarked
        cases unmarked
      · intro other mem
        obtain ⟨at_target, unmarked⟩ := Finset.mem_filter.mp mem
        refine Finset.mem_filter.mpr ⟨at_target, ?_⟩
        rw [← Bool.not_eq_true] at unmarked ⊢
        exact fun old => unmarked ((flood.isMarked_mark _ _ _).mpr (.inr old))
    simp only [cost, flood.length_place]
    omega

theorem foldl_cost {keys : List K} (target : ∀ key ∈ keys, key ∈ flood.targets) :
    flood.cost (keys.foldl flood.enter state) ≤ flood.cost state := by
  induction keys generalizing state with
  | nil => exact Nat.le_refl _
  | cons key keys ih =>
    rw [List.forall_mem_cons] at target
    exact Nat.le_trans (ih target.2) (enter_cost target.1)

variable (flood)

/-- The keys that a key leads to are entered one after the other. -/
def look (key : K) (state : State K M) : State K M := (flood.next key).foldl flood.enter state

def fill : State K M → M
  | { pending := [], marks } => marks
  | { pending := key :: pending, marks } => fill (flood.look key { pending, marks })
termination_by state => flood.cost state
decreasing_by
  refine Nat.lt_of_le_of_lt (foldl_cost (flood.next_targets key)) ?_
  simp [cost]

/-! ### What a flood marks -/

/-- A waiting key is marked, and what the other marked keys lead to is marked. -/
structure Filled (starts : Set K) (state : State K M) : Prop where
  pending : ∀ key ∈ state.pending, flood.isMarked state.marks key = true
  reached : ∀ key, flood.isMarked state.marks key = true →
    Reached (fun key => {other | other ∈ flood.next key}) starts key
  covered : ∀ key, flood.isMarked state.marks key = true →
    key ∈ state.pending ∨ ∀ other ∈ flood.next key, flood.isMarked state.marks other = true
  starts : ∀ key ∈ starts, flood.isMarked state.marks key = true

variable {flood}

theorem Filled.look {starts : Set K} {marks : M} {key : K} {pending : List K}
    (filled : flood.Filled starts { pending := key :: pending, marks }) :
    flood.Filled starts (flood.look key { pending, marks }) := by
  have here := filled.pending key List.mem_cons_self
  have keeps : ∀ other, flood.isMarked marks other = true →
      flood.isMarked (flood.look key { pending, marks }).marks other = true :=
    fun other old => isMarked_foldl.mpr (.inr old)
  constructor
  · intro other waits
    rcases mem_pending_foldl.mp waits with waited | ⟨step, -⟩
    · exact keeps other (filled.pending other (List.mem_cons_of_mem _ waited))
    · exact isMarked_foldl.mpr (.inl step)
  · intro other now
    rcases isMarked_foldl.mp now with step | old
    · obtain ⟨start, at_start, path⟩ := filled.reached key here
      exact ⟨start, at_start, path.tail step⟩
    · exact filled.reached other old
  · intro other now
    by_cases old : flood.isMarked marks other = true
    · rcases filled.covered other old with waits | leads
      · rcases List.mem_cons.mp waits with rfl | waits
        · exact .inr fun next step => isMarked_foldl.mpr (.inl step)
        · exact .inl (mem_pending_foldl.mpr (.inl waits))
      · exact .inr fun next step => keeps next (leads next step)
    · -- A key that is new has just entered the worklist.
      have step := (isMarked_foldl.mp now).resolve_right old
      exact .inl (mem_pending_foldl.mpr (.inr ⟨step, by simpa using old⟩))
  · exact fun other start => keeps other (filled.starts other start)

theorem fill_filled {starts : Set K} (filled : flood.Filled starts state) :
    flood.Filled starts { pending := [], marks := flood.fill state } := by
  induction state using fill.induct flood with
  | case1 marks =>
    rw [fill]
    exact filled
  | case2 key pending marks ih =>
    rw [fill]
    exact ih filled.look

/-- The marks at the end when a marked key that does not wait leads to marked keys only. -/
theorem isMarked_fill (flood : Flood K M) (state : State K M)
    (waits : ∀ key ∈ state.pending, flood.isMarked state.marks key = true)
    (idle : ∀ key, flood.isMarked state.marks key = true →
      key ∈ state.pending ∨ ∀ other ∈ flood.next key, flood.isMarked state.marks other = true)
    (key : K) :
    flood.isMarked (flood.fill state) key = true ↔
      Reached (fun key => {other | other ∈ flood.next key})
        {start | flood.isMarked state.marks start = true} key := by
  have first : flood.Filled {start | flood.isMarked state.marks start = true} state := by
    constructor
    · exact waits
    · exact fun key marked => ⟨key, marked, .refl⟩
    · exact idle
    · exact fun key start => start
  have last := fill_filled first
  constructor
  · exact last.reached key
  · rintro ⟨start, at_start, path⟩
    induction path with
    | refl => exact last.starts start at_start
    | tail _ step ih => exact (last.covered _ ih).resolve_left nofun _ step

theorem enter_preserves {P : M → Prop}
    (keeps : ∀ marks key, flood.isMarked marks key = false → P marks → P (flood.mark marks key))
    {key : K} (holds : P state.marks) : P (flood.enter state key).marks := by
  unfold enter
  split
  next => exact holds
  next new => exact keeps _ _ (by simpa using new) holds

theorem foldl_preserves {P : M → Prop}
    (keeps : ∀ marks key, flood.isMarked marks key = false → P marks → P (flood.mark marks key))
    {keys : List K} (holds : P state.marks) :
    P (keys.foldl flood.enter state).marks := by
  induction keys generalizing state with
  | nil => exact holds
  | cons key keys ih => exact ih (enter_preserves keeps holds)

theorem fill_preserves (flood : Flood K M) {P : M → Prop} (state : State K M)
    (keeps : ∀ marks key, flood.isMarked marks key = false → P marks → P (flood.mark marks key))
    (holds : P state.marks) : P (flood.fill state) := by
  induction state using fill.induct flood with
  | case1 marks =>
    rw [fill]
    exact holds
  | case2 key pending marks ih =>
    rw [fill]
    exact ih (foldl_preserves keeps holds)

/-! ### Work on each key -/

variable (flood)

/-- The keys in the order in which the worklist gives them up. -/
def taken : State K M → List K
  | { pending := [], marks := _ } => []
  | { pending := key :: pending, marks } => key :: taken (flood.look key { pending, marks })
termination_by state => flood.cost state
decreasing_by
  refine Nat.lt_of_le_of_lt (foldl_cost (flood.next_targets key)) ?_
  simp [cost]

/-- Fill, and do something with each key when it is taken from the worklist. -/
def work {R : Type} (act : R → K → R) : R → State K M → R × M
  | result, { pending := [], marks } => (result, marks)
  | result, { pending := key :: pending, marks } =>
    work act (act result key) (flood.look key { pending, marks })
termination_by _ state => flood.cost state
decreasing_by
  refine Nat.lt_of_le_of_lt (foldl_cost (flood.next_targets key)) ?_
  simp [cost]

variable {flood}

theorem work_eq {R : Type} (act : R → K → R) (result : R) (state : State K M) :
    flood.work act result state = ((flood.taken state).foldl act result, flood.fill state) := by
  induction state using fill.induct flood generalizing result with
  | case1 marks => rw [work, taken, fill, List.foldl_nil]
  | case2 key pending marks ih => rw [work, taken, fill, ih, List.foldl_cons]

theorem isMarked_fill_of_isMarked {key : K} (old : flood.isMarked state.marks key = true) :
    flood.isMarked (flood.fill state) key = true :=
  fill_preserves flood (P := fun marks => flood.isMarked marks key = true) state
    (fun _ _ _ before => (flood.isMarked_mark _ _ _).mpr (.inr before)) old

/-- What is taken has waited at the start, or was marked on the way. -/
theorem mem_taken (state : State K M) (key : K) :
    key ∈ flood.taken state ↔ key ∈ state.pending ∨
      flood.isMarked state.marks key = false ∧ flood.isMarked (flood.fill state) key = true := by
  induction state using fill.induct flood with
  | case1 marks =>
    rw [taken, fill]
    simp
  | case2 first pending marks ih =>
    have entered : key ∈ flood.next first → flood.isMarked
        (flood.fill (flood.look first { marks, pending })) key = true :=
      fun step => isMarked_fill_of_isMarked (isMarked_foldl.mpr (.inl step))
    have waits : key ∈ (flood.look first { pending, marks }).pending ↔
        key ∈ pending ∨ key ∈ flood.next first ∧ flood.isMarked marks key = false :=
      mem_pending_foldl
    have unmarked : flood.isMarked (flood.look first { pending, marks }).marks key = false ↔
        ¬(key ∈ flood.next first ∨ flood.isMarked marks key = true) := by
      rw [← Bool.not_eq_true, look, isMarked_foldl]
    rw [taken, fill, List.mem_cons, ih, waits, unmarked, List.mem_cons]
    by_cases old : flood.isMarked marks key = true
    · simp [old]
    · by_cases step : key ∈ flood.next first
      · simp [old, step, entered step]
      · simp [old, step, or_assoc]

end Flood

end NpaCore
