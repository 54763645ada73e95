import NpaCore.Lib.Result
import NpaCore.Lib.BoundPhases

/-!
# Closing with checked additions

The three loops of the closure with an addition that may refuse a sum. A refused sum is left
out and noted in a flag, and the loops go on. The addition may also fail, as machine
arithmetic outside its range would; it does not fail on bounds that fit.

## Main result

`closeChecked_spec`: the loops never fail, what they leave fits, and when no sum was refused
they leave the exact closure.
-/

namespace NpaCore.DifferenceBounds

section Loops

variable {ε : Type} (add : Int → Int → Except ε (Option Int))

/-- A table, and whether a sum has been refused. -/
abbrev Flagged := Table × Bool

/-- The step for one target. -/
def relaxCellChecked (k i : Nat) (ik : Int) (state : Flagged) (j : Nat) : Except ε Flagged :=
  match get state.1 k j with
  | none => .ok state
  | some kj => do
    match ← add ik kj with
    | none => .ok (state.1, true)
    | some candidate => .ok (addEdge state.1 i j candidate, state.2)

/-- The step for one source. -/
def relaxSourceChecked (k : Nat) (nodes : List Nat) (state : Flagged) (i : Nat) :
    Except ε Flagged :=
  match get state.1 i k with
  | none => .ok state
  | some ik => Result.foldEach nodes state (relaxCellChecked add k i ik)

/-- The loop over the sources for one intermediate node. -/
def relaxViaChecked (nodes : List Nat) (state : Flagged) (k : Nat) : Except ε Flagged :=
  Result.foldEach nodes state (relaxSourceChecked add k nodes)

def closeChecked (d : Table) : Except ε Flagged :=
  Result.foldEach (List.range d.length) (d, false) (relaxViaChecked add (List.range d.length))

end Loops

/-- Every bound fits. -/
def AllFit (Fits : Int → Prop) (d : Table) : Prop := ∀ i j w, get d i j = some w → Fits w

section Exact

variable {ε : Type} {add : Int → Int → Except ε (Option Int)} {Fits : Int → Prop}

theorem addEdge_allFit {d : Table} (h : AllFit Fits d) {i j : Nat} {w : Int} (fits : Fits w) :
    AllFit Fits (addEdge d i j w) := by
  intro a b v some
  by_cases same : a = i ∧ b = j
  · obtain ⟨rfl, rfl⟩ := same
    unfold addEdge at some
    split at some
    next => exact get_set_self some ▸ fits
    next =>
      split at some
      next => exact get_set_self some ▸ fits
      next => exact h _ _ _ some
  · rw [get_addEdge_ne same] at some
    exact h a b v some

variable (Fits) in
/-- From a state whose bounds fit, a step does not fail, keeps what fits and the flag, and
    does the exact step unless the flag is set. -/
def Tracks {α : Type} (step : Flagged → α → Except ε Flagged) (exact : Table → α → Table) : Prop :=
  ∀ state a, AllFit Fits state.1 → ∃ next, step state a = .ok next ∧ AllFit Fits next.1 ∧
    (next.2 = false → state.2 = false ∧ next.1 = exact state.1 a)

/-- The loop over steps that track tracks the loop over the exact steps. -/
theorem tracks_foldEach {α : Type} {step : Flagged → α → Except ε Flagged}
    {exact : Table → α → Table} (tracks : Tracks Fits step exact) (items : List α)
    {state : Flagged} (fit : AllFit Fits state.1) :
    ∃ next, Result.foldEach items state step = .ok next ∧ AllFit Fits next.1 ∧
      (next.2 = false → state.2 = false ∧ next.1 = items.foldl exact state.1) := by
  induction items generalizing state with
  | nil => exact ⟨state, rfl, fit, fun clear => ⟨clear, rfl⟩⟩
  | cons a rest ih =>
    obtain ⟨middle, ran, fit', same⟩ := tracks state a fit
    obtain ⟨next, rest_ran, fit'', rest_same⟩ := ih fit'
    refine ⟨next, ?_, fit'', fun clear => ?_⟩
    · rw [Result.foldEach, ran]
      exact rest_ran
    · obtain ⟨clear', last⟩ := rest_same clear
      obtain ⟨clear'', first⟩ := same clear'
      rw [List.foldl_cons, ← first]
      exact ⟨clear'', last⟩

variable (checked : ∀ a b, Fits a → Fits b →
  (Fits (a + b) ∧ add a b = .ok (some (a + b))) ∨ add a b = .ok none)
include checked

theorem relaxCellChecked_tracks (k i : Nat) {ik : Int} (fits : Fits ik) :
    Tracks Fits (relaxCellChecked add k i ik) fun d j =>
      match get d k j with
      | none => d
      | some kj => addEdge d i j (ik + kj) := by
  intro state j fit
  cases kj : get state.1 k j with
  | none =>
    refine ⟨state, ?_, fit, fun clear => ⟨clear, ?_⟩⟩
    · rw [relaxCellChecked, kj]
    · simp only [kj]
  | some w =>
    rcases checked ik w fits (fit k j w kj) with ⟨sum_fits, sum⟩ | refused
    · refine ⟨(addEdge state.1 i j (ik + w), state.2), ?_, addEdge_allFit fit sum_fits,
        fun clear => ⟨clear, ?_⟩⟩
      · rw [relaxCellChecked, kj]
        dsimp only
        rw [sum]
        rfl
      · simp only [kj]
    · refine ⟨(state.1, true), ?_, fit, fun clear => ?_⟩
      · rw [relaxCellChecked, kj]
        dsimp only
        rw [refused]
        rfl
      · cases clear

theorem relaxSourceChecked_tracks (k : Nat) (nodes : List Nat) :
    Tracks Fits (relaxSourceChecked add k nodes) fun d i => relaxSource (· + ·) d k nodes i := by
  intro state i fit
  cases ik : get state.1 i k with
  | none =>
    refine ⟨state, ?_, fit, fun clear => ⟨clear, ?_⟩⟩
    · rw [relaxSourceChecked, ik]
    · simp only [relaxSource, ik]
  | some w =>
    have row := relaxCellChecked_tracks checked k i (fit i k w ik)
    obtain ⟨next, ran, fit', same⟩ := tracks_foldEach row nodes fit
    refine ⟨next, ?_, fit', fun clear => ?_⟩
    · rw [relaxSourceChecked, ik]
      exact ran
    · simp only [relaxSource, ik]
      exact same clear

theorem relaxViaChecked_tracks (nodes : List Nat) :
    Tracks Fits (relaxViaChecked add nodes) fun d k => relaxVia (· + ·) d k nodes nodes := by
  intro state k fit
  exact tracks_foldEach (relaxSourceChecked_tracks checked k nodes) nodes fit

/-- The loops run to their end, and are exact unless they say otherwise. -/
theorem closeChecked_spec {d : Table} (fit : AllFit Fits d) :
    ∃ next, closeChecked add d = .ok next ∧ AllFit Fits next.1 ∧
      (next.2 = false → next.1 = close (· + ·) d) := by
  have start : AllFit Fits ((d, false) : Flagged).1 := fit
  obtain ⟨next, ran, fit', same⟩ := tracks_foldEach
    (relaxViaChecked_tracks checked (List.range d.length)) (List.range d.length) start
  exact ⟨next, ran, fit', fun clear => (same clear).2⟩

end Exact

end NpaCore.DifferenceBounds
