import Mathlib.Data.Set.Basic
import Mathlib.Logic.Relation

/-!
# Searches in any order

What a search has seen and what it still has to look at. The invariant holds at the start and
is kept by every visit, whichever key is visited next, so the order of the visits does not
matter: a search with nothing left has seen the keys that it can reach.

## Main result

`Explored.seen_eq`: nothing is left, so the seen keys are the reached ones.
-/

namespace NpaCore.Exploration

open Relation (ReflTransGen)

variable {K : Type}

/-- A key that a start leads to over any number of keys. -/
def Reached (next : K → Set K) (starts : Set K) (key : K) : Prop :=
  ∃ start ∈ starts, ReflTransGen (fun a b => b ∈ next a) start key

/-- The invariant of a search. -/
structure Explored (next : K → Set K) (starts pending seen : Set K) : Prop where
  pendingReached : ∀ key ∈ pending, Reached next starts key
  seenReached : ∀ key ∈ seen, Reached next starts key
  startsCovered : ∀ key ∈ starts, key ∈ pending ∨ key ∈ seen
  nextCovered : ∀ key ∈ seen, ∀ other ∈ next key, other ∈ pending ∨ other ∈ seen

variable {next : K → Set K} {starts pending pending' seen seen' : Set K}

theorem explored_start : Explored next starts starts ∅ where
  pendingReached := fun key mem => ⟨key, mem, .refl⟩
  seenReached := nofun
  startsCovered := fun _ mem => .inl mem
  nextCovered := nofun

/-- A key that was seen before is dropped. -/
theorem Explored.drop (explored : Explored next starts pending seen) {key : K} (old : key ∈ seen)
    (rest : ∀ other, other ∈ pending ↔ other = key ∨ other ∈ pending') :
    Explored next starts pending' seen where
  pendingReached := fun other mem => explored.pendingReached other ((rest other).mpr (.inr mem))
  seenReached := explored.seenReached
  startsCovered := by
    intro other mem
    rcases explored.startsCovered other mem with waiting | done
    · rcases (rest other).mp waiting with rfl | waiting
      · exact .inr old
      · exact .inl waiting
    · exact .inr done
  nextCovered := by
    intro k mem other leads
    rcases explored.nextCovered k mem other leads with waiting | done
    · rcases (rest other).mp waiting with rfl | waiting
      · exact .inr old
      · exact .inl waiting
    · exact .inr done

/-- A key is visited: it is seen, and what it leads to has to be looked at. -/
theorem Explored.visit (explored : Explored next starts pending seen) {key : K}
    (waits : key ∈ pending)
    (rest : ∀ other, other ∈ pending → other = key ∨ other ∈ pending')
    (added : ∀ other, other ∈ pending' → other ∈ pending ∨ other ∈ next key)
    (leads : ∀ other ∈ next key, other ∈ pending')
    (now : ∀ other, other ∈ seen' ↔ other = key ∨ other ∈ seen) :
    Explored next starts pending' seen' := by
  have here := explored.pendingReached key waits
  have moved : ∀ other, other ∈ pending ∨ other ∈ seen → other ∈ pending' ∨ other ∈ seen' := by
    rintro other (waiting | done)
    · rcases rest other waiting with rfl | waiting
      · exact .inr ((now _).mpr (.inl rfl))
      · exact .inl waiting
    · exact .inr ((now _).mpr (.inr done))
  constructor
  · intro other mem
    rcases added other mem with waiting | step
    · exact explored.pendingReached other waiting
    · obtain ⟨start, at_start, reach⟩ := here
      exact ⟨start, at_start, reach.tail step⟩
  · intro other mem
    rcases (now other).mp mem with rfl | done
    · exact here
    · exact explored.seenReached other done
  · exact fun other mem => moved other (explored.startsCovered other mem)
  · intro k mem other step
    rcases (now k).mp mem with rfl | done
    · exact .inl (leads other step)
    · exact moved other (explored.nextCovered k done other step)

/-- Whatever the order of the visits, the keys that were seen are the keys that are reached. -/
theorem Explored.seen_eq (explored : Explored next starts ∅ seen) :
    seen = {key | Reached next starts key} := by
  apply Set.Subset.antisymm
  · exact explored.seenReached
  · rintro key ⟨start, at_start, reach⟩
    induction reach with
    | refl => exact (explored.startsCovered start at_start).resolve_left nofun
    | tail _ step ih => exact (explored.nextCovered _ ih _ step).resolve_left nofun

end NpaCore.Exploration
