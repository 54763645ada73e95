import Mathlib.Data.Set.Card
import Mathlib.Logic.Relation
import NpaCore.Lib.Result

/-!
# Searches with a stack and a set of seen keys

A loop takes a key off a stack, skips it if it was seen before, and otherwise remembers it
and pushes the keys that it leads to, or fails on it. The graph may have cycles: only
finitely many keys lead anywhere.

## Main results

* `mem_close_iff`: a search that succeeds has seen the keys that it can reach, and no others.
* `close_isOk_iff`: it succeeds exactly when it reaches no key to fail on.
-/

namespace NpaCore

open Relation (ReflTransGen)

structure Worklist (K ε : Type) where
  expand : K → Except ε (List K)
  finite : Set.Finite {key | ∃ next, expand key = .ok next}

namespace Worklist

variable {K ε : Type} {stack seen : List K}

section Search

variable (search : Worklist K ε)

/-- The number of keys that may still be expanded. -/
noncomputable def unseen (seen : List K) : Nat :=
  Set.ncard {key | (∃ next, search.expand key = .ok next) ∧ key ∉ seen}

theorem unseen_cons_lt {key : K} {next seen : List K} (expands : search.expand key = .ok next)
    (new : key ∉ seen) : search.unseen (key :: seen) < search.unseen seen := by
  apply Set.ncard_lt_ncard
  · refine ⟨fun other mem => ⟨mem.1, fun old => mem.2 (List.mem_cons_of_mem _ old)⟩, fun sub => ?_⟩
    exact (sub ⟨⟨next, expands⟩, new⟩).2 List.mem_cons_self
  · exact search.finite.subset fun other mem => mem.1

variable [DecidableEq K]

/-- The loop, from the top of the stack, with the keys seen so far. -/
def close : List K → List K → Except ε (List K)
  | [], seen => .ok seen
  | key :: stack, seen =>
    if new : key ∈ seen then close stack seen
    else
      match expands : search.expand key with
      | .error e => .error e
      | .ok next => close (next ++ stack) (key :: seen)
  termination_by stack seen => (search.unseen seen, stack.length)
  decreasing_by
    · exact .right _ (by simp)
    · exact .left _ _ (search.unseen_cons_lt expands new)

theorem close_nil (seen : List K) : search.close [] seen = .ok seen := by rw [close]

theorem close_old {key : K} (old : key ∈ seen) :
    search.close (key :: stack) seen = search.close stack seen := by
  rw [close, dif_pos old]

theorem close_error {key : K} {e : ε} (new : key ∉ seen)
    (fails : search.expand key = .error e) : search.close (key :: stack) seen = .error e := by
  rw [close, dif_neg new]
  split
  next e' same =>
    rw [fails] at same
    cases same
    rfl
  next next expands =>
    rw [fails] at expands
    cases expands

theorem close_new {key : K} {next stack seen : List K} (new : key ∉ seen)
    (expands : search.expand key = .ok next) :
    search.close (key :: stack) seen = search.close (next ++ stack) (key :: seen) := by
  rw [close, dif_neg new]
  split
  next e fails =>
    rw [expands] at fails
    cases fails
  next next' same =>
    rw [expands] at same
    cases same
    rfl

end Search

/-! ### What a search has seen -/

variable (search : Worklist K ε)

/-- One key leads to another. -/
def Leads (key other : K) : Prop := ∃ next, search.expand key = .ok next ∧ other ∈ next

/-- A key is reached from another over any number of keys. -/
abbrev Reaches : K → K → Prop := ReflTransGen search.Leads

/-- The keys that the seen ones lead to are seen or on the stack. -/
def Pending (stack seen : List K) : Prop :=
  ∀ key ∈ seen, ∃ next, search.expand key = .ok next ∧ ∀ other ∈ next, other ∈ seen ∨ other ∈ stack

/-- Nothing leads out of the keys, and none fails. -/
def Closed (seen : List K) : Prop :=
  ∀ key ∈ seen, ∃ next, search.expand key = .ok next ∧ ∀ other ∈ next, other ∈ seen

variable {search}

theorem closed_nil : search.Closed [] := nofun

theorem Closed.pending {seen : List K} (closed : search.Closed seen) (stack : List K) :
    search.Pending stack seen := by
  intro key mem
  obtain ⟨next, expands, others⟩ := closed key mem
  exact ⟨next, expands, fun other mem => .inl (others other mem)⟩

theorem Closed.reaches {seen : List K} (closed : search.Closed seen) {key other : K}
    (mem : key ∈ seen) (reaches : search.Reaches key other) : other ∈ seen := by
  induction reaches with
  | refl => exact mem
  | tail _ leads ih =>
    obtain ⟨next, expands, others⟩ := closed _ ih
    obtain ⟨next', expands', mem'⟩ := leads
    rw [expands] at expands'
    cases expands'
    exact others _ mem'

theorem Pending.old {key : K} (pending : search.Pending (key :: stack) seen)
    (old : key ∈ seen) : search.Pending stack seen := by
  intro k mem
  obtain ⟨next, expands, others⟩ := pending k mem
  refine ⟨next, expands, fun other at_other => ?_⟩
  rcases others other at_other with h | h
  · exact .inl h
  · rcases List.mem_cons.mp h with rfl | h
    · exact .inl old
    · exact .inr h

theorem Pending.new {key : K} {next stack seen : List K}
    (pending : search.Pending (key :: stack) seen) (expands : search.expand key = .ok next) :
    search.Pending (next ++ stack) (key :: seen) := by
  intro k mem
  rcases List.mem_cons.mp mem with rfl | mem
  · exact ⟨next, expands, fun other at_other => .inr (List.mem_append_left _ at_other)⟩
  · obtain ⟨next', expands', others⟩ := pending k mem
    refine ⟨next', expands', fun other at_other => ?_⟩
    rcases others other at_other with h | h
    · exact .inl (List.mem_cons_of_mem _ h)
    · rcases List.mem_cons.mp h with rfl | h
      · exact .inl List.mem_cons_self
      · exact .inr (List.mem_append_right _ h)

/-- Reached over a key that leads to it. -/
theorem reaches_of_next {key other : K} {next : List K} (expands : search.expand key = .ok next)
    {k : K} (mem : k ∈ next) (reaches : search.Reaches k other) : search.Reaches key other :=
  .head ⟨next, expands, mem⟩ reaches

variable [DecidableEq K]

/-- A search that succeeds: what it keeps, what it closes and where its keys come from. The
    induction is along the turns of the loop. -/
theorem close_spec {stack seen final : List K} (pending : search.Pending stack seen)
    (h : search.close stack seen = .ok final) :
    (∀ key ∈ seen, key ∈ final) ∧ (∀ key ∈ stack, key ∈ final) ∧ search.Closed final ∧
      ∀ key ∈ final, key ∈ seen ∨ ∃ start ∈ stack, search.Reaches start key := by
  induction stack, seen using close.induct search with
  | case1 seen =>
    rw [close_nil] at h
    cases h
    refine ⟨fun key mem => mem, nofun, fun key mem => ?_, fun key mem => .inl mem⟩
    obtain ⟨next, expands, others⟩ := pending key mem
    exact ⟨next, expands, fun other at_other => (others other at_other).resolve_right nofun⟩
  | case2 key stack seen old ih =>
    rw [close_old _ old] at h
    obtain ⟨kept, done, closed, origin⟩ := ih (pending.old old) h
    refine ⟨kept, List.forall_mem_cons.mpr ⟨kept key old, done⟩, closed, fun k mem => ?_⟩
    rcases origin k mem with h | ⟨start, at_start, reaches⟩
    · exact .inl h
    · exact .inr ⟨start, List.mem_cons_of_mem _ at_start, reaches⟩
  | case3 key stack seen new e fails =>
    rw [close_error _ new fails] at h
    cases h
  | case4 key stack seen new next expands ih =>
    rw [close_new _ new expands] at h
    obtain ⟨kept, done, closed, origin⟩ := ih (pending.new expands) h
    obtain ⟨first, kept⟩ := List.forall_mem_cons.mp kept
    refine ⟨kept, List.forall_mem_cons.mpr ⟨first, fun k mem =>
      done k (List.mem_append_right _ mem)⟩, closed, fun k mem => ?_⟩
    rcases origin k mem with h | ⟨start, at_start, reaches⟩
    · rcases List.mem_cons.mp h with rfl | h
      · exact .inr ⟨k, List.mem_cons_self, .refl⟩
      · exact .inl h
    · rcases List.mem_append.mp at_start with at_next | at_stack
      · exact .inr ⟨key, List.mem_cons_self, reaches_of_next expands at_next reaches⟩
      · exact .inr ⟨start, List.mem_cons_of_mem _ at_stack, reaches⟩

/-- A search that fails does so on a key that it reached. -/
theorem exists_of_close_error {e : ε} (h : search.close stack seen = .error e) :
    ∃ start ∈ stack, ∃ key, search.Reaches start key ∧ search.expand key = .error e := by
  induction stack, seen using close.induct search with
  | case1 seen =>
    rw [close_nil] at h
    cases h
  | case2 key stack seen old ih =>
    rw [close_old _ old] at h
    obtain ⟨start, at_start, found⟩ := ih h
    exact ⟨start, List.mem_cons_of_mem _ at_start, found⟩
  | case3 key stack seen new e' fails =>
    rw [close_error _ new fails] at h
    cases h
    exact ⟨key, List.mem_cons_self, key, .refl, fails⟩
  | case4 key stack seen new next expands ih =>
    rw [close_new _ new expands] at h
    obtain ⟨start, at_start, other, reaches, fails⟩ := ih h
    rcases List.mem_append.mp at_start with at_next | at_stack
    · exact ⟨key, List.mem_cons_self, other, reaches_of_next expands at_next reaches, fails⟩
    · exact ⟨start, List.mem_cons_of_mem _ at_stack, other, reaches, fails⟩

/-- What was seen before and what is reached from the stack. -/
theorem mem_close_iff {stack seen final : List K} (closed : search.Closed seen)
    (h : search.close stack seen = .ok final) (key : K) :
    key ∈ final ↔ key ∈ seen ∨ ∃ start ∈ stack, search.Reaches start key := by
  obtain ⟨kept, done, closed', origin⟩ := close_spec (closed.pending stack) h
  constructor
  · exact origin key
  · rintro (mem | ⟨start, at_start, reaches⟩)
    · exact kept key mem
    · exact closed'.reaches (done start at_start) reaches

theorem closed_close {stack seen final : List K} (closed : search.Closed seen)
    (h : search.close stack seen = .ok final) : search.Closed final :=
  (close_spec (closed.pending stack) h).2.2.1

theorem close_isOk_iff (closed : search.Closed seen) :
    (∃ final, search.close stack seen = .ok final) ↔
      ∀ start ∈ stack, ∀ key, search.Reaches start key → ∃ next, search.expand key = .ok next := by
  constructor
  · rintro ⟨final, h⟩ start at_start key reaches
    have mem := (mem_close_iff closed h key).mpr (.inr ⟨start, at_start, reaches⟩)
    obtain ⟨next, expands, _⟩ := closed_close closed h key mem
    exact ⟨next, expands⟩
  · intro expands
    cases h : search.close stack seen with
    | ok final => exact ⟨final, rfl⟩
    | error e =>
      obtain ⟨start, at_start, key, reaches, fails⟩ := exists_of_close_error h
      obtain ⟨next, expands⟩ := expands start at_start key reaches
      rw [fails] at expands
      cases expands

end Worklist

end NpaCore
