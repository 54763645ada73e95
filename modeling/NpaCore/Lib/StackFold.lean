import Mathlib.Algebra.Order.BigOperators.Group.List
import Mathlib.Algebra.Order.Ring.Nat

/-!
# Folds run with two stacks

A recursion over trees, run without recursion: one stack holds the trees that are still to
be visited and the operations that wait for them, the other the values of the trees that
are done. An operation takes its operands off the stack of values and puts its result there.

## Main result

`loop_visit`: the loop leaves the value of a tree on top of the values that it found, when
each operation computes the value of a tree from the values of the trees below it.
-/

namespace NpaCore.StackFold

variable {T V O : Type}

/-- What the loop does with a tree: it has a value at once, or it is opened into an operation
    and the trees below it, from left to right. -/
structure Opening (T V O : Type) where
  view : T → V ⊕ O × List T
  apply : O → List V → List V
  size : T → Nat
  size_pos : ∀ tree, 0 < size tree
  size_below : ∀ {tree op below}, view tree = .inr (op, below) → (below.map size).sum < size tree

inductive Frame (T O : Type) where
  | visit (tree : T)
  | build (op : O)

/-- A bound on the turns that a frame takes. -/
def Frame.weight (size : T → Nat) : Frame T O → Nat
  | visit tree => 2 * size tree
  | build _ => 1

/-- The trees below an operation, to be visited from left to right. -/
def visits (trees : List T) : List (Frame T O) := trees.map .visit

def weight (size : T → Nat) (frames : List (Frame T O)) : Nat :=
  (frames.map (Frame.weight size)).sum

theorem weight_visits (size : T → Nat) (trees : List T) (frames : List (Frame T O)) :
    weight size (visits trees ++ frames) = 2 * (trees.map size).sum + weight size frames := by
  induction trees with
  | nil => simp [weight, visits]
  | cons tree trees ih =>
    simp only [weight, visits, List.map_cons, List.cons_append, List.sum_cons,
      Frame.weight] at ih ⊢
    omega

variable (opening : Opening T V O)

/-- The loop, from the top of both stacks. -/
def loop : List (Frame T O) → List V → List V
  | [], values => values
  | .build op :: frames, values => loop frames (opening.apply op values)
  | .visit tree :: frames, values =>
    match view : opening.view tree with
    | .inl value => loop frames (value :: values)
    | .inr (op, below) => loop (visits below ++ .build op :: frames) values
  termination_by frames => weight opening.size frames
  decreasing_by
    · simp [weight, Frame.weight]
    · have := opening.size_pos tree
      simp only [weight, List.map_cons, List.sum_cons, Frame.weight]
      omega
    · have := opening.size_below view
      rw [weight_visits]
      simp only [weight, List.map_cons, List.sum_cons, Frame.weight]
      omega

/-- The value of a tree, or `otherwise` if the loop left none. -/
def run (otherwise : V) (tree : T) : V :=
  (loop opening [.visit tree] []).head?.getD otherwise

/-- Each operation computes the value of its tree from those of the trees below. -/
structure Computes (value : T → V) : Prop where
  leaf : ∀ {tree v}, opening.view tree = .inl v → v = value tree
  node : ∀ {tree op below}, opening.view tree = .inr (op, below) → ∀ values,
    opening.apply op ((below.map value).reverse ++ values) = value tree :: values

variable {opening}

/-- The trees below an operation are visited from left to right, so the value of the last one
    is on top. -/
theorem loop_visits {value : T → V} {trees : List T}
    (each : ∀ tree ∈ trees, ∀ frames values,
      loop opening (.visit tree :: frames) values = loop opening frames (value tree :: values))
    (frames : List (Frame T O)) (values : List V) :
    loop opening (visits trees ++ frames) values =
      loop opening frames ((trees.map value).reverse ++ values) := by
  induction trees generalizing values with
  | nil => rfl
  | cons tree trees ih =>
    have others := ih fun other mem => each other (List.mem_cons_of_mem _ mem)
    rw [visits, List.map_cons, List.cons_append, each tree List.mem_cons_self, ← visits, others]
    simp

/-- The induction is on the size of the tree; what is on the stacks below it is arbitrary. -/
theorem loop_visit {value : T → V} (computes : Computes opening value) (tree : T)
    (frames : List (Frame T O)) (values : List V) :
    loop opening (.visit tree :: frames) values = loop opening frames (value tree :: values) := by
  rw [loop]
  split
  next v view => rw [computes.leaf view]
  next op below view =>
    have each : ∀ child ∈ below, ∀ frames values,
        loop opening (.visit child :: frames) values =
          loop opening frames (value child :: values) := by
      intro child mem frames values
      have smaller : opening.size child < opening.size tree :=
        Nat.lt_of_le_of_lt (List.le_sum_of_mem (List.mem_map_of_mem mem))
          (opening.size_below view)
      exact loop_visit computes child frames values
    rw [loop_visits each, loop, computes.node view]
  termination_by opening.size tree

theorem run_eq {value : T → V} (computes : Computes opening value) (otherwise : V) (tree : T) :
    run opening otherwise tree = value tree := by
  rw [run, loop_visit computes, loop]
  rfl

end NpaCore.StackFold
