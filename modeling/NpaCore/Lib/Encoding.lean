import Mathlib.Algebra.Order.BigOperators.Group.List
import Mathlib.Algebra.Order.Ring.Nat
import Mathlib.Tactic.Common

/-!
# Encodings that need no separators

An encoding is unambiguous when the text after it cannot be mistaken for a part of it, so
that encodings may be written one after another.

## Main results

* `Unambiguous.append`, `Unambiguous.vec`: pairs, and lists after their length.
* `emit_eq_flatMap`: a loop over a stack of trees, which writes a part of the top tree and
  pushes what is below it, writes the encodings of the trees on the stack.
-/

namespace NpaCore.Encoding

variable {τ α β : Type}

/-! ### Unambiguous encodings -/

/-- What is read off the front of a text is determined by the text. -/
def Unambiguous (encode : α → List τ) : Prop :=
  ∀ ⦃a b : α⦄ ⦃s t : List τ⦄, encode a ++ s = encode b ++ t → a = b ∧ s = t

namespace Unambiguous

variable {encode : α → List τ} {encode' : β → List τ}

theorem append_eq_iff (h : Unambiguous encode) {a b : α} {s t : List τ} :
    encode a ++ s = encode b ++ t ↔ a = b ∧ s = t := by
  constructor
  · exact fun same => h same
  · rintro ⟨rfl, rfl⟩
    rfl

/-- Encodings of one width are told apart by their text alone. -/
theorem of_width {width : Nat} (widths : ∀ a, (encode a).length = width)
    (injective : Function.Injective encode) : Unambiguous encode := by
  intro a b s t same
  obtain ⟨text, rest⟩ := List.append_inj same ((widths a).trans (widths b).symm)
  exact ⟨injective text, rest⟩

theorem comp (h : Unambiguous encode) {f : β → α} (injective : Function.Injective f) :
    Unambiguous fun b => encode (f b) := by
  intro a b s t same
  obtain ⟨image, rest⟩ := h same
  exact ⟨injective image, rest⟩

/-- Lists of one length, without their length. -/
theorem flatMap_inj (h : Unambiguous encode) {xs ys : List α} {s t : List τ}
    (lengths : xs.length = ys.length) (same : xs.flatMap encode ++ s = ys.flatMap encode ++ t) :
    xs = ys ∧ s = t := by
  induction xs generalizing ys with
  | nil =>
    cases ys with
    | nil => exact ⟨rfl, same⟩
    | cons y ys => simp at lengths
  | cons x xs ih =>
    cases ys with
    | nil => simp at lengths
    | cons y ys =>
      simp only [List.flatMap_cons, List.append_assoc] at same
      obtain ⟨rfl, others⟩ := h same
      obtain ⟨rfl, rest⟩ := ih (Nat.succ.inj lengths) others
      exact ⟨rfl, rest⟩

theorem vec {len : Nat → List τ} (lens : Unambiguous len) (h : Unambiguous encode) :
    Unambiguous fun items : List α => len items.length ++ items.flatMap encode := by
  intro xs ys s t same
  simp only [List.append_assoc] at same
  obtain ⟨lengths, others⟩ := lens same
  exact h.flatMap_inj lengths others

/-- A text after its length. -/
theorem text {len : Nat → List τ} (lens : Unambiguous len) :
    Unambiguous fun text : List τ => len text.length ++ text := by
  have tokens : Unambiguous fun token : τ => [token] :=
    of_width (fun _ => rfl) fun _ _ same => List.singleton_inj.mp same
  have texts := vec lens tokens
  simpa only [List.flatMap_singleton'] using texts

end Unambiguous

/-! ### Loops that write what is on a stack -/

variable {T : Type}

/-- What the loop does with a tree: the text that it writes, and the trees below, whose
    encodings follow from left to right. -/
structure Writer (T τ : Type) where
  text : T → List τ
  below : T → List T
  size : T → Nat
  size_below : ∀ tree, ((below tree).map size).sum < size tree

variable (writer : Writer T τ)

/-- The loop, with the top of the stack at the front. -/
def emit : List T → List τ → List τ
  | [], out => out
  | tree :: pending, out => emit (writer.below tree ++ pending) (out ++ writer.text tree)
  termination_by pending => (pending.map writer.size).sum
  decreasing_by
    have := writer.size_below tree
    simp only [List.map_append, List.sum_append, List.map_cons, List.sum_cons]
    omega

variable {writer}

theorem emit_eq_flatMap {encode : T → List τ}
    (encodes : ∀ tree, encode tree = writer.text tree ++ (writer.below tree).flatMap encode)
    (pending : List T) (out : List τ) :
    emit writer pending out = out ++ pending.flatMap encode := by
  -- along the turns of the loop
  induction pending, out using emit.induct writer with
  | case1 out => simp [emit]
  | case2 tree pending out ih =>
    rw [emit, ih, List.flatMap_cons, encodes tree]
    simp

end NpaCore.Encoding
