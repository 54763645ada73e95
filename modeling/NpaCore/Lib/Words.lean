import Mathlib.Data.List.Basic
import Mathlib.Tactic.Common

/-!
# Words joined by a separator

Lists of words, compared word by word, and the strings in which a separator stands between
the words, compared letter by letter. Joining loses nothing when the separator occurs in no
word, and it keeps the order when the separator is smaller than every letter. A separator
with a smaller letter does not keep it: `a.b` is above `a'`, and the list `[a, b]` is below
`[a']`.
-/

namespace NpaCore.Words

variable {α : Type}

/-- The part of a joined string after its first word. -/
def separated (sep : α) : List (List α) → List α
  | [] => []
  | word :: words => sep :: (word ++ separated sep words)

theorem intercalate_cons (sep : α) (word : List α) (words : List (List α)) :
    [sep].intercalate (word :: words) = word ++ separated sep words := by
  induction words generalizing word with
  | nil => simp [separated]
  | cons next words ih => rw [List.intercalate_cons_cons, ih, separated, List.append_assoc]; rfl

theorem mem_intercalate {sep : α} {words : List (List α)} {c : α}
    (mem : c ∈ [sep].intercalate words) : c = sep ∨ ∃ word ∈ words, c ∈ word := by
  have rest : ∀ words : List (List α), c ∈ separated sep words → c = sep ∨ ∃ word ∈ words, c ∈ word := by
    intro words
    induction words with
    | nil => exact nofun
    | cons word words ih =>
      simp only [separated, List.mem_cons, List.mem_append]
      rintro (same | here | later)
      · exact .inl same
      · exact .inr ⟨word, .inl rfl, here⟩
      · obtain same | ⟨other, hother, mem⟩ := ih later
        · exact .inl same
        · exact .inr ⟨other, .inr hother, mem⟩
  cases words with
  | nil => cases mem
  | cons word words =>
    rw [intercalate_cons, List.mem_append] at mem
    rcases mem with here | later
    · exact .inr ⟨word, List.mem_cons_self, here⟩
    · obtain same | ⟨other, hother, mem⟩ := rest words later
      · exact .inl same
      · exact .inr ⟨other, List.mem_cons_of_mem _ hother, mem⟩

section Order

variable [Ord α] {sep : α}

/-- The separator is smaller than every letter of the word. -/
def Above (sep : α) (word : List α) : Prop := ∀ c ∈ word, compare sep c = .lt

variable [Std.OrientedOrd α]

theorem compare_above {word : List α} (above : Above sep word) {c : α} (mem : c ∈ word) :
    compare c sep = .gt := by
  rw [Std.OrientedOrd.eq_swap (a := c), above c mem]
  rfl

variable [Std.LawfulEqOrd α]

/-- The word that ends first is followed by nothing or by the separator, so it is smaller. -/
theorem compare_append {left right : List α} (leftAbove : Above sep left)
    (rightAbove : Above sep right) (ls rs : List (List α)) :
    compare (left ++ separated sep ls) (right ++ separated sep rs) =
      (compare left right).then (compare (separated sep ls) (separated sep rs)) := by
  induction left generalizing right with
  | nil =>
    cases right with
    | nil => simp
    | cons c right =>
      cases ls with
      | nil => rfl
      | cons => simp [separated, rightAbove c List.mem_cons_self]
  | cons b left ih =>
    cases right with
    | nil =>
      cases rs with
      | nil => rfl
      | cons => simp [separated, compare_above leftAbove List.mem_cons_self]
    | cons c right =>
      have rest := ih (fun x hx => leftAbove x (List.mem_cons_of_mem b hx))
        fun x hx => rightAbove x (List.mem_cons_of_mem c hx)
      simp only [List.cons_append, List.compare_cons_cons, rest, Ordering.then_assoc]

theorem compare_separated {ls rs : List (List α)} (left : ∀ word ∈ ls, Above sep word)
    (right : ∀ word ∈ rs, Above sep word) :
    compare (separated sep ls) (separated sep rs) = compare ls rs := by
  induction ls generalizing rs with
  | nil => cases rs <;> rfl
  | cons l ls ih =>
    cases rs with
    | nil => rfl
    | cons r rs =>
      obtain ⟨l_above, left⟩ := List.forall_mem_cons.mp left
      obtain ⟨r_above, right⟩ := List.forall_mem_cons.mp right
      simp only [separated, List.compare_cons_cons, Std.ReflOrd.compare_self, Ordering.eq_then,
        compare_append l_above r_above, ih left right]

/-- A small separator keeps the order of the lists. -/
theorem compare_intercalate {ls rs : List (List α)} (left : ∀ word ∈ ls, word ≠ [] ∧ Above sep word)
    (right : ∀ word ∈ rs, word ≠ [] ∧ Above sep word) :
    compare ([sep].intercalate ls) ([sep].intercalate rs) = compare ls rs := by
  cases ls with
  | nil =>
    cases rs with
    | nil => rfl
    | cons r rs =>
      obtain ⟨filled, _⟩ := right r List.mem_cons_self
      cases r with
      | nil => exact absurd rfl filled
      | cons => rw [intercalate_cons]; rfl
  | cons l ls =>
    cases rs with
    | nil =>
      obtain ⟨filled, _⟩ := left l List.mem_cons_self
      cases l with
      | nil => exact absurd rfl filled
      | cons => rw [intercalate_cons]; rfl
    | cons r rs =>
      obtain ⟨⟨_, l_above⟩, left⟩ := List.forall_mem_cons.mp left
      obtain ⟨⟨_, r_above⟩, right⟩ := List.forall_mem_cons.mp right
      rw [intercalate_cons, intercalate_cons, compare_append l_above r_above,
        compare_separated (fun w hw => (left w hw).2) fun w hw => (right w hw).2,
        List.compare_cons_cons]

end Order

/-- A separator that occurs in no word is where the words are split again. -/
theorem intercalate_injective [DecidableEq α] {sep : α} {ls rs : List (List α)}
    (left : ∀ word ∈ ls, sep ∉ word) (right : ∀ word ∈ rs, sep ∉ word) (filled : ls ≠ [])
    (filled' : rs ≠ []) (same : [sep].intercalate ls = [sep].intercalate rs) : ls = rs := by
  rw [← List.splitOn_intercalate sep left filled, same, List.splitOn_intercalate sep right filled']

/-! ### Strings -/

theorem compareOfLessAndEq_list (ls rs : List Char) : compareOfLessAndEq ls rs = compare ls rs := by
  induction ls generalizing rs with
  | nil => cases rs <;> rfl
  | cons l ls ih =>
    cases rs with
    | nil => rfl
    | cons r rs =>
      rw [List.compare_cons_cons, ← ih]
      change _ = (compareOfLessAndEq l r).then _
      unfold compareOfLessAndEq
      by_cases less : l < r
      · simp [List.cons_lt_cons_iff, less]
      by_cases same : l = r
      · simp [same]
      · simp [List.cons_lt_cons_iff, less, same]

/-- Strings are compared letter by letter. -/
theorem compare_string (s t : String) : compare s t = compare s.toList t.toList := by
  rw [← compareOfLessAndEq_list]
  have less : s < t ↔ s.toList < t.toList := Iff.rfl
  change compareOfLessAndEq s t = _
  unfold compareOfLessAndEq
  simp only [less, String.toList_inj]

/-- A word-by-word comparison of lists of strings. -/
theorem compare_map_toList (ls rs : List String) :
    compare (ls.map String.toList) (rs.map String.toList) = compare ls rs := by
  induction ls generalizing rs with
  | nil => cases rs <;> rfl
  | cons l ls ih =>
    cases rs with
    | nil => rfl
    | cons r rs =>
      simp only [List.map_cons, List.compare_cons_cons, ih, compare_string]

end NpaCore.Words
