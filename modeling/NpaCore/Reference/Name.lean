import NpaCore.Lib.Words
import NpaCore.Kernel.Universe
import NpaCore.Reference.Decoder

/-!
# Names of the reference checker

`ReferenceModuleName` of `npa-checker-ref/src/lib.rs`. The reference checker compares names
component by component and the kernel compares dotted strings. An apostrophe is smaller than
a dot, so the two orders differ: `a.b` comes before `a'` here and after it in the kernel.

## Main results

`dotted_injective`: names with one dotted form are equal.
`compare_ordered`: joined by a small separator, the names are in the order they have here.
-/

namespace NpaCore.Reference

open Decoder (validModuleName referenceNameComponentIsCanonical)

structure ReferenceModuleName where
  components : List String
  valid : validModuleName components = true
  deriving DecidableEq

namespace ReferenceModuleName

/-- The derived order. -/
instance : Ord ReferenceModuleName := ⟨fun lhs rhs => compare lhs.components rhs.components⟩

theorem compare_eq (lhs rhs : ReferenceModuleName) :
    compare lhs rhs = compare lhs.components rhs.components := rfl

theorem ext {lhs rhs : ReferenceModuleName} (same : lhs.components = rhs.components) : lhs = rhs := by
  cases lhs
  cases rhs
  cases same
  rfl

instance : Std.TransOrd ReferenceModuleName where
  eq_swap {lhs rhs} := Std.OrientedOrd.eq_swap (a := lhs.components) (b := rhs.components)
  isLE_trans {a b c} := Std.TransOrd.isLE_trans (a := a.components) (b := b.components)
    (c := c.components)

instance : Std.LawfulEqOrd ReferenceModuleName where
  compare_self {a} := Std.ReflOrd.compare_self (a := a.components)
  eq_of_compare {_ _} same := ext (Std.LawfulEqOrd.eq_of_compare same)

/-- `dotted`. -/
def dotted (name : ReferenceModuleName) : String := ".".intercalate name.components

/-- The components joined by a character that is smaller than all of theirs. -/
def ordered (name : ReferenceModuleName) : String := "!".intercalate name.components

theorem components_ne_nil (name : ReferenceModuleName) : name.components ≠ [] := by
  intro empty
  have valid := name.valid
  rw [validModuleName, empty] at valid
  cases valid

/-- The characters of components. -/
theorem continues {name : ReferenceModuleName} {component : String}
    (mem : component ∈ name.components) {c : Char} (hc : c ∈ component.toList) :
    Kernel.isNameComponentContinue c = true := by
  have valid := name.valid
  simp only [validModuleName, Bool.and_eq_true, List.all_eq_true] at valid
  have canonical := valid.2 component mem
  rw [referenceNameComponentIsCanonical] at canonical
  cases chars : component.toList with
  | nil => rw [chars] at hc; cases hc
  | cons first rest =>
    simp only [chars, Kernel.isCanonicalNameComponent, Bool.and_eq_true, List.all_eq_true]
      at canonical
    rw [chars] at hc
    rcases List.mem_cons.mp hc with rfl | later
    · have start := canonical.1
      simp only [Kernel.isNameComponentStart, Bool.or_eq_true] at start
      rcases start with letter | underscore
      · simp [Kernel.isNameComponentContinue, Char.isAlphanum, letter]
      · simp [Kernel.isNameComponentContinue, of_decide_eq_true underscore]
    · exact canonical.2 c later

theorem component_ne_nil {name : ReferenceModuleName} {component : String}
    (mem : component ∈ name.components) : component.toList ≠ [] := by
  intro empty
  have valid := name.valid
  simp only [validModuleName, Bool.and_eq_true, List.all_eq_true] at valid
  have canonical := valid.2 component mem
  rw [referenceNameComponentIsCanonical, empty] at canonical
  cases canonical

theorem isUpper_def (c : Char) : c.isUpper = decide (c.val ≥ 'A'.val ∧ c.val ≤ 'Z'.val) := rfl

theorem isLower_def (c : Char) :
    c.isLower = (decide (c.val ≥ 'a'.val) && decide (c.val ≤ 'z'.val)) := rfl

theorem isAlpha_def (c : Char) : c.isAlpha = (c.isUpper || c.isLower) := rfl

/-- The characters that components do not have: `!`, `#`, `.` and `?` among them. -/
theorem code_of_continues {c : Char} (h : Kernel.isNameComponentContinue c = true) :
    39 ≤ c.toNat ∧ c.toNat ≠ 46 ∧ c.toNat ≠ 63 := by
  simp only [Kernel.isNameComponentContinue, Char.isAlphanum, isAlpha_def, isUpper_def,
    isLower_def, Char.isDigit, Bool.or_eq_true, Bool.and_eq_true, decide_eq_true_eq,
    UInt32.le_iff_toNat_le, ge_iff_le] at h
  change ((((65 ≤ c.toNat ∧ c.toNat ≤ 90) ∨ (97 ≤ c.toNat ∧ c.toNat ≤ 122)) ∨
    (48 ≤ c.toNat ∧ c.toNat ≤ 57)) ∨ c = '_') ∨ c = Char.ofNat 39 at h
  rcases h with (((h | h) | h) | h) | h
  · omega
  · omega
  · omega
  · subst h
    decide
  · subst h
    decide

theorem not_mem_of_code {name : ReferenceModuleName} {component : String}
    (mem : component ∈ name.components) {c : Char}
    (code : c.toNat < 39 ∨ c.toNat = 46 ∨ c.toNat = 63) : c ∉ component.toList := by
  intro hc
  have := code_of_continues (continues mem hc)
  omega

theorem toList_dotted (name : ReferenceModuleName) :
    name.dotted.toList = ['.'].intercalate (name.components.map String.toList) := by
  rw [dotted, String.toList_intercalate]
  rfl

theorem toList_ordered (name : ReferenceModuleName) :
    name.ordered.toList = ['!'].intercalate (name.components.map String.toList) := by
  rw [ordered, String.toList_intercalate]
  rfl

/-- Names with one dotted form are equal. -/
theorem dotted_injective : Function.Injective dotted := by
  intro lhs rhs same
  have chars := congrArg String.toList same
  rw [toList_dotted, toList_dotted] at chars
  have dotless : ∀ name : ReferenceModuleName, ∀ word ∈ name.components.map String.toList,
      '.' ∉ word := by
    intro name word mem
    obtain ⟨component, hcomponent, rfl⟩ := List.mem_map.mp mem
    exact not_mem_of_code hcomponent (by decide)
  have filled : ∀ name : ReferenceModuleName, name.components.map String.toList ≠ [] :=
    fun name => by simpa using name.components_ne_nil
  have words := Words.intercalate_injective (dotless lhs) (dotless rhs) (filled lhs) (filled rhs) chars
  exact ext (List.map_injective_iff.mpr (fun _ _ => String.toList_injective) words)

/-- Joined by `!`, names are compared as the reference checker compares them. -/
theorem compare_ordered (lhs rhs : ReferenceModuleName) :
    compare lhs.ordered rhs.ordered = compare lhs rhs := by
  have above : ∀ name : ReferenceModuleName, ∀ word ∈ name.components.map String.toList,
      word ≠ [] ∧ Words.Above '!' word := by
    intro name word mem
    obtain ⟨component, hcomponent, rfl⟩ := List.mem_map.mp mem
    refine ⟨component_ne_nil hcomponent, fun c hc => ?_⟩
    have larger : '!'.toNat < c.toNat :=
      Nat.lt_of_lt_of_le (by decide) (code_of_continues (continues hcomponent hc)).1
    exact if_pos larger
  rw [Words.compare_string, toList_ordered, toList_ordered,
    Words.compare_intercalate (above lhs) (above rhs), Words.compare_map_toList, compare_eq]

theorem ordered_injective : Function.Injective ordered := by
  intro lhs rhs same
  refine Std.LawfulEqOrd.eq_of_compare ?_
  rw [← compare_ordered, same, Std.ReflOrd.compare_self]

/-! ### Metavariables -/

/-- `is_unresolved_universe_meta_name`. -/
def isUnresolvedUniverseMetaName (name : ReferenceModuleName) : Bool :=
  name.components.any fun component =>
    Kernel.humanUniverseMetaPrefix.toList.isPrefixOf component.toList ||
      component.toList.contains '?'

/-- A text without `#` and `?` is no metavariable of the kernel. -/
theorem not_meta_of_chars {chars : List Char} (hash : '#' ∉ chars) (question : '?' ∉ chars) :
    (Kernel.humanUniverseMetaPrefix.toList.isPrefixOf chars || chars.contains '?') = false := by
  rw [Bool.or_eq_false_iff]
  constructor
  · rw [Bool.eq_false_iff]
    intro starts
    have mem : '#' ∈ Kernel.humanUniverseMetaPrefix.toList := by decide
    exact hash ((List.isPrefixOf_iff_prefix.mp starts).subset mem)
  · simpa using question

theorem isUnresolvedUniverseMetaName_eq (name : ReferenceModuleName) :
    isUnresolvedUniverseMetaName name = false := by
  rw [isUnresolvedUniverseMetaName, List.any_eq_false]
  intro component mem
  rw [not_meta_of_chars (not_mem_of_code mem (by decide)) (not_mem_of_code mem (by decide))]
  decide

/-- No name of the reference checker is a metavariable of the kernel, however it is joined. -/
theorem not_meta_intercalate (name : ReferenceModuleName) {sep : Char} (hash : sep ≠ '#')
    (question : sep ≠ '?') {joined : String}
    (chars : joined.toList = [sep].intercalate (name.components.map String.toList)) :
    Kernel.isUnresolvedUniverseMetaParam joined = false := by
  have absent : ∀ c : Char, c ≠ sep → (c.toNat < 39 ∨ c.toNat = 46 ∨ c.toNat = 63) →
      c ∉ joined.toList := by
    intro c differ code mem
    rw [chars] at mem
    rcases Words.mem_intercalate mem with rfl | ⟨word, hword, mem⟩
    · exact differ rfl
    · obtain ⟨component, hcomponent, rfl⟩ := List.mem_map.mp hword
      exact not_mem_of_code hcomponent code mem
  exact not_meta_of_chars (absent '#' hash.symm (by decide)) (absent '?' question.symm (by decide))

end ReferenceModuleName

end NpaCore.Reference
