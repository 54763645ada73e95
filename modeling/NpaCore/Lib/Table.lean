import Mathlib.Data.List.Basic
import Mathlib.Data.List.Range

/-!
# Tables

A list that is filled by number: entry `i` of `table size f` is `f i`. A write to an entry is a
change of the function at this number.
-/

namespace NpaCore.Table

variable {α : Type}

def table (size : Nat) (f : Nat → α) : List α := (List.range size).map f

variable {size : Nat} {f g : Nat → α}

@[simp] theorem length_table : (table size f).length = size := by simp [table]

theorem getElem?_table (i : Nat) : (table size f)[i]? = if i < size then some (f i) else none := by
  by_cases bound : i < size
  · simp [table, bound]
  · simp [table, bound]

theorem getElem?_table_of_lt {i : Nat} (bound : i < size) : (table size f)[i]? = some (f i) := by
  rw [getElem?_table, if_pos bound]

theorem table_congr (same : ∀ i < size, f i = g i) : table size f = table size g :=
  List.map_congr_left fun i mem => same i (List.mem_range.mp mem)

theorem replicate_eq_table (a : α) : List.replicate size a = table size fun _ => a := by
  rw [table, List.map_const', List.length_range]

theorem eq_table {l : List α} (length : l.length = size)
    (entries : ∀ i < size, l[i]? = some (f i)) : l = table size f := by
  apply List.ext_getElem?
  intro i
  by_cases bound : i < size
  · rw [entries i bound, getElem?_table_of_lt bound]
  · rw [getElem?_table, if_neg bound, List.getElem?_eq_none (by omega)]

theorem set_table (i : Nat) (a : α) :
    (table size f).set i a = table size fun j => if j = i then a else f j := by
  refine eq_table (by simp) fun j bound => ?_
  rw [List.getElem?_set, getElem?_table_of_lt bound, length_table]
  by_cases same : i = j
  · simp [same, bound]
  · simp [same, Ne.symm same]

theorem modify_table (i : Nat) (change : α → α) :
    (table size f).modify i change = table size fun j => if j = i then change (f j) else f j := by
  refine eq_table (by simp) fun j bound => ?_
  rw [List.getElem?_modify, getElem?_table_of_lt bound]
  by_cases same : i = j
  · simp [same]
  · simp [same, Ne.symm same]

end NpaCore.Table
