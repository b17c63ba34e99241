import Mathlib.Algebra.BigOperators.Group.List.Lemmas
import Mathlib.Algebra.GroupWithZero.Nat

/-! Rows that are stored one after another are found again by where they start: row `i` lies between start `i` and start
`i + 1`. -/

namespace LoginomDock

open List

def rowStarts (lengths : List Nat) : List Nat := (List.range (lengths.length + 1)).map fun i => (lengths.take i).sum

@[simp] theorem length_rowStarts (lengths : List Nat) : (rowStarts lengths).length = lengths.length + 1 := by
  simp [rowStarts]

variable {lengths : List Nat} {i : Nat}

theorem rowStarts_getElem? (inside : i ≤ lengths.length) :
    (rowStarts lengths)[i]? = some (lengths.take i).sum := by
  rw [rowStarts, getElem?_map, getElem?_range (by omega), Option.map_some]

theorem rowStarts_getD (inside : i ≤ lengths.length) :
    (rowStarts lengths).getD i 0 = (lengths.take i).sum := by
  rw [getD_eq_getElem?_getD, rowStarts_getElem? inside, Option.getD_some]

theorem rowStarts_concat (lengths : List Nat) (more : Nat) :
    rowStarts (lengths ++ [more]) = rowStarts lengths ++ [lengths.sum + more] := by
  apply ext_getElem?
  intro i
  by_cases old : i ≤ lengths.length
  · rw [rowStarts_getElem? (by simp; omega), getElem?_append_left (by simp; omega), rowStarts_getElem? old,
      take_append_of_le_length old]
  · rw [getElem?_append_right (by simp; omega)]
    by_cases last : i = lengths.length + 1
    · rw [rowStarts_getElem? (by simp; omega)]
      simp [last]
    · rw [getElem?_eq_none (by simp; omega), getElem?_eq_none (by simp; omega)]

theorem sum_take_set (inside : i < lengths.length) (more : Nat) {k : Nat}
    (after : i < k) : ((lengths.set i more).take k).sum = (lengths.take k).sum + more - lengths[i] := by
  have changed : ((lengths.set i more).take k).sum + lengths[i] = (lengths.take k).sum + more := by
    have cut : i < (lengths.take k).length := by simp; omega
    have split := take_append_drop i (lengths.take k)
    rw [take_set, set_eq_take_append_cons_drop, if_pos cut]
    have there : (lengths.take k).drop i = lengths[i] :: (lengths.take k).drop (i + 1) := by
      rw [drop_eq_getElem_cons cut, getElem_take]
    conv_rhs => rw [← split, there]
    simp only [sum_append, sum_cons]
    omega
  omega

theorem rowStarts_set (inside : i < lengths.length) (more : Nat) :
    rowStarts (lengths.set i more) = (rowStarts lengths).take (i + 1) ++
      ((rowStarts lengths).drop (i + 1)).map fun place => place + more - lengths[i] := by
  apply ext_getElem?
  intro k
  by_cases outside : lengths.length < k
  · rw [getElem?_eq_none (by simp; omega), getElem?_eq_none (by simp; omega)]
  rw [rowStarts_getElem? (by simp; omega)]
  by_cases before : k < i + 1
  · rw [getElem?_append_left (by simp; omega), getElem?_take_of_lt before,
      rowStarts_getElem? (by omega), take_set_of_le (by omega)]
  · rw [getElem?_append_right (by simp; omega)]
    have place : i + 1 + (k - min (i + 1) (lengths.length + 1)) = k := by omega
    simp only [length_take, length_rowStarts, getElem?_map, getElem?_drop, place]
    rw [rowStarts_getElem? (by omega), Option.map_some, sum_take_set inside more (by omega)]

theorem flatten_set {α : Type} {rows : List (List α)} (inside : i < rows.length) (row : List α) :
    (rows.set i row).flatten = rows.flatten.take ((rows.map List.length).take i).sum ++ row ++
      rows.flatten.drop ((rows.map List.length).take (i + 1)).sum := by
  rw [take_sum_flatten, drop_sum_flatten, set_eq_take_append_cons_drop, if_pos inside]
  simp

end LoginomDock
