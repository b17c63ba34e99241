import Mathlib.Algebra.BigOperators.Group.Finset.Basic
import Mathlib.Data.Finset.Piecewise
import Mathlib.Order.Interval.Finset.Nat
import Mathlib.Order.Monotone.Basic

/-! Two functions on keys are summed key by key, each within its own keys. -/

namespace LoginomDock

open Finset

variable {R : Type*} [AddCommMonoid R]

-- The sum of both functions, each with nothing but zeros outside its keys
def keyedSum (two : R → R → R) (all : Finset ℕ) (x y : ℕ → R) (left right : Finset ℕ) : R :=
  ∑ key ∈ all, two (left.piecewise x 0 key) (right.piecewise y 0 key)

section Erase

variable {two : R → R → R} {all left right : Finset ℕ} {x y : ℕ → R}

theorem piecewise_erase_of_ne {key other : ℕ} (different : other ≠ key) :
    (left.erase key).piecewise x 0 other = left.piecewise x 0 other := by
  simp [Finset.piecewise, different]

theorem keyedSum_erase (zero : two 0 0 = 0) {key : ℕ} (member : key ∈ all) : keyedSum two all x y left right =
    two (left.piecewise x 0 key) (right.piecewise y 0 key) + keyedSum two all x y (left.erase key) (right.erase key) := by
  have gone : two ((left.erase key).piecewise x 0 key) ((right.erase key).piecewise y 0 key) = 0 := by
    rw [piecewise_eq_of_notMem _ _ _ (notMem_erase key left), piecewise_eq_of_notMem _ _ _ (notMem_erase key right)]
    exact zero
  rw [keyedSum, keyedSum, ← add_sum_erase all _ member, ← add_sum_erase all (fun key => two _ _) member, gone, zero_add]
  congr 1
  apply sum_congr rfl
  intro other member
  have different := (mem_erase.mp member).1
  rw [piecewise_erase_of_ne different, piecewise_erase_of_ne different]

theorem keyedSum_swap : keyedSum two all x y left right = keyedSum (fun a b => two b a) all y x right left := rfl

theorem keyedSum_empty_left (zero : ∀ b, two 0 b = 0) : keyedSum two all x y ∅ right = 0 := by
  rw [keyedSum]
  apply sum_eq_zero
  intro key _
  exact zero _

end Erase

def keysWithin (keyAt : ℕ → ℕ) (start stop : ℕ) : Finset ℕ := (Ico start stop).image keyAt

section Windows

variable {keyAt : ℕ → ℕ} {length start stop key : ℕ} (ascending : StrictMonoOn keyAt (Set.Iio length))

theorem mem_keysWithin : key ∈ keysWithin keyAt start stop ↔ ∃ place, start ≤ place ∧ place < stop ∧ keyAt place = key := by
  simp [keysWithin, and_assoc]

theorem keysWithin_empty (none : stop ≤ start) : keysWithin keyAt start stop = ∅ := by
  rw [keysWithin, Ico_eq_empty_of_le none, image_empty]

include ascending

section

variable (some : start < stop) (inside : stop ≤ length)

include some inside

theorem erase_front (low : key ≤ keyAt start) :
    (keysWithin keyAt start stop).erase key = keysWithin keyAt (start + if keyAt start ≤ key then 1 else 0) stop := by
  ext other
  simp only [mem_erase, mem_keysWithin]
  constructor
  · rintro ⟨different, place, from', before, rfl⟩
    refine ⟨place, ?_, before, rfl⟩
    split
    next first =>
      have notFirst : place ≠ start := by
        rintro rfl
        omega
      omega
    next => omega
  · rintro ⟨place, from', before, rfl⟩
    refine ⟨?_, place, by omega, before, rfl⟩
    split at from'
    next =>
      have := ascending (show start < length by omega) (show place < length by omega) (show start < place by omega)
      omega
    next later =>
      have := ascending.monotoneOn (show start < length by omega) (show place < length by omega) (show start ≤ place by omega)
      omega

theorem erase_back (high : keyAt (stop - 1) ≤ key) :
    (keysWithin keyAt start stop).erase key = keysWithin keyAt start (stop - if key ≤ keyAt (stop - 1) then 1 else 0) := by
  ext other
  simp only [mem_erase, mem_keysWithin]
  constructor
  · rintro ⟨different, place, from', before, rfl⟩
    refine ⟨place, from', ?_, rfl⟩
    split
    next last =>
      have notLast : place ≠ stop - 1 := by
        rintro rfl
        omega
      omega
    next => omega
  · rintro ⟨place, from', before, rfl⟩
    refine ⟨?_, place, from', by omega, rfl⟩
    split at before
    next =>
      have := ascending (show place < length by omega) (show stop - 1 < length by omega) (show place < stop - 1 by omega)
      omega
    next earlier =>
      have := ascending.monotoneOn (show place < length by omega) (show stop - 1 < length by omega) (show place ≤ stop - 1 by omega)
      omega

theorem piecewise_front (low : key ≤ keyAt start) (x : ℕ → R) :
    (keysWithin keyAt start stop).piecewise x 0 key = if keyAt start ≤ key then x (keyAt start) else 0 := by
  split
  next first =>
    have same : key = keyAt start := by omega
    rw [same]
    exact piecewise_eq_of_mem _ _ _ (mem_keysWithin.mpr ⟨start, le_rfl, some, rfl⟩)
  next later =>
    apply piecewise_eq_of_notMem
    intro member
    obtain ⟨place, from', before, rfl⟩ := mem_keysWithin.mp member
    have := ascending.monotoneOn (show start < length by omega) (show place < length by omega) from'
    omega

theorem piecewise_back (high : keyAt (stop - 1) ≤ key) (x : ℕ → R) :
    (keysWithin keyAt start stop).piecewise x 0 key = if key ≤ keyAt (stop - 1) then x (keyAt (stop - 1)) else 0 := by
  split
  next last =>
    have same : key = keyAt (stop - 1) := by omega
    rw [same]
    exact piecewise_eq_of_mem _ _ _ (mem_keysWithin.mpr ⟨stop - 1, by omega, by omega, rfl⟩)
  next earlier =>
    apply piecewise_eq_of_notMem
    intro member
    obtain ⟨place, from', before, rfl⟩ := mem_keysWithin.mp member
    have := ascending.monotoneOn (show place < length by omega) (show stop - 1 < length by omega) (show place ≤ stop - 1 by omega)
    omega

end

end Windows

section Ends

variable {two : R → R → R} {all : Finset ℕ} {x y : ℕ → R} {keyAt keyAt' : ℕ → ℕ} {length length' start stop start' stop' : ℕ}
  (ascending : StrictMonoOn keyAt (Set.Iio length)) (ascending' : StrictMonoOn keyAt' (Set.Iio length'))
  (zero : two 0 0 = 0) (covers : ∀ place < length, keyAt place ∈ all) (covers' : ∀ place < length', keyAt' place ∈ all)
  (some : start < stop) (inside : stop ≤ length) (some' : start' < stop') (inside' : stop' ≤ length')

include ascending ascending' zero covers covers' some inside some' inside'

-- The smaller first key is taken out, or both where they are equal.
theorem keyedSum_front : keyedSum two all x y (keysWithin keyAt start stop) (keysWithin keyAt' start' stop') =
    two (if keyAt start ≤ keyAt' start' then x (keyAt start) else 0) (if keyAt' start' ≤ keyAt start then y (keyAt' start') else 0) +
      keyedSum two all x y (keysWithin keyAt (start + if keyAt start ≤ keyAt' start' then 1 else 0) stop)
        (keysWithin keyAt' (start' + if keyAt' start' ≤ keyAt start then 1 else 0) stop') := by
  have member : min (keyAt start) (keyAt' start') ∈ all := by
    rcases min_choice (keyAt start) (keyAt' start') with same | same
    · rw [same]
      exact covers start (by omega)
    · rw [same]
      exact covers' start' (by omega)
  rw [keyedSum_erase zero member, erase_front ascending some inside (min_le_left _ _),
    erase_front ascending' some' inside' (min_le_right _ _), piecewise_front ascending some inside (min_le_left _ _),
    piecewise_front ascending' some' inside' (min_le_right _ _)]
  simp only [le_min_iff, le_refl, true_and, and_true]

-- The larger last key is taken out, or both where they are equal.
theorem keyedSum_back : keyedSum two all x y (keysWithin keyAt start stop) (keysWithin keyAt' start' stop') =
    two (if keyAt' (stop' - 1) ≤ keyAt (stop - 1) then x (keyAt (stop - 1)) else 0)
      (if keyAt (stop - 1) ≤ keyAt' (stop' - 1) then y (keyAt' (stop' - 1)) else 0) +
      keyedSum two all x y (keysWithin keyAt start (stop - if keyAt' (stop' - 1) ≤ keyAt (stop - 1) then 1 else 0))
        (keysWithin keyAt' start' (stop' - if keyAt (stop - 1) ≤ keyAt' (stop' - 1) then 1 else 0)) := by
  have member : max (keyAt (stop - 1)) (keyAt' (stop' - 1)) ∈ all := by
    rcases max_choice (keyAt (stop - 1)) (keyAt' (stop' - 1)) with same | same
    · rw [same]
      exact covers (stop - 1) (by omega)
    · rw [same]
      exact covers' (stop' - 1) (by omega)
  rw [keyedSum_erase zero member, erase_back ascending some inside (le_max_left _ _),
    erase_back ascending' some' inside' (le_max_right _ _), piecewise_back ascending some inside (le_max_left _ _),
    piecewise_back ascending' some' inside' (le_max_right _ _)]
  simp only [max_le_iff, le_refl, true_and, and_true]

end Ends

end LoginomDock
