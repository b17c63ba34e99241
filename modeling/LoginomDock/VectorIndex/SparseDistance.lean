import Mathlib.Algebra.Ring.Defs
import Mathlib.Data.List.GetD
import Mathlib.Tactic.Abel
import LoginomDock.Library.KeyedSums

/-! Two sparse vectors are compared from both ends at once. A read outside a vector gives nothing, and so does an
unsigned cursor below zero. -/

namespace LoginomDock.VectorIndex

open List Nat

structure SparseView (R : Type) where
  indices : List Nat
  values : List R
  paired : values.length = indices.length
  ascending : indices.Pairwise (· < ·)

namespace SparseDistMeasure

variable {R : Type}

def dotProductReduceTwo [Ring R] (acc a b : R) : R := acc + a * b

def squaredL2ReduceTwo [Ring R] (acc a b : R) : R :=
  let diff := a - b
  acc + diff * diff

def squaredL2ReduceOne [Ring R] (acc a : R) : R := acc + a * a

structure UnsignedCursors (R : Type) where
  result : R
  i1Front : Nat
  i2Front : Nat
  i1Back : Nat
  i2Back : Nat

def UnsignedCursors.Apart (cursors : UnsignedCursors R) : Prop := cursors.i1Front < cursors.i1Back ∧ cursors.i2Front < cursors.i2Back

instance (cursors : UnsignedCursors R) : Decidable cursors.Apart := inferInstanceAs (Decidable (_ ∧ _))

-- Unsigned subtraction, nothing below zero
def unsignedSub (number less : Nat) : Option Nat := if less ≤ number then some (number - less) else none

section OnlyReduceTwo

variable (reduceTwo : R → R → R → R) (one other : SparseView R)

def reduceEqual (index1 index2 : Nat) (result : R) (value1 value2 : Option R) : Option R :=
  if index1 = index2 then value1.bind fun a => value2.map (reduceTwo result a) else some result

def unsignedStep (cursors : UnsignedCursors R) : Option (UnsignedCursors R) := do
  let front1 ← one.indices[cursors.i1Front]?
  let front2 ← other.indices[cursors.i2Front]?
  let back1 ← one.indices[cursors.i1Back]?
  let back2 ← other.indices[cursors.i2Back]?
  let fronts ← reduceEqual reduceTwo front1 front2 cursors.result one.values[cursors.i1Front]? other.values[cursors.i2Front]?
  let backs ← reduceEqual reduceTwo back1 back2 fronts one.values[cursors.i1Back]? other.values[cursors.i2Back]?
  let i1Back ← unsignedSub cursors.i1Back (if back2 ≤ back1 then 1 else 0)
  let i2Back ← unsignedSub cursors.i2Back (if back1 ≤ back2 then 1 else 0)
  some {
    result := backs
    i1Front := cursors.i1Front + if front1 ≤ front2 then 1 else 0
    i2Front := cursors.i2Front + if front2 ≤ front1 then 1 else 0
    i1Back := i1Back
    i2Back := i2Back }

def unsignedLoop : Nat → UnsignedCursors R → Option (UnsignedCursors R)
  | 0, cursors => if cursors.Apart then none else some cursors
  | fuel + 1, cursors =>
    if cursors.Apart then (unsignedStep reduceTwo one other cursors).bind (unsignedLoop fuel) else some cursors

def scan (place1 : Nat) : Nat → Nat → R → Option R
  | 0, _, result => some result
  | left + 1, place2, result => do
      let index1 ← one.indices[place1]?
      let index2 ← other.indices[place2]?
      if index1 = index2 then one.values[place1]?.bind fun a => other.values[place2]?.map (reduceTwo result a)
      else scan place1 left (place2 + 1) result

def sparseDistanceMeasureOnlyReduceTwo [Zero R] : Option R :=
  if one.indices.length = 0 ∨ other.indices.length = 0 then some 0
  else
    (unsignedLoop reduceTwo one other (one.indices.length + other.indices.length)
      ⟨0, 0, 0, one.indices.length - 1, other.indices.length - 1⟩).bind fun cursors =>
        if cursors.i1Front = cursors.i1Back then
          scan reduceTwo one other cursors.i1Front (cursors.i2Back + 1 - cursors.i2Front) cursors.i2Front cursors.result
        else if cursors.i2Front = cursors.i2Back then
          scan (fun result b a => reduceTwo result a b) other one cursors.i2Front (cursors.i1Back + 1 - cursors.i1Front)
            cursors.i1Front cursors.result
        else some cursors.result

end OnlyReduceTwo

structure SignedCursors (R : Type) where
  result0 : R
  result1 : R
  i1Front : Int
  i2Front : Int
  i1Back : Int
  i2Back : Int

def SignedCursors.Apart (cursors : SignedCursors R) : Prop := cursors.i1Front < cursors.i1Back ∧ cursors.i2Front < cursors.i2Back

instance (cursors : SignedCursors R) : Decidable cursors.Apart := inferInstanceAs (Decidable (_ ∧ _))

def readAt {α : Type} (array : List α) (place : Int) : Option α := if place < 0 then none else array[place.toNat]?

section ReduceBoth

variable [Zero R] (reduceTwo : R → R → R → R) (reduceOne : R → R → R) (one other : SparseView R)

-- All bits of a value are kept, or none.
def masked (keep : Prop) [Decidable keep] (value : R) : R := if keep then value else 0

def signedStep (cursors : SignedCursors R) : Option (SignedCursors R) := do
  let frontLeft ← readAt one.values cursors.i1Front
  let frontRight ← readAt other.values cursors.i2Front
  let backLeft ← readAt one.values cursors.i1Back
  let backRight ← readAt other.values cursors.i2Back
  let front1 ← readAt one.indices cursors.i1Front
  let front2 ← readAt other.indices cursors.i2Front
  let back1 ← readAt one.indices cursors.i1Back
  let back2 ← readAt other.indices cursors.i2Back
  some {
    result0 := reduceTwo cursors.result0 (masked (front1 ≤ front2) frontLeft) (masked (front2 ≤ front1) frontRight)
    result1 := reduceTwo cursors.result1 (masked (back2 ≤ back1) backLeft) (masked (back1 ≤ back2) backRight)
    i1Front := cursors.i1Front + if front1 ≤ front2 then 1 else 0
    i2Front := cursors.i2Front + if front2 ≤ front1 then 1 else 0
    i1Back := cursors.i1Back - if back2 ≤ back1 then 1 else 0
    i2Back := cursors.i2Back - if back1 ≤ back2 then 1 else 0 }

def signedLoop : Nat → SignedCursors R → Option (SignedCursors R)
  | 0, cursors => if cursors.Apart then none else some cursors
  | fuel + 1, cursors =>
    if cursors.Apart then (signedStep reduceTwo one other cursors).bind (signedLoop fuel) else some cursors

def mergeStep (cursors : SignedCursors R) : Option (SignedCursors R) := do
  let front1 ← readAt one.indices cursors.i1Front
  let front2 ← readAt other.indices cursors.i2Front
  if front1 = front2 then
    let a ← readAt one.values cursors.i1Front
    let b ← readAt other.values cursors.i2Front
    some { cursors with
      result0 := reduceTwo cursors.result0 a b, i1Front := cursors.i1Front + 1, i2Front := cursors.i2Front + 1 }
  else if front1 < front2 then
    let a ← readAt one.values cursors.i1Front
    some { cursors with result0 := reduceOne cursors.result0 a, i1Front := cursors.i1Front + 1 }
  else
    let b ← readAt other.values cursors.i2Front
    some { cursors with result0 := reduceOne cursors.result0 b, i2Front := cursors.i2Front + 1 }

def SignedCursors.Open (cursors : SignedCursors R) : Prop := cursors.i1Front ≤ cursors.i1Back ∧ cursors.i2Front ≤ cursors.i2Back

instance (cursors : SignedCursors R) : Decidable cursors.Open := inferInstanceAs (Decidable (_ ∧ _))

def mergeLoop : Nat → SignedCursors R → Option (SignedCursors R)
  | 0, cursors => if cursors.Open then none else some cursors
  | fuel + 1, cursors =>
    if cursors.Open then (mergeStep reduceTwo reduceOne one other cursors).bind (mergeLoop fuel) else some cursors

def reduceRest (values : List R) : Nat → Int → R → Option R
  | 0, _, result => some result
  | left + 1, place, result => (readAt values place).bind fun a => reduceRest values left (place + 1) (reduceOne result a)

def sparseDistanceMeasure [Add R] : Option R :=
  let fuel := one.indices.length + other.indices.length
  (signedLoop reduceTwo one other fuel ⟨0, 0, 0, 0, one.indices.length - 1, other.indices.length - 1⟩).bind fun cursors =>
    (mergeLoop reduceTwo reduceOne one other fuel cursors).bind fun cursors =>
      let result0 :=
        if cursors.i1Back < cursors.i1Front then
          reduceRest reduceOne other.values (cursors.i2Back + 1 - cursors.i2Front).toNat cursors.i2Front cursors.result0
        else reduceRest reduceOne one.values (cursors.i1Back + 1 - cursors.i1Front).toNat cursors.i1Front cursors.result0
      result0.map fun result0 => result0 + cursors.result1

end ReduceBoth

end SparseDistMeasure

namespace SparseView

variable {R : Type} [Zero R] (view : SparseView R)

def keyAt (place : Nat) : Nat := view.indices.getD place 0

def dense (index : Nat) : R := view.values.getD (view.indices.idxOf index) 0

theorem strictMonoOn_keyAt : StrictMonoOn view.keyAt (Set.Iio view.indices.length) := by
  intro first inside second inside' before
  rw [Set.mem_Iio] at inside inside'
  rw [keyAt, keyAt, getD_eq_getElem _ _ inside, getD_eq_getElem _ _ inside']
  exact pairwise_iff_getElem.mp view.ascending first second inside inside' before

variable {view} {place : Nat} (inside : place < view.indices.length)

include inside

theorem indices_get : view.indices[place]? = some (view.keyAt place) := by
  rw [keyAt, getD_eq_getElem _ _ inside, getElem?_eq_getElem inside]

theorem values_get : view.values[place]? = some (view.dense (view.keyAt place)) := by
  have distinct : view.indices.Nodup := view.ascending.imp Nat.ne_of_lt
  have inside' : place < view.values.length := view.paired.symm ▸ inside
  rw [dense, keyAt, getD_eq_getElem _ _ inside, distinct.idxOf_getElem, getD_eq_getElem _ _ inside',
    getElem?_eq_getElem inside']

theorem keyAt_mem : view.keyAt place ∈ view.indices := by
  rw [keyAt, getD_eq_getElem _ _ inside]
  exact getElem_mem inside

omit inside

variable (view)

-- All keys together have the whole vector.
theorem piecewise_all (index : Nat) : (keysWithin view.keyAt 0 view.indices.length).piecewise view.dense 0 index = view.dense index := by
  by_cases member : index ∈ view.indices
  · apply Finset.piecewise_eq_of_mem
    obtain ⟨place, inside, rfl⟩ := mem_iff_getElem.mp member
    exact mem_keysWithin.mpr ⟨place, Nat.zero_le _, inside, getD_eq_getElem _ _ inside⟩
  · have outside : view.values.length ≤ view.indices.idxOf index := by rw [view.paired, idxOf_eq_length member]
    rw [dense, getD_eq_default _ _ outside]
    apply Finset.piecewise_eq_of_notMem
    intro within
    obtain ⟨place, -, inside, rfl⟩ := mem_keysWithin.mp within
    exact member (keyAt_mem inside)

end SparseView

namespace SparseDistMeasure

section Exact

variable {R : Type} [Ring R] (two : R → R → R) (one other : SparseView R)

def between (start stop start' stop' : Nat) : R :=
  keyedSum two (one.indices.toFinset ∪ other.indices.toFinset) one.dense other.dense (keysWithin one.keyAt start stop)
    (keysWithin other.keyAt start' stop')

variable {two one other}

theorem keyAt_mem_left (place : Nat) (inside : place < one.indices.length) :
    one.keyAt place ∈ one.indices.toFinset ∪ other.indices.toFinset :=
  Finset.mem_union_left _ (mem_toFinset.mpr (SparseView.keyAt_mem inside))

theorem keyAt_mem_right (place : Nat) (inside : place < other.indices.length) :
    other.keyAt place ∈ one.indices.toFinset ∪ other.indices.toFinset :=
  Finset.mem_union_right _ (mem_toFinset.mpr (SparseView.keyAt_mem inside))

theorem between_swap (start stop start' stop' : Nat) : between (fun b a => two a b) other one start' stop' start stop =
    between two one other start stop start' stop' := by
  rw [between, between, Finset.union_comm, keyedSum_swap]

theorem between_empty_left (zeroLeft : ∀ b, two 0 b = 0) {start stop : Nat} (none : stop ≤ start) (start' stop' : Nat) :
    between two one other start stop start' stop' = 0 := by
  rw [between, keysWithin_empty none, keyedSum_empty_left zeroLeft]

theorem between_empty (zero : two 0 0 = 0) {start stop start' stop' : Nat} (none : stop ≤ start) (none' : stop' ≤ start') :
    between two one other start stop start' stop' = 0 := by
  rw [between, keysWithin_empty none, keysWithin_empty none']
  exact Finset.sum_eq_zero fun _ _ => zero

section Windows

variable {start stop start' stop' : Nat} (zero : two 0 0 = 0) (inside : stop ≤ one.indices.length) (inside' : stop' ≤ other.indices.length)

include zero inside inside'

theorem between_front (some' : start < stop) (some'' : start' < stop') : between two one other start stop start' stop' =
    two (if one.keyAt start ≤ other.keyAt start' then one.dense (one.keyAt start) else 0)
      (if other.keyAt start' ≤ one.keyAt start then other.dense (other.keyAt start') else 0) +
      between two one other (start + if one.keyAt start ≤ other.keyAt start' then 1 else 0) stop
        (start' + if other.keyAt start' ≤ one.keyAt start then 1 else 0) stop' :=
  keyedSum_front one.strictMonoOn_keyAt other.strictMonoOn_keyAt zero keyAt_mem_left keyAt_mem_right some' inside some'' inside'

theorem between_back (some' : start < stop) (some'' : start' < stop') : between two one other start stop start' stop' =
    two (if other.keyAt (stop' - 1) ≤ one.keyAt (stop - 1) then one.dense (one.keyAt (stop - 1)) else 0)
      (if one.keyAt (stop - 1) ≤ other.keyAt (stop' - 1) then other.dense (other.keyAt (stop' - 1)) else 0) +
      between two one other start (stop - if other.keyAt (stop' - 1) ≤ one.keyAt (stop - 1) then 1 else 0)
        start' (stop' - if one.keyAt (stop - 1) ≤ other.keyAt (stop' - 1) then 1 else 0) :=
  keyedSum_back one.strictMonoOn_keyAt other.strictMonoOn_keyAt zero keyAt_mem_left keyAt_mem_right some' inside some'' inside'

-- A step takes the smaller first key and the larger last one.
theorem between_step (apart : start + 1 < stop) (apart' : start' + 1 < stop') : between two one other start stop start' stop' =
    two (if one.keyAt start ≤ other.keyAt start' then one.dense (one.keyAt start) else 0)
      (if other.keyAt start' ≤ one.keyAt start then other.dense (other.keyAt start') else 0) +
      (two (if other.keyAt (stop' - 1) ≤ one.keyAt (stop - 1) then one.dense (one.keyAt (stop - 1)) else 0)
        (if one.keyAt (stop - 1) ≤ other.keyAt (stop' - 1) then other.dense (other.keyAt (stop' - 1)) else 0) +
        between two one other (start + if one.keyAt start ≤ other.keyAt start' then 1 else 0)
          (stop - if other.keyAt (stop' - 1) ≤ one.keyAt (stop - 1) then 1 else 0)
          (start' + if other.keyAt start' ≤ one.keyAt start then 1 else 0)
          (stop' - if one.keyAt (stop - 1) ≤ other.keyAt (stop' - 1) then 1 else 0)) := by
  rw [between_front zero inside inside' (by omega) (by omega)]
  congr 1
  apply between_back zero inside inside'
  · split <;> omega
  · split <;> omega

end Windows

theorem reduceEqual_eq (index1 index2 : Nat) (result a b : R) :
    reduceEqual (fun result a b => result + two a b) index1 index2 result (some a) (some b) =
      some (result + if index1 = index2 then two a b else 0) := by
  rw [reduceEqual]
  split
  · rfl
  · rw [add_zero]

variable {i1Front i2Front i1Back i2Back : Nat}

theorem unsignedStep_eq {result : R} (back1 : i1Back < one.indices.length)
    (back2 : i2Back < other.indices.length) (apart1 : i1Front < i1Back) (apart2 : i2Front < i2Back) :
    unsignedStep (fun result a b => result + two a b) one other ⟨result, i1Front, i2Front, i1Back, i2Back⟩ = some {
      result := result +
        (if one.keyAt i1Front = other.keyAt i2Front then two (one.dense (one.keyAt i1Front)) (other.dense (other.keyAt i2Front)) else 0) +
        (if one.keyAt i1Back = other.keyAt i2Back then two (one.dense (one.keyAt i1Back)) (other.dense (other.keyAt i2Back)) else 0)
      i1Front := i1Front + if one.keyAt i1Front ≤ other.keyAt i2Front then 1 else 0
      i2Front := i2Front + if other.keyAt i2Front ≤ one.keyAt i1Front then 1 else 0
      i1Back := i1Back - if other.keyAt i2Back ≤ one.keyAt i1Back then 1 else 0
      i2Back := i2Back - if one.keyAt i1Back ≤ other.keyAt i2Back then 1 else 0 } := by
  have front1 : i1Front < one.indices.length := by omega
  have front2 : i2Front < other.indices.length := by omega
  have sub1 : unsignedSub i1Back (if other.keyAt i2Back ≤ one.keyAt i1Back then 1 else 0) =
      some (i1Back - if other.keyAt i2Back ≤ one.keyAt i1Back then 1 else 0) := if_pos (by split <;> omega)
  have sub2 : unsignedSub i2Back (if one.keyAt i1Back ≤ other.keyAt i2Back then 1 else 0) =
      some (i2Back - if one.keyAt i1Back ≤ other.keyAt i2Back then 1 else 0) := if_pos (by split <;> omega)
  simp only [unsignedStep, SparseView.indices_get front1, SparseView.indices_get front2, SparseView.indices_get back1,
    SparseView.indices_get back2, SparseView.values_get front1, SparseView.values_get front2, SparseView.values_get back1,
    SparseView.values_get back2, Option.bind_eq_bind, Option.bind_some, reduceEqual_eq, sub1, sub2]

section Unsigned

variable (zeroLeft : ∀ b, two 0 b = 0) (zeroRight : ∀ a, two a 0 = 0)

include zeroLeft zeroRight

-- Of two masked values both count only where the indices are equal.
theorem two_masked (index1 index2 : Nat) (a b : R) :
    two (if index1 ≤ index2 then a else 0) (if index2 ≤ index1 then b else 0) = if index1 = index2 then two a b else 0 := by
  rcases Nat.lt_trichotomy index1 index2 with before | same | after
  · rw [if_neg (Nat.not_le.mpr before), zeroRight, if_neg before.ne]
  · simp [same]
  · rw [if_neg (Nat.not_le.mpr after), zeroLeft, if_neg after.ne']

def UnsignedCursors.Total (two : R → R → R) (one other : SparseView R) (total : R) (cursors : UnsignedCursors R) : Prop :=
  cursors.i1Back < one.indices.length ∧ cursors.i2Back < other.indices.length ∧
    cursors.result + between two one other cursors.i1Front (cursors.i1Back + 1) cursors.i2Front (cursors.i2Back + 1) = total

theorem unsignedStep_total {total : R} {cursors : UnsignedCursors R} (holds : cursors.Total two one other total) (apart : cursors.Apart) :
    ∃ after, unsignedStep (fun result a b => result + two a b) one other cursors = some after ∧ after.Total two one other total ∧
      after.i1Back + after.i2Back + cursors.i1Front + cursors.i2Front <
        cursors.i1Back + cursors.i2Back + after.i1Front + after.i2Front := by
  obtain ⟨result, i1Front, i2Front, i1Back, i2Back⟩ := cursors
  obtain ⟨back1, back2, sum⟩ := holds
  obtain ⟨apart1, apart2⟩ := apart
  simp only at back1 back2 sum apart1 apart2
  refine ⟨_, unsignedStep_eq back1 back2 apart1 apart2, ⟨?_, ?_, ?_⟩, ?_⟩
  · simp only
    omega
  · simp only
    omega
  · have step := @between_step _ _ two one other i1Front (i1Back + 1) i2Front (i2Back + 1) (zeroLeft 0) back1 back2 (by omega) (by omega)
    have last1 : i1Back + 1 - (if other.keyAt i2Back ≤ one.keyAt i1Back then 1 else 0) =
        i1Back - (if other.keyAt i2Back ≤ one.keyAt i1Back then 1 else 0) + 1 := by split <;> omega
    have last2 : i2Back + 1 - (if one.keyAt i1Back ≤ other.keyAt i2Back then 1 else 0) =
        i2Back - (if one.keyAt i1Back ≤ other.keyAt i2Back then 1 else 0) + 1 := by split <;> omega
    simp only [Nat.add_sub_cancel, two_masked zeroLeft zeroRight, last1, last2,
      @eq_comm _ (other.keyAt i2Back)] at step
    rw [← sum, step]
    simp only
    abel
  · simp only
    rcases Nat.le_total (one.keyAt i1Front) (other.keyAt i2Front) with before | after
    · rw [if_pos before]
      omega
    · rw [if_pos after]
      omega

theorem unsignedLoop_total {total : R} (fuel : Nat) {cursors : UnsignedCursors R} (holds : cursors.Total two one other total)
    (enough : cursors.i1Back + cursors.i2Back ≤ fuel + cursors.i1Front + cursors.i2Front) :
    ∃ after, unsignedLoop (fun result a b => result + two a b) one other fuel cursors = some after ∧
      after.Total two one other total ∧ ¬ after.Apart := by
  induction fuel generalizing cursors with
  | zero =>
    have closed : ¬ cursors.Apart := by
      rintro ⟨apart1, apart2⟩
      omega
    exact ⟨cursors, if_neg closed, holds, closed⟩
  | succ fuel ih =>
    rw [unsignedLoop]
    split
    next apart =>
      obtain ⟨after, step, holds', less⟩ := unsignedStep_total zeroLeft zeroRight holds apart
      rw [step]
      exact ih holds' (by omega)
    next closed => exact ⟨cursors, rfl, holds, closed⟩

-- The scan finds the one index among those that are left.
theorem scan_eq {place1 : Nat} (inside : place1 < one.indices.length) (left place2 : Nat) (result : R)
    (inside' : place2 + left ≤ other.indices.length) :
    scan (fun result a b => result + two a b) one other place1 left place2 result =
      some (result + between two one other place1 (place1 + 1) place2 (place2 + left)) := by
  induction left generalizing place2 with
  | zero =>
    rw [scan, between, keysWithin_empty (show place2 + 0 ≤ place2 from le_refl _), keyedSum_swap, keyedSum_empty_left zeroRight, add_zero]
  | succ left ih =>
    have here : place2 < other.indices.length := by omega
    have single : keysWithin one.keyAt place1 (place1 + 1) = {one.keyAt place1} := by simp [keysWithin]
    have front := piecewise_front other.strictMonoOn_keyAt (show place2 < place2 + (left + 1) by omega) inside' (le_refl _) other.dense
    have rest := erase_front other.strictMonoOn_keyAt (show place2 < place2 + (left + 1) by omega) inside' (le_refl _)
    rw [if_pos (le_refl _)] at front rest
    have taken := @keyedSum_erase _ _ two _ {one.keyAt place1} (keysWithin other.keyAt place2 (place2 + (left + 1))) one.dense other.dense
      (zeroLeft 0) _ (@keyAt_mem_right _ _ one other place2 here)
    rw [front, rest] at taken
    simp only [scan, SparseView.indices_get inside, SparseView.indices_get here, SparseView.values_get inside,
      SparseView.values_get here, Option.bind_eq_bind, Option.bind_some, Option.map_some]
    rw [between, single, taken]
    split
    next same =>
      rw [← same, Finset.piecewise_eq_of_mem _ _ _ (Finset.mem_singleton_self _), Finset.erase_singleton,
        keyedSum_empty_left zeroLeft, add_zero]
    next different =>
      have absent : other.keyAt place2 ∉ ({one.keyAt place1} : Finset Nat) := by
        rw [Finset.mem_singleton]
        exact fun same => different same.symm
      rw [Finset.piecewise_eq_of_notMem _ _ _ absent, Finset.erase_eq_of_notMem absent, Pi.zero_apply, zeroLeft, zero_add,
        ih (place2 + 1) (by omega), between, single]
      congr 4
      omega

theorem onlyReduceTwo_eq : sparseDistanceMeasureOnlyReduceTwo (fun result a b => result + two a b) one other =
    some (between two one other 0 one.indices.length 0 other.indices.length) := by
  rw [sparseDistanceMeasureOnlyReduceTwo]
  split
  next none =>
    rcases none with none | none
    · rw [none, between_empty_left zeroLeft (le_refl 0)]
    · rw [none, ← between_swap, between_empty_left zeroRight (le_refl 0)]
  next some' =>
    have last1 : one.indices.length - 1 + 1 = one.indices.length := by omega
    have last2 : other.indices.length - 1 + 1 = other.indices.length := by omega
    have start : UnsignedCursors.Total two one other (between two one other 0 one.indices.length 0 other.indices.length)
        ⟨0, 0, 0, one.indices.length - 1, other.indices.length - 1⟩ := by
      refine ⟨by simp only; omega, by simp only; omega, ?_⟩
      simp only [last1, last2, zero_add]
    obtain ⟨⟨result, i1Front, i2Front, i1Back, i2Back⟩, run, ⟨back1, back2, sum⟩, closed⟩ :=
      unsignedLoop_total zeroLeft zeroRight (one.indices.length + other.indices.length) start (by simp only; omega)
    rw [run, Option.bind_some, ← sum]
    simp only [UnsignedCursors.Apart] at back1 back2 closed ⊢
    split
    next same =>
      subst same
      rcases lt_or_ge i2Back i2Front with crossed | left
      · rw [Nat.sub_eq_zero_of_le crossed, scan, ← between_swap, between_empty_left zeroRight crossed, add_zero]
      · rw [scan_eq zeroLeft zeroRight back1 _ _ _ (by omega), show i2Front + (i2Back + 1 - i2Front) = i2Back + 1 by omega]
    next =>
      split
      next same =>
        subst same
        rcases lt_or_ge i1Back i1Front with crossed | left
        · rw [Nat.sub_eq_zero_of_le crossed, scan, between_empty_left zeroLeft crossed, add_zero]
        · rw [scan_eq zeroRight zeroLeft back2 _ _ _ (by omega), between_swap,
            show i1Front + (i1Back + 1 - i1Front) = i1Back + 1 by omega]
      next =>
        rcases lt_or_ge i1Back i1Front with crossed | left
        · rw [between_empty_left zeroLeft crossed, add_zero]
        · rw [← between_swap, between_empty_left zeroRight (by omega), add_zero]

end Unsigned

theorem readAt_natCast {α : Type} (array : List α) (place : Nat) : readAt array (place : Int) = array[place]? := by
  rw [readAt, if_neg (by omega), Int.toNat_natCast]

theorem signedStep_eq {result0 result1 : R} (back1 : i1Back < one.indices.length)
    (back2 : i2Back < other.indices.length) (apart1 : i1Front < i1Back) (apart2 : i2Front < i2Back) :
    signedStep (fun result a b => result + two a b) one other ⟨result0, result1, i1Front, i2Front, i1Back, i2Back⟩ = some {
      result0 := result0 +
        two (if one.keyAt i1Front ≤ other.keyAt i2Front then one.dense (one.keyAt i1Front) else 0)
          (if other.keyAt i2Front ≤ one.keyAt i1Front then other.dense (other.keyAt i2Front) else 0)
      result1 := result1 +
        two (if other.keyAt i2Back ≤ one.keyAt i1Back then one.dense (one.keyAt i1Back) else 0)
          (if one.keyAt i1Back ≤ other.keyAt i2Back then other.dense (other.keyAt i2Back) else 0)
      i1Front := i1Front + if one.keyAt i1Front ≤ other.keyAt i2Front then 1 else 0
      i2Front := i2Front + if other.keyAt i2Front ≤ one.keyAt i1Front then 1 else 0
      i1Back := i1Back - if other.keyAt i2Back ≤ one.keyAt i1Back then 1 else 0
      i2Back := i2Back - if one.keyAt i1Back ≤ other.keyAt i2Back then 1 else 0 } := by
  have front1 : i1Front < one.indices.length := by omega
  have front2 : i2Front < other.indices.length := by omega
  simp only [signedStep, readAt_natCast, SparseView.indices_get front1, SparseView.indices_get front2, SparseView.indices_get back1,
    SparseView.indices_get back2, SparseView.values_get front1, SparseView.values_get front2, SparseView.values_get back1,
    SparseView.values_get back2, Option.bind_eq_bind, Option.bind_some, masked]

-- The cursors around what remains, and what they have reduced
structure SignedCursors.Total (two : R → R → R) (one other : SparseView R) (total : R) (cursors : SignedCursors R)
    (start stop start' stop' : Nat) : Prop where
  front1 : cursors.i1Front = start
  back1 : cursors.i1Back = stop - 1
  front2 : cursors.i2Front = start'
  back2 : cursors.i2Back = stop' - 1
  inside1 : stop ≤ one.indices.length
  inside2 : stop' ≤ other.indices.length
  sum : cursors.result0 + cursors.result1 + between two one other start stop start' stop' = total

section Signed

variable {single : R → R} (left : ∀ a, two a 0 = single a) (right : ∀ b, two 0 b = single b) (zero : single 0 = 0) {total : R}

theorem reduceRest_eq (right : ∀ b, two 0 b = single b) (zero : single 0 = 0) {start stop : Nat} (none : stop ≤ start) (left start' : Nat)
    (result : R) (inside : start' + left ≤ other.indices.length) :
    reduceRest (fun result a => result + single a) other.values left (start' : Int) result =
      some (result + between two one other start stop start' (start' + left)) := by
  have twoZero : two 0 0 = 0 := (right 0).trans zero
  induction left generalizing start' result with
  | zero => rw [reduceRest, between_empty twoZero none (show start' + 0 ≤ start' from le_refl _), add_zero]
  | succ left ih =>
    have here : start' < other.indices.length := by omega
    have front := piecewise_front other.strictMonoOn_keyAt (show start' < start' + (left + 1) by omega) inside (le_refl _) other.dense
    have rest := erase_front other.strictMonoOn_keyAt (show start' < start' + (left + 1) by omega) inside (le_refl _)
    rw [if_pos (le_refl _)] at front rest
    have taken := @keyedSum_erase _ _ two _ ∅ (keysWithin other.keyAt start' (start' + (left + 1))) one.dense other.dense
      twoZero _ (@keyAt_mem_right _ _ one other start' here)
    rw [front, rest, Finset.erase_empty, Finset.piecewise_empty, Pi.zero_apply, right] at taken
    have next := ih (start' + 1) (result + single (other.dense (other.keyAt start'))) (by omega)
    rw [Nat.cast_add, Nat.cast_one, show start' + 1 + left = start' + (left + 1) by omega, between, keysWithin_empty none] at next
    rw [reduceRest, readAt_natCast, SparseView.values_get here, Option.bind_some, next, between, keysWithin_empty none, taken, add_assoc]

theorem reduceRest_between (right : ∀ b, two 0 b = single b) (zero : single 0 = 0) {start stop : Nat} (none : stop ≤ start)
    (start' : Nat) {stop' : Nat} (inside : stop' ≤ other.indices.length) (result : R) :
    reduceRest (fun result a => result + single a) other.values (stop' - 1 + 1 - start' : Int).toNat (start' : Int) result =
      some (result + between two one other start stop start' stop') := by
  have count : (stop' - 1 + 1 - start' : Int).toNat = stop' - start' := by omega
  rw [count]
  rcases Nat.le_total stop' start' with crossed | before
  · rw [Nat.sub_eq_zero_of_le crossed, reduceRest, between_empty ((right 0).trans zero) none crossed, add_zero]
  · rw [reduceRest_eq right zero none _ _ _ (by omega), Nat.add_sub_cancel' before]

include right zero

variable {cursors : SignedCursors R}

theorem signedStep_total {start stop start' stop' : Nat}
    (holds : cursors.Total two one other total start stop start' stop') (apart : cursors.Apart) :
    ∃ after low high low' high', signedStep (fun result a b => result + two a b) one other cursors = some after ∧
      after.Total two one other total low high low' high' ∧ high + high' + start + start' < stop + stop' + low + low' := by
  obtain ⟨result0, result1, i1Front, i2Front, i1Back, i2Back⟩ := cursors
  obtain ⟨front1, back1, front2, back2, inside1, inside2, sum⟩ := holds
  obtain ⟨apart1, apart2⟩ := apart
  simp only at front1 back1 front2 back2 sum apart1 apart2
  obtain ⟨last, rfl⟩ : ∃ last, stop = last + 1 := ⟨stop - 1, by omega⟩
  obtain ⟨last', rfl⟩ : ∃ last', stop' = last' + 1 := ⟨stop' - 1, by omega⟩
  obtain rfl : i1Back = (last : Int) := by omega
  obtain rfl : i2Back = (last' : Int) := by omega
  subst front1 front2
  have twoZero : two 0 0 = 0 := (right 0).trans zero
  have step := @between_step _ _ two one other start (last + 1) start' (last' + 1) twoZero inside1 inside2 (by omega) (by omega)
  simp only [Nat.add_sub_cancel] at step
  refine ⟨_, start + if one.keyAt start ≤ other.keyAt start' then 1 else 0,
    last + 1 - if other.keyAt last' ≤ one.keyAt last then 1 else 0,
    start' + if other.keyAt start' ≤ one.keyAt start then 1 else 0,
    last' + 1 - if one.keyAt last ≤ other.keyAt last' then 1 else 0,
    signedStep_eq inside1 inside2 (by omega) (by omega), ⟨?_, ?_, ?_, ?_, by omega, by omega, ?_⟩, ?_⟩
  · simp only
    split <;> omega
  · simp only
    split <;> omega
  · simp only
    split <;> omega
  · simp only
    split <;> omega
  · rw [← sum, step]
    simp only
    abel
  · rcases Nat.le_total (one.keyAt start) (other.keyAt start') with before | after
    · rw [if_pos before]
      omega
    · rw [if_pos after]
      omega

theorem signedLoop_total (fuel : Nat) {start stop start' stop' : Nat}
    (holds : cursors.Total two one other total start stop start' stop') (enough : stop + stop' ≤ fuel + start + start') :
    ∃ after low high low' high', signedLoop (fun result a b => result + two a b) one other fuel cursors = some after ∧
      after.Total two one other total low high low' high' ∧ high + high' + start + start' ≤ stop + stop' + low + low' := by
  induction fuel generalizing cursors start stop start' stop' with
  | zero =>
    have closed : ¬ cursors.Apart := by
      rintro ⟨apart1, apart2⟩
      rw [holds.front1, holds.back1] at apart1
      rw [holds.front2, holds.back2] at apart2
      omega
    exact ⟨cursors, start, stop, start', stop', if_neg closed, holds, by omega⟩
  | succ fuel ih =>
    rw [signedLoop]
    split
    next apart =>
      obtain ⟨after, low, high, low', high', step, holds', less⟩ := signedStep_total right zero holds apart
      rw [step]
      obtain ⟨last, low2, high2, low2', high2', run, holds2, less2⟩ := ih holds' (by omega)
      exact ⟨last, low2, high2, low2', high2', run, holds2, by omega⟩
    next closed => exact ⟨cursors, start, stop, start', stop', rfl, holds, by omega⟩

include left

theorem mergeStep_total {start stop start' stop' : Nat}
    (holds : cursors.Total two one other total start stop start' stop') (isOpen : cursors.Open) :
    ∃ after low low', mergeStep (fun result a b => result + two a b) (fun result a => result + single a) one other cursors = some after ∧
      after.Total two one other total low stop low' stop' ∧ start + start' < low + low' ∧ low ≤ stop ∧ low' ≤ stop' := by
  obtain ⟨result0, result1, i1Front, i2Front, i1Back, i2Back⟩ := cursors
  obtain ⟨front1, back1, front2, back2, inside1, inside2, sum⟩ := holds
  obtain ⟨open1, open2⟩ := isOpen
  simp only at front1 back1 front2 back2 sum open1 open2
  subst front1 front2
  have twoZero : two 0 0 = 0 := (right 0).trans zero
  have here : start < one.indices.length := by omega
  have here' : start' < other.indices.length := by omega
  have front := @between_front _ _ two one other start stop start' stop' twoZero inside1 inside2 (by omega) (by omega)
  simp only [mergeStep, readAt_natCast, SparseView.indices_get here, SparseView.indices_get here', SparseView.values_get here,
    SparseView.values_get here', Option.bind_eq_bind, Option.bind_some]
  rcases Nat.lt_trichotomy (one.keyAt start) (other.keyAt start') with before | same | after
  · rw [if_neg before.ne, if_pos before]
    rw [if_pos before.le, if_neg (Nat.not_le.mpr before), if_pos before.le, if_neg (Nat.not_le.mpr before), left] at front
    refine ⟨_, start + 1, start', rfl, ⟨by push_cast; rfl, back1, rfl, back2, inside1, inside2, ?_⟩, by omega, by omega, by omega⟩
    rw [← sum, front]
    simp only [Nat.add_zero]
    abel
  · rw [if_pos same]
    rw [if_pos same.le, if_pos same.ge, if_pos same.le, if_pos same.ge] at front
    refine ⟨_, start + 1, start' + 1, rfl, ⟨by push_cast; rfl, back1, by push_cast; rfl, back2, inside1, inside2, ?_⟩,
      by omega, by omega, by omega⟩
    rw [← sum, front]
    simp only
    abel
  · rw [if_neg after.ne', if_neg after.not_gt]
    rw [if_neg (Nat.not_le.mpr after), if_pos after.le, if_neg (Nat.not_le.mpr after), if_pos after.le, right] at front
    refine ⟨_, start, start' + 1, rfl, ⟨rfl, back1, by push_cast; rfl, back2, inside1, inside2, ?_⟩, by omega, by omega, by omega⟩
    rw [← sum, front]
    simp only [Nat.add_zero]
    abel

theorem mergeLoop_total (fuel : Nat) {start stop start' stop' : Nat}
    (holds : cursors.Total two one other total start stop start' stop') (enough : stop + stop' ≤ fuel + start + start') :
    ∃ after low low', mergeLoop (fun result a b => result + two a b) (fun result a => result + single a) one other fuel cursors =
      some after ∧ after.Total two one other total low stop low' stop' ∧ ¬ after.Open := by
  induction fuel generalizing cursors start start' with
  | zero =>
    have closed : ¬ cursors.Open := by
      rintro ⟨open1, open2⟩
      rw [holds.front1, holds.back1] at open1
      rw [holds.front2, holds.back2] at open2
      omega
    exact ⟨cursors, start, start', if_neg closed, holds, closed⟩
  | succ fuel ih =>
    rw [mergeLoop]
    split
    next isOpen =>
      obtain ⟨after, low, low', step, holds', more, -, -⟩ := mergeStep_total left right zero holds isOpen
      rw [step]
      exact ih holds' (by omega)
    next closed => exact ⟨cursors, start, start', rfl, holds, closed⟩

theorem sparseDistanceMeasure_eq :
    sparseDistanceMeasure (fun result a b => result + two a b) (fun result a => result + single a) one other =
      some (between two one other 0 one.indices.length 0 other.indices.length) := by
  have whole : SignedCursors.Total two one other (between two one other 0 one.indices.length 0 other.indices.length)
      ⟨0, 0, 0, 0, one.indices.length - 1, other.indices.length - 1⟩ 0 one.indices.length 0 other.indices.length := by
    refine ⟨rfl, rfl, rfl, rfl, le_refl _, le_refl _, ?_⟩
    simp only [zero_add]
  obtain ⟨between', low, high, low', high', apart, holds, -⟩ :=
    signedLoop_total right zero (one.indices.length + other.indices.length) whole (by omega)
  have inside := holds.inside1
  have inside' := holds.inside2
  obtain ⟨last, start, start', merged, holds, closed⟩ :=
    mergeLoop_total left right zero (one.indices.length + other.indices.length) holds (by omega)
  obtain ⟨result0, result1, i1Front, i2Front, i1Back, i2Back⟩ := last
  obtain ⟨front1, back1, front2, back2, -, -, sum⟩ := holds
  simp only [SignedCursors.Open] at front1 back1 front2 back2 sum closed
  rw [sparseDistanceMeasure]
  simp only [apart, merged, Option.bind_some]
  subst front1 front2 back1 back2
  split
  next ended =>
    rw [reduceRest_between right zero (show high ≤ start by omega) start' inside' result0, Option.map_some, ← sum]
    congr 1
    abel
  next =>
    have rest := @reduceRest_between _ _ (fun b a => two a b) other one single left zero start' high' (by omega) start high inside result0
    rw [rest, between_swap, Option.map_some, ← sum]
    congr 1
    abel

end Signed

theorem between_all (two : R → R → R) (one other : SparseView R) :
    between two one other 0 one.indices.length 0 other.indices.length =
      ∑ index ∈ one.indices.toFinset ∪ other.indices.toFinset, two (one.dense index) (other.dense index) := by
  rw [between, keyedSum]
  apply Finset.sum_congr rfl
  intro index _
  rw [SparseView.piecewise_all, SparseView.piecewise_all]

/-- Both distances are those of the vectors, and neither reads outside of them. -/
theorem sparse_distances_exact (one other : SparseView R) :
    sparseDistanceMeasureOnlyReduceTwo dotProductReduceTwo one other =
      some (∑ index ∈ one.indices.toFinset ∪ other.indices.toFinset, one.dense index * other.dense index) ∧
    sparseDistanceMeasure squaredL2ReduceTwo squaredL2ReduceOne one other =
      some (∑ index ∈ one.indices.toFinset ∪ other.indices.toFinset,
        (one.dense index - other.dense index) * (one.dense index - other.dense index)) := by
  constructor
  · rw [← between_all (fun a b => a * b)]
    exact onlyReduceTwo_eq zero_mul mul_zero
  · rw [← between_all (fun a b => (a - b) * (a - b))]
    exact @sparseDistanceMeasure_eq _ _ _ one other (fun a => a * a) (by simp) (by simp) (by simp)

end Exact

end SparseDistMeasure

end LoginomDock.VectorIndex
