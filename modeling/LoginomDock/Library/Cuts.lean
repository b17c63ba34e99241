import Mathlib.Data.List.InsertIdx
import Mathlib.Data.List.TakeWhile
import Mathlib.Data.List.Sort

/-! A list whose items pass a test up to some place and fail it from there on is cut at that place. -/

namespace LoginomDock.Cuts

open List

variable {α : Type}

def Ordered (passes : α → Bool) (items : List α) : Prop :=
  items.Pairwise fun first second => passes second = true → passes first = true

variable {passes : α → Bool}

theorem Ordered.of_pairwise {R : α → α → Prop} {items : List α} (pairwise : items.Pairwise R)
    (backward : ∀ first second, R first second → passes second = true → passes first = true) : Ordered passes items :=
  pairwise.imp fun {first second} => backward first second

def place (passes : α → Bool) (items : List α) : Nat := (items.takeWhile passes).length

theorem place_le (passes : α → Bool) (items : List α) : place passes items ≤ items.length :=
  (List.takeWhile_prefix passes).length_le

theorem take_place (passes : α → Bool) (items : List α) :
    items.take (place passes items) = items.takeWhile passes :=
  (prefix_iff_eq_take.mp (List.takeWhile_prefix passes)).symm

theorem drop_place (passes : α → Bool) (items : List α) :
    items.drop (place passes items) = items.dropWhile passes := by
  have both : items.takeWhile passes ++ items.dropWhile passes = items := takeWhile_append_dropWhile
  calc items.drop (place passes items)
      = (items.takeWhile passes ++ items.dropWhile passes).drop (place passes items) := by rw [both]
    _ = items.dropWhile passes := drop_left' rfl

variable {item : α}

theorem passes_of_mem_take {items : List α}
    (before : item ∈ items.take (place passes items)) : passes item = true := by
  rw [take_place] at before
  exact mem_takeWhile_imp before

theorem fails_of_mem_drop {passes : α → Bool} {items : List α} (ordered : Ordered passes items) {item : α}
    (after : item ∈ items.drop (place passes items)) : passes item = false := by
  rw [drop_place] at after
  induction items with
  | nil => cases after
  | cons first rest ih =>
    obtain ⟨head, tail⟩ := pairwise_cons.mp ordered
    cases passed : passes first with
    | true =>
      rw [dropWhile_cons_of_pos passed] at after
      exact ih tail after
    | false =>
      rw [dropWhile_cons_of_neg (by simp [passed])] at after
      rcases mem_cons.mp after with rfl | later
      · exact passed
      · cases back : passes item with
        | false => rfl
        | true => exact absurd (head item later back) (by simp [passed])

variable {index : Nat}

section

variable {items : List α}

theorem lt_place_iff (ordered : Ordered passes items)
    (there : items[index]? = some item) : index < place passes items ↔ passes item = true := by
  obtain ⟨inside, rfl⟩ := List.getElem?_eq_some_iff.mp there
  constructor
  · intro before
    exact passes_of_mem_take (mem_take_iff_getElem.mpr ⟨index, by omega, rfl⟩)
  · intro passed
    by_contra after
    have fails := @fails_of_mem_drop _ _ _ ordered items[index]
      (mem_drop_iff_getElem.mpr ⟨index - place passes items, by omega, by congr 1; omega⟩)
    rw [passed] at fails
    cases fails

theorem place_eq (inside : index ≤ items.length)
    (before : ∀ item ∈ items.take index, passes item = true) (fails : ∀ item, items[index]? = some item → passes item = false) :
    place passes items = index := by
  induction items generalizing index with
  | nil =>
    have zero : index = 0 := by simpa using inside
    simp [place, zero]
  | cons first rest ih =>
    cases index with
    | zero => simp [place, fails first rfl]
    | succ index =>
      have passed := before first (by simp)
      have same := @ih index (by simpa using inside) (fun item member => before item (by simp [member]))
        (fun item there => fails item (by simpa using there))
      simp only [place, takeWhile_cons_of_pos passed, length_cons] at same ⊢
      rw [same]

section

variable (ordered : Ordered passes items)

include ordered

theorem filter_eq_take :
    items.filter passes = items.take (place passes items) := by
  have front : (items.take (place passes items)).filter passes = items.take (place passes items) :=
    filter_eq_self.mpr fun _ before => passes_of_mem_take before
  have back : (items.drop (place passes items)).filter passes = [] :=
    filter_eq_nil_iff.mpr fun _ after => by simp [fails_of_mem_drop ordered after]
  conv_lhs => rw [← take_append_drop (place passes items) items]
  rw [filter_append, front, back, append_nil]

theorem filter_not_eq_drop :
    items.filter (fun item => !passes item) = items.drop (place passes items) := by
  have front : (items.take (place passes items)).filter (fun item => !passes item) = [] :=
    filter_eq_nil_iff.mpr fun _ before => by simp [passes_of_mem_take before]
  have back : (items.drop (place passes items)).filter (fun item => !passes item) = items.drop (place passes items) :=
    filter_eq_self.mpr fun _ after => by simp [fails_of_mem_drop ordered after]
  conv_lhs => rw [← take_append_drop (place passes items) items]
  rw [filter_append, front, back, nil_append]

theorem filter_append_filter_not :
    items.filter passes ++ items.filter (fun item => !passes item) = items := by
  rw [filter_eq_take ordered, filter_not_eq_drop ordered, take_append_drop]

theorem filter_not_take (count : Nat) :
    (items.take count).filter (fun item => !passes item) = (items.take count).drop (place passes items) := by
  have cut : place passes (items.take count) = min count (place passes items) := by
    rw [place, ← take_takeWhile, length_take, place]
  rw [filter_not_eq_drop (List.Pairwise.sublist (take_sublist _ _) ordered), cut]
  rcases le_total count (place passes items) with short | long
  · rw [min_eq_left short, drop_eq_nil_of_le (length_take_le _ _),
      drop_eq_nil_of_le ((length_take_le _ _).trans short)]
  · rw [min_eq_right long]

end

end

theorem pairwise_insert {R : α → α → Prop} {before after : List α} (pairwise : (before ++ after).Pairwise R)
    (follows : ∀ other ∈ before, R other item) (precedes : ∀ other ∈ after, R item other) :
    (before ++ item :: after).Pairwise R := by
  rw [pairwise_append] at pairwise ⊢
  obtain ⟨first, second, across⟩ := pairwise
  refine ⟨first, pairwise_cons.mpr ⟨precedes, second⟩, fun other inside more member => ?_⟩
  rcases mem_cons.mp member with rfl | later
  · exact follows other inside
  · exact across other inside more later

theorem insertIdx_eq {items : List α} (inside : index ≤ items.length) (item : α) :
    items.insertIdx index item = items.take index ++ item :: items.drop index := by
  induction index generalizing items with
  | zero => rfl
  | succ index ih =>
    cases items with
    | nil => simp at inside
    | cons first rest =>
      rw [insertIdx_succ_cons, ih (by simpa using inside)]
      rfl

theorem around {items : List α} (there : items[index]? = some item) :
    items = items.take index ++ item :: items.drop (index + 1) := by
  obtain ⟨inside, rfl⟩ := List.getElem?_eq_some_iff.mp there
  rw [← drop_eq_getElem_cons inside, take_append_drop]

theorem around_two {items : List α} {left right : Nat} (before : left < right) {first last : α} (here : items[left]? = some first)
    (there : items[right]? = some last) : items =
      items.take left ++ first :: ((items.drop (left + 1)).take (right - (left + 1)) ++ last :: items.drop (right + 1)) := by
  have later : (items.drop (left + 1))[right - (left + 1)]? = some last := by
    rw [getElem?_drop, Nat.add_sub_cancel' before, there]
  have rest := around later
  rw [drop_drop, show left + 1 + (right - (left + 1) + 1) = right + 1 by omega] at rest
  rw [← rest]
  exact around here

section Ends

variable {β : Type} [LinearOrder β] {items : List β} (sorted : items.Pairwise (· ≤ ·))

include sorted

theorem head?_eq {least : β} (inside : least ∈ items) (below : ∀ item ∈ items, least ≤ item) :
    items.head? = some least := by
  cases items with
  | nil => cases inside
  | cons first rest =>
    rcases mem_cons.mp inside with rfl | later
    · rfl
    · have above := (pairwise_cons.mp sorted).1 least later
      exact congrArg some (le_antisymm above (below first (by simp)))

theorem getLast?_eq {greatest : β} (inside : greatest ∈ items) (above : ∀ item ∈ items, item ≤ greatest) :
    items.getLast? = some greatest := by
  rcases items.eq_nil_or_concat with rfl | ⟨front, last, rfl⟩
  · cases inside
  · rw [concat_eq_append] at sorted inside above ⊢
    rw [getLast?_append, getLast?_singleton]
    rcases mem_append.mp inside with before | same
    · have below := (pairwise_append.mp sorted).2.2 greatest before last (by simp)
      exact congrArg some (le_antisymm (above last (by simp)) below)
    · rw [mem_singleton.mp same]
      rfl

end Ends

end LoginomDock.Cuts
