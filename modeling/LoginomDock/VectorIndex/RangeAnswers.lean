import Mathlib.Data.Finset.Lattice.Lemmas
import LoginomDock.VectorIndex.RangedValues

namespace LoginomDock.VectorIndex

open List Cuts RangedMap

variable {α : Type} [LinearOrder α]

def Downward (passes : α → Bool) : Prop := ∀ first second, first ≤ second → passes second = true → passes first = true

def isBelow (greaterThan : α) (includeGe : Bool) (value : α) : Bool :=
  if includeGe then decide (value < greaterThan) else decide (value ≤ greaterThan)

-- Not above the upper bound
def isUpTo (lowerThan : α) (includeLe : Bool) (value : α) : Bool :=
  if includeLe then decide (value ≤ lowerThan) else decide (value < lowerThan)

section

variable (bound : α) (include' : Bool)

include bound include'

theorem isBelow_not : isBelow bound (!include') = isUpTo bound include' := by
  cases include' <;> rfl

theorem isUpTo_not : isUpTo bound (!include') = isBelow bound include' := by
  cases include' <;> rfl

theorem downward_isUpTo : Downward (isUpTo bound include') := by
  intro first second ordered passed
  cases include' <;> simp only [isUpTo, if_true, Bool.false_eq_true, if_false, decide_eq_true_eq] at passed ⊢ <;> order

theorem downward_isBelow : Downward (isBelow bound include') := by
  rw [← isUpTo_not]
  exact downward_isUpTo bound _

end

namespace Slot

variable {slot : Slot α}

theorem Valid.rightBorder (valid : slot.Valid) (lowerThan : α) (includeLe : Bool) : slot.getRightBorder lowerThan includeLe =
    Cuts.place (fun entry => isUpTo lowerThan includeLe entry.1) slot.entries := by
  cases includeLe
  · exact lowerBound_eq valid lowerThan
  · exact upperBound_eq valid lowerThan

theorem Valid.leftBorder (valid : slot.Valid) (greaterThan : α) (includeGe : Bool) : slot.getLeftBorder greaterThan includeGe =
    Cuts.place (fun entry => isBelow greaterThan includeGe entry.1) slot.entries := by
  cases includeGe
  · exact upperBound_eq valid greaterThan
  · exact lowerBound_eq valid greaterThan

end Slot

namespace RangedMap

variable {map : RangedMap α}

theorem findLeftSlotIndex_eq (valid : map.Valid) (greaterThan : α) (includeGe : Bool) :
    map.findLeftSlotIndex greaterThan includeGe = Cuts.place (fun slot => isBelow greaterThan includeGe slot.right) map.slots := by
  cases includeGe
  · exact slotUpperBoundIdx_eq valid greaterThan
  · exact slotLowerBoundIdx_eq valid greaterThan

section

variable {passes : α → Bool} (valid : map.Valid) (downward : Downward passes)

include valid downward

theorem ordered_right :
    Ordered (fun slot => passes slot.right) map.slots := by
  refine valid.borders.imp_of_mem fun {first second} _ inSecond side passed => ?_
  exact downward _ _ (side.trans (valid.left_le_right inSecond)) passed

theorem ordered_left :
    Ordered (fun slot => passes slot.left) map.slots := by
  refine valid.borders.imp_of_mem fun {first second} inFirst _ side passed => ?_
  exact downward _ _ ((valid.left_le_right inFirst).trans side) passed

theorem place_right_le_left :
    Cuts.place (fun slot => passes slot.right) map.slots ≤ Cuts.place (fun slot => passes slot.left) map.slots ∧
      Cuts.place (fun slot => passes slot.left) map.slots ≤ Cuts.place (fun slot => passes slot.right) map.slots + 1 := by
  have byRight := ordered_right valid downward
  have byLeft := ordered_left valid downward
  have rightInside := Cuts.place_le (fun slot => passes slot.right) map.slots
  have leftInside := Cuts.place_le (fun slot => passes slot.left) map.slots
  constructor
  · by_contra beyond
    -- the first slot whose left border fails has a right border that passes
    have there := getElem?_eq_getElem (show Cuts.place (fun slot => passes slot.left) map.slots < map.slots.length by omega)
    have passed := (lt_place_iff byRight there).mp (by omega)
    have left := downward _ _ (valid.left_le_right (mem_of_getElem? there)) passed
    exact absurd ((lt_place_iff byLeft there).mpr left) (lt_irrefl _)
  · by_contra beyond
    have first := getElem?_eq_getElem (show Cuts.place (fun slot => passes slot.right) map.slots < map.slots.length by omega)
    have second := getElem?_eq_getElem
      (show Cuts.place (fun slot => passes slot.right) map.slots + 1 < map.slots.length by omega)
    have passed := (lt_place_iff byLeft second).mp (by omega)
    have side := pairwise_iff_getElem.mp valid.borders _ _ (by omega) (by omega)
      (Nat.lt_succ_self (Cuts.place (fun slot => passes slot.right) map.slots))
    exact absurd ((lt_place_iff byRight first).mpr (downward _ _ side passed)) (lt_irrefl _)

end

-- The search goes by the right borders and may step back; it ends before the cut by the left borders.
theorem findRightSlotIndex_eq (valid : map.Valid) (filled : map.slots ≠ []) (lowerThan : α) (includeLe : Bool) :
    map.findRightSlotIndex lowerThan includeLe =
      (Cuts.place (fun slot => isUpTo lowerThan includeLe slot.left) map.slots : Int) - 1 := by
  have downward := downward_isUpTo lowerThan includeLe
  have some' : 0 < map.slots.length := length_pos_iff.mpr filled
  obtain ⟨least, most⟩ := place_right_le_left valid downward
  have inside := Cuts.place_le (fun slot => isUpTo lowerThan includeLe slot.left) map.slots
  have search : (if includeLe then map.slotUpperBoundIdx lowerThan else map.slotLowerBoundIdx lowerThan) =
      Cuts.place (fun slot => isUpTo lowerThan includeLe slot.right) map.slots := by
    cases includeLe
    · exact slotLowerBoundIdx_eq valid lowerThan
    · exact slotUpperBoundIdx_eq valid lowerThan
  rw [findRightSlotIndex, search]
  generalize Cuts.place (fun slot => isUpTo lowerThan includeLe slot.right) map.slots = right at least most
  obtain ⟨slot, there⟩ : ∃ slot, map.slots[min right (map.slots.length - 1)]? = some slot :=
    ⟨_, getElem?_eq_getElem (by omega)⟩
  have cut := lt_place_iff (ordered_left valid downward) there
  generalize Cuts.place (fun slot => isUpTo lowerThan includeLe slot.left) map.slots = left at least most inside cut
  simp only [there]
  have step : (if includeLe then lowerThan < slot.left else lowerThan ≤ slot.left) ↔ ¬ isUpTo lowerThan includeLe slot.left := by
    cases includeLe <;> simp [isUpTo]
  rw [if_congr step rfl rfl]
  split
  next failed =>
    rw [← cut] at failed
    omega
  next passed =>
    rw [not_not, ← cut] at passed
    omega

section Parts

variable {passes : α → Bool} (valid : map.Valid) (downward : Downward passes)

include valid downward

theorem ordered_entries : Ordered (fun entry : α × Nat => passes entry.1) map.entries :=
  Ordered.of_pairwise valid.ordered fun _ _ below => downward _ _ below

section

variable {slot : Slot α} (inside : slot ∈ map.slots)

include inside

theorem ordered_slot :
    Ordered (fun entry : α × Nat => passes entry.1) slot.entries :=
  Ordered.of_pairwise (valid.slot_ordered inside) fun _ _ below => downward _ _ below

theorem entries_pass (passed : passes slot.right = true) :
    ∀ entry ∈ slot.entries, passes entry.1 = true :=
  fun entry member => downward _ _ ((valid.between inside).1 entry member).2 passed

theorem entries_fail (failed : passes slot.left = false) :
    ∀ entry ∈ slot.entries, passes entry.1 = false := by
  intro entry member
  by_contra passed
  rw [Bool.not_eq_false] at passed
  exact absurd (downward _ _ ((valid.between inside).1 entry member).1 passed) (by simp [failed])

end

theorem take_pass : ∀ entry ∈ (map.slots.take (Cuts.place (fun slot => passes slot.right) map.slots)).flatMap Slot.entries,
    passes entry.1 = true := by
  intro entry member
  obtain ⟨slot, early, within⟩ := mem_flatMap.mp member
  have passed := passes_of_mem_take early
  exact entries_pass valid downward (mem_of_mem_take early) passed entry within

theorem drop_fail : ∀ entry ∈ (map.slots.drop (Cuts.place (fun slot => passes slot.right) map.slots + 1)).flatMap Slot.entries,
    passes entry.1 = false := by
  intro entry member
  obtain ⟨slot, late, within⟩ := mem_flatMap.mp member
  have beyond : slot ∈ map.slots.drop (Cuts.place (fun slot => passes slot.left) map.slots) :=
    (drop_subset_drop_left _ (place_right_le_left valid downward).2) late
  exact entries_fail valid downward (mem_of_mem_drop late) (Cuts.fails_of_mem_drop (ordered_left valid downward) beyond)
    entry within

theorem filter_below : map.entries.filter (fun entry => passes entry.1) =
    (map.slots.take (Cuts.place (fun slot => passes slot.right) map.slots)).flatMap Slot.entries ++
      ((map.slots[Cuts.place (fun slot => passes slot.right) map.slots]?).map fun slot =>
        slot.entries.take (Cuts.place (fun entry => passes entry.1) slot.entries)).getD [] := by
  have front := take_pass valid downward
  have back := drop_fail valid downward
  generalize Cuts.place (fun slot => passes slot.right) map.slots = index at front back
  cases there : map.slots[index]? with
  | none =>
    rw [take_of_length_le (List.getElem?_eq_none_iff.mp there)] at front ⊢
    rw [Option.map_none, Option.getD_none, append_nil]
    exact filter_eq_self.mpr front
  | some slot =>
    have cut := Cuts.filter_eq_take (ordered_slot valid downward (mem_of_getElem? there))
    rw [Option.map_some, Option.getD_some, entries]
    conv_lhs => rw [Cuts.around there, flatMap_append, flatMap_cons, filter_append, filter_append]
    rw [filter_eq_self.mpr front, cut, filter_eq_nil_iff.mpr fun entry member => by simp [back entry member],
      append_nil]

theorem take_pass_left {index : Nat} (cutAt : Cuts.place (fun slot => passes slot.left) map.slots = index + 1) :
    ∀ entry ∈ (map.slots.take index).flatMap Slot.entries, passes entry.1 = true := by
  intro entry member
  refine take_pass valid downward entry (mem_flatMap.mpr ?_)
  obtain ⟨slot, early, within⟩ := mem_flatMap.mp member
  have reach := (place_right_le_left valid downward).2
  exact ⟨slot, take_subset_take_left _ (by omega) early, within⟩

theorem drop_fail_left : ∀ entry ∈ (map.slots.drop (Cuts.place (fun slot => passes slot.left) map.slots)).flatMap Slot.entries,
    passes entry.1 = false := by
  intro entry member
  obtain ⟨slot, late, within⟩ := mem_flatMap.mp member
  exact entries_fail valid downward (mem_of_mem_drop late) (Cuts.fails_of_mem_drop (ordered_left valid downward) late)
    entry within

theorem filter_above {index : Nat} (cutAt : Cuts.place (fun slot => passes slot.left) map.slots = index + 1) {slot : Slot α}
    (there : map.slots[index]? = some slot) : map.entries.filter (fun entry => !passes entry.1) =
    slot.entries.drop (Cuts.place (fun entry => passes entry.1) slot.entries) ++ (map.slots.drop (index + 1)).flatMap Slot.entries := by
  have cut := Cuts.filter_not_eq_drop (ordered_slot valid downward (mem_of_getElem? there))
  have front := take_pass_left valid downward cutAt
  have back := drop_fail_left valid downward
  rw [cutAt] at back
  rw [entries]
  conv_lhs => rw [Cuts.around there, flatMap_append, flatMap_cons, filter_append, filter_append]
  rw [filter_eq_nil_iff.mpr fun entry member => by simp [front entry member], cut,
    filter_eq_self.mpr fun entry member => by simp [back entry member], nil_append]

theorem filter_above_all (cutAt : Cuts.place (fun slot => passes slot.left) map.slots = 0) :
    map.entries.filter (fun entry => !passes entry.1) = map.entries := by
  have back := drop_fail_left valid downward
  rw [cutAt] at back
  exact filter_eq_self.mpr fun entry member => by simp [back entry member]

end Parts

structure Around (map : RangedMap α) (low high : α → Bool) (left right : Nat) : Prop where
  beforeLeft : ∀ entry ∈ (map.slots.take left).flatMap Slot.entries, low entry.1 = true
  afterLeft : ∀ entry ∈ (map.slots.drop (left + 1)).flatMap Slot.entries, low entry.1 = false
  beforeRight : ∀ entry ∈ (map.slots.take right).flatMap Slot.entries, high entry.1 = true
  afterRight : ∀ entry ∈ (map.slots.drop (right + 1)).flatMap Slot.entries, high entry.1 = false

namespace Around

variable {low high : α → Bool} {left right : Nat} {first last : Slot α}

omit [LinearOrder α] in
theorem front (around : map.Around low high left right) :
    ((map.slots.take left).flatMap Slot.entries).filter (fun entry => !low entry.1 && high entry.1) = [] :=
  filter_eq_nil_iff.mpr fun entry member => by simp [around.beforeLeft entry member]

omit [LinearOrder α] in
theorem back (around : map.Around low high left right) :
    ((map.slots.drop (right + 1)).flatMap Slot.entries).filter (fun entry => !low entry.1 && high entry.1) = [] :=
  filter_eq_nil_iff.mpr fun entry member => by simp [around.afterRight entry member]

omit [LinearOrder α] in
theorem within_apart (around : map.Around low high left right) (before : left < right) (here : map.slots[left]? = some first)
    (there : map.slots[right]? = some last) (lowCut : Ordered (fun entry : α × Nat => low entry.1) first.entries)
    (highCut : Ordered (fun entry : α × Nat => high entry.1) last.entries) :
    (map.entries.filter fun entry => !low entry.1 && high entry.1) =
      first.entries.drop (Cuts.place (fun entry => low entry.1) first.entries) ++
        (((map.slots.drop (left + 1)).take (right - (left + 1))).flatMap Slot.entries ++
          last.entries.take (Cuts.place (fun entry => high entry.1) last.entries)) := by
  have atLeft : first.entries.filter (fun entry => !low entry.1 && high entry.1) =
      first.entries.drop (Cuts.place (fun entry => low entry.1) first.entries) := by
    have early : first ∈ map.slots.take right := mem_of_getElem? ((getElem?_take_of_lt before).trans here)
    rw [← Cuts.filter_not_eq_drop lowCut]
    exact filter_congr fun entry within => by simp [around.beforeRight entry (mem_flatMap.mpr ⟨first, early, within⟩)]
  have atRight : last.entries.filter (fun entry => !low entry.1 && high entry.1) =
      last.entries.take (Cuts.place (fun entry => high entry.1) last.entries) := by
    have late : last ∈ map.slots.drop (left + 1) :=
      mem_of_getElem? (i := right - (left + 1)) (by rw [getElem?_drop, Nat.add_sub_cancel' before, there])
    rw [← Cuts.filter_eq_take highCut]
    exact filter_congr fun entry within => by simp [around.afterLeft entry (mem_flatMap.mpr ⟨last, late, within⟩)]
  have middle : (((map.slots.drop (left + 1)).take (right - (left + 1))).flatMap Slot.entries).filter
      (fun entry => !low entry.1 && high entry.1) =
        ((map.slots.drop (left + 1)).take (right - (left + 1))).flatMap Slot.entries := by
    refine filter_eq_self.mpr fun entry member => ?_
    obtain ⟨slot, inside, within⟩ := mem_flatMap.mp member
    have late := around.afterLeft entry (mem_flatMap.mpr ⟨slot, mem_of_mem_take inside, within⟩)
    rw [← drop_take] at inside
    simp [late, around.beforeRight entry (mem_flatMap.mpr ⟨slot, mem_of_mem_drop inside, within⟩)]
  rw [entries]
  conv_lhs => rw [around_two before here there]
  simp only [flatMap_append, flatMap_cons, filter_append, around.front, around.back, atLeft, atRight, middle, nil_append,
    append_nil]

omit [LinearOrder α] in
theorem within_same (around : map.Around low high left left) (here : map.slots[left]? = some first)
    (lowCut : Ordered (fun entry : α × Nat => low entry.1) first.entries)
    (highCut : Ordered (fun entry : α × Nat => high entry.1) first.entries) :
    (map.entries.filter fun entry => !low entry.1 && high entry.1) =
      (first.entries.take (Cuts.place (fun entry => high entry.1) first.entries)).drop
        (Cuts.place (fun entry => low entry.1) first.entries) := by
  rw [entries]
  conv_lhs => rw [Cuts.around here]
  rw [flatMap_append, flatMap_cons, filter_append, filter_append, around.front, around.back, nil_append, append_nil,
    ← filter_filter, Cuts.filter_eq_take highCut, Cuts.filter_not_take lowCut]

omit [LinearOrder α] in
theorem within_behind (around : map.Around low high left right) (behind : right < left) :
    (map.entries.filter fun entry => !low entry.1 && high entry.1) = [] := by
  refine filter_eq_nil_iff.mpr fun entry member => ?_
  obtain ⟨slot, inside, within⟩ := mem_flatMap.mp member
  rw [← take_append_drop left map.slots] at inside
  rcases mem_append.mp inside with early | late
  · simp [around.beforeLeft entry (mem_flatMap.mpr ⟨slot, early, within⟩)]
  · have beyond := drop_subset_drop_left map.slots (show right + 1 ≤ left by omega) late
    simp [around.afterRight entry (mem_flatMap.mpr ⟨slot, beyond, within⟩)]

end Around

section

variable (valid : map.Valid) {whole : List (Slot α)} (among : ∀ slot ∈ whole, slot ∈ map.slots)

include valid among

theorem Valid.union_bitmaps (bits : Bitmap) :
    whole.foldr (fun slot bits => slot.bitmap ∪ bits) bits = ((whole.flatMap Slot.entries).map Prod.snd).toFinset ∪ bits := by
  induction whole with
  | nil => rw [foldr_nil, flatMap_nil, map_nil, toFinset_nil, Finset.empty_union]
  | cons slot rest ih =>
    have own := valid.slots slot (among slot mem_cons_self)
    rw [foldr_cons, ih fun other member => among other (mem_cons_of_mem _ member), flatMap_cons, map_append,
      toFinset_append, own.bitmap, own.offsetVec, Finset.union_assoc]

theorem Valid.count_whole :
    (whole.map fun slot => (slot.offsetVec.length : Int)).sum = (whole.flatMap Slot.entries).length := by
  induction whole with
  | nil => rfl
  | cons slot rest ih =>
    have own := valid.slots slot (among slot mem_cons_self)
    rw [map_cons, sum_cons, ih fun other member => among other (mem_cons_of_mem _ member), flatMap_cons,
      length_append, ← own.offsetVec, length_map, Nat.cast_add]

end

theorem lowerData_eq {slot : Slot α} (valid : slot.Valid) (lowerThan : α) (includeLe : Bool) :
    slot.getLowerThanData lowerThan includeLe =
      (slot.entries.take (Cuts.place (fun entry => isUpTo lowerThan includeLe entry.1) slot.entries)).map Prod.snd := by
  rw [Slot.getLowerThanData, valid.rightBorder, ← valid.offsetVec, map_take]

theorem greaterData_eq {slot : Slot α} (valid : slot.Valid) (greaterThan : α) (includeGe : Bool) :
    slot.getGreaterThanData greaterThan includeGe =
      (slot.entries.drop (Cuts.place (fun entry => isBelow greaterThan includeGe entry.1) slot.entries)).map Prod.snd := by
  rw [Slot.getGreaterThanData, valid.leftBorder, ← valid.offsetVec, map_drop]

omit [LinearOrder α] in
-- Whole slots and borders, put in the order of the entries
theorem gathered (first lower upper last : List (α × Nat)) :
    (((first ++ last).map Prod.snd).toFinset ∪ (lower.map Prod.snd ++ upper.map Prod.snd).toFinset,
      ((first ++ last).length : Int) + ((lower.map Prod.snd).length + (upper.map Prod.snd).length)) =
    ((((first ++ lower) ++ (upper ++ last)).map Prod.snd).toFinset, (((first ++ lower) ++ (upper ++ last)).length : Int)) := by
  refine Prod.ext ?_ ?_
  · ext offset
    simp only [map_append, toFinset_append, Finset.mem_union]
    tauto
  · simp only [length_append, length_map]
    omega

section Answers

variable (valid : map.Valid) (filled : map.slots ≠ []) (lowerThan : α) (includeLe : Bool) (greaterThan : α) (includeGe : Bool)

def withinRange (map : RangedMap α) (lowerThan : α) (includeLe : Bool) (greaterThan : α) (includeGe : Bool) : List (α × Nat) :=
  map.entries.filter fun entry => !isBelow greaterThan includeGe entry.1 && isUpTo lowerThan includeLe entry.1

def belowRange (map : RangedMap α) (greaterThan : α) (includeGe : Bool) : List (α × Nat) :=
  map.entries.filter fun entry => isBelow greaterThan includeGe entry.1

def aboveRange (map : RangedMap α) (lowerThan : α) (includeLe : Bool) : List (α × Nat) :=
  map.entries.filter fun entry => !isUpTo lowerThan includeLe entry.1

theorem lowerBorder_eq (valid : map.Valid) (place : Nat) :
    ((map.slots[place]?).map fun slot => slot.getLowerThanData greaterThan (!includeGe)).getD [] =
      (((map.slots[place]?).map fun slot => slot.entries.take
        (Cuts.place (fun entry => isBelow greaterThan includeGe entry.1) slot.entries)).getD []).map Prod.snd := by
  cases there : map.slots[place]? with
  | none => rfl
  | some slot =>
    have own := valid.slots slot (mem_of_getElem? there)
    rw [Option.map_some, Option.getD_some, Option.map_some, Option.getD_some, lowerData_eq own]
    simp only [isUpTo_not]

include valid filled

theorem rangeParts_out : map.rangeParts true lowerThan includeLe greaterThan includeGe =
    (((map.belowRange greaterThan includeGe ++ map.aboveRange lowerThan includeLe).map Prod.snd).toFinset,
      ((map.belowRange greaterThan includeGe ++ map.aboveRange lowerThan includeLe).length : Int)) := by
  have downward := downward_isUpTo lowerThan includeLe
  have among : ∀ slot, slot ∈ map.slots.take (map.findLeftSlotIndex greaterThan includeGe) ++
      map.slots.drop (map.findRightSlotIndex lowerThan includeLe + 1).toNat → slot ∈ map.slots := by
    intro slot member
    rcases mem_append.mp member with early | late
    · exact mem_of_mem_take early
    · exact mem_of_mem_drop late
  have reach := Cuts.place_le (fun slot => isUpTo lowerThan includeLe slot.left) map.slots
  rw [rangeParts]
  simp only [if_true]
  rw [valid.union_bitmaps among, valid.count_whole among, findLeftSlotIndex_eq valid, findRightSlotIndex_eq valid filled,
    lowerBorder_eq _ _ valid, belowRange, filter_below valid (downward_isBelow greaterThan includeGe), flatMap_append, aboveRange]
  cases cutAt : Cuts.place (fun slot => isUpTo lowerThan includeLe slot.left) map.slots with
  | zero =>
    rw [filter_above_all valid downward cutAt]
    exact gathered _ _ [] map.entries
  | succ index =>
    rw [cutAt] at reach
    obtain ⟨slot, there⟩ : ∃ slot, map.slots[index]? = some slot := ⟨_, getElem?_eq_getElem (by omega)⟩
    have own := valid.slots slot (mem_of_getElem? there)
    have isIndex : ((index + 1 : Nat) : Int) - 1 = index := by omega
    have upper := greaterData_eq own lowerThan (!includeLe)
    simp only [isBelow_not] at upper
    rw [filter_above valid downward cutAt there, ← gathered, ← upper, isIndex, if_neg (by omega), Int.toNat_natCast, there,
      Option.map_some, Option.getD_some, Int.toNat_natCast_add_one]

theorem rangeParts_in : (map.rangeParts false lowerThan includeLe greaterThan includeGe).1 =
      ((map.withinRange lowerThan includeLe greaterThan includeGe).map Prod.snd).toFinset ∧
    ((map.rangeParts false lowerThan includeLe greaterThan includeGe).2 =
        ((map.withinRange lowerThan includeLe greaterThan includeGe).length : Int) ∨
      map.withinRange lowerThan includeLe greaterThan includeGe = []) := by
  have lowDown := downward_isBelow greaterThan includeGe
  have highDown := downward_isUpTo lowerThan includeLe
  have among : ∀ slot, slot ∈ (map.slots.drop (map.findLeftSlotIndex greaterThan includeGe + 1)).take
      (map.findRightSlotIndex lowerThan includeLe - (map.findLeftSlotIndex greaterThan includeGe + 1)).toNat → slot ∈ map.slots :=
    fun slot member => mem_of_mem_drop (mem_of_mem_take member)
  have reach := Cuts.place_le (fun slot => isUpTo lowerThan includeLe slot.left) map.slots
  have beforeLeft := take_pass valid lowDown
  have afterLeft := drop_fail valid lowDown
  have afterRight := drop_fail_left valid highDown
  rw [rangeParts]
  simp only [Bool.false_eq_true, if_false]
  rw [valid.union_bitmaps among, valid.count_whole among, findLeftSlotIndex_eq valid, findRightSlotIndex_eq valid filled]
  generalize Cuts.place (fun slot => isBelow greaterThan includeGe slot.right) map.slots = left at beforeLeft afterLeft
  cases rightAt : Cuts.place (fun slot => isUpTo lowerThan includeLe slot.left) map.slots with
  | zero =>
    have none' : map.withinRange lowerThan includeLe greaterThan includeGe = [] := by
      rw [rightAt] at afterRight
      exact filter_eq_nil_iff.mpr fun entry member => by simp [afterRight entry member]
    rw [none']
    refine ⟨?_, .inr rfl⟩
    have nothing : ((((0 : Nat) : Int) - 1) - ((left : Int) + 1)).toNat = 0 := by omega
    rw [nothing]
    rfl
  | succ right =>
    have beforeRight := take_pass_left valid highDown rightAt
    rw [rightAt] at reach afterRight
    obtain ⟨last, there⟩ : ∃ slot, map.slots[right]? = some slot := ⟨_, getElem?_eq_getElem (by omega)⟩
    have own := valid.slots last (mem_of_getElem? there)
    have isRight : ((right + 1 : Nat) : Int) - 1 = right := by omega
    rw [isRight, if_neg (by omega), Int.toNat_natCast, there]
    have around : map.Around (isBelow greaterThan includeGe) (isUpTo lowerThan includeLe) left right :=
      ⟨beforeLeft, afterLeft, beforeRight, afterRight⟩
    have lastIn := mem_of_getElem? there
    rw [withinRange]
    rcases lt_trichotomy left right with before | same | behind
    · obtain ⟨first, here⟩ : ∃ slot, map.slots[left]? = some slot := ⟨_, getElem?_eq_getElem (by omega)⟩
      have firstIn := mem_of_getElem? here
      have count : ((right : Int) - ((left : Int) + 1)).toNat = right - (left + 1) := by omega
      rw [around.within_apart before here there (ordered_slot valid lowDown firstIn) (ordered_slot valid highDown lastIn), here, count]
      simp only [Int.ofNat_lt.mpr before, if_true, lowerData_eq own, greaterData_eq (valid.slots first firstIn)]
      constructor
      · ext offset
        simp only [map_append, toFinset_append, Finset.mem_union]
        tauto
      · left
        simp only [length_append, length_map]
        omega
    · subst same
      have here := there
      rw [around.within_same here (ordered_slot valid lowDown lastIn) (ordered_slot valid highDown lastIn)]
      have nothing : ((left : Int) - ((left : Int) + 1)).toNat = 0 := by omega
      rw [nothing, there]
      simp only [lt_irrefl, if_false, if_true, take_zero, flatMap_nil, map_nil, toFinset_nil,
        Finset.empty_union, length_nil, Slot.getRangeData, own.leftBorder, own.rightBorder, ← own.offsetVec, ← map_take,
        ← map_drop]
      refine ⟨trivial, ?_⟩
      have bound := Cuts.place_le (fun entry => isUpTo lowerThan includeLe entry.1) last.entries
      -- with equal open bounds the borders may cross, and there is nothing between them
      by_cases crossed : Cuts.place (fun entry => isUpTo lowerThan includeLe entry.1) last.entries <
          Cuts.place (fun entry => isBelow greaterThan includeGe entry.1) last.entries
      · right
        exact drop_eq_nil_of_le ((length_take_le _ _).trans crossed.le)
      · left
        rw [length_drop, length_take]
        omega
    · have nothing : ((right : Int) - ((left : Int) + 1)).toNat = 0 := by omega
      have notBefore : ¬ (left : Int) < right := by omega
      have notSame : ¬ (left : Int) = right := by omega
      rw [around.within_behind behind, nothing]
      refine ⟨?_, .inr rfl⟩
      cases map.slots[left]? with
      | none => rfl
      | some first =>
        simp only [notBefore, notSame, if_false]
        rfl

end Answers

def wanted (rangeOut : Bool) (lowerThan : α) (includeLe : Bool) (greaterThan : α) (includeGe : Bool) (value : α) : Bool :=
  if rangeOut then isBelow greaterThan includeGe value || !isUpTo lowerThan includeLe value
  else !isBelow greaterThan includeGe value && isUpTo lowerThan includeLe value

def Exact (map : RangedMap α) (rangeOut : Bool) (lowerThan : α) (includeLe : Bool) (greaterThan : α) (includeGe : Bool) : Prop :=
  ∀ offset, offset ∈ (map.getRangeBitmap rangeOut lowerThan includeLe greaterThan includeGe).getD ∅ ↔
    ∃ value, map.valueOf offset = some value ∧ wanted rangeOut lowerThan includeLe greaterThan includeGe value = true

-- As many rows as the count of the source can have, with the rows of this value counted twice
def Wraps (map : RangedMap α) (value : α) : Prop :=
  map.entries.length + (map.entries.filter fun entry => decide (entry.1 = value)).length = 2 ^ 32

omit [LinearOrder α] in
theorem length_both (entries : List (α × Nat)) (first second : α × Nat → Bool)
    (either : ∀ entry ∈ entries, first entry = true ∨ second entry = true) :
    (entries.filter first).length + (entries.filter second).length =
      entries.length + (entries.filter fun entry => first entry && second entry).length := by
  induction entries with
  | nil => rfl
  | cons entry rest ih =>
    have later := ih fun other member => either other (mem_cons_of_mem _ member)
    have here := either entry mem_cons_self
    cases one : first entry <;> cases two : second entry <;> simp [one, two] at here ⊢ <;> omega

omit [LinearOrder α] in
theorem length_apart (entries : List (α × Nat)) (first second : α × Nat → Bool)
    (never : ∀ entry ∈ entries, first entry = true → second entry = false) :
    (entries.filter first).length + (entries.filter second).length ≤ entries.length := by
  induction entries with
  | nil => rfl
  | cons entry rest ih =>
    have later := ih fun other member => never other (mem_cons_of_mem _ member)
    have here := never entry mem_cons_self
    cases one : first entry <;> cases two : second entry <;> simp [one, two] at here ⊢ <;> omega

theorem below_up_to {lowerThan greaterThan : α} (ordered : greaterThan ≤ lowerThan) (includeLe includeGe : Bool) :
    (∀ value, isBelow greaterThan includeGe value = true → isUpTo lowerThan includeLe value = true) ∨
      includeLe = false ∧ includeGe = false ∧ greaterThan = lowerThan := by
  rcases ordered.eq_or_lt with same | less
  · cases includeLe <;> cases includeGe
    case false.false => exact .inr ⟨rfl, rfl, same⟩
    all_goals
      left
      intro value below
      simp only [isBelow, isUpTo, if_true, Bool.false_eq_true, if_false, decide_eq_true_eq] at below ⊢
      order
  · left
    intro value below
    cases includeLe <;> cases includeGe <;>
      simp only [isBelow, isUpTo, if_true, Bool.false_eq_true, if_false, decide_eq_true_eq] at below ⊢ <;> order

section Queries

variable (valid : map.Valid) (lowerThan : α) (includeLe : Bool) (greaterThan : α) (includeGe : Bool)

include valid

theorem mem_rows (holds : α → Bool) (offset : Nat) :
    offset ∈ ((map.entries.filter fun entry => holds entry.1).map Prod.snd).toFinset ↔
      ∃ value, map.valueOf offset = some value ∧ holds value = true := by
  rw [mem_toFinset, mem_map]
  constructor
  · rintro ⟨entry, member, rfl⟩
    obtain ⟨inside, held⟩ := mem_filter.mp member
    exact ⟨entry.1, (valid.values entry.2 entry.1).mpr inside, held⟩
  · rintro ⟨value, known, held⟩
    exact ⟨(value, offset), mem_filter.mpr ⟨(valid.values offset value).mp known, held⟩, rfl⟩

theorem exact_in (few : map.entries.length < 2 ^ 32) : map.Exact false lowerThan includeLe greaterThan includeGe := by
  intro offset
  have rows := mem_rows valid (fun value => wanted false lowerThan includeLe greaterThan includeGe value) offset
  rw [← rows, getRangeBitmap]
  by_cases empty : map.slots = []
  · simp [empty, entries]
  · obtain ⟨bits, count⟩ := rangeParts_in valid empty lowerThan includeLe greaterThan includeGe
    rw [if_neg empty]
    simp only [Bool.false_and, Bool.false_eq_true, if_false]
    have same : map.withinRange lowerThan includeLe greaterThan includeGe =
        map.entries.filter fun entry => wanted false lowerThan includeLe greaterThan includeGe entry.1 := by
      rfl
    rw [same] at bits count
    split
    next zero =>
      have nothing : (map.entries.filter fun entry => wanted false lowerThan includeLe greaterThan includeGe entry.1) = [] := by
        rcases count with exact' | none'
        · have short := length_filter_le (fun entry : α × Nat => wanted false lowerThan includeLe greaterThan includeGe entry.1)
            map.entries
          exact eq_nil_of_length_eq_zero (by omega)
        · exact none'
      rw [nothing]
      rfl
    next => rw [Option.getD_some, bits]

omit valid in
theorem count_out (ordered : greaterThan ≤ lowerThan) :
    (map.belowRange greaterThan includeGe ++ map.aboveRange lowerThan includeLe).length ≤ map.entries.length ∨
      includeLe = false ∧ includeGe = false ∧ greaterThan = lowerThan := by
  rw [length_append, belowRange, aboveRange]
  refine (below_up_to ordered includeLe includeGe).imp_left fun nested => ?_
  exact length_apart _ _ _ fun entry _ below => by simp [nested _ below]

omit valid in
theorem count_open (bound : α) : (map.belowRange bound false ++ map.aboveRange bound false).length =
    map.entries.length + (map.entries.filter fun entry => decide (entry.1 = bound)).length := by
  rw [length_append, belowRange, aboveRange, length_both]
  · congr 2
    refine filter_congr fun entry _ => ?_
    rw [Bool.eq_iff_iff]
    simpa [isBelow, isUpTo] using le_antisymm_iff.symm
  · intro entry _
    simpa [isBelow, isUpTo] using le_total entry.1 bound

theorem mem_out (offset : Nat) :
    offset ∈ ((map.belowRange greaterThan includeGe ++ map.aboveRange lowerThan includeLe).map Prod.snd).toFinset ↔
      ∃ value, map.valueOf offset = some value ∧ wanted true lowerThan includeLe greaterThan includeGe value = true := by
  have below := mem_rows valid (isBelow greaterThan includeGe) offset
  have above := mem_rows valid (fun value => !isUpTo lowerThan includeLe value) offset
  rw [map_append, toFinset_append, Finset.mem_union, belowRange, aboveRange, below, above]
  simp only [wanted, if_true, Bool.or_eq_true, and_or_left, exists_or]

-- The answer is the right one unless its count is a multiple of the modulus, and it is not empty.
theorem exact_out_count (ordered : greaterThan ≤ lowerThan) : map.Exact true lowerThan includeLe greaterThan includeGe ↔
    ((map.belowRange greaterThan includeGe ++ map.aboveRange lowerThan includeLe).length % 2 ^ 32 = 0 →
      map.belowRange greaterThan includeGe ++ map.aboveRange lowerThan includeLe = []) := by
  simp only [Exact, ← mem_out valid]
  by_cases empty : map.slots = []
  · have nothing : map.belowRange greaterThan includeGe ++ map.aboveRange lowerThan includeLe = [] := by
      rw [belowRange, aboveRange, entries, empty]
      rfl
    rw [getRangeBitmap, if_pos empty, nothing]
    exact ⟨fun _ _ => rfl, fun _ _ => Iff.rfl⟩
  · have parts := rangeParts_out valid empty lowerThan includeLe greaterThan includeGe
    have unturned : (true && decide (lowerThan < greaterThan)) = false := by simpa using ordered
    rw [getRangeBitmap, if_neg empty]
    simp only [unturned, Bool.false_eq_true, if_false, parts]
    generalize map.belowRange greaterThan includeGe ++ map.aboveRange lowerThan includeLe = answer
    by_cases zero : (answer.length : Int) % 2 ^ 32 = 0
    · have zero' : answer.length % 2 ^ 32 = 0 := by omega
      rw [if_pos zero, Option.getD_none]
      constructor
      · intro same _
        refine eq_nil_iff_forall_not_mem.mpr fun entry member => ?_
        have listed := (same entry.2).mpr (mem_toFinset.mpr (mem_map_of_mem member))
        exact absurd listed (Finset.notMem_empty _)
      · intro nothing offset
        rw [nothing zero']
        rfl
    · rw [if_neg zero, Option.getD_some]
      exact ⟨fun _ zero' => absurd (by omega) zero, fun _ _ => Iff.rfl⟩

theorem exact_out_iff (ordered : greaterThan ≤ lowerThan) (few : map.entries.length < 2 ^ 32) :
    map.Exact true lowerThan includeLe greaterThan includeGe ↔
      ¬ (includeLe = false ∧ includeGe = false ∧ greaterThan = lowerThan ∧ map.Wraps greaterThan) := by
  rw [exact_out_count valid _ _ _ _ ordered]
  constructor
  · rintro exact' ⟨rfl, rfl, rfl, wraps⟩
    have count := @count_open α _ map greaterThan
    rw [Wraps, ← count] at wraps
    have multiple : (map.belowRange greaterThan false ++ map.aboveRange greaterThan false).length % 2 ^ 32 = 0 := by omega
    rw [exact' multiple] at wraps
    cases wraps
  · intro unwrapped zero
    refine eq_nil_of_length_eq_zero ?_
    rcases @count_out α _ map lowerThan includeLe greaterThan includeGe ordered with short | ⟨rfl, rfl, rfl⟩
    · omega
    · have twice := length_filter_le (fun entry : α × Nat => decide (entry.1 = greaterThan)) map.entries
      have count := @count_open α _ map greaterThan
      have other : ¬ map.Wraps greaterThan := fun wraps => unwrapped ⟨rfl, rfl, rfl, wraps⟩
      rw [Wraps, ← count] at other
      omega

end Queries

end RangedMap

end LoginomDock.VectorIndex
