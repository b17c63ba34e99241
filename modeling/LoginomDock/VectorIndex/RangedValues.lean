import Mathlib.Tactic.Order
import LoginomDock.Library.Cuts
import LoginomDock.VectorIndex.RangedMap

/-! The slots of a ranged map, one after the other, are its values in ascending order, each once for each offset that
carries it. -/

namespace LoginomDock.VectorIndex

open List Cuts

variable {α : Type} [LinearOrder α]

structure Slot.Valid (slot : Slot α) : Prop where
  paired : slot.valueVec.length = slot.offsetVec.length
  left : slot.valueVec.head? = some slot.left
  right : slot.valueVec.getLast? = some slot.right
  bitmap : slot.bitmap = slot.offsetVec.toFinset

namespace Slot

variable {slot : Slot α}

theorem Valid.valueVec (valid : slot.Valid) : slot.entries.map Prod.fst = slot.valueVec :=
  map_fst_zip valid.paired.le

theorem Valid.offsetVec (valid : slot.Valid) : slot.entries.map Prod.snd = slot.offsetVec :=
  map_snd_zip valid.paired.ge

theorem Valid.mem_bitmap (valid : slot.Valid) {offset : Nat} :
    offset ∈ slot.bitmap ↔ ∃ value, (value, offset) ∈ slot.entries := by
  rw [valid.bitmap, mem_toFinset, ← valid.offsetVec]
  simp

theorem Valid.between (valid : slot.Valid) (ordered : slot.entries.Pairwise fun first second => first.1 ≤ second.1) :
    (∀ entry ∈ slot.entries, slot.left ≤ entry.1 ∧ entry.1 ≤ slot.right) ∧
      (∃ entry ∈ slot.entries, entry.1 = slot.left) ∧ ∃ entry ∈ slot.entries, entry.1 = slot.right := by
  have values : slot.valueVec.Pairwise (· ≤ ·) := by
    rw [← valid.valueVec]
    exact pairwise_map.mpr ordered
  have value : ∀ value, value ∈ slot.valueVec ↔ ∃ entry ∈ slot.entries, entry.1 = value := by
    intro value
    rw [← valid.valueVec, mem_map]
  obtain ⟨rest, first⟩ : ∃ rest, slot.valueVec = slot.left :: rest := head?_eq_some_iff.mp valid.left
  obtain ⟨most, last⟩ : ∃ most, slot.valueVec = most ++ [slot.right] := getLast?_eq_some_iff.mp valid.right
  refine ⟨fun entry inside => ?_, (value _).mp (by simp [first]), (value _).mp (by simp [last])⟩
  have there : entry.1 ∈ slot.valueVec := (value _).mpr ⟨entry, inside, rfl⟩
  constructor
  · rw [first] at values there
    rcases mem_cons.mp there with same | later
    · exact same.ge
    · exact (pairwise_cons.mp values).1 _ later
  · rw [last] at values there
    rcases mem_append.mp there with before | same
    · exact (pairwise_append.mp values).2.2 _ before _ (by simp)
    · exact (mem_singleton.mp same).le

theorem valid_of_entries {entries : List (α × Nat)} {left right : α} {bitmap : Bitmap}
    (first : (entries.map Prod.fst).head? = some left) (last : (entries.map Prod.fst).getLast? = some right)
    (bits : bitmap = (entries.map Prod.snd).toFinset) :
    (Slot.mk left right bitmap (entries.map Prod.fst) (entries.map Prod.snd)).Valid where
  paired := by simp
  left := first
  right := last
  bitmap := bits

@[simp] theorem entries_mk_map (left right : α) (bitmap : Bitmap) (entries : List (α × Nat)) :
    (Slot.mk left right bitmap (entries.map Prod.fst) (entries.map Prod.snd)).entries = entries := by
  rw [Slot.entries, zip_map']
  simp

end Slot

namespace RangedMap

def entries (map : RangedMap α) : List (α × Nat) := map.slots.flatMap Slot.entries

-- The value of a row, absent for a row without one.
def valueOf (map : RangedMap α) (offset : Nat) : Option α := (map.offsetToValue[offset]?).join

structure Valid (map : RangedMap α) : Prop where
  slots : ∀ slot ∈ map.slots, slot.Valid
  ordered : map.entries.Pairwise fun first second => first.1 ≤ second.1
  distinct : (map.entries.map Prod.snd).Nodup
  values : ∀ offset value, map.valueOf offset = some value ↔ (value, offset) ∈ map.entries

theorem valid_empty : Valid ({} : RangedMap α) where
  slots := nofun
  ordered := .nil
  distinct := .nil
  values := by simp [valueOf, entries]

namespace Valid

variable {map : RangedMap α}

theorem slot_ordered (valid : map.Valid) {slot : Slot α} (inside : slot ∈ map.slots) :
    slot.entries.Pairwise fun first second => first.1 ≤ second.1 :=
  (pairwise_flatMap.mp valid.ordered).1 slot inside

theorem between (valid : map.Valid) {slot : Slot α} (inside : slot ∈ map.slots) :
    (∀ entry ∈ slot.entries, slot.left ≤ entry.1 ∧ entry.1 ≤ slot.right) ∧
      (∃ entry ∈ slot.entries, entry.1 = slot.left) ∧ ∃ entry ∈ slot.entries, entry.1 = slot.right :=
  (valid.slots slot inside).between (valid.slot_ordered inside)

theorem left_le_right (valid : map.Valid) {slot : Slot α} (inside : slot ∈ map.slots) : slot.left ≤ slot.right := by
  obtain ⟨between, ⟨entry, member, same⟩, -⟩ := valid.between inside
  exact same ▸ (between entry member).2

theorem borders (valid : map.Valid) : map.slots.Pairwise fun first second => first.right ≤ second.left := by
  have across := (pairwise_flatMap.mp valid.ordered).2
  refine across.imp_of_mem fun {first second} inFirst inSecond below => ?_
  obtain ⟨-, -, last, inside, isRight⟩ := valid.between inFirst
  obtain ⟨-, ⟨head, within, isLeft⟩, -⟩ := valid.between inSecond
  rw [← isRight, ← isLeft]
  exact below last inside head within

end Valid

theorem searchSlots_eq {slots : List (Slot α)} {passes stays : Slot α → Bool} (ordered : Cuts.Ordered passes slots)
    (found : slots.Pairwise fun first second => passes second = false → stays second = false → passes first = true)
    {fuel low high : Nat} (inside : high ≤ slots.length) (above : low ≤ Cuts.place passes slots)
    (below : Cuts.place passes slots ≤ high) (enough : high - low < fuel) :
    searchSlots slots passes stays fuel low high = Cuts.place passes slots := by
  induction fuel generalizing low high with
  | zero => omega
  | succ fuel ih =>
    rw [searchSlots]
    by_cases open' : low < high
    · have middle : low + (high - low) / 2 < slots.length := by omega
      have there := getElem?_eq_getElem middle
      have cut := Cuts.lt_place_iff ordered there
      simp only [if_pos open', there]
      split
      next passed => exact ih inside (cut.mpr passed) below (by omega)
      next failed =>
        have before : ¬ low + (high - low) / 2 < Cuts.place passes slots := fun less => failed (cut.mp less)
        split
        next => exact ih (by omega) above (by omega) (by omega)
        next within =>
          refine (place_eq middle.le (fun item member => ?_) fun item same => ?_).symm
          · obtain ⟨index, less, rfl⟩ := mem_take_iff_getElem.mp member
            exact pairwise_iff_getElem.mp found index _ (by omega) middle (by omega) (by simpa using failed)
              (by simpa using within)
          · rw [there, Option.some_inj] at same
            simpa [← same] using failed
    · rw [if_neg open']
      omega

section Searching

variable {map : RangedMap α} (valid : map.Valid) (value : α)

include valid

theorem ordered_right_le : Cuts.Ordered (fun slot => decide (slot.right ≤ value)) map.slots := by
  refine valid.borders.imp_of_mem fun {first second} _ inSecond side passed => ?_
  have through := valid.left_le_right inSecond
  simp only [decide_eq_true_eq] at passed ⊢
  order

theorem ordered_right_lt : Cuts.Ordered (fun slot => decide (slot.right < value)) map.slots := by
  refine valid.borders.imp_of_mem fun {first second} _ inSecond side passed => ?_
  have through := valid.left_le_right inSecond
  simp only [decide_eq_true_eq] at passed ⊢
  order

theorem slotUpperBoundIdx_eq :
    map.slotUpperBoundIdx value = Cuts.place (fun slot => decide (slot.right ≤ value)) map.slots := by
  refine searchSlots_eq (ordered_right_le valid value) (valid.borders.imp fun {first second} side _ stays => ?_) le_rfl
    (Nat.zero_le _) (place_le _ _) (by omega)
  simp only [decide_eq_false_iff_not, decide_eq_true_eq, not_lt] at stays ⊢
  order

theorem slotLowerBoundIdx_eq :
    map.slotLowerBoundIdx value = Cuts.place (fun slot => decide (slot.right < value)) map.slots := by
  refine searchSlots_eq (ordered_right_lt valid value) (valid.borders.imp fun {first second} side _ stays => ?_) le_rfl
    (Nat.zero_le _) (place_le _ _) (by omega)
  simp only [decide_eq_false_iff_not, decide_eq_true_eq, not_le] at stays ⊢
  order

end Searching

theorem join_withValue (values : List (Option α)) (offset : Nat) (value : α) (other : Nat) :
    ((withValue values offset value)[other]?).join = if other = offset then some value else (values[other]?).join := by
  rw [withValue, getElem?_set]
  by_cases same : offset = other
  · subst same
    rw [if_pos rfl, if_pos (by simp; omega), if_pos rfl]
    rfl
  · rw [if_neg same, if_neg (Ne.symm same), getElem?_append]
    split
    · rfl
    next outside =>
      rw [getElem?_eq_none (not_lt.mp outside), getElem?_replicate]
      split <;> rfl

theorem Valid.behind {map : RangedMap α} (valid : map.Valid) {index : Nat} {slot : Slot α}
    (there : map.slots[index]? = some slot) : ∀ after ∈ map.slots.drop (index + 1), slot.right ≤ after.left := by
  have sides := valid.borders
  rw [Cuts.around there] at sides
  exact (pairwise_cons.mp (pairwise_append.mp sides).2.1).1

theorem addition_slot {map : RangedMap α} (valid : map.Valid) (value : α) (filled : map.slots ≠ []) :
    ∃ slot, map.slots[(map.findRightSlotIndex value true).toNat]? = some slot ∧
      (∀ before ∈ map.slots.take (map.findRightSlotIndex value true).toNat, before.right ≤ value) ∧
        ∀ after ∈ map.slots.drop ((map.findRightSlotIndex value true).toNat + 1), value ≤ after.left := by
  have some' : 0 < map.slots.length := length_pos_iff.mpr filled
  have ordered := ordered_right_le valid value
  have least := place_le (fun slot => decide (slot.right ≤ value)) map.slots
  have cut := slotUpperBoundIdx_eq valid value
  rw [← cut] at least
  have passed : ∀ index slot, map.slots[index]? = some slot → (index < map.slotUpperBoundIdx value ↔ slot.right ≤ value) := by
    intro index slot there
    rw [cut, Cuts.lt_place_iff ordered there, decide_eq_true_eq]
  have before : ∀ index ≤ map.slotUpperBoundIdx value, ∀ slot ∈ map.slots.take index, slot.right ≤ value := by
    intro index within slot member
    obtain ⟨place, less, rfl⟩ := mem_take_iff_getElem.mp member
    exact (passed place _ (getElem?_eq_getElem (by omega))).mp (by omega)
  rw [findRightSlotIndex]
  simp only [if_true]
  generalize map.slotUpperBoundIdx value = upper at passed before least
  obtain ⟨slot, there⟩ : ∃ slot, map.slots[min upper (map.slots.length - 1)]? = some slot :=
    ⟨_, getElem?_eq_getElem (by omega)⟩
  simp only [there]
  by_cases last : upper = map.slots.length
  · -- the value is right of all slots
    have place : min upper (map.slots.length - 1) = map.slots.length - 1 := by omega
    have through := valid.left_le_right (mem_of_getElem? there)
    have within := (passed _ _ there).mp (by omega)
    rw [if_neg (by order), Int.toNat_natCast]
    refine ⟨_, there, before _ (by omega), ?_⟩
    rw [drop_eq_nil_of_le (by omega)]
    exact nofun
  · have place : min upper (map.slots.length - 1) = upper := by omega
    have beyond : value < slot.right :=
      not_le.mp fun below => absurd ((passed _ _ there).mpr below) (by omega)
    have behind := valid.behind there
    split
    next left =>
      cases upper with
      | zero =>
        rw [Nat.zero_min] at there behind ⊢
        exact ⟨_, there, nofun, fun after member => by order [behind after member]⟩
      | succ index =>
        rw [place] at there behind ⊢
        have index' : (((index + 1 : Nat) : Int) - 1).toNat = index := by omega
        rw [index']
        refine ⟨_, getElem?_eq_getElem (by omega), before index (by omega), fun after member => ?_⟩
        have head := (List.getElem?_eq_some_iff.mp there).2
        rw [drop_eq_getElem_cons (by omega), head] at member
        rcases mem_cons.mp member with rfl | later
        · exact left.le
        · order [behind after later]
    next right =>
      rw [place] at there behind ⊢
      rw [Int.toNat_natCast]
      exact ⟨_, there, before upper le_rfl, fun after member => by order [behind after member]⟩

section Insertion

variable {slot : Slot α} (valid : slot.Valid) (ordered : slot.entries.Pairwise fun first second => first.1 ≤ second.1)
  (offset : Nat) (value : α)

def withEntry (slot : Slot α) (offset : Nat) (value : α) : List (α × Nat) :=
  slot.entries.take (upperBound slot.valueVec value) ++ (value, offset) :: slot.entries.drop (upperBound slot.valueVec value)

include valid in
theorem upperBound_eq : upperBound slot.valueVec value = Cuts.place (fun entry => decide (entry.1 ≤ value)) slot.entries := by
  rw [upperBound, ← valid.valueVec, takeWhile_map, length_map]
  rfl

include valid in
theorem insertIntoSlot_eq : insertIntoSlot slot offset value =
    ⟨min value slot.left, max value slot.right, insert offset slot.bitmap, (withEntry slot offset value).map Prod.fst,
      (withEntry slot offset value).map Prod.snd⟩ := by
  have inside : upperBound slot.valueVec value ≤ slot.entries.length := by
    rw [upperBound_eq valid]
    exact place_le _ _
  rw [withEntry, ← insertIdx_eq inside, map_insertIdx, map_insertIdx, valid.valueVec, valid.offsetVec]
  rfl

theorem perm_withEntry (slot : Slot α) (offset : Nat) (value : α) :
    (withEntry slot offset value).Perm ((value, offset) :: slot.entries) := by
  rw [withEntry]
  refine perm_middle.trans ?_
  rw [take_append_drop]

include valid ordered

theorem withEntry_parts : (∀ entry ∈ slot.entries.take (upperBound slot.valueVec value), entry.1 ≤ value) ∧
    ∀ entry ∈ slot.entries.drop (upperBound slot.valueVec value), value ≤ entry.1 := by
  have cut : Cuts.Ordered (fun entry : α × Nat => decide (entry.1 ≤ value)) slot.entries := by
    refine Cuts.Ordered.of_pairwise ordered fun first second below passed => ?_
    simp only [decide_eq_true_eq] at passed ⊢
    exact below.trans passed
  rw [upperBound_eq valid]
  constructor
  · intro entry member
    simpa using passes_of_mem_take member
  · intro entry member
    have fails := fails_of_mem_drop cut member
    simp only [decide_eq_false_iff_not, not_le] at fails
    exact fails.le

theorem ordered_withEntry : (withEntry slot offset value).Pairwise fun first second => first.1 ≤ second.1 := by
  obtain ⟨before, after⟩ := withEntry_parts valid ordered value
  rw [← take_append_drop (upperBound slot.valueVec value) slot.entries] at ordered
  exact Cuts.pairwise_insert ordered before after

theorem valid_insertIntoSlot : (insertIntoSlot slot offset value).Valid := by
  have sorted : ((withEntry slot offset value).map Prod.fst).Pairwise (· ≤ ·) :=
    pairwise_map.mpr (ordered_withEntry valid ordered offset value)
  have perm := perm_withEntry slot offset value
  have values : ∀ other, other ∈ (withEntry slot offset value).map Prod.fst ↔
      other = value ∨ ∃ entry ∈ slot.entries, entry.1 = other := by
    intro other
    rw [(perm.map Prod.fst).mem_iff, map_cons, mem_cons, mem_map]
  obtain ⟨between, leftmost, rightmost⟩ := valid.between ordered
  rw [insertIntoSlot_eq valid]
  refine Slot.valid_of_entries (head?_eq sorted ?_ ?_) (getLast?_eq sorted ?_ ?_) ?_
  · rw [values]
    refine (min_choice value slot.left).imp id fun same => ?_
    rw [same]
    exact leftmost
  · intro other member
    rcases (values other).mp member with rfl | ⟨entry, inside, rfl⟩
    · exact min_le_left _ _
    · exact (min_le_right _ _).trans (between entry inside).1
  · rw [values]
    refine (max_choice value slot.right).imp id fun same => ?_
    rw [same]
    exact rightmost
  · intro other member
    rcases (values other).mp member with rfl | ⟨entry, inside, rfl⟩
    · exact le_max_left _ _
    · exact (between entry inside).2.trans (le_max_right _ _)
  · rw [valid.bitmap, ← valid.offsetVec, toFinset_eq_of_perm _ _ (perm.map Prod.snd), map_cons,
      toFinset_cons]

end Insertion

theorem valid_splitHalf {slot : Slot α} (valid : slot.Valid) (two : 2 ≤ slot.valueVec.length) :
    slot.splitHalfToNewSlot.1.Valid ∧ slot.splitHalfToNewSlot.2.Valid ∧
      slot.splitHalfToNewSlot.1.entries ++ slot.splitHalfToNewSlot.2.entries = slot.entries := by
  have paired := valid.paired
  have half : 0 < slot.valueVec.length / 2 ∧ slot.valueVec.length / 2 < slot.valueVec.length := by omega
  refine ⟨⟨?_, ?_, ?_, rfl⟩, ⟨?_, ?_, ?_, rfl⟩, ?_⟩
  · simp only [Slot.splitHalfToNewSlot, length_take]
    omega
  · simp only [Slot.splitHalfToNewSlot]
    rw [head?_take, if_neg (by omega), valid.left]
  · simp only [Slot.splitHalfToNewSlot, getLastD_eq_getLast?]
    cases last : (slot.valueVec.take (slot.valueVec.length / 2)).getLast? with
    | some value => rfl
    | none =>
      rw [getLast?_eq_none_iff, take_eq_nil_iff] at last
      rcases last with zero | empty
      · omega
      · rw [empty] at half
        simp at half
  · simp only [Slot.splitHalfToNewSlot, length_drop]
    omega
  · simp only [Slot.splitHalfToNewSlot]
    rw [drop_eq_getElem_cons half.2]
    rfl
  · simp only [Slot.splitHalfToNewSlot, getLastD_eq_getLast?]
    rw [getLast?_drop, if_neg (by omega), valid.right]
    rfl
  · simp only [Slot.splitHalfToNewSlot, Slot.entries]
    rw [← zip_append (by simp only [length_take]; omega), take_append_drop, take_append_drop]

theorem Valid.insert {map : RangedMap α} (valid : map.Valid) {offset : Nat} {value : α} (absent : map.valueOf offset = none)
    {slots : List (Slot α)} (slotsValid : ∀ slot ∈ slots, slot.Valid) {before after : List (α × Nat)}
    (old : map.entries = before ++ after) (new : slots.flatMap Slot.entries = before ++ (value, offset) :: after)
    (follows : ∀ entry ∈ before, entry.1 ≤ value) (precedes : ∀ entry ∈ after, value ≤ entry.1) :
    Valid ⟨withValue map.offsetToValue offset value, slots⟩ := by
  have perm : (slots.flatMap Slot.entries).Perm ((value, offset) :: map.entries) := by
    rw [old, new]
    exact perm_middle
  have fresh : offset ∉ map.entries.map Prod.snd := by
    intro known
    obtain ⟨entry, inside, same⟩ := mem_map.mp known
    have there := (valid.values offset entry.1).mpr (by rw [← same]; exact inside)
    rw [absent] at there
    cases there
  refine ⟨slotsValid, ?_, ?_, ?_⟩
  · have ordered := valid.ordered
    rw [old] at ordered
    rw [entries, new]
    exact Cuts.pairwise_insert ordered follows precedes
  · rw [entries, (perm.map Prod.snd).nodup_iff, map_cons, nodup_cons]
    exact ⟨fresh, valid.distinct⟩
  · intro other found
    rw [entries, perm.mem_iff, mem_cons, ← valid.values, Prod.mk.injEq, valueOf, join_withValue]
    by_cases same : other = offset
    · subst same
      rw [if_pos rfl, absent]
      simp [eq_comm]
    · rw [if_neg same]
      simp [same, valueOf]

theorem addOffsetAndScore_spec {map : RangedMap α} (valid : map.Valid) {offset : Nat} (value : α)
    (absent : map.valueOf offset = none) : ∃ after, map.addOffsetAndScore offset value = some after ∧ after.Valid ∧
      ∀ other, after.valueOf other = if other = offset then some value else map.valueOf other := by
  have unknown : ¬ (map.offsetToValue[offset]?).join.isSome = true := by
    have absent' : (map.offsetToValue[offset]?).join = none := absent
    simp [absent']
  have values := join_withValue map.offsetToValue offset value
  rw [addOffsetAndScore, if_neg unknown]
  by_cases empty : map.slots = []
  · rw [if_pos empty]
    refine ⟨_, rfl, @Valid.insert _ _ _ valid _ _ absent _ ?_ [] [] ?_ ?_ nofun nofun, values⟩
    · intro slot member
      rw [mem_singleton.mp member]
      exact ⟨rfl, rfl, rfl, rfl⟩
    · simp [entries, empty]
    · simp [Slot.entries]
  · rw [if_neg empty]
    obtain ⟨slot, there, before, after⟩ := addition_slot valid value empty
    have inside := mem_of_getElem? there
    have around := Cuts.around there
    have slotValid := valid.slots slot inside
    have ordered := valid.slot_ordered inside
    obtain ⟨low, high⟩ := withEntry_parts slotValid ordered value
    have grown := valid_insertIntoSlot slotValid ordered offset value
    generalize (map.findRightSlotIndex value true).toNat = index at there before after around
    simp only [there]
    refine ⟨_, rfl, ?_, values⟩
    have parts : (∀ part ∈ (if kRangedMapSlotSize * 2 < (insertIntoSlot slot offset value).valueVec.length then
          [(insertIntoSlot slot offset value).splitHalfToNewSlot.1, (insertIntoSlot slot offset value).splitHalfToNewSlot.2]
          else [insertIntoSlot slot offset value]), part.Valid) ∧
        (if kRangedMapSlotSize * 2 < (insertIntoSlot slot offset value).valueVec.length then
          [(insertIntoSlot slot offset value).splitHalfToNewSlot.1, (insertIntoSlot slot offset value).splitHalfToNewSlot.2]
          else [insertIntoSlot slot offset value]).flatMap Slot.entries = withEntry slot offset value := by
      have whole : (insertIntoSlot slot offset value).entries = withEntry slot offset value := by
        rw [insertIntoSlot_eq slotValid, Slot.entries_mk_map]
      split
      next large =>
        obtain ⟨first, second, both⟩ := valid_splitHalf grown (by rw [kRangedMapSlotSize] at large; omega)
        exact ⟨by simp [first, second], by simp [both, whole]⟩
      next => exact ⟨by simp [grown], by simp [whole]⟩
    refine @Valid.insert _ _ _ valid _ _ absent _ ?_
      ((map.slots.take index).flatMap Slot.entries ++ slot.entries.take (upperBound slot.valueVec value))
      (slot.entries.drop (upperBound slot.valueVec value) ++ (map.slots.drop (index + 1)).flatMap Slot.entries) ?_ ?_ ?_ ?_
    · intro other member
      rcases mem_append.mp member with front | back
      · rcases mem_append.mp front with early | part
        · exact valid.slots other (mem_of_mem_take early)
        · exact parts.1 other part
      · exact valid.slots other (mem_of_mem_drop back)
    · rw [entries]
      conv_lhs => rw [around]
      rw [flatMap_append, flatMap_cons]
      conv_lhs => rw [← take_append_drop (upperBound slot.valueVec value) slot.entries]
      simp only [append_assoc]
    · rw [flatMap_append, flatMap_append, parts.2, withEntry]
      simp only [append_assoc, cons_append]
    · intro entry member
      rcases mem_append.mp member with early | part
      · obtain ⟨other, front, within⟩ := mem_flatMap.mp early
        exact ((valid.between (mem_of_mem_take front)).1 entry within).2.trans (before other front)
      · exact low entry part
    · intro entry member
      rcases mem_append.mp member with part | late
      · exact high entry part
      · obtain ⟨other, back, within⟩ := mem_flatMap.mp late
        exact (after other back).trans ((valid.between (mem_of_mem_drop back)).1 entry within).1

theorem Valid.value_unique {map : RangedMap α} (valid : map.Valid) {offset : Nat} {first second : α}
    (one : (first, offset) ∈ map.entries) (two : (second, offset) ∈ map.entries) : first = second := by
  rw [← valid.values] at one two
  rw [one, Option.some_inj] at two
  exact two

theorem Valid.erase {map : RangedMap α} (valid : map.Valid) {offset : Nat} {value : α} {slots : List (Slot α)}
    (slotsValid : ∀ slot ∈ slots, slot.Valid) {before after : List (α × Nat)}
    (old : map.entries = before ++ (value, offset) :: after) (new : slots.flatMap Slot.entries = before ++ after) :
    Valid ⟨map.offsetToValue.set offset none, slots⟩ := by
  have sublist : (before ++ after).Sublist map.entries := by
    rw [old]
    exact List.Sublist.append_left (sublist_cons_self _ _) before
  have perm : map.entries.Perm ((value, offset) :: slots.flatMap Slot.entries) := by
    rw [old, new]
    exact perm_middle
  have distinct := valid.distinct
  rw [(perm.map Prod.snd).nodup_iff, map_cons, nodup_cons] at distinct
  refine ⟨slotsValid, ?_, distinct.2, ?_⟩
  · rw [entries, new]
    exact valid.ordered.sublist sublist
  · intro other found
    have known := valid.values other found
    rw [perm.mem_iff, mem_cons, Prod.mk.injEq] at known
    rw [valueOf, getElem?_set, entries]
    by_cases same : offset = other
    · subst same
      have gone : (found, offset) ∉ slots.flatMap Slot.entries := fun inside =>
        distinct.1 (mem_map.mpr ⟨_, inside, rfl⟩)
      simp only [gone, iff_false, if_true]
      split <;> simp
    · rw [if_neg same]
      simpa [Ne.symm same, valueOf] using known

theorem lowerBound_eq {slot : Slot α} (valid : slot.Valid) (value : α) :
    lowerBound slot.valueVec value = Cuts.place (fun entry => decide (entry.1 < value)) slot.entries := by
  rw [lowerBound, ← valid.valueVec, takeWhile_map, length_map]
  rfl

theorem eraseFromSlot_spec {slot : Slot α} (valid : slot.Valid) (distinct : (slot.entries.map Prod.snd).Nodup) {place : Nat}
    {entry : α × Nat} (there : slot.entries[place]? = some entry) :
    (∀ part ∈ eraseFromSlot slot place entry.2, part.Valid) ∧
      (eraseFromSlot slot place entry.2).flatMap Slot.entries = slot.entries.take place ++ slot.entries.drop (place + 1) := by
  have rest : slot.entries.eraseIdx place = slot.entries.take place ++ slot.entries.drop (place + 1) :=
    eraseIdx_eq_take_drop_succ _ _
  have values : slot.valueVec.eraseIdx place = (slot.entries.eraseIdx place).map Prod.fst := by
    rw [← valid.valueVec, eraseIdx_map]
  have offsets : slot.offsetVec.eraseIdx place = (slot.entries.eraseIdx place).map Prod.snd := by
    rw [← valid.offsetVec, eraseIdx_map]
  have bits : slot.bitmap.erase entry.2 = ((slot.entries.eraseIdx place).map Prod.snd).toFinset := by
    have apart := distinct
    rw [Cuts.around there, map_append, map_cons, nodup_middle, nodup_cons] at apart
    rw [rest, valid.bitmap, ← valid.offsetVec]
    conv_lhs => rw [Cuts.around there]
    ext other
    simp only [map_append, map_cons, mem_append, mem_toFinset, Finset.mem_erase,
      mem_cons] at apart ⊢
    constructor
    · tauto
    · intro inside
      exact ⟨fun same => apart.1 (same ▸ inside), by tauto⟩
  rw [eraseFromSlot, values, offsets, bits, ← rest]
  cases left : slot.entries.eraseIdx place with
  | nil => simp
  | cons head tail =>
    rw [if_neg (by simp)]
    refine ⟨fun part member => ?_, (append_nil _).trans (Slot.entries_mk_map _ _ _ _)⟩
    rw [mem_singleton.mp member]
    refine Slot.valid_of_entries rfl ?_ rfl
    rw [getLastD_eq_getLast?, map_cons, getLast?_cons]
    rfl

theorem deleteOffset_spec {map : RangedMap α} (valid : map.Valid) (offset : Nat) : (map.deleteOffset offset).Valid ∧
    ∀ other, (map.deleteOffset offset).valueOf other = if other = offset then none else map.valueOf other := by
  have cleared : ∀ other, ((map.offsetToValue.set offset none)[other]?).join =
      if other = offset then none else map.valueOf other := by
    intro other
    rw [getElem?_set, valueOf]
    by_cases same : offset = other
    · subst same
      simp only [if_true]
      split <;> rfl
    · rw [if_neg same, if_neg (Ne.symm same)]
  cases known : map.valueOf offset with
  | none =>
    have unchanged : map.deleteOffset offset = map := by
      have known' : (map.offsetToValue[offset]?).join = none := known
      rw [deleteOffset, known']
      split <;> rfl
    rw [unchanged]
    refine ⟨valid, fun other => ?_⟩
    split
    next same => rw [same, known]
    next => rfl
  | some value =>
    have entry := (valid.values offset value).mp known
    have filled : map.slots ≠ [] := by
      intro empty
      simp [entries, empty] at entry
    have known' : (map.offsetToValue[offset]?).join = some value := known
    -- the slot of the offset is not before the first one that is searched
    obtain ⟨own, ownInside, ownEntry⟩ := mem_flatMap.mp entry
    obtain ⟨index, inside, rfl⟩ := getElem_of_mem ownInside
    have reach : map.findLeftSlotIndex value true ≤ index := by
      rw [findLeftSlotIndex, if_pos rfl, slotLowerBoundIdx_eq valid]
      by_contra before
      have less := (Cuts.lt_place_iff (ordered_right_lt valid value) (getElem?_eq_getElem inside)).mp (by omega)
      have within := ((valid.between ownInside).1 _ ownEntry).2
      simp only [decide_eq_true_eq] at less
      order
    rw [deleteOffset, if_neg filled, known']
    dsimp only
    generalize map.findLeftSlotIndex value true = first at reach
    have hit : ∃ slot ∈ map.slots.drop first, decide (offset ∈ slot.bitmap) = true := by
      refine ⟨map.slots[index], mem_drop_iff_getElem.mpr ⟨index - first, by omega, by congr 1; omega⟩, ?_⟩
      exact decide_eq_true ((valid.slots _ ownInside).mem_bitmap.mpr ⟨value, ownEntry⟩)
    have hits := findIdx?_eq_some_of_exists hit
    generalize List.findIdx (fun slot => decide (offset ∈ slot.bitmap)) (map.slots.drop first) = more at hits
    obtain ⟨less, marked, -⟩ := findIdx?_eq_some_iff_getElem.mp hits
    simp only [length_drop, getElem_drop, decide_eq_true_eq] at less marked
    have there := getElem?_eq_getElem (show first + more < map.slots.length by omega)
    generalize map.slots[first + more] = slot at there marked
    have slotInside := mem_of_getElem? there
    have slotValid := valid.slots slot slotInside
    have within : ∀ other ∈ slot.entries, other ∈ map.entries := fun other member =>
      mem_flatMap.mpr ⟨slot, slotInside, member⟩
    obtain ⟨carried, carries⟩ := slotValid.mem_bitmap.mp marked
    obtain rfl := valid.value_unique (within _ carries) entry
    obtain ⟨place, placed, at'⟩ := getElem_of_mem carries
    have beyond : lowerBound slot.valueVec carried ≤ place := by
      rw [lowerBound_eq slotValid]
      by_contra before
      have early : (carried, offset) ∈
          slot.entries.take (Cuts.place (fun entry => decide (entry.1 < carried)) slot.entries) :=
        mem_take_iff_getElem.mpr ⟨place, by omega, at'⟩
      simpa using passes_of_mem_take early
    have lengths : slot.offsetVec.length = slot.entries.length := by rw [← slotValid.offsetVec, length_map]
    have offsetAt : ∀ place (less : place < slot.offsetVec.length) (inside : place < slot.entries.length),
        slot.offsetVec[place] = (slot.entries[place]).2 := by
      intro place less inside
      simp only [← slotValid.offsetVec, getElem_map]
    have hit : ∃ other ∈ slot.offsetVec.drop (lowerBound slot.valueVec carried), decide (other = offset) = true := by
      refine ⟨offset, mem_drop_iff_getElem.mpr ⟨place - lowerBound slot.valueVec carried, by omega, ?_⟩, by simp⟩
      rw [offsetAt _ _ (by omega)]
      simp only [Nat.add_sub_cancel' beyond, at']
    have hits' := findIdx?_eq_some_of_exists hit
    simp only [hits, there]
    generalize lowerBound slot.valueVec carried = from' at hit hits'
    generalize List.findIdx (fun other => decide (other = offset)) (slot.offsetVec.drop from') = further at hits'
    obtain ⟨less', found, -⟩ := findIdx?_eq_some_iff_getElem.mp hits'
    simp only [length_drop, getElem_drop, decide_eq_true_eq] at less' found
    rw [offsetAt _ _ (by omega)] at found
    have entryAt : slot.entries[from' + further]? = some (carried, offset) := by
      rw [getElem?_eq_getElem (by omega), Option.some_inj]
      have member := within _ (getElem_mem (show from' + further < slot.entries.length by omega))
      generalize slot.entries[from' + further] = other at found member
      obtain ⟨value, other⟩ := other
      subst found
      rw [valid.value_unique member entry]
    have apart : (slot.entries.map Prod.snd).Nodup :=
      valid.distinct.sublist ((sublist_flatten_of_mem (mem_map_of_mem slotInside)).map Prod.snd)
    obtain ⟨parts, remain⟩ := eraseFromSlot_spec slotValid apart entryAt
    simp only [hits']
    refine ⟨@Valid.erase _ _ _ valid _ carried _ ?_
      ((map.slots.take (first + more)).flatMap Slot.entries ++ slot.entries.take (from' + further))
      (slot.entries.drop (from' + further + 1) ++ (map.slots.drop (first + more + 1)).flatMap Slot.entries)
      ?_ ?_, cleared⟩
    · intro other member
      rcases mem_append.mp member with front | back
      · rcases mem_append.mp front with early | part
        · exact valid.slots other (mem_of_mem_take early)
        · exact parts other part
      · exact valid.slots other (mem_of_mem_drop back)
    · rw [entries]
      conv_lhs => rw [Cuts.around there, flatMap_append, flatMap_cons, Cuts.around entryAt]
      simp only [append_assoc, cons_append]
    · rw [flatMap_append, flatMap_append, remain]
      simp only [append_assoc]

end RangedMap

end LoginomDock.VectorIndex
