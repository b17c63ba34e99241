import LoginomDock.VectorIndex.RangeAnswers

namespace LoginomDock.VectorIndex

open List

variable {α : Type} [LinearOrder α]

inductive RangedCall (α : Type) where
  | add (offset : UInt32) (value : α)
  | delete (offset : UInt32)

namespace RangedCall

def Bounded : RangedCall α → Prop
  | add offset _ => offset + 1 ≠ 0
  | delete _ => True

-- The values of the rows, without slots: an addition to a row that has a value changes nothing.
def apply (held : Nat → Option α) : RangedCall α → Nat → Option α
  | add offset value, other => if other = offset.toNat ∧ held other = none then some value else held other
  | delete offset, other => if other = offset.toNat then none else held other

def heldBy (calls : List (RangedCall α)) : Nat → Option α := calls.foldl apply fun _ => none

end RangedCall

namespace RangedMap

-- Nothing when a call writes outside of a vector. With the last offset `offset + 1` is 0: the vector is resized to nothing, and
-- the value is written behind it.
def call (map : RangedMap α) : RangedCall α → Option (RangedMap α)
  | .add offset value =>
    if map.offsetToValue.length ≤ offset.toNat ∧ offset + 1 = 0 then none
    else some ((map.addOffsetAndScore offset.toNat value).getD map)
  | .delete offset => some (map.deleteOffset offset.toNat)

def run (map : RangedMap α) : List (RangedCall α) → Option (RangedMap α)
  | [] => some map
  | call :: rest => (map.call call).bind fun after => after.run rest

structure Kept (map : RangedMap α) (held : Nat → Option α) : Prop where
  filled : ∀ slot ∈ map.slots, slot.valueVec ≠ []
  ascending : ∀ slot ∈ map.slots, slot.valueVec.Pairwise (· ≤ ·)
  borders : ∀ slot ∈ map.slots, slot.valueVec.head? = some slot.left ∧ slot.valueVec.getLast? = some slot.right
  apart : map.slots.Pairwise fun first second => first.right ≤ second.left
  -- a value for each offset, and the one that the row has
  matched : ∀ slot ∈ map.slots, slot.offsetVec.map held = slot.valueVec.map some
  bits : ∀ slot ∈ map.slots, slot.bitmap = slot.offsetVec.toFinset
  -- each row that has a value is in one slot, once
  once : (map.slots.flatMap Slot.offsetVec).Nodup
  covered : ∀ offset, offset ∈ map.slots.flatMap Slot.offsetVec ↔ (held offset).isSome
  values : ∀ offset, map.valueOf offset = held offset

variable {map : RangedMap α} {held : Nat → Option α}

theorem Valid.offsets (valid : map.Valid) : map.slots.flatMap Slot.offsetVec = map.entries.map Prod.snd := by
  rw [entries, map_flatMap]
  exact flatMap_congr fun slot inside => (valid.slots slot inside).offsetVec.symm

theorem Valid.kept (valid : map.Valid) (values : ∀ offset, map.valueOf offset = held offset) : map.Kept held where
  filled slot inside empty := by
    have head := (valid.slots slot inside).left
    rw [empty] at head
    cases head
  ascending slot inside := by
    rw [← (valid.slots slot inside).valueVec]
    exact pairwise_map.mpr (valid.slot_ordered inside)
  borders slot inside := ⟨(valid.slots slot inside).left, (valid.slots slot inside).right⟩
  apart := valid.borders
  matched slot inside := by
    rw [← (valid.slots slot inside).offsetVec, ← (valid.slots slot inside).valueVec, map_map, map_map]
    refine map_congr_left fun entry member => ?_
    have row : entry ∈ map.entries := mem_flatMap.mpr ⟨slot, inside, member⟩
    exact (values entry.2).symm.trans ((valid.values entry.2 entry.1).mpr row)
  bits slot inside := (valid.slots slot inside).bitmap
  once := valid.offsets ▸ valid.distinct
  covered offset := by
    rw [valid.offsets, ← values, Option.isSome_iff_exists, mem_map]
    constructor
    · rintro ⟨entry, member, rfl⟩
      exact ⟨entry.1, (valid.values _ _).mpr member⟩
    · rintro ⟨value, known⟩
      exact ⟨(value, offset), (valid.values _ _).mp known, rfl⟩
  values := values

-- The vector of the values stays shorter than a number of 32 bits can say.
def Small (map : RangedMap α) : Prop := map.offsetToValue.length < 2 ^ 32

omit [LinearOrder α] in
theorem length_withValue (values : List (Option α)) (offset : Nat) (value : α) :
    (withValue values offset value).length = max values.length (offset + 1) := by
  rw [withValue, length_set, List.length_append, length_replicate]
  omega

theorem small_addOffsetAndScore {offset : Nat} {value : α} {after : RangedMap α} (small : map.Small) (bound : offset + 1 < 2 ^ 32)
    (added : map.addOffsetAndScore offset value = some after) : after.Small := by
  have same : after.offsetToValue = withValue map.offsetToValue offset value := by
    rw [addOffsetAndScore] at added
    split at added
    · cases added
    · split at added
      · cases added
        rfl
      · simp only at added
        split at added <;> cases added <;> rfl
  rw [Small, same, length_withValue]
  exact max_lt small bound

theorem small_deleteOffset (small : map.Small) (offset : Nat) : (map.deleteOffset offset).Small := by
  have cleared : (map.offsetToValue.set offset none).length < 2 ^ 32 := by rwa [length_set]
  rw [deleteOffset]
  split
  · exact small
  · split
    · exact small
    · simp only
      split
      · exact cleared
      · split
        · exact cleared
        · split <;> exact cleared

structure Sound (map : RangedMap α) (held : Nat → Option α) : Prop where
  valid : map.Valid
  values : ∀ offset, map.valueOf offset = held offset
  small : map.Small

theorem sound_empty : Sound ({} : RangedMap α) fun _ => none where
  valid := valid_empty
  values offset := by simp [valueOf]
  small := Nat.two_pow_pos 32

theorem Sound.call (sound : map.Sound held) (call : RangedCall α) (bounded : call.Bounded) :
    ∃ after, map.call call = some after ∧ after.Sound (call.apply held) := by
  obtain ⟨valid, values, small⟩ := sound
  cases call with
  | delete offset =>
    obtain ⟨validAfter, valuesAfter⟩ := deleteOffset_spec valid offset.toNat
    refine ⟨_, rfl, validAfter, fun other => ?_, small_deleteOffset small _⟩
    rw [valuesAfter, values, RangedCall.apply]
  | add offset value =>
    have next : ¬ (map.offsetToValue.length ≤ offset.toNat ∧ offset + 1 = 0) := fun overflow => bounded overflow.2
    have room : offset.toNat + 1 < 2 ^ 32 := by
      have notLast : offset.toNat ≠ 2 ^ 32 - 1 := fun last => bounded (UInt32.toNat_inj.mp (by simp [last]))
      have below := offset.toNat_lt
      omega
    rw [RangedMap.call, if_neg next]
    cases known : map.valueOf offset.toNat with
    | none =>
      obtain ⟨after, added, validAfter, valuesAfter⟩ := addOffsetAndScore_spec valid value known
      refine ⟨after, by rw [added, Option.getD_some], validAfter, fun other => ?_, small_addOffsetAndScore small room added⟩
      rw [valuesAfter, values, RangedCall.apply]
      rw [values] at known
      by_cases same : other = offset.toNat
      · rw [if_pos same, if_pos ⟨same, same ▸ known⟩]
      · rw [if_neg same, if_neg fun both => same both.1]
    | some old =>
      have unchanged : map.addOffsetAndScore offset.toNat value = none := by
        have known' : (map.offsetToValue[offset.toNat]?).join = some old := known
        rw [addOffsetAndScore, if_pos (by rw [known']; rfl)]
      refine ⟨map, by rw [unchanged, Option.getD_none], valid, fun other => ?_, small⟩
      rw [values] at known
      have taken : ¬ (other = offset.toNat ∧ held other = none) := by
        rintro ⟨rfl, absent⟩
        rw [absent] at known
        cases known
      rw [RangedCall.apply, if_neg taken, values]

theorem Small.call_last (small : map.Small) {call : RangedCall α} (unbounded : ¬ call.Bounded) : map.call call = none := by
  cases call with
  | delete offset => exact absurd trivial unbounded
  | add offset value =>
    have next : offset + 1 = 0 := not_not.mp unbounded
    have last : offset.toNat = 2 ^ 32 - 1 := by
      have sum := congrArg UInt32.toNat next
      have below := offset.toNat_lt
      rw [UInt32.toNat_add] at sum
      simp at sum
      omega
    rw [Small] at small
    rw [RangedMap.call, if_pos ⟨by omega, next⟩]

theorem Sound.run {calls : List (RangedCall α)} (sound : map.Sound held) (bounded : ∀ call ∈ calls, call.Bounded) :
    ∃ after, map.run calls = some after ∧ after.Sound (calls.foldl RangedCall.apply held) := by
  induction calls generalizing map held with
  | nil => exact ⟨map, rfl, sound⟩
  | cons call rest ih =>
    obtain ⟨middle, called, soundMiddle⟩ := sound.call call (bounded call mem_cons_self)
    obtain ⟨after, ran, soundAfter⟩ := ih soundMiddle fun other member => bounded other (mem_cons_of_mem _ member)
    exact ⟨after, by rw [RangedMap.run, called, Option.bind_some, ran], soundAfter⟩

theorem Sound.bounded {calls : List (RangedCall α)} (sound : map.Sound held) {after : RangedMap α}
    (ran : map.run calls = some after) : ∀ call ∈ calls, call.Bounded := by
  induction calls generalizing map held with
  | nil => exact nofun
  | cons call rest ih =>
    by_cases bounded : call.Bounded
    · obtain ⟨middle, called, soundMiddle⟩ := sound.call call bounded
      rw [RangedMap.run, called, Option.bind_some] at ran
      intro other member
      rcases mem_cons.mp member with rfl | later
      · exact bounded
      · exact ih soundMiddle ran other later
    · rw [RangedMap.run, sound.small.call_last bounded] at ran
      cases ran

theorem Sound.few (sound : map.Sound held) : map.entries.length < 2 ^ 32 := by
  have places : (map.entries.map Prod.snd).Subperm (List.range map.offsetToValue.length) := by
    refine sound.valid.distinct.subperm fun offset member => ?_
    obtain ⟨entry, inside, rfl⟩ := mem_map.mp member
    have known := (sound.valid.values entry.2 entry.1).mpr inside
    rw [mem_range]
    by_contra beyond
    rw [valueOf, getElem?_eq_none (by omega)] at known
    cases known
  have count := places.length_le
  rw [length_map, length_range] at count
  exact count.trans_lt sound.small

theorem ranged_map_exact_iff (calls : List (RangedCall α)) :
    (∃ map, run {} calls = some map ∧ map.Kept (RangedCall.heldBy calls) ∧
      ∀ rangeOut lowerThan includeLe greaterThan includeGe, greaterThan ≤ lowerThan →
        map.Exact rangeOut lowerThan includeLe greaterThan includeGe) ↔
    (∀ call ∈ calls, call.Bounded) ∧ ∀ map, run {} calls = some map → ∀ value, ¬ map.Wraps value := by
  constructor
  · rintro ⟨map, ran, _, exact'⟩
    have bounded := sound_empty.bounded ran
    refine ⟨bounded, fun other again value wraps => ?_⟩
    obtain ⟨after, ranAfter, sound⟩ := sound_empty.run bounded
    cases ran.symm.trans again
    cases ran.symm.trans ranAfter
    have answer := exact' true value false value false le_rfl
    rw [exact_out_iff sound.valid _ _ _ _ le_rfl sound.few] at answer
    exact answer ⟨rfl, rfl, rfl, wraps⟩
  · rintro ⟨bounded, unwrapped⟩
    obtain ⟨map, ran, sound⟩ := sound_empty.run bounded
    refine ⟨map, ran, sound.valid.kept sound.values, fun rangeOut lowerThan includeLe greaterThan includeGe ordered => ?_⟩
    cases rangeOut with
    | false => exact exact_in sound.valid _ _ _ _ sound.few
    | true =>
      rw [exact_out_iff sound.valid _ _ _ _ ordered sound.few]
      rintro ⟨-, -, -, wraps⟩
      exact unwrapped map ran _ wraps

theorem last_offset_written_outside : ¬ ∃ map, run ({} : RangedMap ℚ) [.add 4294967295 1] = some map ∧
    map.Kept (RangedCall.heldBy [.add 4294967295 1]) ∧
      ∀ rangeOut lowerThan includeLe greaterThan includeGe, greaterThan ≤ lowerThan →
        map.Exact rangeOut lowerThan includeLe greaterThan includeGe := by
  rintro ⟨map, ran, -⟩
  rw [run, RangedMap.call, if_pos (by decide)] at ran
  cases ran

end RangedMap

end LoginomDock.VectorIndex
