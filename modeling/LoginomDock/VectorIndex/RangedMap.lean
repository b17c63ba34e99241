import Mathlib.Data.Finset.Basic
import Mathlib.Data.Finset.Range
import Mathlib.Algebra.Order.Field.Rat
import Mathlib.Data.List.Sort
import Mathlib.Algebra.Order.Group.Unbundled.Abs
import Mathlib.Algebra.BigOperators.Group.List.Basic

namespace LoginomDock.VectorIndex

-- A bitmap is the set of its bits, whichever way it stores them.
abbrev Bitmap := Finset Nat

def kRangedMapSlotSize : Nat := 10000

-- The values are compared and never computed with, up to the distances of the sorted results: exact numbers unless said.
structure Slot (α : Type := ℚ) where
  left : α
  right : α
  bitmap : Bitmap
  valueVec : List α
  offsetVec : List Nat
  deriving DecidableEq

-- A value is absent where the source has NaN.
structure RangedMap (α : Type := ℚ) where
  offsetToValue : List (Option α) := []
  slots : List (Slot α) := []
  deriving DecidableEq

section Ordered

variable {α : Type} [LinearOrder α]

/-- `std::lower_bound` over ascending values -/
def lowerBound (values : List α) (value : α) : Nat := (values.takeWhile (· < value)).length

/-- `std::upper_bound` over ascending values -/
def upperBound (values : List α) (value : α) : Nat := (values.takeWhile (· ≤ value)).length

namespace Slot

section

variable (slot : Slot α)

def splitHalfToNewSlot : Slot α × Slot α :=
  let split := slot.valueVec.length / 2
  let values := slot.valueVec.take split
  let offsets := slot.offsetVec.take split
  let newValues := slot.valueVec.drop split
  let newOffsets := slot.offsetVec.drop split
  (⟨slot.left, values.getLastD slot.right, offsets.toFinset, values, offsets⟩,
    ⟨newValues.headD slot.right, newValues.getLastD slot.right, newOffsets.toFinset, newValues, newOffsets⟩)

def getRightBorder (lowerThan : α) (includeLe : Bool) : Nat :=
  if includeLe then upperBound slot.valueVec lowerThan else lowerBound slot.valueVec lowerThan

def getLeftBorder (greaterThan : α) (includeGe : Bool) : Nat :=
  if includeGe then lowerBound slot.valueVec greaterThan else upperBound slot.valueVec greaterThan

def getLowerThanData (lowerThan : α) (includeLe : Bool) : List Nat :=
  slot.offsetVec.take (slot.getRightBorder lowerThan includeLe)

def getGreaterThanData (greaterThan : α) (includeGe : Bool) : List Nat :=
  slot.offsetVec.drop (slot.getLeftBorder greaterThan includeGe)

def getRangeData (lowerThan : α) (includeLe : Bool) (greaterThan : α) (includeGe : Bool) : List Nat :=
  (slot.offsetVec.take (slot.getRightBorder lowerThan includeLe)).drop (slot.getLeftBorder greaterThan includeGe)

def entries : List (α × Nat) := slot.valueVec.zip slot.offsetVec

end

end Slot

namespace RangedMap

def searchSlots (slots : List (Slot α)) (passes stays : Slot α → Bool) : Nat → Nat → Nat → Nat
  | 0, low, _ => low
  | fuel + 1, low, high =>
    if low < high then
      match slots[low + (high - low) / 2]? with
      | none => low
      | some slot =>
        if passes slot then searchSlots slots passes stays fuel (low + (high - low) / 2 + 1) high
        else if stays slot then searchSlots slots passes stays fuel low (low + (high - low) / 2)
        else low + (high - low) / 2
    else low

section

variable (map : RangedMap α)

def slotLowerBoundIdx (value : α) : Nat :=
  searchSlots map.slots (fun slot => slot.right < value) (fun slot => value ≤ slot.left) (map.slots.length + 1) 0
    map.slots.length

def slotUpperBoundIdx (value : α) : Nat :=
  searchSlots map.slots (fun slot => slot.right ≤ value) (fun slot => value < slot.left) (map.slots.length + 1) 0
    map.slots.length

def findRightSlotIndex (lowerThan : α) (includeLe : Bool) : Int :=
  let index := min (if includeLe then map.slotUpperBoundIdx lowerThan else map.slotLowerBoundIdx lowerThan)
    (map.slots.length - 1)
  match map.slots[index]? with
  | none => index
  | some slot =>
    if (if includeLe then lowerThan < slot.left else lowerThan ≤ slot.left) then (index : Int) - 1 else index

def findLeftSlotIndex (greaterThan : α) (includeGe : Bool) : Nat :=
  if includeGe then map.slotLowerBoundIdx greaterThan else map.slotUpperBoundIdx greaterThan

end

def insertIntoSlot (slot : Slot α) (offset : Nat) (value : α) : Slot α where
  left := min value slot.left
  right := max value slot.right
  bitmap := insert offset slot.bitmap
  valueVec := slot.valueVec.insertIdx (upperBound slot.valueVec value) value
  offsetVec := slot.offsetVec.insertIdx (upperBound slot.valueVec value) offset

def withValue (values : List (Option α)) (offset : Nat) (value : α) : List (Option α) :=
  (values ++ List.replicate (offset + 1 - values.length) none).set offset (some value)

def addOffsetAndScore (map : RangedMap α) (offset : Nat) (value : α) : Option (RangedMap α) :=
  if (map.offsetToValue[offset]?).join.isSome then none
  else if map.slots = [] then
    some ⟨withValue map.offsetToValue offset value, [⟨value, value, {offset}, [value], [offset]⟩]⟩
  else
    let index := (map.findRightSlotIndex value true).toNat
    match map.slots[index]? with
    | none => some ⟨withValue map.offsetToValue offset value, map.slots⟩
    | some slot =>
      let grown := insertIntoSlot slot offset value
      let parts := if kRangedMapSlotSize * 2 < grown.valueVec.length then
          [grown.splitHalfToNewSlot.1, grown.splitHalfToNewSlot.2] else [grown]
      some ⟨withValue map.offsetToValue offset value, map.slots.take index ++ parts ++ map.slots.drop (index + 1)⟩

def eraseFromSlot (slot : Slot α) (place : Nat) (offset : Nat) : List (Slot α) :=
  let values := slot.valueVec.eraseIdx place
  let offsets := slot.offsetVec.eraseIdx place
  if values = [] then []
  else [⟨values.headD slot.left, values.getLastD slot.right, slot.bitmap.erase offset, values, offsets⟩]

def deleteOffset (map : RangedMap α) (offset : Nat) : RangedMap α :=
  if map.slots = [] then map
  else match (map.offsetToValue[offset]?).join with
    | none => map
    | some value =>
      let values := map.offsetToValue.set offset none
      let first := map.findLeftSlotIndex value true
      -- a value may be in several slots, and the offset in one of them
      match (map.slots.drop first).findIdx? fun slot => decide (offset ∈ slot.bitmap) with
      | none => ⟨values, map.slots⟩
      | some more =>
        match map.slots[first + more]? with
        | none => ⟨values, map.slots⟩
        | some slot =>
          let from' := lowerBound slot.valueVec value
          match (slot.offsetVec.drop from').findIdx? fun other => decide (other = offset) with
          | none =>
            ⟨values, map.slots.set (first + more) { slot with bitmap := slot.bitmap.erase offset }⟩
          | some further =>
            ⟨values, map.slots.take (first + more) ++ eraseFromSlot slot (from' + further) offset ++
              map.slots.drop (first + more + 1)⟩

section

variable (map : RangedMap α) (rangeOut : Bool) (lowerThan : α) (includeLe : Bool) (greaterThan : α)

def rangeParts (includeGe : Bool) : Bitmap × Int :=
  let rIndex := map.findRightSlotIndex lowerThan includeLe
  let lIndex := map.findLeftSlotIndex greaterThan includeGe
  let whole := if rangeOut then map.slots.take lIndex ++ map.slots.drop (rIndex + 1).toNat
    else (map.slots.drop (lIndex + 1)).take (rIndex - (lIndex + 1)).toNat
  let left := map.slots[lIndex]?
  let right := if rIndex = -1 then none else map.slots[rIndex.toNat]?
  let borders : List Nat × Int :=
    if rangeOut then
      let lower := (left.map fun slot => slot.getLowerThanData greaterThan (!includeGe)).getD []
      let upper := (right.map fun slot => slot.getGreaterThanData lowerThan (!includeLe)).getD []
      (lower ++ upper, lower.length + upper.length)
    else match right, left with
      | some right, some left =>
        if (lIndex : Int) < rIndex then
          let lower := right.getLowerThanData lowerThan includeLe
          let upper := left.getGreaterThanData greaterThan includeGe
          (lower ++ upper, lower.length + upper.length)
        else if (lIndex : Int) = rIndex then
          (right.getRangeData lowerThan includeLe greaterThan includeGe,
            right.getRightBorder lowerThan includeLe - right.getLeftBorder greaterThan includeGe)
        else ([], 0)
      | _, _ => ([], 0)
  (whole.foldr (fun slot bits => slot.bitmap ∪ bits) borders.1.toFinset,
    (whole.map fun slot => (slot.offsetVec.length : Int)).sum + borders.2)

def getRangeBitmap (includeGe : Bool) : Option Bitmap :=
  if map.slots = [] then none
  else
    -- an excluded range given the wrong way round is turned
    let parts := if rangeOut && decide (lowerThan < greaterThan)
      then map.rangeParts rangeOut greaterThan includeGe lowerThan includeLe
      else map.rangeParts rangeOut lowerThan includeLe greaterThan includeGe
    -- the count is unsigned, so an included range given the wrong way round within one slot is not 0
    if parts.2 % 2 ^ 32 = 0 then none else some parts.1

end

end RangedMap

end Ordered

/-- The value of a row, as `get_score_by_offset` tells it: NaN is absent, and a row beyond the last one has
a number of its own. -/
def RangedMap.getScoreByOffset (map : RangedMap) (offset : Nat) : Option ℚ :=
  match map.offsetToValue[offset]? with
  | some value => value
  | none => some (-99999999)

namespace RangedMap

def farFrom (xMap yMap : RangedMap) (x y radius : ℚ) (offset : Nat) : Bool :=
  match (xMap.offsetToValue[offset]?).join, (yMap.offsetToValue[offset]?).join with
  | some px, some py => radius * radius < (px - x) * (px - x) + (py - y) * (py - y)
  | _, _ => false

def getRange2dBitmap (xMap yMap : RangedMap) (x y radius : ℚ) : Option Bitmap :=
  if radius ≤ 0 then none
  else match xMap.getRangeBitmap false (x + radius) true (x - radius) true,
      yMap.getRangeBitmap false (y + radius) true (y - radius) true with
    | some inX, some inY =>
      let near := (inX ∩ inY).filter fun offset => farFrom xMap yMap x y radius offset = false
      if inX = ∅ ∨ inY = ∅ ∨ near = ∅ then none else some near
    | _, _ => none

-- A row and its score; a score is absent where the source has NaN.
structure RecallResult where
  offsets : List Nat
  scores : List (Option ℚ)
  deriving DecidableEq

/-- One slot of the scan of `get_topk_result_with_slot_data`. -/
def scanSlot (skips : Nat → Bool) (topk : Int) : List (ℚ × Nat) → List (ℚ × Nat) → List (ℚ × Nat)
  | [], taken => taken
  | entry :: rest, taken =>
    if skips entry.2 then scanSlot skips topk rest taken
    else if topk ≤ (taken ++ [entry]).length then taken ++ [entry]
    else scanSlot skips topk rest (taken ++ [entry])

def scanSlots (skips : Nat → Bool) (topk : Int) : List (List (ℚ × Nat)) → List (ℚ × Nat) → List (ℚ × Nat)
  | [], taken => taken
  | slot :: rest, taken =>
    if (taken.length : Int) < topk then scanSlots skips topk rest (scanSlot skips topk slot taken) else taken

-- Nothing when the call throws, as it does for a negative number of rows.
def getTopkResult (map : RangedMap) (topk : Int) (orderAsc : Bool) (skips : Nat → Bool) : Option RecallResult :=
  if topk < 0 then none
  else
    let slots := if orderAsc then map.slots.map Slot.entries
      else map.slots.reverse.map fun slot => slot.entries.reverse
    let taken := scanSlots skips topk slots []
    some ⟨taken.map Prod.snd, taken.map fun entry => some entry.1⟩

/-- One slot of the scan of `get_topk_result_with_slot_data_with_conditions`, with the last score. -/
def scanSlotTied (skips : Nat → Bool) (topk : Int) : List (ℚ × Nat) → List Nat → ℚ → List Nat × ℚ
  | [], taken, last => (taken, last)
  | entry :: rest, taken, last =>
    if skips entry.2 then scanSlotTied skips topk rest taken last
    else
      let more := taken ++ [entry.2]
      if topk * 2 ≤ more.length then (more, last)
      else if max topk 1 < more.length ∧ last ≠ entry.1 then (more, last)
      else scanSlotTied skips topk rest more entry.1

def scanSlotsTied (skips : Nat → Bool) (topk : Int) : List (List (ℚ × Nat)) → List Nat → ℚ → List Nat
  | [], taken, _ => taken
  | slot :: rest, taken, last =>
    if (taken.length : Int) < topk * 2 then
      let scanned := scanSlotTied skips topk slot taken last
      scanSlotsTied skips topk rest scanned.1 scanned.2
    else taken

/-- The comparison of `sort_with_conditions`; a missing value differs from every value. -/
def comesFirst (conditions : List (RangedMap × Bool)) (left right : Nat) : Bool :=
  match conditions with
  | [] => false
  | (map, asc) :: rest =>
    match map.getScoreByOffset left, map.getScoreByOffset right with
    | some l, some r => if l ≠ r then xor (decide (r < l)) asc else comesFirst rest left right
    | _, _ => asc

/-- The algorithms of the standard library that the sorter uses: the order in which `std::sort` leaves a
vector and the order in which a `std::priority_queue` gives its elements away. -/
structure StdOrder where
  sort : (Nat → Nat → Bool) → List Nat → List Nat
  popAll : (Nat → Nat → Bool) → List Nat → List Nat

structure StrictWeak (less : Nat → Nat → Bool) (items : List Nat) : Prop where
  irrefl : ∀ a ∈ items, less a a = false
  trans : ∀ a ∈ items, ∀ b ∈ items, ∀ c ∈ items, less a b → less b c → less a c
  incomparable : ∀ a ∈ items, ∀ b ∈ items, ∀ c ∈ items, less a c → less a b ∨ less b c

-- What is documented of the algorithms: they permute the elements, and a comparison that is a strict weak order is
-- respected.
structure StdOrder.Lawful (std : StdOrder) : Prop where
  sort_perm : ∀ less items, (std.sort less items).Perm items
  sort_ordered : ∀ less items, StrictWeak less items → (std.sort less items).Pairwise fun a b => less b a = false
  popAll_perm : ∀ less items, (std.popAll less items).Perm items
  popAll_ordered : ∀ less items, StrictWeak less items →
    (std.popAll less items).Pairwise fun a b => less a b = false

def sortWithConditions (std : StdOrder) (map : RangedMap) (offsets : List Nat) (topk : Int) (thisOrderAsc : Bool)
    (conditions : List (RangedMap × Bool)) : RecallResult :=
  let sorted := (std.sort (comesFirst ((map, thisOrderAsc) :: conditions)) offsets).take topk.toNat
  ⟨sorted, sorted.map map.getScoreByOffset⟩

def getTopkResultWithConditions (std : StdOrder) (map : RangedMap) (topk : Int) (thisOrderAsc : Bool)
    (skips : Nat → Bool) (conditions : List (RangedMap × Bool)) : Option RecallResult :=
  if topk < 0 then none
  else
    let slots := if thisOrderAsc then map.slots.map Slot.entries
      else map.slots.map fun slot => slot.entries.reverse
    some (map.sortWithConditions std (scanSlotsTied skips topk slots [] 0) topk thisOrderAsc conditions)

def mergeAround (center : ℚ) : Nat → List (ℚ × Nat) → List (ℚ × Nat) → List (ℚ × Nat)
  | 0, _, _ => []
  | _ + 1, [], [] => []
  | more + 1, l :: left, [] => l :: mergeAround center more left []
  | more + 1, [], r :: right => r :: mergeAround center more [] right
  | more + 1, l :: left, r :: right =>
    if |center - l.1| ≤ |center - r.1| then l :: mergeAround center more left (r :: right)
    else r :: mergeAround center more (l :: left) right

-- Nothing when the call throws, or reads a slot beyond the last one: it does when the center is the greatest value.
def getTopkResultCenter1d (map : RangedMap) (topk : Int) (center : ℚ) (skips : Nat → Bool) : Option RecallResult :=
  if map.slots = [] then some ⟨[], []⟩
  else if topk < 0 then none
  else
    let all := map.slots.flatMap Slot.entries
    if ((all.head?).map Prod.fst).any (· ≤ center) && ((all.getLast?).map Prod.fst).any (· = center) then none
    else
      let keeps := fun entry : ℚ × Nat => !skips entry.2
      let below := all.takeWhile fun entry => entry.1 < center
      let equal := (all.drop below.length).takeWhile fun entry => entry.1 ≤ center
      let above := all.drop (below.length + equal.length)
      let same := (equal.filter keeps).take topk.toNat
      let taken := same ++ mergeAround center (topk.toNat - same.length) (below.reverse.filter keeps)
        (above.filter keeps)
      some ⟨taken.map Prod.snd, taken.map fun entry => some entry.1⟩

end RangedMap

end LoginomDock.VectorIndex
