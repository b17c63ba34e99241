import Mathlib.Data.List.Basic
import Mathlib.Tactic.Ring
import Mathlib.Algebra.Order.Ring.Nat

/-! Numbers of a fixed width, least significant byte first, and a buffer that is written in places. -/

namespace LoginomDock

open List

abbrev Bytes := List UInt8

namespace Bytes

def littleEndian : Nat → Nat → Bytes
  | 0, _ => []
  | width + 1, number => UInt8.ofNat number :: littleEndian width (number / 256)

def number : Bytes → Nat
  | [] => 0
  | byte :: rest => byte.toNat + 256 * number rest

@[simp] theorem length_littleEndian (width value : Nat) : (littleEndian width value).length = width := by
  induction width generalizing value with
  | zero => rfl
  | succ width ih => simp [littleEndian, ih]

@[simp] theorem number_littleEndian (width value : Nat) : number (littleEndian width value) = value % 256 ^ width := by
  induction width generalizing value with
  | zero => simp [littleEndian, number, Nat.mod_one]
  | succ width ih =>
    have low : (UInt8.ofNat value).toNat = value % 256 := by simp
    rw [littleEndian, number, ih, low, Nat.pow_succ', Nat.mod_mul]

theorem littleEndian_number (data : Bytes) : littleEndian data.length (number data) = data := by
  induction data with
  | nil => rfl
  | cons byte rest ih =>
    have low : UInt8.ofNat (byte.toNat + 256 * number rest) = byte := by
      apply UInt8.toNat_inj.mp
      have small := byte.toNat_lt
      simp only [UInt8.toNat_ofNat']
      omega
    have high : (byte.toNat + 256 * number rest) / 256 = number rest := by
      have small := byte.toNat_lt
      omega
    rw [length_cons, number, littleEndian, low, high, ih]

-- Most significant byte first: the order of the network.
def bigEndian (width value : Nat) : Bytes := (littleEndian width value).reverse

def bigEndianNumber (data : Bytes) : Nat := number data.reverse

@[simp] theorem length_bigEndian (width value : Nat) : (bigEndian width value).length = width := by
  simp [bigEndian]

@[simp] theorem bigEndianNumber_bigEndian (width value : Nat) :
    bigEndianNumber (bigEndian width value) = value % 256 ^ width := by
  simp [bigEndian, bigEndianNumber]

theorem bigEndian_bigEndianNumber (data : Bytes) : bigEndian data.length (bigEndianNumber data) = data := by
  have back := littleEndian_number data.reverse
  rw [length_reverse] at back
  rw [bigEndian, bigEndianNumber, back, reverse_reverse]

theorem bigEndianNumber_lt (data : Bytes) : bigEndianNumber data < 256 ^ data.length := by
  have back := bigEndianNumber_bigEndian data.length (bigEndianNumber data)
  rw [bigEndian_bigEndianNumber] at back
  rw [back]
  exact Nat.mod_lt _ (Nat.pow_pos (by decide))

def slice (data : Bytes) (offset width : Nat) : Bytes := (data.drop offset).take width

/-- `data[start..stop]`. -/
def between (data : Bytes) (start stop : Nat) : Bytes := (data.take stop).drop start

variable {data : Bytes}

theorem length_between {start stop : Nat} (inside : stop ≤ data.length) :
    (between data start stop).length = stop - start := by
  rw [between, length_drop, length_take]
  omega

theorem between_append (before content after : Bytes) {start : Nat} (cut : data = before ++ content ++ after)
    (here : before.length = start) : between data start (start + content.length) = content := by
  subst cut here
  rw [between, ← length_append, take_left, drop_left]

theorem take_append_between (data : Bytes) {start stop : Nat} (ordered : start ≤ stop) :
    data.take start ++ between data start stop = data.take stop := by
  have early : data.take start = (data.take stop).take start := by
    rw [take_take, Nat.min_eq_left ordered]
  rw [early, between, take_append_drop]

theorem slice_take (data : Bytes) {offset width stop : Nat} (inside : offset + width ≤ stop) :
    slice (data.take stop) offset width = slice data offset width := by
  rw [slice, slice, drop_take, take_take, Nat.min_eq_left (by omega)]

variable {offset : Nat}

theorem slice_one (inside : offset < data.length) : slice data offset 1 = [data.getD offset 0] := by
  rw [slice, take_one, head?_drop]
  simp [inside]

/-- `memcpy` into a buffer that is large enough. -/
def write (data : Bytes) (offset : Nat) (content : Bytes) : Bytes :=
  data.take offset ++ content ++ data.drop (offset + content.length)

def writeAll (data : Bytes) (writes : List (Nat × Bytes)) : Bytes :=
  writes.foldl (fun data place => data.write place.1 place.2) data

def Inside (data : Bytes) (place : Nat × Bytes) : Prop := place.1 + place.2.length ≤ data.length

def Apart (first second : Nat × Bytes) : Prop :=
  first.1 + first.2.length ≤ second.1 ∨ second.1 + second.2.length ≤ first.1

theorem getElem?_slice (data : Bytes) (offset width i : Nat) :
    (slice data offset width)[i]? = if i < width then data[offset + i]? else none := by
  simp [slice, getElem?_take]

theorem getElem?_write {content : Bytes} (inside : Inside data (offset, content)) (i : Nat) :
    (write data offset content)[i]? =
      if i < offset then data[i]? else if i < offset + content.length then content[i - offset]? else data[i]? := by
  have bound : offset + content.length ≤ data.length := inside
  rw [write, append_assoc]
  by_cases before : i < offset
  · rw [getElem?_append_left (by simp; omega), if_pos before, getElem?_take_of_lt before]
  · rw [getElem?_append_right (by simp; omega), if_neg before, length_take, Nat.min_eq_left (by omega)]
    by_cases within : i < offset + content.length
    · rw [if_pos within, getElem?_append_left (by omega)]
    · rw [if_neg within, getElem?_append_right (by omega), getElem?_drop]
      congr 1
      omega

variable {place : Nat × Bytes}

theorem length_write (inside : Inside data place) :
    (write data place.1 place.2).length = data.length := by
  have bound : place.1 + place.2.length ≤ data.length := inside
  simp only [write, length_append, length_take, length_drop]
  omega

theorem slice_write_self (inside : Inside data place) :
    slice (write data place.1 place.2) place.1 place.2.length = place.2 := by
  refine ext_getElem? fun i => ?_
  rw [getElem?_slice, getElem?_write inside]
  by_cases within : i < place.2.length
  · simp [within]
  · simp [within]

theorem slice_write_apart {offset width : Nat} (inside : Inside data place)
    (apart : offset + width ≤ place.1 ∨ place.1 + place.2.length ≤ offset) :
    slice (write data place.1 place.2) offset width = slice data offset width := by
  refine ext_getElem? fun i => ?_
  rw [getElem?_slice, getElem?_slice]
  by_cases within : i < width
  · rw [if_pos within, if_pos within, getElem?_write inside]
    rcases apart with before | after
    · rw [if_pos (by omega)]
    · rw [if_neg (by omega), if_neg (by omega)]
  · rw [if_neg within, if_neg within]

theorem slice_slice {data content : Bytes} {offset start width : Nat}
    (holds : slice data offset content.length = content) (fits : start + width ≤ content.length) :
    slice data (offset + start) width = slice content start width := by
  refine ext_getElem? fun i => ?_
  rw [getElem?_slice, getElem?_slice, ← holds, getElem?_slice, Nat.add_assoc]
  by_cases within : i < width
  · simp only [within, if_true]
    rw [if_pos (by omega)]
  · simp [within]

theorem slice_append {data first second : Bytes} (holdsFirst : slice data offset first.length = first)
    (holdsSecond : slice data (offset + first.length) second.length = second) :
    slice data offset (first ++ second).length = first ++ second := by
  rw [slice] at holdsFirst holdsSecond
  rw [slice, length_append, take_add, drop_drop, holdsFirst, holdsSecond]

@[simp] theorem slice_all (data : Bytes) : slice data 0 data.length = data := by
  simp [slice]

variable {writes : List (Nat × Bytes)}

theorem length_writeAll (inside : ∀ place ∈ writes, Inside data place) :
    (writeAll data writes).length = data.length := by
  induction writes generalizing data with
  | nil => rfl
  | cons place rest ih =>
    have here := length_write (inside place (by simp))
    rw [writeAll, foldl_cons]
    refine (ih fun other member => ?_).trans here
    rw [Inside, here]
    exact inside other (by simp [member])

theorem slice_writeAll_apart {offset width : Nat}
    (inside : ∀ place ∈ writes, Inside data place)
    (apart : ∀ place ∈ writes, offset + width ≤ place.1 ∨ place.1 + place.2.length ≤ offset) :
    slice (writeAll data writes) offset width = slice data offset width := by
  induction writes generalizing data with
  | nil => rfl
  | cons place rest ih =>
    have here := inside place (by simp)
    rw [writeAll, foldl_cons]
    refine (ih (fun other member => ?_) fun other member => apart other (by simp [member])).trans
      (slice_write_apart here (apart place (by simp)))
    rw [Inside, length_write here]
    exact inside other (by simp [member])

theorem slice_writeAll (inside : ∀ place ∈ writes, Inside data place)
    (apart : writes.Pairwise Apart) (member : place ∈ writes) :
    slice (writeAll data writes) place.1 place.2.length = place.2 := by
  induction writes generalizing data with
  | nil => simp at member
  | cons first rest ih =>
    have here := inside first (by simp)
    have insideRest : ∀ other ∈ rest, Inside (write data first.1 first.2) other := by
      intro other later
      rw [Inside, length_write here]
      exact inside other (by simp [later])
    obtain ⟨apartFirst, apartRest⟩ := pairwise_cons.mp apart
    rw [writeAll, foldl_cons]
    rcases mem_cons.mp member with rfl | later
    · exact (slice_writeAll_apart insideRest apartFirst).trans (slice_write_self here)
    · exact ih insideRest apartRest later

end Bytes

end LoginomDock
