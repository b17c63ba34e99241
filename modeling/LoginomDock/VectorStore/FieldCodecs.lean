import LoginomDock.Library.Checked
import LoginomDock.VectorStore.PyBytesRow
import LoginomDock.VectorStore.RowRoundTrip

namespace LoginomDock.VectorStore

open Bytes List Value

def FitsSingle (value : PyValue) : Prop := ∀ double, value.double = .ok double → tooLargeForSingle double = false

def FitsUint16 (value : PyValue) : Prop := ∀ text, value = .str text → (encodeUtf8 text).length ≤ stringMaxUint16Length

def SequenceFits (fits : PyValue → Prop) (value : PyValue) : Prop :=
  ∀ items, value.items = .ok items → items.length ≤ 65535 ∧ ∀ item ∈ items, fits item

-- Values may be of another type, as long as both codecs refuse them.
def Fits (dataType : FieldType) (value : PyValue) : Prop :=
  match dataType with
  | .int64 | .uint64 => True
  | .float32 => FitsSingle value
  | .string | .text => ∀ content, value ≠ .bytes content
  | .binary => ∀ text, value ≠ .str text
  | .boolean => (∃ flag, value = .bool flag) ∨ value = .int 0 ∨ value = .int 1
  | .listInt64 => SequenceFits (fun _ => True) value
  | .listFloat32 => SequenceFits FitsSingle value
  | .listString => SequenceFits FitsUint16 value

def textSize : PyValue → Nat
  | .str text => (encodeUtf8 text).length
  | .bytes content => content.length
  | _ => 0

def itemsOf (value : PyValue) : List PyValue := value.items.toOption.getD []

-- How much room a value takes in the variable region.
def contentSize (dataType : FieldType) (value : PyValue) : Nat :=
  match dataType with
  | .int64 | .uint64 | .float32 | .boolean => 0
  | .string => 2 + textSize value
  | .binary | .text => 4 + textSize value
  | .listInt64 => 2 + (itemsOf value).length * 8
  | .listFloat32 => 2 + (itemsOf value).length * 4
  | .listString => 2 + ((itemsOf value).map fun item => 2 + textSize item).sum

theorem packInt64_eq (value : PyValue) :
    packInt64 value = (pyToInt64 value).map fun bits => littleEndian 8 bits.toNat := by
  rw [packInt64, pyToInt64]
  cases value.index with
  | error error => simp
  | ok number =>
    rw [ok_bind, ok_bind]
    split <;> simp

theorem packUint64_eq (value : PyValue) :
    packUint64 value = (pyToUint64 value).map fun bits => littleEndian 8 bits.toNat := by
  rw [packUint64, pyToUint64]
  cases value.index with
  | error error => simp
  | ok number =>
    rw [ok_bind, ok_bind, packUnsigned, show (256 : Int) ^ 8 = 2 ^ 64 from rfl]
    by_cases inRange : 0 ≤ number ∧ number < 2 ^ 64
    · have same : (BitVec.ofInt 64 number).toNat = number.toNat := by
        rw [BitVec.toNat_ofInt]
        omega
      rw [if_pos inRange, if_pos inRange, pure_eq_ok, map_ok, same]
    · rw [if_neg inRange, if_neg inRange, throw_eq_error, map_error]

variable {value : PyValue}

theorem packFloat32_eq (fits : FitsSingle value) :
    packFloat32 value = (pyToFloat value).map fun bits => littleEndian 4 bits.toNat := by
  rw [packFloat32, pyToFloat]
  cases isDouble : value.double with
  | error error => simp
  | ok double => simp [fits double isDouble]

variable {content : Bytes}

theorem prefixed_eq {width : Nat} (small : content.length < 256 ^ width) :
    prefixed width content = littleEndian width content.length ++ content := by
  rw [prefixed, take_mod small]

theorem packCounted_eq {width : Nat} (small : content.length < 256 ^ width) :
    packCounted width content = .ok (prefixed width content) := by
  have inRange : (0 : Int) ≤ content.length ∧ (content.length : Int) < 256 ^ width := by
    refine ⟨Int.natCast_nonneg _, ?_⟩
    exact_mod_cast small
  rw [packCounted, packUnsigned, if_pos inRange, prefixed_eq small]
  simp [bind, Except.bind, pure, Except.pure]

theorem packText_eq {fieldName : Text} (fits : FitsUint16 value) :
    packText fieldName value = (pyToString false value).map (prefixed 2) := by
  cases value with
  | str text =>
    have short := fits text rfl
    rw [packText, PyValue.encode]
    simp only [bind, Except.bind]
    rw [if_neg (by omega), packCounted_eq (Nat.lt_succ_of_le short)]
    rfl
  | _ => rfl

variable {items : List PyValue} {α : Type} {convert : PyValue → Except PyError α}

theorem packAll_eq {pack : PyValue → Except PyError Bytes}
    {write : α → Bytes} (same : ∀ item ∈ items, pack item = (convert item).map write) :
    packAll pack items = (items.mapM convert).map fun values => values.flatMap write := by
  induction items with
  | nil => rfl
  | cons item rest ih =>
    rw [packAll, same item mem_cons_self, ih fun other later => same other (mem_cons_of_mem _ later),
      mapM_cons]
    cases convert item with
    | error error => rfl
    | ok value =>
      cases rest.mapM convert with
      | error error => rfl
      | ok values => rfl

theorem length_of_mapM {values : List α}
    (converted : items.mapM convert = .ok values) : values.length = items.length := by
  induction items generalizing values with
  | nil =>
    cases converted
    rfl
  | cons item rest ih =>
    rw [mapM_cons] at converted
    cases first : convert item with
    | error error => simp [first, bind, Except.bind] at converted
    | ok value =>
      cases others : rest.mapM convert with
      | error error => simp [first, others, bind, Except.bind] at converted
      | ok later =>
        simp only [first, others, bind, Except.bind, pure, Except.pure, Except.ok.injEq] at converted
        rw [← converted, length_cons, length_cons, ih others]

-- What `_PyBytesRow` adds to the two regions.
def pyPieces (info : PyFieldMeta) (value : PyValue) (offset : Nat) : Except PyError (Bytes × Bytes) := do
  let varPart ← pyVariable info value
  let fixedPart ← pyFixed info value offset
  pure (fixedPart, varPart)

def nativePieces (info : FieldMeta) (value : Value) (offset : Nat) : Option (Bytes × Bytes) := do
  let _ ← (varLength info value).toOption
  pure (fixedBytes info.dataType value offset, varBytes info.dataType value)

theorem countedNumbers_eq {size width : Nat} {values : List (BitVec size)} (small : values.length ≤ 65535) :
    countedNumbers width values =
      littleEndian 2 values.length ++ values.flatMap fun bits => littleEndian width bits.toNat := by
  rw [countedNumbers, (take_mod_iff values).mpr (by omega)]

theorem packUnsigned_eq {width number : Nat} (small : number < 256 ^ width) :
    packUnsigned width number = .ok (littleEndian width number) := by
  have inRange : (0 : Int) ≤ number ∧ (number : Int) < 256 ^ width := by
    refine ⟨Int.natCast_nonneg _, ?_⟩
    exact_mod_cast small
  rw [packUnsigned, if_pos inRange]
  simp

theorem packList_eq {pack : PyValue → Except PyError Bytes}
    {write : α → Bytes} {fits : PyValue → Prop}
    (same : ∀ item, fits item → pack item = (convert item).map write) (sequence : SequenceFits fits value) :
    packList pack value = (value.items >>= fun items => items.mapM convert).map fun values =>
      littleEndian 2 values.length ++ values.flatMap write := by
  rw [packList]
  cases isSequence : value.items with
  | error error => simp only [error_bind, map_error]
  | ok items =>
    obtain ⟨short, each⟩ := sequence items isSequence
    have countable : items.length < 256 ^ 2 := by omega
    rw [ok_bind, ok_bind, packUnsigned_eq countable, ok_bind, packAll_eq fun item member => same item (each item member)]
    cases converted : items.mapM convert with
    | error error => simp only [map_error, error_bind]
    | ok values => simp only [map_ok, ok_bind, length_of_mapM converted, pure_eq_ok]

theorem items_short {fits : PyValue → Prop} {values : List α} (sequence : SequenceFits fits value) (isSequence : value.items = .ok items)
    (converted : items.mapM convert = .ok values) : values.length ≤ 65535 := by
  rw [length_of_mapM converted]
  exact (sequence items isSequence).1

section Fields

variable {fieldName : Text} {dataType : FieldType} {pyOffset offset : Nat} {id : Int} {pyDefault : PyValue} {native : FieldMeta}

theorem pyPieces_given (fits : Fits dataType value) (isType : native.dataType = dataType)
    (small : offset + contentSize dataType value < 2 ^ 31) :
    (pyPieces ⟨fieldName, dataType, pyOffset, id, pyDefault⟩ value offset).toOption =
      (pyToFieldValue dataType value).toOption.bind fun converted => nativePieces native converted offset := by
  have isSlot : packUnsigned 4 offset = .ok (littleEndian 4 offset) := packUnsigned_eq (by omega)
  unfold pyPieces pyVariable pyFixed pyToFieldValue nativePieces varLength fixedBytes varBytes
  cases dataType <;> simp only [isType, isSlot]
  case int64 =>
    rw [packInt64_eq]
    cases pyToInt64 value <;> rfl
  case uint64 =>
    rw [packUint64_eq]
    cases pyToUint64 value <;> rfl
  case float32 =>
    rw [packFloat32_eq fits]
    cases pyToFloat value <;> rfl
  case boolean =>
    rcases fits with ⟨flag, rfl⟩ | rfl | rfl
    · cases flag <;> rfl
    · rfl
    · rfl
  case string =>
    cases value with
    | bytes content => exact absurd rfl (fits content)
    | str text =>
      rw [packText, PyValue.encode, pyToString, ok_bind]
      by_cases long : stringMaxUint16Length < (encodeUtf8 text).length
      · simp [long, Value.bytes]
      · have short : (encodeUtf8 text).length < 256 ^ 2 := Nat.lt_succ_of_le (Nat.le_of_not_lt long)
        simp [long, Value.bytes, packCounted_eq short]
    | _ => rfl
  case text =>
    cases value with
    | bytes content => exact absurd rfl (fits content)
    | str text =>
      simp only [contentSize, textSize] at small
      have short : (encodeUtf8 text).length < 256 ^ 4 := by omega
      rw [PyValue.encode, pyToString, ok_bind, packCounted_eq short]
      rfl
    | _ => simp only [PyValue.encode, pyToString, error_bind, toOption_error, Option.bind_none]
  case binary =>
    cases value with
    | str text => exact absurd rfl (fits text)
    | bytes content =>
      simp only [contentSize, textSize] at small
      have short : content.length < 256 ^ 4 := by omega
      simp [packBinary, pyToString, Value.bytes, packCounted_eq short]
    | _ => rfl
  case listInt64 =>
    rw [packList_eq (fun item _ => packInt64_eq item) fits]
    cases isSequence : value.items with
    | error error => simp
    | ok items =>
      rw [ok_bind]
      cases converted : items.mapM pyToInt64 with
      | error error => simp [converted]
      | ok values => simp [converted, int64s, countedNumbers_eq (items_short fits isSequence converted)]
  case listFloat32 =>
    rw [packList_eq (fun item => packFloat32_eq) fits]
    cases isSequence : value.items with
    | error error => simp
    | ok items =>
      rw [ok_bind]
      cases converted : items.mapM pyToFloat with
      | error error => simp [converted]
      | ok values => simp [converted, floats, countedNumbers_eq (items_short fits isSequence converted)]
  case listString =>
    rw [packList_eq (fun item => packText_eq) fits]
    cases isSequence : value.items with
    | error error => simp
    | ok items =>
      rw [ok_bind]
      cases converted : items.mapM (pyToString false) with
      | error error => simp [converted]
      | ok values => simp [converted, strings]

theorem roundShift_zero (shift : Nat) : roundShift 0 shift = 0 := by
  simp [roundShift]

theorem toSingle_zero : tooLargeForSingle 0 = false ∧ toSingle 0 = 0 := by
  have isZero : singleMagnitude 0 = 0 := by
    rw [singleMagnitude, show doubleSignificand 0 = 0 from rfl, roundShift_zero]
    rfl
  constructor
  · rw [tooLargeForSingle, isZero]
    rfl
  · rw [toSingle, isZero]
    rfl

theorem pyPieces_missing (isType : native.dataType = dataType) (small : offset < 2 ^ 31)
    (plain : dataType ∉ [.string, .listInt64, .listString, .listFloat32]) :
    (pyPieces ⟨fieldName, dataType, pyOffset, id, pyDefault⟩ (typeDefault dataType) offset).toOption =
      nativePieces native .none offset := by
  have isSlot : packUnsigned 4 offset = .ok (littleEndian 4 offset) := packUnsigned_eq (by omega)
  unfold pyPieces pyVariable pyFixed nativePieces varLength fixedBytes varBytes
  cases dataType <;> simp only [isType, isSlot, typeDefault]
  case string | listInt64 | listString | listFloat32 => simp at plain
  case int64 | uint64 | boolean => rfl
  case float32 =>
    rw [packFloat32, PyValue.double, ok_bind, ok_bind, toSingle_zero.1, toSingle_zero.2]
    rfl
  case binary =>
    rw [packBinary, packCounted_eq (show List.length ([] : Bytes) < 256 ^ 4 by decide)]
    rfl
  case text =>
    rw [PyValue.encode, ok_bind, packCounted_eq (show (encodeUtf8 "").length < 256 ^ 4 by decide)]
    rfl

theorem nativePieces_some {value : Value} {fixedPart varPart : Bytes}
    (accepted : nativePieces native value offset = some (fixedPart, varPart)) :
    fixedPart = fixedBytes native.dataType value offset ∧ varPart = varBytes native.dataType value ∧
      ∃ length, varLength native value = .ok length := by
  cases fits : varLength native value with
  | error error => simp [nativePieces, fits] at accepted
  | ok length =>
    simp only [nativePieces, fits, toOption_ok, Option.bind_eq_bind, Option.bind_some, Option.pure_def, Option.some.injEq,
      Prod.mk.injEq] at accepted
    exact ⟨accepted.1.symm, accepted.2.symm, length, rfl⟩

theorem textSize_of_bytes (isText : pyToString true value = .ok content) :
    content.length = textSize value := by
  cases value <;> simp only [pyToString, if_true, reduceCtorEq] at isText <;> cases isText <;> rfl

theorem textSizes_of_bytes {contents : List Bytes}
    (converted : items.mapM (pyToString false) = .ok contents) :
    contents.map (fun content => 2 + content.length) = items.map fun item => 2 + textSize item := by
  induction items generalizing contents with
  | nil =>
    cases converted
    rfl
  | cons item rest ih =>
    rw [mapM_cons] at converted
    obtain ⟨content, isText, more⟩ := bind_ok_iff.mp converted
    obtain ⟨others, isRest, same⟩ := bind_ok_iff.mp more
    cases same
    have size : content.length = textSize item := by
      cases item <;> cases isText
      rfl
    rw [map_cons, map_cons, size, ih isRest]

theorem itemsOf_eq (isSequence : value.items = .ok items) :
    itemsOf value = items := by
  rw [itemsOf, isSequence]
  rfl

theorem texts_short {contents : List Bytes} (fits : ∀ item ∈ items, FitsUint16 item)
    (converted : items.mapM (pyToString false) = .ok contents) : ∀ content ∈ contents, content.length < 256 ^ 2 := by
  induction items generalizing contents with
  | nil =>
    cases converted
    simp
  | cons item rest ih =>
    rw [mapM_cons] at converted
    obtain ⟨content, isText, more⟩ := bind_ok_iff.mp converted
    obtain ⟨others, isRest, same⟩ := bind_ok_iff.mp more
    cases same
    intro found member
    rcases mem_cons.mp member with rfl | later
    · cases item <;> cases isText
      exact Nat.lt_succ_of_le (fits _ mem_cons_self _ rfl)
    · exact ih (fun other isOther => fits other (mem_cons_of_mem _ isOther)) isRest found later

theorem length_strings_eq {values : List Bytes} (short : ∀ content ∈ values, content.length < 256 ^ 2) :
    (values.flatMap (prefixed 2)).length = (values.map fun content => 2 + content.length).sum := by
  induction values with
  | nil => rfl
  | cons content rest ih =>
    rw [flatMap_cons, length_append, length_prefixed, Nat.mod_eq_of_lt (short content mem_cons_self),
      map_cons, sum_cons, ih fun other later => short other (mem_cons_of_mem _ later)]

-- What a field takes in the variable region: all of what the first pass reserves for it.
theorem varLength_given {converted : Value} {length : Nat} (fits : Fits dataType value)
    (small : contentSize dataType value < 2 ^ 31) (isType : native.dataType = dataType)
    (isValue : pyToFieldValue dataType value = .ok converted) (accepted : varLength native converted = .ok length) :
    length = (varBytes dataType converted).length ∧ length = contentSize dataType value := by
  unfold pyToFieldValue at isValue
  unfold varLength at accepted
  cases dataType <;> simp only [isType, varBytes, contentSize] at isValue accepted small ⊢
  case int64 | uint64 | float32 | boolean =>
    cases accepted
    exact ⟨rfl, rfl⟩
  case string =>
    obtain ⟨content, isText, same⟩ := bind_ok_iff.mp isValue
    cases same
    split at accepted
    · cases accepted
    next short =>
      cases accepted
      have countable : content.length < 256 ^ 2 := Nat.lt_succ_of_le (Nat.le_of_not_lt short)
      rw [Value.bytes, length_prefixed, Nat.mod_eq_of_lt countable]
      exact ⟨rfl, congrArg (2 + ·) (textSize_of_bytes isText)⟩
  case binary | text =>
    obtain ⟨content, isText, same⟩ := bind_ok_iff.mp isValue
    cases same
    cases accepted
    have size := textSize_of_bytes isText
    rw [Value.bytes, length_prefixed, Nat.mod_eq_of_lt (show content.length < 256 ^ 4 by omega), size]
    exact ⟨rfl, rfl⟩
  case listInt64 | listFloat32 =>
    obtain ⟨items, isSequence, more⟩ := bind_ok_iff.mp isValue
    obtain ⟨values, isList, same⟩ := bind_ok_iff.mp more
    cases same
    cases accepted
    have short := items_short fits isSequence isList
    have few : values.length < 256 ^ 2 := by omega
    first | rw [int64s] | rw [floats]
    rw [length_countedNumbers, Nat.mod_eq_of_lt few, itemsOf_eq isSequence, length_of_mapM isList]
    exact ⟨rfl, rfl⟩
  case listString =>
    obtain ⟨items, isSequence, more⟩ := bind_ok_iff.mp isValue
    obtain ⟨values, isList, same⟩ := bind_ok_iff.mp more
    cases same
    cases accepted
    have short := texts_short (fits items isSequence).2 isList
    rw [strings, length_append, length_littleEndian, length_strings_eq short, itemsOf_eq isSequence,
      textSizes_of_bytes isList]
    exact ⟨rfl, rfl⟩

theorem varLength_missing {length : Nat} (isType : native.dataType = dataType)
    (plain : dataType ∉ [.string, .listInt64, .listString, .listFloat32]) (accepted : varLength native .none = .ok length) :
    length = (varBytes dataType .none).length ∧ length = contentSize dataType (typeDefault dataType) := by
  unfold varLength at accepted
  cases dataType <;> simp only [isType, typeDefault] at accepted ⊢
  case string | listInt64 | listString | listFloat32 => simp at plain
  all_goals
    cases accepted
    exact ⟨rfl, by decide⟩

end Fields

section Reading

variable {data : Bytes} {slot offset width : Nat}

theorem unpack_eq (inside : offset + width ≤ data.length) :
    unpack data offset width = .ok (number (slice data offset width)) := if_pos inside

theorem unpackCounted_eq (found : number (slice data slot 4) = offset) (slotInside : slot + 4 ≤ data.length)
    (positive : 0 < width) (inside : offset + width + number (slice data offset width) ≤ data.length) :
    unpackCounted data slot width = .ok (readString data slot width) := by
  rw [unpackCounted, unpack_eq slotInside, ok_bind, found, unpack_eq (by omega), ok_bind]
  simp only [readString, found]
  rw [if_neg (by omega), if_neg (by omega), if_neg (by omega), pure_eq_ok]

theorem unpackMany_eq {length : Nat} (inside : offset + length * width ≤ data.length) :
    unpackMany data width length offset = .ok (readNumbers data width length offset) := by
  induction length generalizing offset with
  | zero => rfl
  | succ length ih =>
    rw [Nat.succ_mul] at inside
    rw [unpackMany, unpack_eq (by omega), ok_bind, ih (by omega), ok_bind, readNumbers, pure_eq_ok]

theorem unpackNumbers_eq (found : number (slice data slot 4) = offset) (slotInside : slot + 4 ≤ data.length)
    (inside : offset + 2 + number (slice data offset 2) * width ≤ data.length) :
    unpackNumbers data slot width = .ok (readList data slot width) := by
  rw [unpackNumbers, unpack_eq slotInside, ok_bind, found, unpack_eq (by omega), ok_bind, unpackMany_eq inside]
  simp only [readList, found]
  rw [if_neg (by omega), if_neg (by omega), if_neg (by omega)]

theorem unpackTexts_eq {count : Nat} (complete : (readStrings data count offset).length = count) :
    unpackTexts data count offset = (readStrings data count offset).mapM decodeUtf8 := by
  induction count generalizing offset with
  | zero => rfl
  | succ count ih =>
    simp only [readStrings] at complete ⊢
    split at complete
    · simp at complete
    next prefixInside =>
      split at complete
      · simp at complete
      next contentInside =>
        rw [length_cons] at complete
        rw [if_neg prefixInside, if_neg contentInside, mapM_cons, unpackTexts, unpack_eq (by omega), ok_bind,
          ih (Nat.succ.inj complete)]

end Reading

theorem pyReadField_eq {data : Bytes} {part : Placed} {info : PyFieldMeta} (holds : HoldsPart data part)
    (sameType : info.dataType = part.info.dataType) (sameOffset : info.offset = part.info.offset) :
    pyReadField info data = valueToPy part.info.dataType (readField part.info data) := by
  have isSlot := holds.slot
  have content := holds.content
  have slotInside := holds.slotInside
  have inside := holds.contentInside
  have small := holds.small
  unfold pyReadField readField valueToPy
  rw [sameType, sameOffset]
  cases isType : part.info.dataType <;>
    simp only [isType, FieldType.byteLen, fixedBytes, varBytes] at isSlot content slotInside inside ⊢
  case int64 | float32 | boolean => rw [unpack_eq (by omega), ok_bind, pure_eq_ok]
  case uint64 =>
    rw [unpack_eq (by omega), ok_bind, pure_eq_ok, number_of_slice isSlot part.value.bits64.isLt]
    simp
  case string | text =>
    have found : number (slice data part.info.offset 4) = part.offset := number_of_slice isSlot (by omega)
    have counted := number_of_prefix content
    rw [length_prefixed] at inside
    rw [unpackCounted_eq found (by omega) (by decide) (by omega), ok_bind]
  case binary =>
    have found : number (slice data part.info.offset 4) = part.offset := number_of_slice isSlot (by omega)
    have counted := number_of_prefix content
    rw [length_prefixed] at inside
    rw [unpackCounted_eq found (by omega) (by decide) (by omega), ok_bind, pure_eq_ok]
  case listInt64 | listFloat32 =>
    have found : number (slice data part.info.offset 4) = part.offset := number_of_slice isSlot (by omega)
    have counted := number_of_prefix content
    rw [length_countedNumbers] at inside
    rw [unpackNumbers_eq found (by omega) (by omega), ok_bind, pure_eq_ok, map_map]
    rfl
  case listString =>
    have found : number (slice data part.info.offset 4) = part.offset := number_of_slice isSlot (by omega)
    have counted := number_of_prefix content
    have rest := slice_after_prefix content
    rw [length_append, length_littleEndian] at inside
    rw [length_littleEndian] at rest
    have elements := readStrings_flatMap (Nat.mod_le part.value.strings.length (256 ^ 2)) rest (by omega)
    have complete : (readStrings data (number (slice data part.offset 2)) (part.offset + 2)).length =
        number (slice data part.offset 2) := by
      rw [counted, elements, length_map, length_take, Nat.min_eq_left (Nat.mod_le _ _)]
    rw [unpack_eq (by omega), ok_bind, found, unpack_eq (by omega), ok_bind, unpackTexts_eq complete]
    simp only [readStringList, found]
    rw [if_neg (by omega), if_neg (by omega)]

end LoginomDock.VectorStore
