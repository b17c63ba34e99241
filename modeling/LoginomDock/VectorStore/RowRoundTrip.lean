import LoginomDock.VectorStore.RowLayout

/-! Reading a field that was written gives its value back as far as the length prefixes can count, and a field whose id
the header byte does not reach gives its default. -/

namespace LoginomDock.VectorStore

open Bytes List BytesRow Value Nat

theorem number_of_slice {data : Bytes} {offset width value : Nat} (holds : slice data offset width = littleEndian width value)
    (small : value < 256 ^ width) : number (slice data offset width) = value := by
  rw [holds, number_littleEndian, mod_eq_of_lt small]

theorem number_of_prefix {data content : Bytes} {offset width value : Nat}
    (holds : slice data offset (littleEndian width value ++ content).length = littleEndian width value ++ content) :
    number (slice data offset width) = value % 256 ^ width := by
  have start := slice_slice holds (show 0 + width ≤ (littleEndian width value ++ content).length by simp)
  rw [add_zero] at start
  rw [start, slice, drop_zero, take_left' (length_littleEndian width value), number_littleEndian]

section

variable {data first second : Bytes} {offset : Nat} (holds : slice data offset (first ++ second).length = first ++ second)

include holds

theorem slice_after_prefix :
    slice data (offset + first.length) second.length = second := by
  rw [slice_slice holds (by simp), slice, drop_left, take_length]

theorem slice_before :
    slice data offset first.length = first := by
  have start := slice_slice holds (show 0 + first.length ≤ (first ++ second).length by simp)
  rw [add_zero] at start
  rw [start, slice, drop_zero, take_left]

end

section Readers

variable {data : Bytes} {slot offset : Nat}

theorem readString_prefixed {width : Nat} {bytes : Bytes} (isSlot : slice data slot 4 = littleEndian 4 offset)
    (after : slot + 4 ≤ offset) (small : data.length < 2 ^ 31) (positive : 0 < width)
    (content : slice data offset (prefixed width bytes).length = prefixed width bytes)
    (inside : offset + (prefixed width bytes).length ≤ data.length) :
    readString data slot width = bytes.take (bytes.length % 256 ^ width) := by
  rw [length_prefixed] at inside
  have counted : number (slice data offset width) = bytes.length % 256 ^ width := number_of_prefix content
  have found : number (slice data slot 4) = offset := number_of_slice isSlot (by omega)
  have rest := slice_after_prefix content
  rw [length_littleEndian, length_take, min_eq_left (mod_le _ _)] at rest
  simp only [readString, found, counted]
  rw [if_neg (by omega), if_neg (by omega), if_neg (by omega), rest]

section

variable {size : Nat} {width : Nat} {values : List (BitVec size)}

theorem readNumbers_flatMap (content : slice data offset (values.flatMap fun bits => littleEndian width bits.toNat).length =
      values.flatMap fun bits => littleEndian width bits.toNat) (wide : 2 ^ size = 256 ^ width) :
    (readNumbers data width values.length offset).map (BitVec.ofNat size) = values := by
  induction values generalizing offset with
  | nil => rfl
  | cons bits rest ih =>
    rw [flatMap_cons] at content
    have next := slice_after_prefix content
    rw [length_littleEndian] at next
    have first : number (slice data offset width) = bits.toNat := by
      rw [ number_of_prefix content, ← wide, mod_eq_of_lt bits.isLt]
    rw [length_cons, readNumbers, map_cons, first, ih next]
    simp

theorem readList_countedNumbers
    (isSlot : slice data slot 4 = littleEndian 4 offset) (after : slot + 4 ≤ offset) (small : data.length < 2 ^ 31)
    (content : slice data offset (countedNumbers width values).length = countedNumbers width values)
    (inside : offset + (countedNumbers width values).length ≤ data.length) (wide : 2 ^ size = 256 ^ width) :
    (readList data slot width).map (BitVec.ofNat size) = values.take (values.length % 256 ^ 2) := by
  rw [length_countedNumbers] at inside
  have counted : number (slice data offset 2) = values.length % 256 ^ 2 := number_of_prefix content
  have found : number (slice data slot 4) = offset := number_of_slice isSlot (by omega)
  have taken : (values.take (values.length % 256 ^ 2)).length = values.length % 256 ^ 2 := by
    rw [length_take, min_eq_left (mod_le _ _)]
  have rest := slice_after_prefix content
  rw [length_littleEndian] at rest
  have numbers := readNumbers_flatMap rest wide
  rw [taken] at numbers
  simp only [readList, found, counted]
  rw [if_neg (by omega), if_neg (by omega), if_neg (by omega), numbers]

end

theorem readStrings_flatMap {values : List Bytes} {count : Nat} (enough : count ≤ values.length)
    (content : slice data offset (values.flatMap (prefixed 2)).length = values.flatMap (prefixed 2))
    (inside : offset + (values.flatMap (prefixed 2)).length ≤ data.length) :
    readStrings data count offset = (values.take count).map fun bytes => bytes.take (bytes.length % 256 ^ 2) := by
  induction count generalizing values offset with
  | zero => simp [readStrings]
  | succ count ih =>
    cases values with
    | nil => simp at enough
    | cons bytes rest =>
      rw [flatMap_cons] at content inside
      rw [length_append, length_prefixed] at inside
      have first := slice_before content
      have counted : number (slice data offset 2) = bytes.length % 256 ^ 2 := number_of_prefix first
      have element := slice_after_prefix first
      rw [length_littleEndian, length_take, min_eq_left (mod_le _ _)] at element
      have next := slice_after_prefix content
      rw [length_prefixed, ← add_assoc] at next
      have others := ih (le_of_succ_le_succ enough) next (by omega)
      simp only [readStrings, counted]
      rw [if_neg (by omega), if_neg (by omega), element, others]
      rfl

theorem readStringList_flatMap {values : List Bytes} (isSlot : slice data slot 4 = littleEndian 4 offset)
    (after : slot + 4 ≤ offset) (small : data.length < 2 ^ 31)
    (content : slice data offset (littleEndian 2 values.length ++ values.flatMap (prefixed 2)).length =
      littleEndian 2 values.length ++ values.flatMap (prefixed 2))
    (inside : offset + (littleEndian 2 values.length ++ values.flatMap (prefixed 2)).length ≤ data.length) :
    readStringList data slot =
      (values.take (values.length % 256 ^ 2)).map fun bytes => bytes.take (bytes.length % 256 ^ 2) := by
  rw [length_append, length_littleEndian] at inside
  have counted : number (slice data offset 2) = values.length % 256 ^ 2 := number_of_prefix content
  have found : number (slice data slot 4) = offset := number_of_slice isSlot (by omega)
  have rest := slice_after_prefix content
  rw [length_littleEndian] at rest
  simp only [readStringList, found, counted]
  rw [if_neg (by omega), if_neg (by omega)]
  exact readStrings_flatMap (mod_le _ _) rest (by omega)

end Readers

def readBack (dataType : FieldType) (value : Value) : Value :=
  match dataType with
  | .int64 => .int64 value.bits64
  | .uint64 => .uint64 value.bits64
  | .float32 => .float value.floatBits
  | .boolean => .bool value.boolean
  | .string | .binary | .text => .string value.bytes
  | .listInt64 => .listInt64 (value.int64s.take (value.int64s.length % 256 ^ 2))
  | .listFloat32 => .listFloat (value.floats.take (value.floats.length % 256 ^ 2))
  | .listString => .listString
      ((value.strings.take (value.strings.length % 256 ^ 2)).map fun bytes => bytes.take (bytes.length % 256 ^ 2))

theorem take_mod {bytes : Bytes} {bound : Nat} (small : bytes.length < bound) : bytes.take (bytes.length % bound) = bytes := by
  rw [mod_eq_of_lt small, take_length]

theorem readField_holds {data : Bytes} {part : Placed} (holds : HoldsPart data part) :
    readField part.info data = readBack part.info.dataType part.value := by
  obtain ⟨length, fits, room⟩ := holds.room
  have isSlot := holds.slot
  have content := holds.content
  have slotInside := holds.slotInside
  have inside := holds.contentInside
  have small := holds.small
  unfold varLength at fits
  unfold readField readBack
  cases isType : part.info.dataType <;>
    simp only [isType, FieldType.byteLen, fixedBytes, varBytes] at isSlot content slotInside inside fits ⊢
  case int64 | uint64 =>
    rw [number_of_slice isSlot part.value.bits64.isLt]
    simp
  case float32 =>
    rw [number_of_slice isSlot part.value.floatBits.isLt]
    simp
  case boolean =>
    rw [isSlot]
    cases part.value.boolean <;> rfl
  case string =>
    rw [readString_prefixed isSlot slotInside small (by decide) content inside, take_mod]
    split at fits
    · cases fits
    · rename_i short
      exact Nat.lt_succ_of_le (Nat.le_of_not_lt short)
  case binary | text =>
    cases fits
    rw [readString_prefixed isSlot slotInside small (by decide) content inside, take_mod (by omega)]
  case listInt64 | listFloat32 => rw [readList_countedNumbers isSlot slotInside small content inside (by decide)]
  case listString => rw [readStringList_flatMap isSlot slotInside small content inside]

section Rows

variable {schema : Schema} {row : List Value} {data : Bytes} {placed : List Placed} {info : FieldMeta}

theorem HoldsRow.part (holds : HoldsRow schema row data placed) {i : Nat} (here : schema.fieldOrders[i]? = some info) :
    ∃ part ∈ placed, part.info = info ∧ part.value = valueAt row i info := by
  have entry : (fieldValues schema row)[i]? = some (info, valueAt row i info) := by
    simp [fieldValues, here]
  rw [← holds.fields, getElem?_map] at entry
  obtain ⟨part, isPart, same⟩ := Option.map_eq_some_iff.mp entry
  obtain ⟨sameInfo, sameValue⟩ := Prod.mk.inj same
  exact ⟨part, mem_of_getElem? isPart, sameInfo, sameValue⟩

theorem deserializeField_eq (sound : schema.Sound) (holds : HoldsRow schema row data placed)
    (named : schema.getFieldMeta info.name = some info) :
    deserializeField schema data info.name =
      if info.id < schema.fieldOrders.length % 256 then readBack info.dataType (valueAt row info.id.toNat info)
      else info.defaultValue := by
  have isMeta : info ∈ schema.fieldMetas := mem_reverse.mp (mem_of_find?_eq_some named)
  obtain ⟨i, here⟩ := sound.position info isMeta
  have isId : info.id = Int.ofNat i := (sound.order i info here).2
  obtain ⟨part, isPart, rfl, isValue⟩ := holds.part here
  have held := holds.parts part isPart
  have positive := part.info.dataType.byteLen_pos
  have slotInside := held.slotInside
  have contentInside := held.contentInside
  have header : number (slice data 0 1) = schema.fieldOrders.length % 256 := by
    rw [holds.header]
    simp [number]
  have index : part.info.id.toNat = i := by simp [isId]
  simp only [deserializeField, named, header]
  rw [if_neg (by omega), index, ← isValue, ← readField_holds held]
  by_cases reached : part.info.id < schema.fieldOrders.length % 256
  · rw [if_pos reached, if_neg (by omega)]
  · rw [if_neg reached, if_pos (by omega)]

end Rows

def Value.hasType : FieldType → Value → Bool
  | .int64, .int64 _ | .uint64, .uint64 _ | .float32, .float _ | .boolean, .bool _ | .string, .string _
  | .binary, .string _ | .text, .string _ | .listInt64, .listInt64 _ | .listFloat32, .listFloat _
  | .listString, .listString _ => true
  | _, _ => false

def Given (dataType : FieldType) (value : Value) : Prop := value = .none ∨ value.hasType dataType

def zeroValue : FieldType → Value
  | .int64 => .int64 0
  | .uint64 => .uint64 0
  | .float32 => .float 0
  | .boolean => .bool false
  | .string | .binary | .text => .string []
  | .listInt64 => .listInt64 []
  | .listFloat32 => .listFloat []
  | .listString => .listString []

def orZero (dataType : FieldType) : Value → Value
  | .none => zeroValue dataType
  | value => value

def saidValue (row : List Value) (info : FieldMeta) : Value :=
  orZero info.dataType (valueAt row info.id.toNat info)

def Countable : Value → Prop
  | .listInt64 values => values.length < 2 ^ 16
  | .listFloat values => values.length < 2 ^ 16
  | .listString values => values.length < 2 ^ 16 ∧ ∀ bytes ∈ values, bytes.length < 2 ^ 16
  | _ => True

theorem take_mod_iff {α : Type} (values : List α) :
    values.take (values.length % 256 ^ 2) = values ↔ values.length < 2 ^ 16 := by
  rw [take_eq_self_iff]
  have bound : values.length % 256 ^ 2 < 2 ^ 16 := mod_lt _ (by decide)
  constructor
  · intro whole
    omega
  · intro small
    rw [mod_eq_of_lt (show values.length < 256 ^ 2 from small)]

theorem map_take_mod_iff (values : List Bytes) :
    (values.take (values.length % 256 ^ 2)).map (fun bytes => bytes.take (bytes.length % 256 ^ 2)) = values ↔
      values.length < 2 ^ 16 ∧ ∀ bytes ∈ values, bytes.length < 2 ^ 16 := by
  constructor
  · intro same
    have lengths := congrArg List.length same
    rw [length_map, length_take] at lengths
    have whole := (take_mod_iff values).mp ((take_eq_self_iff values).mpr (by omega))
    rw [(take_mod_iff values).mpr whole] at same
    have each := map_inj_left.mp (same.trans (map_id values).symm)
    exact ⟨whole, fun bytes member => (take_mod_iff bytes).mp (each bytes member)⟩
  · rintro ⟨whole, each⟩
    rw [(take_mod_iff values).mpr whole]
    exact (map_congr_left fun bytes member => (take_mod_iff bytes).mpr (each bytes member)).trans (map_id values)

theorem readBack_iff {dataType : FieldType} {value : Value} (given : Given dataType value) :
    readBack dataType value = orZero dataType value ↔ Countable value := by
  rcases given with rfl | typed
  · cases dataType <;> simp [readBack, orZero, zeroValue, Countable, bits64, floatBits, boolean, bytes,
      int64s, floats, strings]
  · cases dataType <;> cases value <;> simp only [hasType, Bool.false_eq_true] at typed
    case listInt64.listInt64 values =>
      exact Iff.trans ⟨listInt64.inj, congrArg listInt64⟩ (take_mod_iff values)
    case listFloat32.listFloat values =>
      exact Iff.trans ⟨listFloat.inj, congrArg listFloat⟩ (take_mod_iff values)
    case listString.listString values =>
      exact Iff.trans ⟨listString.inj, congrArg listString⟩ (map_take_mod_iff values)
    all_goals exact iff_of_true rfl trivial

theorem deserialize_eq (schema : Schema) (data : Bytes) {info : FieldMeta} (sound : schema.Sound)
    (named : schema.getFieldMeta info.name = some info) :
    deserialize schema data info.name = some (deserializeField schema data info.name) := by
  have isMeta : info ∈ schema.fieldMetas := mem_reverse.mp (mem_of_find?_eq_some named)
  obtain ⟨i, here⟩ := sound.position info isMeta
  have ordered : info.name ∈ schema.fieldOrders.map FieldMeta.name := mem_map_of_mem (mem_of_getElem? here)
  rw [deserialize, if_pos ordered]

-- When a field comes back: the header byte reaches its id and no list is too long for its prefix, or the header byte
-- does not reach its id and the row says the default.
def Recoverable (fieldCount : Nat) (row : List Value) (info : FieldMeta) : Prop :=
  if info.id < fieldCount % 256 then Countable (valueAt row info.id.toNat info)
  else saidValue row info = info.defaultValue

theorem mem_placeFields {offset : Nat} {fields : List FieldDef} {info : FieldMeta}
    (member : info ∈ placeFields offset fields) :
    ∃ field ∈ fields, field.dataType = info.dataType ∧ field.defaultValue = info.defaultValue := by
  induction fields generalizing offset with
  | nil => simp [placeFields] at member
  | cons field rest ih =>
    rcases mem_cons.mp member with rfl | later
    · exact ⟨field, by simp, rfl, rfl⟩
    · obtain ⟨other, isField, same⟩ := ih later
      exact ⟨other, by simp [isField], same⟩

theorem given_valueAt {row : List Value} {i : Nat} {info : FieldMeta} (default : Given info.dataType info.defaultValue)
    (value : ∀ value, row[i]? = some value → Given info.dataType value) : Given info.dataType (valueAt row i info) := by
  unfold valueAt
  split
  · exact default
  · exact default
  next found => exact value _ found

theorem deserialize_serialize_iff {fields : List FieldDef} {schema : Schema} (made : Schema.new fields = .ok schema)
    {row : List Value} {data : Bytes} (serialized : serialize schema row = .ok data)
    (defaults : ∀ field ∈ fields, Given field.dataType field.defaultValue)
    (values : ∀ (i : Nat) info value, schema.fieldOrders[i]? = some info → row[i]? = some value →
      Given info.dataType value) :
    (∀ info, schema.getFieldMeta info.name = some info →
      deserialize schema data info.name = some (saidValue row info)) ↔
    ∀ info, schema.getFieldMeta info.name = some info → Recoverable fields.length row info := by
  obtain ⟨sound, metas, count⟩ := Schema.new_sound made
  obtain ⟨placed, _, holds⟩ := serialize_holds sound serialized
  refine forall_congr' fun info => imp_congr_right fun named => ?_
  rw [deserialize_eq schema data sound named, deserializeField_eq sound holds named, Option.some_inj, Recoverable, count]
  have given : Given info.dataType (valueAt row info.id.toNat info) := by
    have isMeta : info ∈ schema.fieldMetas := mem_reverse.mp (mem_of_find?_eq_some named)
    obtain ⟨i, here⟩ := sound.position info isMeta
    have index : info.id.toNat = i := by simp [(sound.order i info here).2]
    obtain ⟨field, isField, sameType, sameDefault⟩ := mem_placeFields (metas ▸ isMeta)
    rw [index]
    exact given_valueAt (sameType ▸ sameDefault ▸ defaults field isField) fun value => values i info value here
  split
  · exact readBack_iff given
  · exact eq_comm

def someFields : List FieldDef :=
  [⟨['t'], .listString, 2, .none⟩, ⟨['n'], .int64, 0, .int64 7⟩, ⟨['s'], .string, 1, .none⟩]

def wholeRow : List Value := [.none, .string [104, 105], .listString [[97], []]]

def someSchema : Schema where
  fieldMetas := [⟨['t'], .listString, 1, 2, .none⟩, ⟨['n'], .int64, 5, 0, .int64 7⟩, ⟨['s'], .string, 13, 1, .none⟩]
  fieldOrders := [⟨['n'], .int64, 5, 0, .int64 7⟩, ⟨['s'], .string, 13, 1, .none⟩, ⟨['t'], .listString, 1, 2, .none⟩]
  totalByteLength := 17

theorem wholeRow_comes_back : ∃ data, serialize someSchema wholeRow = .ok data ∧
    ((∀ info, someSchema.getFieldMeta info.name = some info →
      deserialize someSchema data info.name = some (saidValue wholeRow info)) ↔
      ∀ info, someSchema.getFieldMeta info.name = some info → Recoverable 3 wholeRow info) := by
  refine ⟨_, rfl, deserialize_serialize_iff (show Schema.new someFields = .ok someSchema by rfl) rfl ?_ ?_⟩
  · simp [someFields, Given, hasType]
  · intro i info value here there
    match i with
    | 0 | 1 | 2 => cases here; cases there; simp [Given, hasType]
    | _ + 3 => simp [someSchema] at here

def tagsMeta : FieldMeta := ⟨['t'], .listString, 1, 0, .none⟩

def tagsSchema : Schema := ⟨[tagsMeta], [tagsMeta], 5⟩

theorem tags_made : Schema.new [⟨['t'], .listString, 0, .none⟩] = .ok tagsSchema := by rfl

theorem tags_deserialize (bytes : Bytes) (short : bytes.length < 2 ^ 30) :
    ∃ data, serialize tagsSchema [.listString [bytes]] = .ok data ∧
      deserialize tagsSchema data ['t'] = some (.listString [bytes.take (bytes.length % 256 ^ 2)]) := by
  have laid : layOut tagsSchema.totalByteLength (fieldValues tagsSchema [.listString [bytes]]) =
      .ok ([⟨tagsMeta, .listString [bytes], 5⟩], 5 + (2 + (2 + bytes.length + 0))) := by
    change layOut 5 [(tagsMeta, .listString [bytes])] = _
    have small : 5 + (2 + (2 + bytes.length + 0)) < 2 ^ 31 := by omega
    simp only [layOut, varLength, tagsMeta, strings, map_cons, map_nil, sum_cons, sum_nil, bind,
      Except.bind, pure, Except.pure, small, if_true]
  have serialized : ∃ data, serialize tagsSchema [.listString [bytes]] = .ok data := by
    rw [serialize, laid]
    exact ⟨_, rfl⟩
  obtain ⟨data, isData⟩ := serialized
  obtain ⟨sound, -, -⟩ := Schema.new_sound tags_made
  obtain ⟨placed, _, holds⟩ := serialize_holds sound isData
  have named : tagsSchema.getFieldMeta tagsMeta.name = some tagsMeta := by rfl
  refine ⟨data, isData, ?_⟩
  exact (deserialize_eq tagsSchema data sound named).trans (congrArg some (deserializeField_eq sound holds named))

theorem long_element_lost : Schema.new [⟨['t'], .listString, 0, .none⟩] = .ok tagsSchema ∧
    ∃ data, serialize tagsSchema [.listString [List.replicate 65536 0]] = .ok data ∧
      deserialize tagsSchema data ['t'] = some (.listString [[]]) ∧
      deserialize tagsSchema data ['t'] ≠ some (.listString [List.replicate 65536 0]) := by
  obtain ⟨data, serialized, read⟩ := tags_deserialize (List.replicate 65536 0) (by rw [length_replicate]; decide)
  rw [length_replicate, show 65536 % 256 ^ 2 = 0 from rfl, take_zero] at read
  refine ⟨tags_made, data, serialized, read, ?_⟩
  rw [read]
  intro same
  have lengths := List.cons.inj (listString.inj (Option.some.inj same))
  have impossible := congrArg List.length lengths.1
  rw [length_replicate] at impossible
  exact absurd impossible (by decide)

end LoginomDock.VectorStore
