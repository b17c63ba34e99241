import Mathlib.Data.List.Nodup
import Mathlib.Data.List.Pairwise
import Mathlib.Data.List.Perm.Subperm
import LoginomDock.VectorStore.BytesRow

namespace LoginomDock.VectorStore

open List Bytes

/-- A schema as `Schema.new` makes it: its fields stand at their ids, with slots one after the other. -/
structure Schema.Sound (schema : Schema) : Prop where
  order : ∀ (i : Nat) info, schema.fieldOrders[i]? = some info → info ∈ schema.fieldMetas ∧ info.id = Int.ofNat i
  position : ∀ info ∈ schema.fieldMetas, ∃ i : Nat, schema.fieldOrders[i]? = some info
  slots : schema.fieldMetas.Pairwise fun first second => first.offset + first.dataType.byteLen ≤ second.offset
  inside : ∀ info ∈ schema.fieldMetas,
    1 ≤ info.offset ∧ info.offset + info.dataType.byteLen ≤ schema.totalByteLength
  header : 1 ≤ schema.totalByteLength

theorem FieldType.byteLen_pos (dataType : FieldType) : 0 < dataType.byteLen := by
  cases dataType <;> decide

variable {fields : List FieldDef} {offset : Nat}

theorem placeFields_inside {info : FieldMeta}
    (member : info ∈ placeFields offset fields) : offset ≤ info.offset ∧
      info.offset + info.dataType.byteLen ≤ offset + (fields.map fun field => field.dataType.byteLen).sum := by
  induction fields generalizing offset with
  | nil => simp [placeFields] at member
  | cons field rest ih =>
    rw [placeFields] at member
    rw [map_cons, sum_cons]
    rcases mem_cons.mp member with rfl | later
    · simp only
      omega
    · have inside := ih later
      omega

theorem placeFields_slots (offset : Nat) (fields : List FieldDef) :
    (placeFields offset fields).Pairwise fun first second => first.offset + first.dataType.byteLen ≤ second.offset := by
  induction fields generalizing offset with
  | nil => exact .nil
  | cons field rest ih => exact .cons (fun _ member => (placeFields_inside member).1) (ih _)

theorem map_id_placeFields (offset : Nat) (fields : List FieldDef) :
    (placeFields offset fields).map FieldMeta.id = fields.map FieldDef.id := by
  induction fields generalizing offset with
  | nil => rfl
  | cons field rest ih => simp [placeFields, ih]

theorem le_maxId {field : FieldDef} (member : field ∈ fields) : field.id ≤ maxId fields := by
  have above : ∀ (fields : List FieldDef) (start : Int), start ≤ fields.foldl (fun most field => max most field.id) start ∧
      ∀ field ∈ fields, field.id ≤ fields.foldl (fun most field => max most field.id) start := by
    intro fields
    induction fields with
    | nil => simp
    | cons first rest ih =>
      intro start
      obtain ⟨most, others⟩ := ih (max start first.id)
      rw [foldl_cons]
      refine ⟨by omega, ?_⟩
      intro field member
      rcases mem_cons.mp member with rfl | later
      · omega
      · exact others field later
  exact (above fields (-1)).2 field member

theorem id_mem (notNegative : ∀ field ∈ fields, 0 ≤ field.id)
    (contiguous : maxId fields = fields.length - 1) (distinct : (fields.map FieldDef.id).Nodup) {i : Nat}
    (bound : i < fields.length) : Int.ofNat i ∈ fields.map FieldDef.id := by
  have below : fields.map FieldDef.id ⊆ (List.range fields.length).map Int.ofNat := by
    intro id member
    obtain ⟨field, isField, rfl⟩ := mem_map.mp member
    have low := notNegative field isField
    have high := le_maxId isField
    refine mem_map.mpr ⟨field.id.toNat, mem_range.mpr (by omega), ?_⟩
    exact Int.toNat_of_nonneg low
  have all : (fields.map FieldDef.id).Perm ((List.range fields.length).map Int.ofNat) :=
    (subperm_of_subset distinct below).perm_of_length_le (by simp)
  exact all.mem_iff.mpr (mem_map.mpr ⟨i, mem_range.mpr bound, rfl⟩)

theorem Schema.new_sound {schema : Schema} (made : Schema.new fields = .ok schema) :
    schema.Sound ∧ schema.fieldMetas = placeFields 1 fields ∧ schema.fieldOrders.length = fields.length := by
  rw [Schema.new] at made
  split at made
  next empty =>
    cases made
    subst empty
    exact ⟨⟨by simp, by simp, .nil, by simp, Nat.le_refl _⟩, rfl, rfl⟩
  split at made
  · cases made
  next notNegative =>
  split at made
  · cases made
  next contiguous =>
  split at made
  · cases made
  next distinct =>
    cases made
    rw [ne_eq, not_not] at contiguous
    rw [not_not] at distinct
    have positive : ∀ field ∈ fields, 0 ≤ field.id := by
      intro field member
      by_contra negative
      exact notNegative (any_eq_true.mpr ⟨field, member, decide_eq_true (by omega)⟩)
    have distinctMetas : ((placeFields 1 fields).map FieldMeta.id).Nodup := by rwa [map_id_placeFields]
    -- every position is taken by the one field that has it for an id
    have found : ∀ i, i < fields.length → ∃ info ∈ placeFields 1 fields, info.id = Int.ofNat i ∧
        ((placeFields 1 fields).find? fun info => info.id = Int.ofNat i) = some info := by
      intro i bound
      have isId := id_mem positive contiguous distinct bound
      rw [← map_id_placeFields 1] at isId
      obtain ⟨info, member, hasId⟩ := mem_map.mp isId
      cases search : (placeFields 1 fields).find? fun info => info.id = Int.ofNat i with
      | none => exact absurd (decide_eq_true hasId) (find?_eq_none.mp search info member)
      | some other =>
        refine ⟨other, mem_of_find?_eq_some search, ?_, rfl⟩
        simpa using find?_some search
    have positions : ∀ i info, ((List.range fields.length).map fun i =>
        ((placeFields 1 fields).find? fun info => info.id = Int.ofNat i).getD {})[i]? = some info ↔
        i < fields.length ∧ ((placeFields 1 fields).find? fun info => info.id = Int.ofNat i) = some info := by
      intro i info
      by_cases bound : i < fields.length
      · obtain ⟨first, -, -, search⟩ := found i bound
        rw [getElem?_map, getElem?_range bound, Option.map_some, search, Option.getD_some]
        simp [bound]
      · simp [bound]
    refine ⟨⟨?_, ?_, placeFields_slots 1 fields, fun info member => placeFields_inside member, ?_⟩, rfl, by simp⟩
    · intro i info here
      obtain ⟨-, search⟩ := (positions i info).mp here
      exact ⟨mem_of_find?_eq_some search, by simpa using find?_some search⟩
    · intro info member
      have isId : info.id ∈ fields.map FieldDef.id := by
        rw [← map_id_placeFields 1]
        exact mem_map_of_mem member
      obtain ⟨field, isField, sameId⟩ := mem_map.mp isId
      have low := positive field isField
      have high := le_maxId isField
      have bound : info.id.toNat < fields.length := by omega
      have natural : info.id = Int.ofNat info.id.toNat := (Int.toNat_of_nonneg (sameId ▸ low)).symm
      obtain ⟨other, isOther, hasId, search⟩ := found info.id.toNat bound
      have same : other = info :=
        inj_on_of_nodup_map distinctMetas isOther member (hasId.trans natural.symm)
      exact ⟨info.id.toNat, (positions _ _).mpr ⟨bound, same ▸ search⟩⟩
    · exact Nat.le_add_right _ _

@[simp] theorem length_prefixed (width : Nat) (bytes : Bytes) :
    (prefixed width bytes).length = width + bytes.length % 256 ^ width := by
  simp [prefixed, Nat.mod_le]

theorem length_numbers {size : Nat} (width : Nat) (values : List (BitVec size)) :
    (values.flatMap fun bits => littleEndian width bits.toNat).length = values.length * width := by
  induction values with
  | nil => simp
  | cons bits rest ih =>
    rw [flatMap_cons, length_append, ih, length_littleEndian, length_cons, Nat.succ_mul,
      Nat.add_comm]

theorem length_countedNumbers {size : Nat} (width : Nat) (values : List (BitVec size)) :
    (countedNumbers width values).length = 2 + values.length % 256 ^ 2 * width := by
  rw [countedNumbers, length_append, length_numbers, length_littleEndian, length_take,
    Nat.min_eq_left (Nat.mod_le _ _)]

theorem length_strings_le (values : List Bytes) :
    (values.flatMap (prefixed 2)).length ≤ (values.map fun bytes => 2 + bytes.length).sum := by
  induction values with
  | nil => simp
  | cons bytes rest ih =>
    have counted := Nat.mod_le bytes.length (256 ^ 2)
    simp only [flatMap_cons, length_append, map_cons, sum_cons, length_prefixed]
    omega

theorem length_varBytes_le {info : FieldMeta} {value : Value} {length : Nat}
    (fits : varLength info value = .ok length) : (varBytes info.dataType value).length ≤ length := by
  unfold varLength at fits
  cases isType : info.dataType <;> simp only [isType] at fits <;> simp only [varBytes]
  case string =>
    split at fits
    · cases fits
    · cases fits
      rw [length_prefixed]
      exact Nat.add_le_add_left (Nat.mod_le _ _) 2
  case binary | text =>
    cases fits
    rw [length_prefixed]
    exact Nat.add_le_add_left (Nat.mod_le _ _) 4
  case listInt64 | listFloat32 =>
    cases fits
    rw [length_countedNumbers]
    exact Nat.add_le_add_left (Nat.mul_le_mul_right _ (Nat.mod_le _ _)) 2
  case listString =>
    cases fits
    have small := length_strings_le value.strings
    simp only [length_append, length_littleEndian]
    omega
  all_goals exact Nat.zero_le _

structure LaidOut (offset : Nat) (fields : List (FieldMeta × Value)) (placed : List Placed) (total : Nat) : Prop where
  fields : placed.map (fun part => (part.info, part.value)) = fields
  room : ∀ part ∈ placed, ∃ length, varLength part.info part.value = .ok length ∧ part.offset + length ≤ total
  start : ∀ part ∈ placed, offset ≤ part.offset
  bound : offset ≤ total ∧ total < 2 ^ 31
  apart : placed.Pairwise fun first second =>
    first.offset + (varBytes first.info.dataType first.value).length ≤ second.offset

theorem layOut_laidOut {fields : List (FieldMeta × Value)} {placed : List Placed} {total : Nat}
    (succeeds : layOut offset fields = .ok (placed, total)) : LaidOut offset fields placed total := by
  induction fields generalizing offset placed with
  | nil =>
    rw [layOut] at succeeds
    split at succeeds
    next small =>
      cases succeeds
      exact ⟨rfl, by simp, by simp, ⟨Nat.le_refl _, small⟩, .nil⟩
    next => cases succeeds
  | cons field rest ih =>
    obtain ⟨info, value⟩ := field
    rw [layOut] at succeeds
    cases size : varLength info value with
    | error error => simp [size, bind, Except.bind] at succeeds
    | ok length =>
      cases others : layOut (offset + length) rest with
      | error error => simp [size, others, bind, Except.bind] at succeeds
      | ok result =>
        obtain ⟨placedRest, totalRest⟩ := result
        simp only [size, others, bind, Except.bind, pure, Except.pure, Except.ok.injEq, Prod.mk.injEq] at succeeds
        obtain ⟨rfl, rfl⟩ := succeeds
        have laid := ih others
        have small := length_varBytes_le size
        refine ⟨by simp [laid.fields], ?_, ?_, ?_, ?_⟩
        · intro part member
          rcases mem_cons.mp member with rfl | later
          · exact ⟨length, size, laid.bound.1⟩
          · exact laid.room part later
        · intro part member
          rcases mem_cons.mp member with rfl | later
          · exact Nat.le_refl _
          · exact (Nat.le_add_right _ _).trans (laid.start part later)
        · exact ⟨(Nat.le_add_right _ _).trans laid.bound.1, laid.bound.2⟩
        · refine .cons (fun part later => ?_) laid.apart
          exact (Nat.add_le_add_left small offset).trans (laid.start part later)

theorem length_fixedBytes (dataType : FieldType) (value : Value) (varOffset : Nat) :
    (fixedBytes dataType value varOffset).length = dataType.byteLen := by
  cases dataType <;> simp [fixedBytes, FieldType.byteLen]

def slotsApart (first second : FieldMeta) : Prop :=
  first.offset + first.dataType.byteLen ≤ second.offset ∨ second.offset + second.dataType.byteLen ≤ first.offset

theorem Schema.Sound.orders_apart {schema : Schema} (sound : schema.Sound) :
    schema.fieldOrders.Pairwise slotsApart := by
  have metasApart : schema.fieldMetas.Pairwise slotsApart := sound.slots.imp Or.inl
  have symmetric : Std.Symm slotsApart := ⟨fun _ _ => Or.symm⟩
  refine pairwise_iff_getElem.mpr fun i j boundI boundJ less => ?_
  obtain ⟨memberI, idI⟩ := sound.order i _ (getElem?_eq_getElem boundI)
  obtain ⟨memberJ, idJ⟩ := sound.order j _ (getElem?_eq_getElem boundJ)
  refine metasApart.forall memberI memberJ fun same => ?_
  rw [same, idJ] at idI
  exact Nat.ne_of_gt less (Int.ofNat.inj idI)

theorem map_fst_fieldValues (schema : Schema) (row : List Value) :
    (fieldValues schema row).map Prod.fst = schema.fieldOrders := by
  simp [fieldValues, Function.comp_def]

structure HoldsPart (data : Bytes) (part : Placed) : Prop where
  slot : slice data part.info.offset part.info.dataType.byteLen =
    fixedBytes part.info.dataType part.value part.offset
  content : slice data part.offset (varBytes part.info.dataType part.value).length =
    varBytes part.info.dataType part.value
  slotInside : part.info.offset + part.info.dataType.byteLen ≤ part.offset
  small : data.length < 2 ^ 31
  room : ∃ length, varLength part.info part.value = .ok length ∧ part.offset + length ≤ data.length

variable {part : Placed}

theorem HoldsPart.contentInside {data : Bytes} (holds : HoldsPart data part) :
    part.offset + (varBytes part.info.dataType part.value).length ≤ data.length := by
  obtain ⟨length, fits, room⟩ := holds.room
  have small := length_varBytes_le fits
  omega

structure HoldsRow (schema : Schema) (row : List Value) (data : Bytes) (placed : List Placed) : Prop where
  fields : placed.map (fun part => (part.info, part.value)) = fieldValues schema row
  header : slice data 0 1 = [UInt8.ofNat schema.fieldOrders.length]
  parts : ∀ part ∈ placed, HoldsPart data part

section Writing

variable {schema : Schema} {row : List Value} {placed : List Placed} {total : Nat}

section

variable (laid : LaidOut schema.totalByteLength (fieldValues schema row) placed total)

include laid

theorem LaidOut.infos :
    placed.map Placed.info = schema.fieldOrders := by
  rw [← map_fst_fieldValues schema row, ← laid.fields, map_map]
  rfl

theorem LaidOut.slotInside (sound : schema.Sound) (member : part ∈ placed) :
    1 ≤ part.info.offset ∧ part.info.offset + part.info.dataType.byteLen ≤ schema.totalByteLength := by
  have ordered : part.info ∈ schema.fieldOrders := laid.infos ▸ mem_map_of_mem member
  obtain ⟨i, here⟩ := mem_iff_getElem?.mp ordered
  exact sound.inside _ (sound.order i _ here).1

end

theorem LaidOut.contentInside {fields : List (FieldMeta × Value)}
    (laid : LaidOut offset fields placed total) (member : part ∈ placed) :
    offset ≤ part.offset ∧ part.offset + (varBytes part.info.dataType part.value).length ≤ total := by
  obtain ⟨length, fits, room⟩ := laid.room part member
  have small := length_varBytes_le fits
  exact ⟨laid.start part member, by omega⟩

section

variable (laid : LaidOut schema.totalByteLength (fieldValues schema row) placed total) (sound : schema.Sound)

include laid sound

theorem LaidOut.writes_inside {buffer : Bytes} (large : buffer.length = total) :
    ∀ place ∈ placed.flatMap fieldWrites, Inside buffer place := by
  intro place member
  obtain ⟨part, isPart, isPlace⟩ := mem_flatMap.mp member
  have slot := laid.slotInside sound isPart
  have content := laid.contentInside isPart
  rw [Inside, large]
  rcases mem_pair.mp isPlace with rfl | rfl
  · simp only [length_fixedBytes]
    omega
  · exact content.2

theorem LaidOut.writes_apart : (placed.flatMap fieldWrites).Pairwise Apart := by
  refine pairwise_flatMap.mpr ⟨?_, ?_⟩
  · intro part isPart
    have slot := laid.slotInside sound isPart
    have content := laid.contentInside isPart
    refine pairwise_pair.mpr (.inl ?_)
    simp only [length_fixedBytes]
    omega
  · have slots : placed.Pairwise fun first second => slotsApart first.info second.info := by
      rw [← pairwise_map, laid.infos]
      exact sound.orders_apart
    refine (slots.and laid.apart).imp_of_mem fun {first second} isFirst isSecond both => ?_
    have slotFirst := laid.slotInside sound isFirst
    have slotSecond := laid.slotInside sound isSecond
    have contentFirst := laid.contentInside isFirst
    have contentSecond := laid.contentInside isSecond
    intro place isPlace other isOther
    rcases mem_pair.mp isPlace with rfl | rfl <;> rcases mem_pair.mp isOther with rfl | rfl <;>
      simp only [Apart, length_fixedBytes]
    · exact both.1
    · omega
    · omega
    · exact .inl both.2

end

theorem serialize_holds {data : Bytes} (sound : schema.Sound) (serialized : BytesRow.serialize schema row = .ok data) :
    ∃ placed, layOut schema.totalByteLength (fieldValues schema row) = .ok (placed, data.length) ∧
      HoldsRow schema row data placed := by
  rw [BytesRow.serialize] at serialized
  cases laidOut : layOut schema.totalByteLength (fieldValues schema row) with
  | error error => simp [laidOut, bind, Except.bind] at serialized
  | ok result =>
    obtain ⟨placed, total⟩ := result
    simp only [laidOut, bind, Except.bind, pure, Except.pure, Except.ok.injEq] at serialized
    have laid := layOut_laidOut laidOut
    set blank := write (List.replicate total 0) 0 [UInt8.ofNat schema.fieldOrders.length] with isBlank
    have headerInside : Inside (List.replicate total 0) (0, [UInt8.ofNat schema.fieldOrders.length]) := by
      have header := sound.header
      have bound := laid.bound.1
      simp only [Inside, length_replicate, length_singleton]
      omega
    have blankLength : blank.length = total := by
      rw [isBlank, length_write headerInside, length_replicate]
    have inside := laid.writes_inside sound blankLength
    have dataLength : data.length = total := by
      rw [← serialized, length_writeAll inside, blankLength]
    refine ⟨placed, by rw [dataLength], ⟨laid.fields, ?_, ?_⟩⟩
    · rw [← serialized, slice_writeAll_apart inside ?_]
      · exact slice_write_self headerInside
      · intro place member
        obtain ⟨part, isPart, isPlace⟩ := mem_flatMap.mp member
        have slot := laid.slotInside sound isPart
        have content := laid.contentInside isPart
        rcases mem_pair.mp isPlace with rfl | rfl <;> simp only <;> omega
    · intro part isPart
      have slot := laid.slotInside sound isPart
      have content := laid.contentInside isPart
      have written : ∀ place ∈ fieldWrites part, slice data place.1 place.2.length = place.2 := by
        intro place isPlace
        rw [← serialized]
        exact slice_writeAll inside (laid.writes_apart sound) (mem_flatMap.mpr ⟨part, isPart, isPlace⟩)
      have inSlot := written _ mem_cons_self
      have inContent := written _ (mem_cons_of_mem _ (mem_singleton_self _))
      rw [length_fixedBytes] at inSlot
      exact ⟨inSlot, inContent, by omega, dataLength ▸ laid.bound.2, dataLength ▸ laid.room part isPart⟩

end Writing

end LoginomDock.VectorStore
