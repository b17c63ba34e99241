import LoginomDock.VectorStore.RowRoundTrip

namespace LoginomDock.VectorStore

open Bytes List BytesRow Schema

section Growth

variable {fields added : List FieldDef} {schema extended : Schema} {info other : FieldMeta}

theorem placeFields_append (offset : Nat) (fields added : List FieldDef) :
    placeFields offset (fields ++ added) =
      placeFields offset fields ++ placeFields (offset + (fields.map fun field => field.dataType.byteLen).sum) added := by
  induction fields generalizing offset with
  | nil => rfl
  | cons field rest ih => simp [placeFields, ih, Nat.add_assoc]

section

variable (made : Schema.new fields = .ok schema) (grown : Schema.new (fields ++ added) = .ok extended)

include made grown

theorem old_or_next (member : other ∈ extended.fieldMetas) : other ∈ schema.fieldMetas ∨ (fields.length : Int) ≤ other.id := by
  obtain ⟨sound, metas, count⟩ := new_sound made
  obtain ⟨grownSound, grownMetas, _⟩ := new_sound grown
  obtain ⟨i, here⟩ := grownSound.position other member
  have isId := (grownSound.order i other here).2
  by_cases old : i < fields.length
  · left
    -- the old field with this id is the same field of the longer schema
    obtain ⟨first, isFirst⟩ : ∃ first, schema.fieldOrders[i]? = some first :=
      ⟨_, getElem?_eq_getElem (count ▸ old)⟩
    obtain ⟨isOld, oldId⟩ := sound.order i first isFirst
    have inGrown : first ∈ extended.fieldMetas := by
      rw [grownMetas, placeFields_append, ← metas]
      exact mem_append_left _ isOld
    obtain ⟨j, there⟩ := grownSound.position first inGrown
    have sameIndex : i = j := by
      have again := (grownSound.order j first there).2
      simpa [oldId] using again
    subst sameIndex
    cases here.symm.trans there
    exact isOld
  · right
    simp only [isId, Int.ofNat_eq_natCast]
    omega

theorem grown_name (named : schema.getFieldMeta info.name = some info) :
    ∃ other, extended.getFieldMeta info.name = some other ∧ (other = info ∨ (fields.length : Int) ≤ other.id) := by
  obtain ⟨_, metas, _⟩ := new_sound made
  obtain ⟨_, grownMetas, _⟩ := new_sound grown
  have search : extended.getFieldMeta info.name =
      ((placeFields (1 + (fields.map fun field => field.dataType.byteLen).sum) added).reverse.find? fun other =>
        decide (other.name = info.name)).or (schema.getFieldMeta info.name) := by
    rw [getFieldMeta, getFieldMeta, grownMetas, placeFields_append, ← metas, reverse_append, find?_append]
  rw [named] at search
  cases shadowing : (placeFields (1 + (fields.map fun field => field.dataType.byteLen).sum) added).reverse.find? fun other =>
      decide (other.name = info.name) with
  | none => exact ⟨info, by rw [search, shadowing]; rfl, .inl rfl⟩
  | some other =>
    have found : extended.getFieldMeta info.name = some other := by rw [search, shadowing]; rfl
    refine ⟨other, found, ?_⟩
    have member : other ∈ extended.fieldMetas := mem_reverse.mp (mem_of_find?_eq_some found)
    rcases old_or_next made grown member with old | next
    · left
      -- both stand for the name among the old fields, and a field of the added ones has another slot
      have later := mem_reverse.mp (mem_of_find?_eq_some shadowing)
      have inside := placeFields_inside later
      have slot := placeFields_inside (metas ▸ old)
      have wide := other.dataType.byteLen_pos
      omega
    · exact .inr next

end

end Growth

section Rows

variable {fields added : List FieldDef} {schema extended : Schema} {row : List Value} {data : Bytes} {info other : FieldMeta}

theorem hasType_readBack (dataType : FieldType) (value : Value) : (readBack dataType value).hasType dataType = true := by
  cases dataType <;> rfl

theorem readBack_eq_iff (dataType : FieldType) (value : Value) :
    readBack dataType value = orZero dataType value ↔ Given dataType value ∧ Countable value := by
  constructor
  · intro same
    have given : Given dataType value := by
      by_cases none : value = .none
      · exact .inl none
      · have said : orZero dataType value = value := by cases value <;> first | rfl | exact absurd rfl none
        exact .inr (said ▸ same ▸ hasType_readBack dataType value)
    exact ⟨given, (readBack_iff given).mp same⟩
  · rintro ⟨given, countable⟩
    exact (readBack_iff given).mpr countable

theorem deserializeField_next (sound : schema.Sound) (holds : ∃ placed, HoldsRow schema row data placed)
    (named : extended.getFieldMeta other.name = some other) (next : (schema.fieldOrders.length : Int) ≤ other.id) :
    deserializeField extended data other.name = other.defaultValue := by
  obtain ⟨placed, holds⟩ := holds
  have header : number (slice data 0 1) = schema.fieldOrders.length % 256 := by
    rw [holds.header]
    simp [number]
  have low := Nat.mod_le schema.fieldOrders.length 256
  simp only [deserializeField, named, header]
  split
  · rfl
  · rw [if_pos (by omega)]

def Survives (fieldCount : Nat) (extended : Schema) (row : List Value) (info : FieldMeta) : Prop :=
  match extended.getFieldMeta info.name with
  | none => False
  | some other =>
    if other.id < fieldCount % 256 then Given info.dataType (valueAt row info.id.toNat info) ∧ Countable (valueAt row info.id.toNat info)
    else saidValue row info = other.defaultValue

theorem old_rows_read_iff (made : Schema.new fields = .ok schema) (grown : Schema.new (fields ++ added) = .ok extended)
    (serialized : serialize schema row = .ok data) :
    ((∀ info, schema.getFieldMeta info.name = some info →
        deserializeField extended data info.name = saidValue row info) ∧
      ∀ info, extended.getFieldMeta info.name = some info → (fields.length : Int) ≤ info.id →
        deserializeField extended data info.name = info.defaultValue) ↔
    ∀ info, schema.getFieldMeta info.name = some info → Survives fields.length extended row info := by
  obtain ⟨sound, metas, count⟩ := new_sound made
  obtain ⟨placed, _, holds⟩ := serialize_holds sound serialized
  have appended : ∀ info, extended.getFieldMeta info.name = some info → (fields.length : Int) ≤ info.id →
      deserializeField extended data info.name = info.defaultValue := by
    intro info named next
    exact deserializeField_next sound ⟨placed, holds⟩ named (count ▸ next)
  rw [and_iff_left appended]
  refine forall_congr' fun info => imp_congr_right fun named => ?_
  obtain ⟨other, found, origin⟩ := grown_name made grown named
  have sameName : other.name = info.name := by simpa using find?_some found
  rw [Survives, found]
  rcases origin with rfl | next
  · have read : deserializeField extended data other.name = deserializeField schema data other.name := by
      rw [deserializeField, deserializeField, found, named]
    rw [read, deserializeField_eq sound holds named, count]
    by_cases reached : other.id < fields.length % 256
    · rw [if_pos reached]
      simp only [reached, if_true]
      exact readBack_eq_iff other.dataType _
    · rw [if_neg reached]
      simp only [reached, if_false]
      exact eq_comm
  · have low := Nat.mod_le fields.length 256
    have unreached : ¬ other.id < fields.length % 256 := by omega
    rw [← sameName, appended other (sameName ▸ found) next]
    simp only [unreached, if_false]
    exact eq_comm

end Rows

def grownSchema : Schema where
  fieldMetas := someSchema.fieldMetas ++ [⟨['k'], .int64, 17, 3, .int64 9⟩]
  fieldOrders := someSchema.fieldOrders ++ [⟨['k'], .int64, 17, 3, .int64 9⟩]
  totalByteLength := 25

theorem wholeRow_read_later : ∃ data, serialize someSchema wholeRow = .ok data ∧
    (((∀ info, someSchema.getFieldMeta info.name = some info →
        deserializeField grownSchema data info.name = saidValue wholeRow info) ∧
      ∀ info, grownSchema.getFieldMeta info.name = some info → 3 ≤ info.id →
        deserializeField grownSchema data info.name = info.defaultValue) ↔
    ∀ info, someSchema.getFieldMeta info.name = some info → Survives 3 grownSchema wholeRow info) :=
  ⟨_, rfl, old_rows_read_iff (show Schema.new someFields = .ok someSchema by rfl)
    (show Schema.new (someFields ++ [⟨['k'], .int64, 3, .int64 9⟩]) = .ok grownSchema by rfl) rfl⟩

def grownTags : Schema where
  fieldMetas := [tagsMeta, ⟨['k'], .int64, 5, 1, .int64 9⟩]
  fieldOrders := [tagsMeta, ⟨['k'], .int64, 5, 1, .int64 9⟩]
  totalByteLength := 13

theorem long_element_lost_later : Schema.new [⟨['t'], .listString, 0, .none⟩] = .ok tagsSchema ∧
    Schema.new ([⟨['t'], .listString, 0, .none⟩] ++ [⟨['k'], .int64, 1, .int64 9⟩]) = .ok grownTags ∧
    ∃ data, serialize tagsSchema [.listString [List.replicate 65536 0]] = .ok data ∧
      deserializeField grownTags data ['t'] ≠ .listString [List.replicate 65536 0] := by
  obtain ⟨data, serialized, read⟩ := tags_deserialize (List.replicate 65536 0) (by rw [length_replicate]; decide)
  refine ⟨tags_made, rfl, data, serialized, ?_⟩
  have named : tagsSchema.getFieldMeta tagsMeta.name = some tagsMeta := by rfl
  have before : some (deserializeField tagsSchema data ['t']) = _ := (deserialize_eq tagsSchema data (new_sound tags_made).1 named).symm.trans read
  have same : deserializeField grownTags data ['t'] = deserializeField tagsSchema data ['t'] := by rfl
  rw [same, Option.some.inj before, length_replicate, show 65536 % 256 ^ 2 = 0 from rfl, take_zero]
  intro equal
  have lengths := congrArg List.length (List.cons.inj (Value.listString.inj equal)).1
  rw [length_replicate] at lengths
  exact absurd lengths (by decide)

end LoginomDock.VectorStore
