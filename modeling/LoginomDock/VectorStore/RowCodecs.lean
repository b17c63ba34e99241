import LoginomDock.VectorStore.FieldCodecs

/-! Rows whose fields both codecs treat alike become the same bytes, provided that the fields are listed in the order of
their ids and are few enough for the header byte. -/

namespace LoginomDock.VectorStore

open Bytes List

def pySaid (row : PyRow) (field : PyFieldDef) : PyValue :=
  (row field.name).getD (field.defaultValue.getD (typeDefault field.dataType))

def FieldFits (row : PyRow) (field : PyFieldDef) : Prop :=
  match row field.name with
  | some value => value ≠ .none ∧ Fits field.dataType value
  | none =>
    match field.defaultValue with
    | some value =>
      value ≠ .none ∧ Fits field.dataType value ∧ ∃ converted, pyToFieldValue field.dataType value = .ok converted
    -- the types whose default on the Python side is not the empty value
    | none => field.dataType ∉ [.string, .listInt64, .listString, .listFloat32]

def fixedWidth (fields : List PyFieldDef) : Nat := (fields.map fun field => field.dataType.byteLen).sum

def contentWidth (row : PyRow) (fields : List PyFieldDef) : Nat :=
  (fields.map fun field => contentSize field.dataType (pySaid row field)).sum

def InIdOrder (fields : List PyFieldDef) : Prop := ∀ (i : Nat) field, fields[i]? = some field → field.id = Int.ofNat i

structure RowFits (fields : List PyFieldDef) (row : PyRow) : Prop where
  few : fields.length ≤ 255
  ordered : InIdOrder fields
  each : ∀ field ∈ fields, FieldFits row field
  size : 1 + fixedWidth fields + contentWidth row fields < 2 ^ 31

def slotted : Nat → List PyFieldDef → List (PyFieldDef × Nat)
  | _, [] => []
  | offset, field :: rest => (field, offset) :: slotted (offset + field.dataType.byteLen) rest

def pyMeta (entry : PyFieldDef × Nat) : PyFieldMeta :=
  ⟨entry.1.name, entry.1.dataType, entry.2, entry.1.id, entry.1.defaultValue.getD (typeDefault entry.1.dataType)⟩

def nativeMeta (entry : PyFieldDef × Nat) : FieldMeta :=
  ⟨entry.1.name, entry.1.dataType, entry.2, entry.1.id, (parseSchemaField entry.1).defaultValue⟩

section

variable (offset : Nat) (fields : List PyFieldDef)

include offset fields

theorem placePyFields_eq :
    placePyFields offset fields = (slotted offset fields).map pyMeta := by
  induction fields generalizing offset with
  | nil => rfl
  | cons field rest ih => rw [placePyFields, slotted, map_cons, ih, pyMeta]

theorem placeFields_eq :
    placeFields offset (fields.map parseSchemaField) = (slotted offset fields).map nativeMeta := by
  induction fields generalizing offset with
  | nil => rfl
  | cons field rest ih =>
    rw [map_cons, placeFields, slotted, map_cons, nativeMeta]
    exact congrArg _ (ih _)

theorem map_fst_slotted : (slotted offset fields).map Prod.fst = fields := by
  induction fields generalizing offset with
  | nil => rfl
  | cons field rest ih => rw [slotted, map_cons, ih]

theorem length_slotted : (slotted offset fields).length = fields.length := by
  rw [← length_map Prod.fst, map_fst_slotted]

end

theorem find?_unique {α : Type} {found : α → Bool} {values : List α} {value : α} (member : value ∈ values)
    (holds : found value) (unique : ∀ other ∈ values, found other → other = value) : values.find? found = some value := by
  cases isFound : values.find? found with
  | none => exact absurd holds (find?_eq_none.mp isFound value member)
  | some other => rw [unique other (mem_of_find?_eq_some isFound) (find?_some isFound)]

theorem maxId_le {fields : List FieldDef} {bound : Int} (start : -1 ≤ bound) (below : ∀ field ∈ fields, field.id ≤ bound) :
    maxId fields ≤ bound := by
  have most : ∀ (fields : List FieldDef) (start : Int), start ≤ bound → (∀ field ∈ fields, field.id ≤ bound) →
      fields.foldl (fun most field => max most field.id) start ≤ bound := by
    intro fields
    induction fields with
    | nil => exact fun _ atStart _ => atStart
    | cons first rest ih =>
      intro start atStart each
      have atFirst := each first mem_cons_self
      exact ih _ (max_le atStart atFirst) fun field later => each field (mem_cons_of_mem _ later)
  exact most fields (-1) start below

section Schemas

variable {fields : List PyFieldDef} (ordered : InIdOrder fields)

include ordered

theorem slotted_id {offset i : Nat} {entry : PyFieldDef × Nat} (here : (slotted offset fields)[i]? = some entry) :
    entry.1.id = Int.ofNat i := by
  refine ordered i entry.1 ?_
  rw [← map_fst_slotted offset fields, getElem?_map, here]
  rfl

theorem slotted_unique {offset i : Nat} {entry other : PyFieldDef × Nat} (here : (slotted offset fields)[i]? = some entry)
    (member : other ∈ slotted offset fields) (sameId : other.1.id = Int.ofNat i) : other = entry := by
  obtain ⟨j, there⟩ := mem_iff_getElem?.mp member
  have same := slotted_id ordered there
  rw [sameId] at same
  cases Int.ofNat.inj same
  exact Option.some.inj (there.symm.trans here)

theorem pySchema_new : PySchema.new fields = .ok {
    fieldMetas := (slotted 1 fields).map pyMeta
    fieldOrders := (slotted 1 fields).map fun entry => some (pyMeta entry)
    totalByteLength := 1 + fixedWidth fields } := by
  have index : ∀ {i : Nat} {entry : PyFieldDef × Nat}, (slotted 1 fields)[i]? = some entry →
      pyIndex fields.length entry.1.id = some i := by
    intro i entry here
    have bound := (List.getElem?_eq_some_iff.mp here).1
    rw [length_slotted] at bound
    rw [slotted_id ordered here, pyIndex, if_pos ⟨Int.natCast_nonneg i, Int.ofNat_lt.mpr bound⟩]
    rfl
  have inside : (fields.all fun field => (pyIndex fields.length field.id).isSome) = true := by
    refine all_eq_true.mpr fun field member => ?_
    rw [← map_fst_slotted 1 fields] at member
    obtain ⟨entry, isEntry, rfl⟩ := mem_map.mp member
    obtain ⟨i, here⟩ := mem_iff_getElem?.mp isEntry
    rw [index here]
    rfl
  rw [PySchema.new, if_pos inside, placePyFields_eq]
  congr 2
  refine ext_getElem (by simp [length_slotted]) fun i _ bound => ?_
  rw [length_map] at bound
  have here : (slotted 1 fields)[i]? = some (slotted 1 fields)[i] := getElem?_eq_getElem bound
  rw [getElem_map, getElem_map, getElem_range]
  refine find?_unique (mem_reverse.mpr (mem_map_of_mem (getElem_mem bound))) (decide_eq_true (index here)) ?_
  intro other member sameIndex
  obtain ⟨entry, isEntry, rfl⟩ := mem_map.mp (mem_reverse.mp member)
  obtain ⟨j, there⟩ := mem_iff_getElem?.mp isEntry
  have same : pyIndex fields.length entry.1.id = some i := of_decide_eq_true sameIndex
  rw [index there] at same
  cases same
  rw [Option.some.inj (there.symm.trans here)]

theorem parsed_ids : (fields.map parseSchemaField).map FieldDef.id = (List.range fields.length).map Int.ofNat := by
  refine ext_getElem (by simp) fun i bound _ => ?_
  rw [map_map, length_map] at bound
  rw [getElem_map, getElem_map, getElem_map, getElem_range]
  exact ordered i _ (getElem?_eq_getElem bound)

theorem parsed_id {field : FieldDef} (member : field ∈ fields.map parseSchemaField) :
    0 ≤ field.id ∧ field.id ≤ fields.length - 1 := by
  have isId : field.id ∈ (List.range fields.length).map Int.ofNat := parsed_ids ordered ▸ mem_map_of_mem member
  obtain ⟨i, inRange, same⟩ := mem_map.mp isId
  have bound := mem_range.mp inRange
  rw [← same, Int.ofNat_eq_natCast]
  omega

theorem maxId_of_ordered (notEmpty : fields ≠ []) : maxId (fields.map parseSchemaField) = fields.length - 1 := by
  have positive : 0 < fields.length := length_pos_of_ne_nil notEmpty
  refine Int.le_antisymm (maxId_le (by omega) fun field member => (parsed_id ordered member).2) ?_
  have last : (Int.ofNat (fields.length - 1)) ∈ (fields.map parseSchemaField).map FieldDef.id := by
    rw [parsed_ids ordered]
    exact mem_map_of_mem (mem_range.mpr (by omega))
  obtain ⟨field, member, same⟩ := mem_map.mp last
  have most := le_maxId member
  rw [same, Int.ofNat_eq_natCast] at most
  omega

theorem nativeSchema_new : Schema.new (fields.map parseSchemaField) = .ok {
    fieldMetas := (slotted 1 fields).map nativeMeta
    fieldOrders := (slotted 1 fields).map nativeMeta
    totalByteLength := 1 + fixedWidth fields } := by
  by_cases empty : fields = []
  · subst empty
    rfl
  have notNegative : ¬ ((fields.map parseSchemaField).any fun field => field.id < 0) = true := by
    intro negative
    obtain ⟨field, member, below⟩ := any_eq_true.mp negative
    have atLeast := (parsed_id ordered member).1
    have impossible := of_decide_eq_true below
    omega
  have distinct : ((fields.map parseSchemaField).map FieldDef.id).Nodup := by
    rw [parsed_ids ordered]
    exact nodup_range.map fun i j same => Int.ofNat.inj same
  have contiguous : ¬ maxId (fields.map parseSchemaField) ≠ (fields.map parseSchemaField).length - 1 := by
    rw [length_map]
    exact not_not_intro (maxId_of_ordered ordered empty)
  rw [Schema.new, if_neg (by simpa using empty), if_neg notNegative, if_neg contiguous, if_neg (not_not_intro distinct),
    placeFields_eq, length_map, map_map]
  congr 2
  refine ext_getElem (by simp [length_slotted]) fun i _ bound => ?_
  rw [length_map] at bound
  have here : (slotted 1 fields)[i]? = some (slotted 1 fields)[i] := getElem?_eq_getElem bound
  have isFound : ((slotted 1 fields).map nativeMeta).find? (fun info => decide (info.id = Int.ofNat i)) =
      some (nativeMeta (slotted 1 fields)[i]) := by
    refine find?_unique (mem_map_of_mem (getElem_mem bound)) (decide_eq_true (slotted_id ordered here)) ?_
    intro other member sameId
    obtain ⟨entry, isEntry, rfl⟩ := mem_map.mp member
    rw [slotted_unique ordered here isEntry (of_decide_eq_true sameId)]
  rw [getElem_map, getElem_map, getElem_range, isFound]
  rfl

end Schemas

def orDefault (info : FieldMeta) : Value → Value
  | .none => info.defaultValue
  | value => value

theorem pyToFieldValue_some {dataType : FieldType} {value : PyValue} {converted : Value}
    (isValue : pyToFieldValue dataType value = .ok converted) : converted ≠ .none := by
  rintro rfl
  cases dataType <;> simp only [pyToFieldValue, bind_ok_iff, pure_eq_ok, Except.ok.injEq, reduceCtorEq, and_false,
    exists_false] at isValue

theorem rowValue_given {row : PyRow} {info : FieldMeta} {value : PyValue} (given : row info.name = some value)
    (present : value ≠ .none) : rowValue row info = pyToFieldValue info.dataType value := by
  rw [rowValue, given]
  cases value <;> first | exact absurd rfl present | rfl

theorem rowValue_missing {row : PyRow} {info : FieldMeta} (missing : row info.name = none) : rowValue row info = .ok .none := by
  rw [rowValue, missing]

-- What both codecs do with a field, as the codec of the native side says it.
structure FieldAgrees (row : PyRow) (entry : PyFieldDef × Nat) (offset : Nat) : Prop where
  pieces : (pyPieces (pyMeta entry) (pySaid row entry.1) offset).toOption =
    (rowValue row (nativeMeta entry)).toOption.bind fun given =>
      nativePieces (nativeMeta entry) (orDefault (nativeMeta entry) given) offset
  exact : ∀ given length, rowValue row (nativeMeta entry) = .ok given →
    varLength (nativeMeta entry) (orDefault (nativeMeta entry) given) = .ok length →
      length = (varBytes entry.1.dataType (orDefault (nativeMeta entry) given)).length ∧
      length = contentSize entry.1.dataType (pySaid row entry.1)

theorem orDefault_some {info : FieldMeta} {value : Value} (present : value ≠ .none) : orDefault info value = value := by
  cases value <;> first | exact absurd rfl present | rfl

theorem fieldAgrees {row : PyRow} {entry : PyFieldDef × Nat} {offset : Nat} (fits : FieldFits row entry.1)
    (small : offset + contentSize entry.1.dataType (pySaid row entry.1) < 2 ^ 31) : FieldAgrees row entry offset := by
  have isType : (nativeMeta entry).dataType = entry.1.dataType := rfl
  unfold FieldFits at fits
  cases given : row entry.1.name with
  | some value =>
    simp only [given] at fits
    have said : pySaid row entry.1 = value := by simp [pySaid, given]
    rw [said] at small
    have isValue : rowValue row (nativeMeta entry) = pyToFieldValue entry.1.dataType value := rowValue_given given fits.1
    constructor
    · rw [said, isValue]
      refine (pyPieces_given fits.2 isType small).trans ?_
      cases converts : pyToFieldValue entry.1.dataType value with
      | error error => rfl
      | ok converted =>
        rw [toOption_ok, Option.bind_some, Option.bind_some, orDefault_some (pyToFieldValue_some converts)]
    · intro converted length converts accepted
      rw [isValue] at converts
      rw [orDefault_some (pyToFieldValue_some converts)] at accepted ⊢
      rw [said]
      exact varLength_given fits.2 (by omega) isType converts accepted
  | none =>
    simp only [given] at fits
    have isValue : rowValue row (nativeMeta entry) = .ok .none := rowValue_missing given
    have isDefault : orDefault (nativeMeta entry) .none = (parseSchemaField entry.1).defaultValue := rfl
    cases hasDefault : entry.1.defaultValue with
    | some value =>
      simp only [hasDefault] at fits
      obtain ⟨present, valueFits, converted, converts⟩ := fits
      have said : pySaid row entry.1 = value := by simp [pySaid, given, hasDefault]
      have parsed : (parseSchemaField entry.1).defaultValue = converted := by
        simp only [parseSchemaField, hasDefault]
        cases value <;> first | exact absurd rfl present | simp only [converts]
      rw [said] at small
      constructor
      · rw [said, isValue, toOption_ok, Option.bind_some, isDefault, parsed]
        refine (pyPieces_given valueFits isType small).trans ?_
        rw [converts, toOption_ok, Option.bind_some]
      · intro other length same accepted
        rw [isValue] at same
        cases same
        rw [isDefault, parsed] at accepted ⊢
        rw [said]
        exact varLength_given valueFits (by omega) isType converts accepted
    | none =>
      simp only [hasDefault] at fits
      have said : pySaid row entry.1 = typeDefault entry.1.dataType := by simp [pySaid, given, hasDefault]
      have parsed : (parseSchemaField entry.1).defaultValue = .none := by simp only [parseSchemaField, hasDefault]
      constructor
      · rw [said, isValue, toOption_ok, Option.bind_some, isDefault, parsed]
        exact pyPieces_missing isType (by omega) fits
      · intro other length same accepted
        rw [isValue] at same
        cases same
        rw [isDefault, parsed] at accepted ⊢
        rw [said]
        exact varLength_missing isType fits accepted

end LoginomDock.VectorStore
