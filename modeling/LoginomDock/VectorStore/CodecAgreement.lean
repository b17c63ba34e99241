import LoginomDock.VectorStore.RowCodecs

namespace LoginomDock.VectorStore

open Bytes List

def regionsOf (row : PyRow) : Nat → List (PyFieldDef × Nat) → Option (Bytes × Bytes)
  | _, [] => some ([], [])
  | offset, entry :: rest =>
    (rowValue row (nativeMeta entry)).toOption.bind fun given =>
      (nativePieces (nativeMeta entry) (orDefault (nativeMeta entry) given) offset).bind fun pieces =>
        (regionsOf row (offset + pieces.2.length) rest).map fun others => (pieces.1 ++ others.1, pieces.2 ++ others.2)

def fixedRegion (placed : List Placed) : Bytes :=
  placed.flatMap fun part => fixedBytes part.info.dataType part.value part.offset

def varRegion (placed : List Placed) : Bytes := placed.flatMap fun part => varBytes part.info.dataType part.value

def sizesOf (row : PyRow) (entries : List (PyFieldDef × Nat)) : Nat :=
  (entries.map fun entry => contentSize entry.1.dataType (pySaid row entry.1)).sum

theorem toOption_bind {ε α β : Type} (first : Except ε α) (next : α → Except ε β) :
    (first >>= next).toOption = first.toOption.bind fun value => (next value).toOption := by
  cases first <;> rfl

theorem pyRegions_cons (row : PyRow) (offset : Nat) (info : PyFieldMeta) (rest : List (Option PyFieldMeta)) :
    pyRegions row offset (some info :: rest) = pyPieces info (pyValueOf row info) offset >>= fun pieces =>
      pyRegions row (offset + pieces.2.length) rest >>= fun others =>
        .ok (pieces.1 ++ others.1, pieces.2 ++ others.2) := by
  rw [pyRegions, pyPieces]
  cases pyVariable info (pyValueOf row info) with
  | error error => rfl
  | ok varPart =>
    cases pyFixed info (pyValueOf row info) offset with
    | error error => rfl
    | ok fixedPart => rfl

section Regions

variable {row : PyRow} {entries : List (PyFieldDef × Nat)} {offset : Nat}

theorem pieces_length {entry : PyFieldDef × Nat} {given : Value} {pieces : Bytes × Bytes} (agrees : FieldAgrees row entry offset)
    (isValue : rowValue row (nativeMeta entry) = .ok given)
    (accepted : nativePieces (nativeMeta entry) (orDefault (nativeMeta entry) given) offset = some pieces) :
    varLength (nativeMeta entry) (orDefault (nativeMeta entry) given) = .ok pieces.2.length ∧
      pieces.2.length = contentSize entry.1.dataType (pySaid row entry.1) := by
  obtain ⟨_, isContent, length, reserved⟩ := nativePieces_some accepted
  obtain ⟨exact, size⟩ := agrees.exact given length isValue reserved
  rw [isContent]
  exact ⟨reserved.trans (congrArg _ exact), exact.symm.trans size⟩

theorem pyRegions_eq (fits : ∀ entry ∈ entries, FieldFits row entry.1) (small : offset + sizesOf row entries < 2 ^ 31) :
    (pyRegions row offset (entries.map fun entry => some (pyMeta entry))).toOption = regionsOf row offset entries := by
  induction entries generalizing offset with
  | nil => rfl
  | cons entry rest ih =>
    rw [sizesOf, map_cons, sum_cons, ← sizesOf] at small
    have agrees : FieldAgrees row entry offset := fieldAgrees (fits entry mem_cons_self) (by omega)
    have samePieces := agrees.pieces
    rw [map_cons, pyRegions_cons, toOption_bind, regionsOf, show pyValueOf row (pyMeta entry) = pySaid row entry.1 from rfl,
      samePieces, Option.bind_assoc]
    cases isValue : rowValue row (nativeMeta entry) with
    | error error => rfl
    | ok given =>
      rw [toOption_ok, Option.bind_some, Option.bind_some]
      cases accepted : nativePieces (nativeMeta entry) (orDefault (nativeMeta entry) given) offset with
      | none => rfl
      | some pieces =>
        have length := (pieces_length agrees isValue accepted).2
        rw [Option.bind_some, Option.bind_some, toOption_bind,
          ih (fun other later => fits other (mem_cons_of_mem _ later)) (by omega)]
        cases regionsOf row (offset + pieces.2.length) rest <;> rfl

def nativeFields (entries : List (PyFieldDef × Nat)) (values : List Value) : List (FieldMeta × Value) :=
  List.zipWith (fun entry given => (nativeMeta entry, orDefault (nativeMeta entry) given)) entries values

variable {values : List Value}

theorem rowObjectToValues_cons {entry : PyFieldDef × Nat} {rest : List (PyFieldDef × Nat)}
    (isValues : rowObjectToValues row ((entry :: rest).map nativeMeta) = .ok values) :
    ∃ given others, rowValue row (nativeMeta entry) = .ok given ∧
      rowObjectToValues row (rest.map nativeMeta) = .ok others ∧ values = given :: others := by
  rw [map_cons, rowObjectToValues] at isValues
  obtain ⟨given, isValue, more⟩ := bind_ok_iff.mp isValues
  obtain ⟨others, isRest, same⟩ := bind_ok_iff.mp more
  exact ⟨given, others, isValue, isRest, (Except.ok.inj same).symm⟩

theorem length_rowObjectToValues
    (isValues : rowObjectToValues row (entries.map nativeMeta) = .ok values) : values.length = entries.length := by
  induction entries generalizing values with
  | nil =>
    cases isValues
    rfl
  | cons entry rest ih =>
    obtain ⟨given, others, _, isRest, rfl⟩ := rowObjectToValues_cons isValues
    rw [length_cons, length_cons, ih isRest]

theorem fieldValues_eq {schema : Schema} (isOrder : schema.fieldOrders = entries.map nativeMeta)
    (sameLength : values.length = entries.length) : fieldValues schema values = nativeFields entries values := by
  refine ext_getElem (by simp [fieldValues, nativeFields, isOrder, sameLength]) fun i bound _ => ?_
  have inside : i < entries.length := by simpa [fieldValues, isOrder] using bound
  simp only [fieldValues, nativeFields, isOrder, getElem_map, getElem_zipIdx, getElem_zipWith, Nat.zero_add]
  rw [valueAt, getElem?_eq_getElem (show i < values.length by omega)]
  cases values[i] <;> rfl

theorem layOut_cons {info : FieldMeta} {value : Value} {rest : List (FieldMeta × Value)} {placed : List Placed} {total : Nat}
    (succeeds : layOut offset ((info, value) :: rest) = .ok (placed, total)) :
    ∃ length others, varLength info value = .ok length ∧ layOut (offset + length) rest = .ok (others, total) ∧
      placed = ⟨info, value, offset⟩ :: others := by
  rw [layOut] at succeeds
  obtain ⟨length, reserved, more⟩ := bind_ok_iff.mp succeeds
  obtain ⟨⟨others, last⟩, isRest, same⟩ := bind_ok_iff.mp more
  cases same
  exact ⟨length, others, reserved, isRest, rfl⟩

theorem layOut_exact {placed : List Placed} {total : Nat}
    (fits : ∀ entry ∈ entries, FieldFits row entry.1) (small : offset + sizesOf row entries < 2 ^ 31)
    (isValues : rowObjectToValues row (entries.map nativeMeta) = .ok values)
    (succeeds : layOut offset (nativeFields entries values) = .ok (placed, total)) :
    ∀ part ∈ placed, varLength part.info part.value = .ok (varBytes part.info.dataType part.value).length := by
  induction entries generalizing offset values placed with
  | nil =>
    cases isValues
    rw [nativeFields, zipWith_nil_left, layOut] at succeeds
    split at succeeds <;> cases succeeds
    simp
  | cons entry rest ih =>
    rw [sizesOf, map_cons, sum_cons, ← sizesOf] at small
    obtain ⟨given, others, isValue, isRest, rfl⟩ := rowObjectToValues_cons isValues
    obtain ⟨length, later, reserved, laidOut, rfl⟩ := layOut_cons succeeds
    have agrees : FieldAgrees row entry offset := fieldAgrees (fits entry mem_cons_self) (by omega)
    obtain ⟨exact, size⟩ := agrees.exact given length isValue reserved
    intro part member
    rcases mem_cons.mp member with rfl | inRest
    · exact reserved.trans (congrArg _ exact)
    · exact ih (fun other isOther => fits other (mem_cons_of_mem _ isOther)) (by omega) isRest laidOut part inRest

theorem regionsOf_laidOut (fits : ∀ entry ∈ entries, FieldFits row entry.1) (small : offset + sizesOf row entries < 2 ^ 31) :
    regionsOf row offset entries = (rowObjectToValues row (entries.map nativeMeta)).toOption.bind fun values =>
      (layOut offset (nativeFields entries values)).toOption.map fun result =>
        (fixedRegion result.1, varRegion result.1) := by
  induction entries generalizing offset with
  | nil =>
    rw [regionsOf, map_nil, rowObjectToValues, toOption_ok, Option.bind_some, nativeFields, zipWith_nil_left, layOut,
      if_pos (by simpa [sizesOf] using small)]
    rfl
  | cons entry rest ih =>
    rw [sizesOf, map_cons, sum_cons, ← sizesOf] at small
    have agrees : FieldAgrees row entry offset := fieldAgrees (fits entry mem_cons_self) (by omega)
    rw [regionsOf, map_cons, rowObjectToValues, toOption_bind]
    cases isValue : rowValue row (nativeMeta entry) with
    | error error => rfl
    | ok given =>
      rw [toOption_ok, Option.bind_some, Option.bind_some]
      have layOut_first (others : List Value) : (layOut offset (nativeFields (entry :: rest) (given :: others))).toOption =
          (varLength (nativeMeta entry) (orDefault (nativeMeta entry) given)).toOption.bind fun length =>
            (layOut (offset + length) (nativeFields rest others)).toOption.map fun result =>
              (⟨nativeMeta entry, orDefault (nativeMeta entry) given, offset⟩ :: result.1, result.2) := by
        rw [nativeFields, zipWith_cons_cons, layOut, toOption_bind, ← nativeFields]
        congr 1
        funext length
        cases layOut (offset + length) (nativeFields rest others) <;> rfl
      cases accepted : nativePieces (nativeMeta entry) (orDefault (nativeMeta entry) given) offset with
      | none =>
        have refused : (varLength (nativeMeta entry) (orDefault (nativeMeta entry) given)).toOption = none := by
          cases reserved : varLength (nativeMeta entry) (orDefault (nativeMeta entry) given) with
          | error error => rfl
          | ok length => simp [nativePieces, reserved] at accepted
        cases rowObjectToValues row (rest.map nativeMeta) with
        | error error => rfl
        | ok others => rw [ok_bind, pure_eq_ok, toOption_ok, Option.bind_some, layOut_first, refused]; rfl
      | some pieces =>
        obtain ⟨reserved, size⟩ := pieces_length agrees isValue accepted
        obtain ⟨isFixed, isContent, _⟩ := nativePieces_some accepted
        rw [Option.bind_some, ih (fun other later => fits other (mem_cons_of_mem _ later)) (by omega)]
        cases rowObjectToValues row (rest.map nativeMeta) with
        | error error => rfl
        | ok others =>
          rw [ok_bind, pure_eq_ok, toOption_ok, toOption_ok, Option.bind_some, Option.bind_some, layOut_first, reserved,
            toOption_ok, Option.bind_some]
          cases layOut (offset + pieces.2.length) (nativeFields rest others) with
          | error error => rfl
          | ok result =>
            rw [toOption_ok, Option.map_some, Option.map_some, Option.map_some, Option.map_some, isFixed, isContent]
            rfl

end Regions

section Buffer

variable {data : Bytes} {placed : List Placed} {offset : Nat}

theorem slice_varRegion {fields : List (FieldMeta × Value)} {total : Nat}
    (succeeds : layOut offset fields = .ok (placed, total))
    (exact : ∀ part ∈ placed, varLength part.info part.value = .ok (varBytes part.info.dataType part.value).length)
    (holds : ∀ part ∈ placed, HoldsPart data part) :
    slice data offset (varRegion placed).length = varRegion placed ∧ offset + (varRegion placed).length = total := by
  induction fields generalizing offset placed with
  | nil =>
    rw [layOut] at succeeds
    split at succeeds <;> cases succeeds
    exact ⟨by simp [varRegion, slice], rfl⟩
  | cons field rest ih =>
    obtain ⟨length, others, reserved, laidOut, rfl⟩ := layOut_cons succeeds
    have same := (exact _ mem_cons_self).symm.trans reserved
    obtain ⟨isRest, atEnd⟩ := ih laidOut (fun part later => exact part (mem_cons_of_mem _ later))
      fun part later => holds part (mem_cons_of_mem _ later)
    rw [← Except.ok.inj same] at isRest atEnd
    refine ⟨slice_append (holds _ mem_cons_self).content isRest, ?_⟩
    rw [varRegion, flatMap_cons, List.length_append, ← varRegion]
    omega

theorem slice_fixedRegion {fields : List PyFieldDef} (infos : placed.map Placed.info = (slotted offset fields).map nativeMeta)
    (holds : ∀ part ∈ placed, HoldsPart data part) :
    slice data offset (fixedRegion placed).length = fixedRegion placed ∧ (fixedRegion placed).length = fixedWidth fields := by
  induction fields generalizing offset placed with
  | nil =>
    rw [slotted, map_nil, map_eq_nil_iff] at infos
    subst infos
    exact ⟨by simp [fixedRegion, slice], rfl⟩
  | cons field rest ih =>
    cases placed with
    | nil => cases infos
    | cons part others =>
      rw [slotted, map_cons, map_cons] at infos
      obtain ⟨isInfo, isRest⟩ := List.cons.inj infos
      have slot := (holds part mem_cons_self).slot
      have width := length_fixedBytes part.info.dataType part.value part.offset
      have isOffset : part.info.offset = offset := by rw [isInfo]; rfl
      have isWidth : part.info.dataType.byteLen = field.dataType.byteLen := by rw [isInfo]; rfl
      obtain ⟨restHolds, restWidth⟩ := ih isRest fun other later => holds other (mem_cons_of_mem _ later)
      rw [isOffset, ← width] at slot
      rw [← isWidth, ← width] at restHolds
      refine ⟨slice_append slot restHolds, ?_⟩
      rw [fixedRegion, flatMap_cons, List.length_append, ← fixedRegion, restWidth, width, isWidth, fixedWidth, fixedWidth,
        map_cons, sum_cons]

end Buffer

section Rows

variable {fields : List PyFieldDef} {row : PyRow}

def nativeSchema (fields : List PyFieldDef) : Schema where
  fieldMetas := (slotted 1 fields).map nativeMeta
  fieldOrders := (slotted 1 fields).map nativeMeta
  totalByteLength := 1 + fixedWidth fields

def pySchema (fields : List PyFieldDef) : PySchema where
  fieldMetas := (slotted 1 fields).map pyMeta
  fieldOrders := (slotted 1 fields).map fun entry => some (pyMeta entry)
  totalByteLength := 1 + fixedWidth fields

section

variable (fits : RowFits fields row)

include fits

theorem RowFits.entries : ∀ entry ∈ slotted 1 fields, FieldFits row entry.1 := by
  intro entry member
  refine fits.each entry.1 ?_
  rw [← map_fst_slotted 1 fields]
  exact mem_map_of_mem member

theorem RowFits.small : 1 + fixedWidth fields + sizesOf row (slotted 1 fields) < 2 ^ 31 := by
  have size := fits.size
  rw [contentWidth, ← map_fst_slotted 1 fields, map_map, map_fst_slotted] at size
  exact size

theorem pySerialize_eq :
    (PyBytesRow.serialize (pySchema fields) row).toOption =
      (regionsOf row (1 + fixedWidth fields) (slotted 1 fields)).map fun regions =>
        UInt8.ofNat fields.length :: (regions.1 ++ regions.2) := by
  have few := fits.few
  have isLength : (pySchema fields).fieldOrders.length = fields.length := by
    rw [pySchema, length_map, length_slotted]
  rw [PyBytesRow.serialize, toOption_bind, isLength, ← pyRegions_eq fits.entries fits.small,
    show (pySchema fields).totalByteLength = 1 + fixedWidth fields from rfl,
    show (pySchema fields).fieldOrders = (slotted 1 fields).map fun entry => some (pyMeta entry) from rfl]
  cases pyRegions row (1 + fixedWidth fields) ((slotted 1 fields).map fun entry => some (pyMeta entry)) with
  | error error => rfl
  | ok regions => simp only [toOption_ok, Option.bind_some, Option.map_some, if_neg (show ¬ 255 < fields.length by omega),
      pure_eq_ok]

theorem native_buffer {values : List Value} {data : Bytes} {placed : List Placed}
    (isValues : rowObjectToValues row ((slotted 1 fields).map nativeMeta) = .ok values)
    (laidOut : layOut (1 + fixedWidth fields) (nativeFields (slotted 1 fields) values) = .ok (placed, data.length))
    (holds : HoldsRow (nativeSchema fields) values data placed) :
    data = UInt8.ofNat fields.length :: (fixedRegion placed ++ varRegion placed) := by
  have exact := layOut_exact fits.entries fits.small isValues laidOut
  have infos : placed.map Placed.info = (slotted 1 fields).map nativeMeta := by
    rw [← show (nativeSchema fields).fieldOrders = (slotted 1 fields).map nativeMeta from rfl,
      ← map_fst_fieldValues (nativeSchema fields) values, ← holds.fields, map_map]
    rfl
  obtain ⟨isFixed, fixedLength⟩ := slice_fixedRegion infos holds.parts
  obtain ⟨isVar, atEnd⟩ := slice_varRegion laidOut exact holds.parts
  have header := holds.header
  rw [show (nativeSchema fields).fieldOrders.length = fields.length by rw [nativeSchema, length_map, length_slotted]]
    at header
  rw [← fixedLength] at isVar
  have regions := slice_append isFixed isVar
  have whole := slice_append (show slice data 0 [UInt8.ofNat fields.length].length = [UInt8.ofNat fields.length] from header) regions
  have sameLength : ([UInt8.ofNat fields.length] ++ (fixedRegion placed ++ varRegion placed)).length = data.length := by
    rw [List.length_append, List.length_append, length_singleton]
    omega
  rw [sameLength, slice_all] at whole
  exact whole

end

theorem nativeSchema_sound (ordered : InIdOrder fields) : (nativeSchema fields).Sound :=
  (Schema.new_sound (nativeSchema_new ordered)).1

theorem fieldValues_nativeSchema {values : List Value}
    (isValues : rowObjectToValues row ((slotted 1 fields).map nativeMeta) = .ok values) :
    fieldValues (nativeSchema fields) values = nativeFields (slotted 1 fields) values :=
  fieldValues_eq rfl (length_rowObjectToValues isValues)

theorem nativeSerialize_eq (fits : RowFits fields row) :
    (NativeBytesRow.serialize (nativeSchema fields) row).toOption =
      (regionsOf row (1 + fixedWidth fields) (slotted 1 fields)).map fun regions =>
        UInt8.ofNat fields.length :: (regions.1 ++ regions.2) := by
  rw [NativeBytesRow.serialize, toOption_bind, regionsOf_laidOut fits.entries fits.small,
    show (nativeSchema fields).fieldOrders = (slotted 1 fields).map nativeMeta from rfl]
  cases isValues : rowObjectToValues row ((slotted 1 fields).map nativeMeta) with
  | error error => rfl
  | ok values =>
    rw [toOption_ok, Option.bind_some, Option.bind_some]
    cases isData : BytesRow.serialize (nativeSchema fields) values with
    | error error =>
      have refused := isData
      rw [BytesRow.serialize, fieldValues_nativeSchema isValues] at refused
      cases laidOut : layOut (1 + fixedWidth fields) (nativeFields (slotted 1 fields) values) with
      | error other => rfl
      | ok result =>
        rw [show (nativeSchema fields).totalByteLength = 1 + fixedWidth fields from rfl, laidOut] at refused
        cases refused
    | ok data =>
      obtain ⟨placed, laidOut, holds⟩ := serialize_holds (nativeSchema_sound fits.ordered) isData
      rw [fieldValues_nativeSchema isValues] at laidOut
      have isBuffer := native_buffer fits isValues laidOut holds
      rw [show (nativeSchema fields).totalByteLength = 1 + fixedWidth fields from rfl] at laidOut
      rw [laidOut]
      exact congrArg some isBuffer

theorem pyFieldMeta_eq (name : Text) : (pySchema fields).getFieldMeta name =
    ((slotted 1 fields).reverse.find? fun entry => entry.1.name = name).map pyMeta := by
  rw [PySchema.getFieldMeta, pySchema, ← map_reverse, find?_map]
  rfl

theorem nativeFieldMeta_eq (name : Text) : (nativeSchema fields).getFieldMeta name =
    ((slotted 1 fields).reverse.find? fun entry => entry.1.name = name).map nativeMeta := by
  rw [Schema.getFieldMeta, nativeSchema, ← map_reverse, find?_map]
  rfl

theorem entry_of_name {field : PyFieldDef} (member : field ∈ fields) :
    ∃ entry ∈ slotted 1 fields, ((slotted 1 fields).reverse.find? fun entry => entry.1.name = field.name) = some entry := by
  rw [← map_fst_slotted 1 fields] at member
  obtain ⟨entry, isEntry, rfl⟩ := mem_map.mp member
  cases isFound : (slotted 1 fields).reverse.find? fun other => other.1.name = entry.1.name with
  | none =>
    have notNamed := find?_eq_none.mp isFound entry (mem_reverse.mpr isEntry)
    simp at notNamed
  | some found => exact ⟨found, mem_reverse.mp (mem_of_find?_eq_some isFound), rfl⟩

theorem deserializeField_agrees (fits : RowFits fields row) {data : Bytes}
    (serialized : NativeBytesRow.serialize (nativeSchema fields) row = .ok data) {field : PyFieldDef} (member : field ∈ fields) :
    PyBytesRow.deserializeField (pySchema fields) data field.name =
      NativeBytesRow.deserializeField (nativeSchema fields) data field.name := by
  obtain ⟨entry, isEntry, isFound⟩ := entry_of_name member
  obtain ⟨values, _, accepted⟩ := bind_ok_iff.mp serialized
  have isData : BytesRow.serialize (nativeSchema fields) values = .ok data := by
    cases written : BytesRow.serialize (nativeSchema fields) values with
    | error error => rw [written] at accepted; cases accepted
    | ok bytes => rw [written] at accepted; exact congrArg _ (Except.ok.inj accepted)
  obtain ⟨placed, _, holds⟩ := serialize_holds (nativeSchema_sound fits.ordered) isData
  obtain ⟨i, here⟩ := mem_iff_getElem?.mp isEntry
  have bound : i < fields.length := by
    rw [← length_slotted 1 fields]
    exact (List.getElem?_eq_some_iff.mp here).1
  have ordered : (nativeSchema fields).fieldOrders[i]? = some (nativeMeta entry) := by
    rw [nativeSchema, getElem?_map, here]
    rfl
  obtain ⟨part, isPart, isInfo, _⟩ := holds.part ordered
  have held := holds.parts part isPart
  have slotInside := held.slotInside
  have contentInside := held.contentInside
  have positive := part.info.dataType.byteLen_pos
  have few := fits.few
  have header : number (slice data 0 1) = fields.length := by
    have count : (nativeSchema fields).fieldOrders.length = fields.length := by
      rw [nativeSchema, length_map, length_slotted]
    rw [holds.header, count]
    simp [number]
    omega
  have isId : entry.1.id = Int.ofNat i := slotted_id fits.ordered here
  have reached : ¬ (fields.length : Int) ≤ entry.1.id := by
    rw [isId, Int.ofNat_eq_natCast]
    omega
  have sameOffset : (nativeMeta entry).offset = part.info.offset := by rw [isInfo]
  have read : pyReadField (pyMeta entry) data = valueToPy part.info.dataType (readField part.info data) :=
    pyReadField_eq held (by rw [isInfo]; rfl) (by rw [isInfo]; rfl)
  rw [isInfo] at read
  rw [PyBytesRow.deserializeField, NativeBytesRow.deserializeField, pyFieldMeta_eq, nativeFieldMeta_eq, isFound]
  simp only [Option.map_some]
  rw [unpack_eq (by omega), ok_bind, header, if_neg (show ¬ (fields.length : Int) ≤ (pyMeta entry).id from reached), read]
  simp only [BytesRow.deserializeField, nativeFieldMeta_eq, isFound, Option.map_some]
  rw [header, if_neg (by omega), if_neg (show ¬ (fields.length : Int) ≤ (nativeMeta entry).id from reached)]

-- Either codec can take the place of the other for a row.
def Interchangeable (fields : List PyFieldDef) (row : PyRow) : Prop :=
  ∃ python native, PySchema.new fields = .ok python ∧ Schema.new (fields.map parseSchemaField) = .ok native ∧
    (∀ data, PyBytesRow.serialize python row = .ok data ↔ NativeBytesRow.serialize native row = .ok data) ∧
    ∀ data, PyBytesRow.serialize python row = .ok data → ∀ field ∈ fields,
      PyBytesRow.deserializeField python data field.name = NativeBytesRow.deserializeField native data field.name

theorem toOption_eq_some {ε α : Type} {result : Except ε α} {value : α} : result.toOption = some value ↔ result = .ok value := by
  cases result <;> simp

end Rows

def taggedFields : List PyFieldDef :=
  [⟨['i', 'd'], .int64, 0, none⟩, ⟨['n'], .string, 1, some (.str "none")⟩, ⟨['t'], .listString, 2, none⟩]

def taggedRow : PyRow
  | ['i', 'd'] => some (.int 5)
  | ['t'] => some (.list [.str "a", .str ""])
  | _ => none

def swappedFields : List PyFieldDef := [⟨['f'], .boolean, 1, none⟩, ⟨['c'], .int64, 0, none⟩]

def swappedRow : PyRow
  | ['f'] => some (.bool true)
  | ['c'] => some (.int 0)
  | _ => none

end LoginomDock.VectorStore
