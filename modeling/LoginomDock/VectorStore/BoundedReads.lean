import LoginomDock.VectorStore.RowRoundTrip

/-! The reader of a field once more, with every copy out of the buffer written down: where it starts and how many bytes
it takes. -/

namespace LoginomDock.VectorStore

open Bytes List BytesRow

abbrev ReadM (α : Type) := StateM (List (Nat × Nat)) α

def copy (data : Bytes) (offset width : Nat) : ReadM Bytes := do
  modify (· ++ [(offset, width)])
  return slice data offset width

def copyString (data : Bytes) (slot width : Nat) : ReadM Bytes := do
  if data.length - slot < 4 then return []
  else
    let offset := number (← copy data slot 4)
    if data.length ≤ offset then return []
    else if data.length < offset + width then return []
    else
      let length := number (← copy data offset width)
      if data.length < offset + width + length then return [] else copy data (offset + width) length

def copyList (data : Bytes) (slot width : Nat) : ReadM (List Nat) := do
  if data.length - slot < 4 then return []
  else
    let offset := number (← copy data slot 4)
    if data.length ≤ offset then return []
    else if data.length < offset + 2 then return []
    else
      let length := number (← copy data offset 2)
      if length = 0 then return []
      else if data.length < offset + 2 + length * width then return []
      else return readNumbers (← copy data (offset + 2) (length * width)) width length 0

def copyStrings (data : Bytes) : Nat → Nat → ReadM (List Bytes)
  | 0, _ => return []
  | count + 1, offset => do
      if data.length < offset + 2 then return []
      else
        let length := number (← copy data offset 2)
        if data.length < offset + 2 + length then return []
        else
          let first ← copy data (offset + 2) length
          let others ← copyStrings data count (offset + 2 + length)
          return first :: others

def copyStringList (data : Bytes) (slot : Nat) : ReadM (List Bytes) := do
  if data.length - slot < 4 then return []
  else
    let offset := number (← copy data slot 4)
    if data.length ≤ offset then return []
    else if data.length < offset + 2 then return []
    else
      let count := number (← copy data offset 2)
      copyStrings data count (offset + 2)

def copyField (info : FieldMeta) (data : Bytes) : ReadM Value :=
  match info.dataType with
  | .int64 => do return .int64 (.ofNat 64 (number (← copy data info.offset 8)))
  | .uint64 => do return .uint64 (.ofNat 64 (number (← copy data info.offset 8)))
  | .float32 => do return .float (.ofNat 32 (number (← copy data info.offset 4)))
  | .boolean => do return .bool (number (← copy data info.offset 1) ≠ 0)
  | .string => do return .string (← copyString data info.offset 2)
  | .binary | .text => do return .string (← copyString data info.offset 4)
  | .listInt64 => do return .listInt64 ((← copyList data info.offset 8).map (.ofNat 64))
  | .listFloat32 => do return .listFloat ((← copyList data info.offset 4).map (.ofNat 32))
  | .listString => do return .listString (← copyStringList data info.offset)

def BytesRow.copyDeserializeField (schema : Schema) (data : Bytes) (fieldName : Text) : ReadM Value :=
  match schema.getFieldMeta fieldName with
  | none => return .none
  | some info => do
      if data.length ≤ info.offset then return info.defaultValue
      else
        let fieldCount := number (← copy data 0 1)
        if fieldCount ≤ info.id then return info.defaultValue else copyField info data

def WithinData (data : Bytes) (reads : List (Nat × Nat)) : Prop := ∀ read ∈ reads, read.1 + read.2 ≤ data.length

def Reads {α : Type} (data : Bytes) (program : ReadM α) (value : α) : Prop :=
  ∀ reads, WithinData data reads → (program.run reads).1 = value ∧ WithinData data (program.run reads).2

section Bounds

variable {α β : Type} {data : Bytes}

theorem Reads.return (value : α) : Reads data (return value) value := fun _ within => ⟨rfl, within⟩

theorem Reads.bind {program : ReadM α} {next : α → ReadM β} {value : α} {result : β} (first : Reads data program value)
    (rest : Reads data (next value) result) : Reads data (program >>= next) result := by
  intro reads within
  obtain ⟨isValue, still⟩ := first reads within
  have later := rest _ still
  rw [← isValue] at later
  exact later

theorem Reads.ite {condition : Prop} [Decidable condition] {whenTrue whenFalse : ReadM α} {first second : α}
    (holds : condition → Reads data whenTrue first) (fails : ¬ condition → Reads data whenFalse second) :
    Reads data (if condition then whenTrue else whenFalse) (if condition then first else second) := by
  by_cases decided : condition
  · simpa only [decided, if_true] using holds decided
  · simpa only [decided, if_false] using fails decided

-- A check that ends the run with an answer of its own
theorem Reads.unless {condition : Prop} [Decidable condition] {otherwise : ReadM α} {early value : α}
    (fails : ¬ condition → Reads data otherwise value) :
    Reads data (if condition then Pure.pure early else otherwise) (if condition then early else value) :=
  .ite (fun _ => .return early) fails

theorem copy_reads {offset width : Nat} (bound : offset + width ≤ data.length) :
    Reads data (copy data offset width) (slice data offset width) := by
  intro reads within
  refine ⟨rfl, fun read member => ?_⟩
  rcases mem_append.mp member with before | added
  · exact within read before
  · cases mem_singleton.mp added
    exact bound

theorem copyString_reads {slot : Nat} (width : Nat) (started : slot < data.length) :
    Reads data (copyString data slot width) (readString data slot width) := by
  rw [readString]
  refine .unless fun fits => ?_
  apply (copy_reads (by omega)).bind
  rw [ite_or]
  refine .unless fun _ => ?_
  refine .unless fun counted => ?_
  apply (copy_reads (by omega)).bind
  refine .unless fun whole => ?_
  exact copy_reads (by omega)

theorem slice_slice_within (data : Bytes) {start total offset width : Nat} (inside : offset + width ≤ total) :
    slice (slice data start total) offset width = slice data (start + offset) width := by
  have cut : slice (slice data start total) offset width = slice (data.drop start) offset width :=
    slice_take (data.drop start) inside
  rw [cut, slice, slice, drop_drop]

theorem readNumbers_slice (data : Bytes) (start total width : Nat) {count offset : Nat}
    (inside : offset + count * width ≤ total) :
    readNumbers (slice data start total) width count offset = readNumbers data width count (start + offset) := by
  induction count generalizing offset with
  | zero => rfl
  | succ count ih =>
    have step : offset + width + count * width ≤ total := by
      rw [Nat.succ_mul] at inside
      omega
    rw [readNumbers, readNumbers, slice_slice_within data (by omega), ih step, Nat.add_assoc]

theorem copyList_reads {slot : Nat} (width : Nat) (started : slot < data.length) :
    Reads data (copyList data slot width) (readList data slot width) := by
  rw [readList]
  refine .unless fun fits => ?_
  apply (copy_reads (by omega)).bind
  rw [ite_or]
  refine .unless fun _ => ?_
  refine .unless fun counted => ?_
  apply (copy_reads (by omega)).bind
  -- the empty list is returned before the second check, and has nothing to read
  by_cases none : number (slice data (number (slice data slot 4)) 2) = 0
  · simp only [none, if_true, Nat.zero_mul, Nat.add_zero, counted, if_false, readNumbers]
    exact .return _
  · rw [if_neg none]
    refine .unless fun whole => ?_
    rw [← Nat.add_zero (_ + 2), ← readNumbers_slice data _ _ width (Nat.zero_add _).le]
    exact (copy_reads (by omega)).bind (.return _)

theorem copyStrings_reads (count offset : Nat) : Reads data (copyStrings data count offset) (readStrings data count offset) := by
  induction count generalizing offset with
  | zero => exact .return _
  | succ count ih =>
    rw [copyStrings, readStrings]
    refine .unless fun counted => ?_
    apply (copy_reads (by omega)).bind
    refine .unless fun whole => ?_
    exact (copy_reads (by omega)).bind ((ih _).bind (.return _))

theorem copyStringList_reads {slot : Nat} (started : slot < data.length) :
    Reads data (copyStringList data slot) (readStringList data slot) := by
  rw [readStringList]
  refine .unless fun fits => ?_
  apply (copy_reads (by omega)).bind
  rw [ite_or]
  refine .unless fun _ => ?_
  refine .unless fun counted => ?_
  exact (copy_reads (by omega)).bind (copyStrings_reads _ _)

end Bounds

section Fields

variable {schema : Schema} {data : Bytes} {info : FieldMeta}

-- The slots that are copied whole, with no check but the one on where they start.
def FieldType.unchecked : FieldType → Bool
  | .int64 | .uint64 | .float32 => true
  | .boolean | .string | .binary | .text | .listInt64 | .listString | .listFloat32 => false

theorem copyField_reads (started : info.offset < data.length)
    (fits : info.dataType.unchecked → info.offset + info.dataType.byteLen ≤ data.length) :
    Reads data (copyField info data) (readField info data) := by
  rw [copyField, readField]
  cases kind : info.dataType <;> rw [kind] at fits
  case int64 | uint64 | float32 => exact (copy_reads (fits rfl)).bind (.return _)
  case boolean => exact (copy_reads started).bind (.return _)
  case string | binary | text => exact (copyString_reads _ started).bind (.return _)
  case listInt64 | listFloat32 => exact (copyList_reads _ started).bind (.return _)
  case listString => exact (copyStringList_reads started).bind (.return _)

theorem hasType_readField (info : FieldMeta) (data : Bytes) : (readField info data).hasType info.dataType = true := by
  rw [readField]
  cases info.dataType <;> rfl

theorem slot_read (kind : info.dataType.unchecked) (reads : List (Nat × Nat)) :
    (info.offset, info.dataType.byteLen) ∈ ((copyField info data).run reads).2 := by
  rw [copyField]
  cases isType : info.dataType <;> rw [isType] at kind
  case int64 | uint64 | float32 => exact mem_append_right _ (mem_singleton_self _)
  case boolean | string | binary | text | listInt64 | listString | listFloat32 => exact absurd kind Bool.false_ne_true

end Fields

def Schema.Gives (schema : Schema) (fieldName : Text) (value : Value) : Prop :=
  match schema.getFieldMeta fieldName with
  | none => value = .none
  | some info => value = info.defaultValue ∨ value.hasType info.dataType

def SlotFits (schema : Schema) (data : Bytes) (fieldName : Text) : Prop :=
  ∀ info, schema.getFieldMeta fieldName = some info → info.dataType.unchecked → info.offset < data.length →
    info.id < number (slice data 0 1) → info.offset + info.dataType.byteLen ≤ data.length

theorem copyDeserializeField_reads {schema : Schema} {data : Bytes} {fieldName : Text} (fits : SlotFits schema data fieldName) :
    Reads data (copyDeserializeField schema data fieldName) (deserializeField schema data fieldName) := by
  rw [copyDeserializeField, deserializeField]
  cases found : schema.getFieldMeta fieldName with
  | none => exact .return _
  | some info =>
    refine .unless fun started => ?_
    apply (copy_reads (by omega)).bind
    refine .unless fun counted => ?_
    exact copyField_reads (by omega) fun kind => fits info found kind (by omega) (by omega)

theorem deserializeField_gives (schema : Schema) (data : Bytes) (fieldName : Text) :
    schema.Gives fieldName (deserializeField schema data fieldName) := by
  rw [Schema.Gives, deserializeField]
  cases schema.getFieldMeta fieldName with
  | none => rfl
  | some info =>
    simp only
    split
    · exact .inl rfl
    · split
      · exact .inl rfl
      · exact .inr (hasType_readField info data)

theorem deserialize_reads_inside_iff (schema : Schema) (data : Bytes) (fieldName : Text) :
    WithinData data ((copyDeserializeField schema data fieldName).run []).2 ∧
      schema.Gives fieldName ((copyDeserializeField schema data fieldName).run []).1 ↔
    SlotFits schema data fieldName := by
  constructor
  · intro stays info found kind started counted
    have isRead : (info.offset, info.dataType.byteLen) ∈
        ((copyDeserializeField schema data fieldName).run []).2 := by
      have run : (copyDeserializeField schema data fieldName).run [] = (copyField info data).run [(0, 1)] := by
        have header : ¬ (number (slice data 0 1) : Int) ≤ info.id := by omega
        rw [copyDeserializeField, found]
        simp only [started.not_ge, if_false]
        change (if (number (slice data 0 1) : Int) ≤ info.id then _ else (copyField info data : ReadM Value)).run [(0, 1)] = _
        rw [if_neg header]
      exact run ▸ slot_read kind [(0, 1)]
    exact stays.1 _ isRead
  · intro fits
    obtain ⟨isValue, within⟩ := copyDeserializeField_reads fits [] fun read member => absurd member not_mem_nil
    exact ⟨within, isValue ▸ deserializeField_gives schema data fieldName⟩

def countSchema : Schema where
  fieldMetas := [⟨['k'], .int64, 1, 0, .none⟩]
  fieldOrders := [⟨['k'], .int64, 1, 0, .none⟩]
  totalByteLength := 9

-- Five bytes, the first of them the number of fields: the copy of `k` takes three bytes after the end.
theorem truncated_row_overread : Schema.new [⟨['k'], .int64, 0, .none⟩] = .ok countSchema ∧
    ¬ (WithinData [1, 0, 0, 0, 0] ((copyDeserializeField countSchema [1, 0, 0, 0, 0] ['k']).run []).2 ∧
      countSchema.Gives ['k'] ((copyDeserializeField countSchema [1, 0, 0, 0, 0] ['k']).run []).1) := by
  refine ⟨rfl, fun stays => ?_⟩
  have isRead : (1, 8) ∈ ((copyDeserializeField countSchema [1, 0, 0, 0, 0] ['k']).run []).2 := by decide
  exact absurd (stays.1 _ isRead) (by decide)

end LoginomDock.VectorStore
