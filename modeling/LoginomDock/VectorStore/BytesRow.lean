import LoginomDock.Library.Bytes
import LoginomDock.Library.Text

/-! `Schema` and `BytesRow`: a header byte with the number of fields, a fixed region with one slot for each field in the
order of the schema's list, and the variable parts in the order of the field ids. -/

namespace LoginomDock.VectorStore

open Bytes

inductive FieldType where
  | int64
  | uint64
  | float32
  | string
  | binary
  | boolean
  | listInt64
  | listString
  | listFloat32
  | text
  deriving DecidableEq, Repr

inductive Value where
  | none
  | int64 (value : BitVec 64)
  | uint64 (value : BitVec 64)
  | float (bits : BitVec 32)
  | string (bytes : Bytes)
  | bool (value : Bool)
  | listInt64 (values : List (BitVec 64))
  | listString (values : List Bytes)
  | listFloat (values : List (BitVec 32))
  deriving DecidableEq

def Value.bits64 : Value → BitVec 64
  | .int64 bits | .uint64 bits => bits
  | _ => 0

def Value.floatBits : Value → BitVec 32
  | .float bits => bits
  | _ => 0

def Value.boolean : Value → Bool
  | .bool value => value
  | _ => false

def Value.bytes : Value → Bytes
  | .string bytes => bytes
  | _ => []

def Value.int64s : Value → List (BitVec 64)
  | .listInt64 values => values
  | _ => []

def Value.floats : Value → List (BitVec 32)
  | .listFloat values => values
  | _ => []

def Value.strings : Value → List Bytes
  | .listString values => values
  | _ => []

structure FieldDef where
  name : Text
  dataType : FieldType
  id : Int
  defaultValue : Value
  deriving DecidableEq

structure FieldMeta where
  name : Text := []
  dataType : FieldType := .int64
  offset : Nat := 0
  id : Int := 0
  defaultValue : Value := .none
  deriving DecidableEq

structure Schema where
  -- what is inserted into the map of names, in order: a name means the last field that has it
  fieldMetas : List FieldMeta
  fieldOrders : List FieldMeta
  totalByteLength : Nat

inductive SchemaError where
  | negativeId
  | notContiguous
  | duplicateId
  deriving DecidableEq

def FieldType.byteLen : FieldType → Nat
  | .int64 | .uint64 => 8
  | .float32 => 4
  | .boolean => 1
  | .string | .binary | .text | .listInt64 | .listString | .listFloat32 => 4

def placeFields : Nat → List FieldDef → List FieldMeta
  | _, [] => []
  | offset, field :: rest =>
    ⟨field.name, field.dataType, offset, field.id, field.defaultValue⟩ ::
      placeFields (offset + field.dataType.byteLen) rest

def maxId (fields : List FieldDef) : Int := fields.foldl (fun most field => max most field.id) (-1)

def Schema.new (fields : List FieldDef) : Except SchemaError Schema :=
  if fields = [] then .ok ⟨[], [], 1⟩
  else if fields.any fun field => field.id < 0 then .error .negativeId
  else if maxId fields ≠ fields.length - 1 then .error .notContiguous
  else if ¬ (fields.map FieldDef.id).Nodup then .error .duplicateId
  else .ok {
    fieldMetas := placeFields 1 fields
    fieldOrders := (List.range fields.length).map fun i =>
      ((placeFields 1 fields).find? fun info => info.id = Int.ofNat i).getD {}
    totalByteLength := 1 + (fields.map fun field => field.dataType.byteLen).sum }

def Schema.getFieldMeta (schema : Schema) (name : Text) : Option FieldMeta :=
  schema.fieldMetas.reverse.find? fun info => info.name = name

inductive SerializeError where
  | stringTooLong (fieldName : Text)
  -- the size passes the range of `int`, which the source does not define
  | sizeOverflow
  deriving DecidableEq

def stringMaxUint16Length : Nat := 65535

def valueAt (row : List Value) (index : Nat) (info : FieldMeta) : Value :=
  match row[index]? with
  | none | some .none => info.defaultValue
  | some value => value

def fieldValues (schema : Schema) (row : List Value) : List (FieldMeta × Value) :=
  schema.fieldOrders.zipIdx.map fun entry => (entry.1, valueAt row entry.2 entry.1)

-- How much room the variable part takes.
def varLength (info : FieldMeta) (value : Value) : Except SerializeError Nat :=
  match info.dataType with
  | .string =>
    if stringMaxUint16Length < value.bytes.length then .error (.stringTooLong info.name)
    else .ok (2 + value.bytes.length)
  | .binary | .text => .ok (4 + value.bytes.length)
  | .listInt64 => .ok (2 + value.int64s.length * 8)
  | .listFloat32 => .ok (2 + value.floats.length * 4)
  | .listString => .ok (2 + (value.strings.map fun bytes => 2 + bytes.length).sum)
  | .int64 | .uint64 | .float32 | .boolean => .ok 0

structure Placed where
  info : FieldMeta
  value : Value
  -- where the variable part starts
  offset : Nat

-- The first pass.
def layOut : Nat → List (FieldMeta × Value) → Except SerializeError (List Placed × Nat)
  | offset, [] => if offset < 2 ^ 31 then .ok ([], offset) else .error .sizeOverflow
  | offset, (info, value) :: rest => do
      let length ← varLength info value
      let (placed, total) ← layOut (offset + length) rest
      pure (⟨info, value, offset⟩ :: placed, total)

open Bytes in
def fixedBytes (dataType : FieldType) (value : Value) (varOffset : Nat) : Bytes :=
  match dataType with
  | .int64 | .uint64 => littleEndian 8 value.bits64.toNat
  | .float32 => littleEndian 4 value.floatBits.toNat
  | .boolean => [if value.boolean then 1 else 0]
  | .string | .binary | .text | .listInt64 | .listString | .listFloat32 => littleEndian 4 varOffset

open Bytes in
def prefixed (width : Nat) (bytes : Bytes) : Bytes :=
  littleEndian width bytes.length ++ bytes.take (bytes.length % 256 ^ width)

open Bytes in
def countedNumbers {size : Nat} (width : Nat) (values : List (BitVec size)) : Bytes :=
  littleEndian 2 values.length ++
    (values.take (values.length % 256 ^ 2)).flatMap fun bits => littleEndian width bits.toNat

open Bytes in
def varBytes (dataType : FieldType) (value : Value) : Bytes :=
  match dataType with
  | .string => prefixed 2 value.bytes
  | .binary | .text => prefixed 4 value.bytes
  | .listInt64 => countedNumbers 8 value.int64s
  | .listFloat32 => countedNumbers 4 value.floats
  -- every element is written, also beyond the number that the prefix has
  | .listString => littleEndian 2 value.strings.length ++ value.strings.flatMap (prefixed 2)
  | .int64 | .uint64 | .float32 | .boolean => []

-- The second pass: for each field its slot, and then its variable part.
def fieldWrites (placed : Placed) : List (Nat × Bytes) :=
  [(placed.info.offset, fixedBytes placed.info.dataType placed.value placed.offset),
    (placed.offset, varBytes placed.info.dataType placed.value)]

def BytesRow.serialize (schema : Schema) (row : List Value) : Except SerializeError Bytes := do
  let (placed, total) ← layOut schema.totalByteLength (fieldValues schema row)
  let buffer := write (List.replicate total 0) 0 [UInt8.ofNat schema.fieldOrders.length]
  pure (writeAll buffer (placed.flatMap fieldWrites))

open Bytes in
def readString (data : Bytes) (slot width : Nat) : Bytes :=
  if data.length - slot < 4 then []
  else
    let offset := number (slice data slot 4)
    if data.length ≤ offset ∨ data.length < offset + width then []
    else
      let length := number (slice data offset width)
      if data.length < offset + width + length then [] else slice data (offset + width) length

open Bytes in
/-- `length` numbers of `width` bytes. -/
def readNumbers (data : Bytes) (width : Nat) : Nat → Nat → List Nat
  | 0, _ => []
  | length + 1, offset => number (slice data offset width) :: readNumbers data width length (offset + width)

open Bytes in
def readList (data : Bytes) (slot width : Nat) : List Nat :=
  if data.length - slot < 4 then []
  else
    let offset := number (slice data slot 4)
    if data.length ≤ offset ∨ data.length < offset + 2 then []
    else
      let length := number (slice data offset 2)
      if data.length < offset + 2 + length * width then [] else readNumbers data width length (offset + 2)

open Bytes in
-- The elements up to the first that does not fit.
def readStrings (data : Bytes) : Nat → Nat → List Bytes
  | 0, _ => []
  | count + 1, offset =>
    if data.length < offset + 2 then []
    else
      let length := number (slice data offset 2)
      if data.length < offset + 2 + length then []
      else slice data (offset + 2) length :: readStrings data count (offset + 2 + length)

open Bytes in
def readStringList (data : Bytes) (slot : Nat) : List Bytes :=
  if data.length - slot < 4 then []
  else
    let offset := number (slice data slot 4)
    if data.length ≤ offset ∨ data.length < offset + 2 then []
    else readStrings data (number (slice data offset 2)) (offset + 2)

open Bytes in
-- The source does not check that a fixed slot ends inside the data.
def readField (info : FieldMeta) (data : Bytes) : Value :=
  match info.dataType with
  | .int64 => .int64 (.ofNat 64 (number (slice data info.offset 8)))
  | .uint64 => .uint64 (.ofNat 64 (number (slice data info.offset 8)))
  | .float32 => .float (.ofNat 32 (number (slice data info.offset 4)))
  | .boolean => .bool (number (slice data info.offset 1) ≠ 0)
  | .string => .string (readString data info.offset 2)
  | .binary | .text => .string (readString data info.offset 4)
  | .listInt64 => .listInt64 ((readList data info.offset 8).map (.ofNat 64))
  | .listFloat32 => .listFloat ((readList data info.offset 4).map (.ofNat 32))
  | .listString => .listString (readStringList data info.offset)

section

variable (schema : Schema) (data : Bytes) (fieldName : Text)

def BytesRow.deserializeField : Value :=
  match schema.getFieldMeta fieldName with
  | none => .none
  | some info =>
    if data.length ≤ info.offset then info.defaultValue
    else if number (slice data 0 1) ≤ info.id then info.defaultValue
    else readField info data

def BytesRow.deserialize : Option Value :=
  if fieldName ∈ schema.fieldOrders.map FieldMeta.name then some (deserializeField schema data fieldName) else none

end

end LoginomDock.VectorStore
