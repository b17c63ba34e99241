import LoginomDock.VectorStore.BytesRow

/-! `_PyBytesRow`, and the native codec as its bindings present it. Both take a row by field name and give Python
values. -/

namespace LoginomDock.VectorStore

-- Python objects that a row may hold.
inductive PyValue where
  | none
  | int (value : Int)
  -- the bits of the double
  | float (bits : BitVec 64)
  | str (text : String)
  | bytes (value : Bytes)
  | bool (value : Bool)
  | list (items : List PyValue)

abbrev PyRow := Text → Option PyValue

structure PyFieldDef where
  name : Text
  dataType : FieldType
  id : Int
  defaultValue : Option PyValue := .none

inductive PyError where
  | typeError
  | valueError
  | outOfRange
  | stringTooLong (fieldName : Text)
  | fieldCount
  | outOfData
  | unicodeDecode
  | unknownField
  | native (error : SerializeError)
  deriving DecidableEq

def encodeUtf8 (text : String) : Bytes := text.toUTF8.data.toList

def decodeUtf8 (bytes : Bytes) : Except PyError String :=
  match String.fromUTF8? ⟨bytes.toArray⟩ with
  | some text => .ok text
  | .none => .error .unicodeDecode

/-- `__index__`: only integers have it, and `bool` is one of them. -/
def PyValue.index : PyValue → Except PyError Int
  | .int value => .ok value
  | .bool flag => .ok (if flag then 1 else 0)
  | _ => .error .typeError

/-- `number / 2 ^ shift`, to the nearest, and to the even one of two. -/
def roundShift (number shift : Nat) : Nat :=
  let quotient := number / 2 ^ shift
  let rest := 2 * (number % 2 ^ shift)
  if 2 ^ shift < rest ∨ (rest = 2 ^ shift ∧ quotient % 2 = 1) then quotient + 1 else quotient

def doubleOfNat (number : Nat) : Option Nat :=
  let high := number.log2
  let significand := if high ≤ 52 then number * 2 ^ (52 - high) else roundShift number (high - 52)
  let bits := if number = 0 then 0 else (high + 1022) * 2 ^ 52 + significand
  if bits < 2047 * 2 ^ 52 then some bits else none

/-- `PyFloat_AsDouble` -/
def PyValue.double : PyValue → Except PyError (BitVec 64)
  | .float bits => .ok bits
  | value => do
      let number ← value.index
      match doubleOfNat number.natAbs with
      | some bits => pure (.ofNat 64 (if number < 0 then 2 ^ 63 + bits else bits))
      | .none => throw .outOfRange

section

variable (double : BitVec 64)

def doubleExponent : Nat := max 1 (double.toNat / 2 ^ 52 % 2 ^ 11)

def doubleSignificand : Nat :=
  if double.toNat / 2 ^ 52 % 2 ^ 11 = 0 then double.toNat % 2 ^ 52 else 2 ^ 52 + double.toNat % 2 ^ 52

def isFinite : Bool := double.toNat / 2 ^ 52 % 2 ^ 11 < 2047

/-- The magnitude of a finite double, rounded to single precision, as its bits: not below `255 * 2 ^ 23`
where it is too large. -/
def singleMagnitude : Nat :=
  -- the last place of the result is worth `2 ^ (place - 149)`
  let place := doubleExponent double - 897
  place * 2 ^ 23 + roundShift (doubleSignificand double) (29 + (897 - doubleExponent double))

def tooLargeForSingle : Bool := isFinite double && 255 * 2 ^ 23 ≤ singleMagnitude double

-- The conversion of C; what is too large becomes infinite.
def toSingle : BitVec 32 :=
  let magnitude :=
    if isFinite double then min (singleMagnitude double) (255 * 2 ^ 23)
    else if double.toNat % 2 ^ 52 = 0 then 255 * 2 ^ 23
    else 255 * 2 ^ 23 + 2 ^ 22 + double.toNat % 2 ^ 51 / 2 ^ 29
  .ofNat 32 (double.toNat / 2 ^ 63 * 2 ^ 31 + magnitude)

end

def toDouble (single : BitVec 32) : BitVec 64 :=
  let fraction := single.toNat % 2 ^ 23
  let exponent := single.toNat / 2 ^ 23 % 2 ^ 8
  let magnitude :=
    if exponent = 255 then 2047 * 2 ^ 52 + fraction * 2 ^ 29
    else if exponent = 0 then
      if fraction = 0 then 0 else (fraction.log2 + 873) * 2 ^ 52 + fraction * 2 ^ (52 - fraction.log2)
    else (exponent + 896) * 2 ^ 52 + fraction * 2 ^ 29
  .ofNat 64 (single.toNat / 2 ^ 31 * 2 ^ 63 + magnitude)

/-- The elements of a sequence: those of a text are texts, and those of `bytes` are integers. -/
def PyValue.items : PyValue → Except PyError (List PyValue)
  | .list items => .ok items
  | .str text => .ok (text.toList.map fun char => .str (String.singleton char))
  | .bytes content => .ok (content.map fun byte => .int byte.toNat)
  | _ => .error .typeError

-- Decimal digits with single underscores between them. Digits outside ASCII are not read here.
def digitsValue : Nat → List Char → Option Nat
  | value, [] => some value
  | value, '_' :: digit :: rest => if digit.isDigit then digitsValue (value * 10 + (digit.toNat - '0'.toNat)) rest else none
  | value, digit :: rest => if digit.isDigit then digitsValue (value * 10 + (digit.toNat - '0'.toNat)) rest else none

def numeralValue (chars : List Char) : Option Nat :=
  if (chars.head?.map Char.isDigit).getD false then digitsValue 0 chars else none

def parseInt (chars : List Char) : Except PyError Int :=
  let stripped := ((chars.dropWhile Char.isWhitespace).reverse.dropWhile Char.isWhitespace).reverse
  let value := match stripped with
    | '-' :: digits => (numeralValue digits).map fun number => -(number : Int)
    | '+' :: digits | digits => (numeralValue digits).map Int.ofNat
  match value with
  | some number => .ok number
  | none => .error .valueError

def truncated (double : BitVec 64) : Int :=
  let magnitude := doubleSignificand double * 2 ^ (doubleExponent double - 1075) / 2 ^ (1075 - doubleExponent double)
  if double.toNat / 2 ^ 63 = 1 then -magnitude else magnitude

/-- `int(value)` -/
def PyValue.toInt : PyValue → Except PyError Int
  | .int value => .ok value
  | .bool flag => .ok (if flag then 1 else 0)
  | .float bits => if isFinite bits then .ok (truncated bits) else .error .valueError
  | .str text => parseInt text.toList
  | .bytes content => parseInt (content.map fun byte => Char.ofNat byte.toNat)
  | .none | .list _ => .error .typeError

structure PyFieldMeta where
  name : Text
  dataType : FieldType
  offset : Nat
  id : Int
  defaultValue : PyValue

structure PySchema where
  fieldMetas : List PyFieldMeta
  fieldOrders : List (Option PyFieldMeta)
  totalByteLength : Nat

def typeDefault : FieldType → PyValue
  | .int64 | .uint64 => .int 0
  | .float32 => .float 0
  | .string => .str "default"
  | .binary => .bytes []
  | .boolean => .bool false
  | .listInt64 => .list [.int 0]
  | .listString => .list [.str "default"]
  | .listFloat32 => .list [.float 0]
  | .text => .str ""

def placePyFields : Nat → List PyFieldDef → List PyFieldMeta
  | _, [] => []
  | offset, field :: rest =>
    ⟨field.name, field.dataType, offset, field.id, field.defaultValue.getD (typeDefault field.dataType)⟩ ::
      placePyFields (offset + field.dataType.byteLen) rest

-- Where a list index points to: negative ones count from the end.
def pyIndex (length : Nat) (index : Int) : Option Nat :=
  if 0 ≤ index ∧ index < length then some index.toNat
  else if index < 0 ∧ -length ≤ index then some (length + index).toNat
  else none

def PySchema.new (fields : List PyFieldDef) : Except PyError PySchema :=
  if fields.all fun field => (pyIndex fields.length field.id).isSome then .ok {
    fieldMetas := placePyFields 1 fields
    fieldOrders := (List.range fields.length).map fun i =>
      (placePyFields 1 fields).reverse.find? fun info => pyIndex fields.length info.id = some i
    totalByteLength := 1 + (fields.map fun field => field.dataType.byteLen).sum }
  else .error .outOfRange

def PySchema.getFieldMeta (schema : PySchema) (name : Text) : Option PyFieldMeta :=
  schema.fieldMetas.reverse.find? fun info => info.name = name

open Bytes

def packUnsigned (width : Nat) (value : Int) : Except PyError Bytes :=
  if 0 ≤ value ∧ value < 256 ^ width then .ok (littleEndian width value.toNat) else .error .outOfRange

def packInt64 (value : PyValue) : Except PyError Bytes := do
  let number ← value.index
  if -2 ^ 63 ≤ number ∧ number < 2 ^ 63 then pure (littleEndian 8 (BitVec.ofInt 64 number).toNat) else throw .outOfRange

def packUint64 (value : PyValue) : Except PyError Bytes := do packUnsigned 8 (← value.index)

def packFloat32 (value : PyValue) : Except PyError Bytes := do
  let double ← value.double
  if tooLargeForSingle double then throw .outOfRange else pure (littleEndian 4 (toSingle double).toNat)

def packAll (pack : PyValue → Except PyError Bytes) : List PyValue → Except PyError Bytes
  | [] => .ok []
  | value :: rest => do
      let first ← pack value
      let others ← packAll pack rest
      pure (first ++ others)

def packCounted (width : Nat) (content : Bytes) : Except PyError Bytes := do
  let length ← packUnsigned width content.length
  pure (length ++ content)

def packList (pack : PyValue → Except PyError Bytes) (value : PyValue) : Except PyError Bytes := do
  let items ← value.items
  let length ← packUnsigned 2 items.length
  let content ← packAll pack items
  pure (length ++ content)

/-- `value.encode("utf-8")` -/
def PyValue.encode : PyValue → Except PyError Bytes
  | .str text => .ok (encodeUtf8 text)
  | _ => .error .typeError

def packText (fieldName : Text) (value : PyValue) : Except PyError Bytes := do
  let content ← value.encode
  if stringMaxUint16Length < content.length then throw (.stringTooLong fieldName) else packCounted 2 content

def packBinary : PyValue → Except PyError Bytes
  | .bytes content => packCounted 4 content
  | _ => .error .typeError

def pyVariable (info : PyFieldMeta) (value : PyValue) : Except PyError Bytes :=
  match info.dataType with
  | .int64 | .uint64 | .float32 | .boolean => .ok []
  | .string => packText info.name value
  | .binary => packBinary value
  | .text => do packCounted 4 (← value.encode)
  | .listInt64 => packList packInt64 value
  | .listFloat32 => packList packFloat32 value
  | .listString => packList (packText info.name) value

def pyFixed (info : PyFieldMeta) (value : PyValue) (variableOffset : Nat) : Except PyError Bytes :=
  match info.dataType with
  | .int64 => packInt64 value
  | .uint64 => packUint64 value
  | .float32 => packFloat32 value
  | .boolean => do packUnsigned 1 (← value.toInt)
  | .string | .binary | .text | .listInt64 | .listFloat32 | .listString => packUnsigned 4 variableOffset

def pyValueOf (row : PyRow) (info : PyFieldMeta) : PyValue := (row info.name).getD info.defaultValue

def pyRegions (row : PyRow) : Nat → List (Option PyFieldMeta) → Except PyError (Bytes × Bytes)
  | _, [] => .ok ([], [])
  | _, none :: _ => .error .typeError
  | offset, some info :: rest => do
      let varPart ← pyVariable info (pyValueOf row info)
      let fixedPart ← pyFixed info (pyValueOf row info) offset
      let (fixedRest, varRest) ← pyRegions row (offset + varPart.length) rest
      pure (fixedPart ++ fixedRest, varPart ++ varRest)

def PyBytesRow.serialize (schema : PySchema) (row : PyRow) : Except PyError Bytes := do
  let (fixedRegion, varRegion) ← pyRegions row schema.totalByteLength schema.fieldOrders
  if 255 < schema.fieldOrders.length then throw .fieldCount
  else pure (UInt8.ofNat schema.fieldOrders.length :: (fixedRegion ++ varRegion))

-- `struct.unpack_from` refuses to read past the end; a slice just ends there
def unpack (data : Bytes) (offset width : Nat) : Except PyError Nat :=
  if offset + width ≤ data.length then .ok (number (slice data offset width)) else .error .outOfData

def unpackMany (data : Bytes) (width : Nat) : Nat → Nat → Except PyError (List Nat)
  | 0, _ => .ok []
  | length + 1, offset => do
      let first ← unpack data offset width
      let others ← unpackMany data width length (offset + width)
      pure (first :: others)

def unpackCounted (data : Bytes) (slot width : Nat) : Except PyError Bytes := do
  let offset ← unpack data slot 4
  let length ← unpack data offset width
  pure (slice data (offset + width) length)

def unpackNumbers (data : Bytes) (slot width : Nat) : Except PyError (List Nat) := do
  let offset ← unpack data slot 4
  let length ← unpack data offset 2
  unpackMany data width length (offset + 2)

def unpackTexts (data : Bytes) : Nat → Nat → Except PyError (List String)
  | 0, _ => .ok []
  | count + 1, offset => do
      let length ← unpack data offset 2
      let first ← decodeUtf8 (slice data (offset + 2) length)
      let others ← unpackTexts data count (offset + 2 + length)
      pure (first :: others)

def pyReadField (info : PyFieldMeta) (data : Bytes) : Except PyError PyValue :=
  match info.dataType with
  | .int64 => return .int (BitVec.ofNat 64 (← unpack data info.offset 8)).toInt
  | .uint64 => return .int (← unpack data info.offset 8)
  | .float32 => return .float (toDouble (.ofNat 32 (← unpack data info.offset 4)))
  | .boolean => return .bool ((← unpack data info.offset 1) ≠ 0)
  | .string => return .str (← decodeUtf8 (← unpackCounted data info.offset 2))
  | .binary => return .bytes (← unpackCounted data info.offset 4)
  | .text => return .str (← decodeUtf8 (← unpackCounted data info.offset 4))
  | .listInt64 =>
    return .list ((← unpackNumbers data info.offset 8).map fun number => .int (BitVec.ofNat 64 number).toInt)
  | .listFloat32 =>
    return .list ((← unpackNumbers data info.offset 4).map fun number => .float (toDouble (.ofNat 32 number)))
  | .listString => do
      let offset ← unpack data info.offset 4
      let count ← unpack data offset 2
      return .list ((← unpackTexts data count (offset + 2)).map .str)

def PyBytesRow.deserializeField (schema : PySchema) (data : Bytes) (fieldName : Text) : Except PyError PyValue := do
  match schema.getFieldMeta fieldName with
  | none => throw .unknownField
  | some info =>
    let fieldCount ← unpack data 0 1
    if fieldCount ≤ info.id then pure info.defaultValue else pyReadField info data

def pyToInt64 (value : PyValue) : Except PyError (BitVec 64) := do
  let number ← value.index
  if -2 ^ 63 ≤ number ∧ number < 2 ^ 63 then pure (.ofInt 64 number) else throw .outOfRange

def pyToUint64 (value : PyValue) : Except PyError (BitVec 64) := do
  let number ← value.index
  if 0 ≤ number ∧ number < 2 ^ 64 then pure (.ofInt 64 number) else throw .outOfRange

-- a number that is too large becomes infinite
def pyToFloat (value : PyValue) : Except PyError (BitVec 32) := return toSingle (← value.double)

def pyToString (allowBytes : Bool) : PyValue → Except PyError Bytes
  | .str text => .ok (encodeUtf8 text)
  | .bytes content => if allowBytes then .ok content else .error .typeError
  | _ => .error .typeError

/-- `PyObject_IsTrue` -/
def isTrue : PyValue → Bool
  | .none => false
  | .int value => value ≠ 0
  | .float bits => bits.setWidth 63 ≠ 0
  | .str text => text ≠ ""
  | .bytes value => value ≠ []
  | .bool value => value
  | .list items => !items.isEmpty

/-- `py_to_field_value` -/
def pyToFieldValue (dataType : FieldType) (value : PyValue) : Except PyError Value :=
  match dataType with
  | .int64 => return .int64 (← pyToInt64 value)
  | .uint64 => return .uint64 (← pyToUint64 value)
  | .float32 => return .float (← pyToFloat value)
  | .string | .binary | .text => return .string (← pyToString true value)
  | .boolean => .ok (.bool (isTrue value))
  | .listInt64 => return .listInt64 (← (← value.items).mapM pyToInt64)
  | .listString => return .listString (← (← value.items).mapM (pyToString false))
  | .listFloat32 => return .listFloat (← (← value.items).mapM pyToFloat)

/-- `value_to_py` -/
def valueToPy (dataType : FieldType) (value : Value) : Except PyError PyValue :=
  match dataType, value with
  | .int64, .int64 bits => .ok (.int bits.toInt)
  | .uint64, .uint64 bits => .ok (.int bits.toNat)
  | .float32, .float bits => .ok (.float (toDouble bits))
  | .boolean, .bool flag => .ok (.bool flag)
  | .string, .string content | .text, .string content => return .str (← decodeUtf8 content)
  | .binary, .string content => .ok (.bytes content)
  | .listInt64, .listInt64 values => .ok (.list (values.map fun bits => .int bits.toInt))
  | .listString, .listString values => return .list ((← values.mapM decodeUtf8).map .str)
  | .listFloat32, .listFloat values => .ok (.list (values.map fun bits => .float (toDouble bits)))
  | _, _ => .ok .none

/-- `parse_schema_fields`: a default that does not fit its type is dropped. -/
def parseSchemaField (field : PyFieldDef) : FieldDef where
  name := field.name
  dataType := field.dataType
  id := field.id
  defaultValue := match field.defaultValue with
    | none | some .none => .none
    | some value => match pyToFieldValue field.dataType value with
      | .ok value => value
      | .error _ => .none

def rowValue (row : PyRow) (info : FieldMeta) : Except PyError Value :=
  match row info.name with
  | none | some .none => .ok .none
  | some value => pyToFieldValue info.dataType value

/-- `row_object_to_values` -/
def rowObjectToValues (row : PyRow) : List FieldMeta → Except PyError (List Value)
  | [] => .ok []
  | info :: rest => do
      let value ← rowValue row info
      let others ← rowObjectToValues row rest
      pure (value :: others)

def NativeBytesRow.serialize (schema : Schema) (row : PyRow) : Except PyError Bytes := do
  let values ← rowObjectToValues row schema.fieldOrders
  (BytesRow.serialize schema values).mapError .native

def NativeBytesRow.deserializeField (schema : Schema) (data : Bytes) (fieldName : Text) : Except PyError PyValue :=
  match schema.getFieldMeta fieldName with
  | none => .error .unknownField
  | some info => valueToPy info.dataType (BytesRow.deserializeField schema data fieldName)

end LoginomDock.VectorStore
