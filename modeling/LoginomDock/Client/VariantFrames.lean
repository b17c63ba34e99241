import LoginomDock.Client.UploadLineage
import LoginomDock.Library.Bytes
import LoginomDock.Library.Sha256

/-! `variant-native-decode.mjs` and the cells of `variant-native-values.mjs`: what the bytes of one native variant stand
for. -/

namespace LoginomDock.Client

open Json List Bytes UploadLineage

inductive TableError where
  | refused (message : Text)
  | typeError

namespace NativeTable

def need (condition : Bool) (message : String) : Except TableError Unit :=
  if condition then .ok () else .error (.refused message.toList)

@[simp] theorem need_eq_ok {condition : Bool} {message : String} {done : Unit} : need condition message = .ok done ↔ condition = true := by
  cases condition <;> simp [need]

/-- `Number.isInteger`, with the integer -/
def integer : Option Json → Option Int
  | some (.integer value) => some value
  | some (.double value) => if value.den = 1 then some value.num else none
  | _ => none

def natural (value : Option Json) : Option Nat :=
  (integer value).bind fun number => if 0 ≤ number then some number.toNat else none

def byte (value : Json) : Option UInt8 :=
  (natural (some value)).bind fun number => if number ≤ 255 then some (UInt8.ofNat number) else none

def hex (data : Bytes) : Text := data.flatMap fun byte => [hexDigit (byte.toNat / 16), hexDigit (byte.toNat % 16)]

-- `getInt16`, `getInt32` and `getBigInt64`
def signedAt (data : Bytes) (offset width : Nat) : Int :=
  let value := number (slice data offset width)
  if 2 * value < 256 ^ width then value else value - 256 ^ width

def signedBytes (width : Nat) (value : Int) : Bytes := littleEndian width (value % 256 ^ width).toNat

-- `Number.isFinite` of the number that four or eight bytes stand for: its exponent is not the last one.
def isFinite (data : Bytes) : Bool :=
  if data.length = 4 then number data / 2 ^ 23 % 2 ^ 8 ≠ 255 else number data / 2 ^ 52 % 2 ^ 11 ≠ 2047

-- `TextDecoder` with `fatal` and `ignoreBOM`
def decodeText (data : Bytes) : Option Text := (String.fromUTF8? ⟨data.toArray⟩).map String.toList

inductive NativeType where
  | null | boolean | datetime | real | integer | string | variant
  deriving DecidableEq

inductive Decoded where
  | null
  | integer (decimal : Text) (bits : Nat)
  | number (type : NativeType) (bits : Nat) (bytesLe representation : Text)
  | boolean (value : Bool)
  | string (value : Text)

structure DecodedFrame where
  tag : Int
  value : Decoded
  consumedBytes : Nat
  paddingBytes : Nat

section Decode

-- `Object.is(n, -0) ? '-0' : String(n)`, for the number of these bytes
variable (representation : Bytes → Text)

def decodeString (data : Bytes) : Except TableError (Nat × Decoded) := do
  let size := signedAt data 10 4
  need (0 ≤ size && size ≤ 65520) "string length"
  let used := if size = 0 then 14 else 16 + size.toNat
  need (used ≤ data.length) "truncated string"
  if size = 0 then return (used, .string [])
  need (number (slice data 14 2) = 65001) "unknown string codepage"
  match decodeText (between data 16 used) with
  | some text => return (used, .string text)
  | none => throw .typeError

def decodeValue (data : Bytes) (tag : Int) : Except TableError (Nat × Decoded) :=
  if tag = 1 then .ok (10, .null)
  else if tag = 3 then .ok (10, .integer (decimal (signedAt data 2 4)) 32)
  else if tag = 20 then .ok (10, .integer (decimal (signedAt data 2 8)) 64)
  else if tag ∈ [4, 5, 7] then do
    let content := slice data 2 (if tag = 4 then 4 else 8)
    need (isFinite content) "non-finite number"
    return (10, .number (if tag = 7 then .datetime else .real) (if tag = 4 then 32 else 64) (hex content) (representation content))
  else if tag = 11 then do
    need (data.getD 2 0 = 0 || data.getD 2 0 = 1) "boolean byte"
    return (10, .boolean (data.getD 2 0 = 1))
  else if tag = 8 then decodeString data
  else throw (.refused "unknown/interface tag")

def decodeVariantFrame (payload : List Json) (frameSize : Int) : Except TableError DecodedFrame :=
  match payload.mapM byte with
  | none => .error (.refused "bytes")
  | some data => do
    need (60 ≤ frameSize && frameSize ≤ 65536 && (payload.length : Int) = frameSize - 12) "frame bounds"
    let tag := signedAt data 0 2
    let (used, value) ← decodeValue representation data tag
    need (frameSize = max 60 (12 + used)) "unexpected/truncated payload length"
    return { tag, value, consumedBytes := used, paddingBytes := payload.length - used }

end Decode

def tags : Int → Option NativeType
  | 1 => some .null | 5 => some .real | 7 => some .datetime | 8 => some .string | 11 => some .boolean | 20 => some .integer
  | _ => none

def encoding : Int → String
  | 1 => "null" | 20 => "signed-int64-le" | 5 => "ieee754-binary64-le" | 7 => "oadate-binary64-le" | 8 => "utf8" | _ => "boolean8"

def temporalProfile : String := "loginom-7.4.2-native-oadate"

inductive CellValue where
  | null
  | text (value : Text)
  | flag (value : Bool)

structure TemporalScope where
  temporalProfile : String := NativeTable.temporalProfile
  semanticScope : String := "native_serial_only"
  civilTimeVerified : Bool := false
  epochVerified : Bool := false

structure NativeBytes where
  tag : Int
  encoding : String
  bytesLe : Option Text := none
  utf8Hex : Option Text := none
  bits : Option Nat := none
  temporal : Option TemporalScope := none

structure AdaptedCell where
  type : Option NativeType
  cellType : NativeType
  isNull : Bool
  precision : String := "exact_native"
  native : NativeBytes
  value : CellValue
  decimal : Option Text := none
  representation : String
  timezone : Option String := none

/-- The bytes of a cell's type in its payload, in hexadecimal. -/
def nativeBytes (tag : Int) (payload : Bytes) : NativeBytes :=
  if tag ∈ [20, 5, 7] then { tag, encoding := encoding tag, bytesLe := some (hex (slice payload 2 8)) }
  else if tag = 11 then { tag, encoding := encoding tag, bytesLe := some (hex (slice payload 2 1)) }
  else if tag = 8 then { tag, encoding := encoding tag, utf8Hex := some (hex (payload.drop 16)) }
  else { tag, encoding := encoding tag }

def adaptedValue (type : Option NativeType) (cellType : NativeType) (native : NativeBytes) (decoded : Decoded)
    (dateProfile : Option Json) : Except TableError AdaptedCell :=
  match decoded with
  | .null => .ok { type, cellType, isNull := true, native, value := .null, representation := "native_null" }
  | .integer text _ =>
    .ok { type, cellType, isNull := false, native := { native with bits := some 64 }, value := .text text, decimal := some text,
          representation := "decimal_integer" }
  | .number .datetime _ bytesLe shown => do
    need (isText dateProfile temporalProfile) "unknown temporal semantics"
    return { type, cellType, isNull := false, native := { native with bits := some 64, bytesLe := some bytesLe, temporal := some {} },
             value := .text bytesLe, decimal := some shown, representation := "native_oadate_binary64_le", timezone := some "unspecified" }
  | .number _ _ bytesLe shown =>
    .ok { type, cellType, isNull := false, native := { native with bits := some 64, bytesLe := some bytesLe }, value := .text shown,
          decimal := some shown, representation := "binary64_decimal" }
  | .string text => .ok { type, cellType, isNull := false, native, value := .text text, representation := "native_string" }
  | .boolean flag => .ok { type, cellType, isNull := false, native, value := .flag flag, representation := "native_boolean" }

def adaptCell (representation : Bytes → Text) (cell : Json) (type : Option NativeType) (dateProfile : Option Json) :
    Except TableError AdaptedCell :=
  match (integer (get? cell "tag")).bind tags, get? cell "payload", integer (get? cell "frame_size") with
  | none, _, _ => .error (.refused "unsupported native tag; no inferred subtype")
  | some cellType, some (.array payload), frameSize => do
    need (10 ≤ payload.length && payload.length ≤ 65524) "logical payload"
    need (frameSize = some (max 60 (12 + payload.length))) "frame length"
    -- The saved cell leaves out the padding of the transport.
    let padding := max 60 (12 + payload.length) - 12 - payload.length
    let decoded ← decodeVariantFrame representation (payload ++ replicate padding (.integer 0)) (max 60 (12 + payload.length))
    need (some decoded.tag = integer (get? cell "tag") && decoded.consumedBytes = payload.length) "tag/logical length mismatch"
    need (type = some .variant || cellType = .null || type = some cellType) "schema/native subtype mismatch"
    adaptedValue type cellType (nativeBytes decoded.tag ((payload.mapM byte).getD [])) decoded.value dateProfile
  | some _, _, _ => .error (.refused "logical payload")

section Bytes

variable {data : Bytes} {offset width : Nat}

theorem number_lt (data : Bytes) : number data < 256 ^ data.length := by
  have read := congrArg number (littleEndian_number data)
  rw [number_littleEndian] at read
  rw [← read]
  exact Nat.mod_lt _ (by positivity)

theorem signedBytes_signedAt (inside : offset + width ≤ data.length) :
    signedBytes width (signedAt data offset width) = slice data offset width := by
  have size : (slice data offset width).length = width := by
    rw [slice, length_take, length_drop]
    omega
  have small := number_lt (slice data offset width)
  rw [size] at small
  have same : signedAt data offset width % 256 ^ width = number (slice data offset width) := by
    simp only [signedAt]
    split
    · exact Int.emod_eq_of_lt (by omega) (by exact_mod_cast small)
    · rw [Int.sub_emod_right]
      exact Int.emod_eq_of_lt (by omega) (by exact_mod_cast small)
  have back := littleEndian_number (slice data offset width)
  rw [size] at back
  rw [signedBytes, same, Int.toNat_natCast, back]

theorem signedAt_eight (data : Bytes) (offset : Nat) :
    -2 ^ 63 ≤ signedAt data offset 8 ∧ signedAt data offset 8 < 2 ^ 63 := by
  have short : (slice data offset 8).length ≤ 8 := length_take_le _ _
  have small : number (slice data offset 8) < 256 ^ 8 := (number_lt _).trans_le (Nat.pow_le_pow_right (by omega) short)
  simp only [signedAt]
  split <;> omega

theorem hexDigit_injective : ∀ first < 16, ∀ second < 16, hexDigit first = hexDigit second → first = second := by decide

theorem hex_injective {first second : Bytes} (same : hex first = hex second) : first = second := by
  induction first generalizing second with
  | nil =>
    cases second with
    | nil => rfl
    | cons => cases same
  | cons one rest ih =>
    cases second with
    | nil => cases same
    | cons other others =>
      simp only [hex, flatMap_cons, cons_append, nil_append, cons.injEq] at same
      have small := one.toNat_lt
      have smallOther := other.toNat_lt
      have high := hexDigit_injective _ (by omega) _ (by omega) same.1
      have low := hexDigit_injective _ (by omega) _ (by omega) same.2.1
      have equal : one = other := UInt8.toNat_inj.mp (by omega)
      rw [equal, ih same.2.2]

theorem some_hex_iff {first second : Bytes} : some (hex first) = some (hex second) ↔ second = first :=
  ⟨fun same => (hex_injective (Option.some_inj.mp same)).symm, fun same => by rw [same]⟩

theorem encode_of_decodeText {text : Text} (decoded : decodeText data = some text) : text.encode = data := by
  obtain ⟨written, found, rfl⟩ := Option.map_eq_some_iff.mp decoded
  rw [String.fromUTF8?] at found
  split at found
  next valid =>
    have bytes : written.toByteArray = ⟨data.toArray⟩ := by rw [← Option.some_inj.mp found]; rfl
    have whole := congrArg (fun array => array.data.toList) (String.utf8Encode_toList.trans bytes)
    simpa [utf8Encode, Text.encode] using whole
  next => cases found

theorem bytes_padded {payload : List Json} {padding : Nat} (read : (payload ++ replicate padding (Json.integer 0)).mapM byte = some data) :
    ∃ own, payload.mapM byte = some own ∧ own.length = payload.length ∧ data.take payload.length = own := by
  induction payload generalizing data with
  | nil => exact ⟨[], rfl, rfl, rfl⟩
  | cons item rest ih =>
    rw [cons_append, mapM_cons] at read
    simp only [Option.bind_eq_bind, Option.bind_eq_some_iff, Option.pure_def, Option.some_inj] at read
    obtain ⟨first, here, others, later, rfl⟩ := read
    obtain ⟨own, found, size, start⟩ := ih later
    refine ⟨first :: own, ?_, by rw [length_cons, length_cons, size], by rw [length_cons, take_succ_cons, start]⟩
    rw [mapM_cons, here, found]
    rfl

end Bytes

def payloadOf (cell : Json) : Option Bytes :=
  match get? cell "payload" with
  | some (.array payload) => payload.mapM byte
  | _ => none

/-- How long a payload of this type has to be. -/
def logicalLength (type : NativeType) (payload : Bytes) : Int :=
  if type = .string then if signedAt payload 10 4 = 0 then 14 else 16 + signedAt payload 10 4 else 10

def CarriesValue (payload : Bytes) (cell : AdaptedCell) : Prop :=
  match cell.cellType with
  | .null => cell.value = .null
  | .integer => ∃ value, -2 ^ 63 ≤ value ∧ value < 2 ^ 63 ∧ cell.value = .text (decimal value) ∧ signedBytes 8 value = slice payload 2 8
  | .boolean => ∃ value, cell.value = .flag value ∧ [if value then 1 else 0] = slice payload 2 1
  | .string => ∃ text, cell.value = .text text ∧ text.encode = payload.drop 16
  | .real | .datetime => ∀ content, cell.native.bytesLe = some (hex content) ↔ content = slice payload 2 8
  | .variant => False

structure Carries (payload : Bytes) (cell : AdaptedCell) : Prop where
  tag : cell.native.tag = signedAt payload 0 2 ∧ tags cell.native.tag = some cell.cellType
  null : cell.isNull = true ↔ cell.cellType = .null
  length : (payload.length : Int) = logicalLength cell.cellType payload
  value : CarriesValue payload cell

section Cells

variable {representation : Bytes → Text} {data : Bytes}

theorem decoded_frame {items : List Json} {size : Int} {decoded : DecodedFrame}
    (done : decodeVariantFrame representation items size = .ok decoded) :
    ∃ data, items.mapM byte = some data ∧ decoded.tag = signedAt data 0 2 ∧
      decodeValue representation data decoded.tag = .ok (decoded.consumedBytes, decoded.value) := by
  rw [decodeVariantFrame] at done
  split at done
  next => cases done
  next data read =>
    simp only [bind_ok_iff, need_eq_ok] at done
    obtain ⟨-, -, ⟨used, value⟩, found, -, -, returned⟩ := done
    cases returned
    exact ⟨data, read, rfl, found⟩

theorem decodeString_ok {used : Nat} {value : Decoded} (done : decodeString data = .ok (used, value)) :
    0 ≤ signedAt data 10 4 ∧ (used : Int) = (if signedAt data 10 4 = 0 then 14 else 16 + signedAt data 10 4) ∧
      ∃ text, value = .string text ∧ text.encode = between data 16 used := by
  simp only [decodeString, bind_ok_iff, need_eq_ok, Bool.and_eq_true, decide_eq_true_eq] at done
  obtain ⟨-, ⟨bound, -⟩, -, -, done⟩ := done
  split at done
  next zero =>
    cases done
    rw [if_pos zero]
    exact ⟨bound, rfl, [], rfl, (drop_eq_nil_of_le ((length_take_le _ _).trans (by omega))).symm⟩
  next some =>
    obtain ⟨-, -, done⟩ := bind_ok_iff.mp done
    rw [if_neg some]
    split at done
    next text decoded =>
      cases done
      exact ⟨bound, by omega, text, rfl, encode_of_decodeText decoded⟩
    next => cases done

theorem adapted_carries {type : Option NativeType} {cellType : NativeType} {dateProfile : Option Json} {cell : AdaptedCell}
    {tag : Int} {payload : Bytes} {value : Decoded} (known : tags tag = some cellType) (isTag : tag = signedAt data 0 2)
    (start : data.take payload.length = payload) (enough : 10 ≤ payload.length)
    (decoded : decodeValue representation data tag = .ok (payload.length, value))
    (done : adaptedValue type cellType (nativeBytes tag payload) value dateProfile = .ok cell) : Carries payload cell := by
  have same : ∀ offset width, offset + width ≤ payload.length → slice payload offset width = slice data offset width := by
    intro offset width inside
    conv_lhs => rw [← start]
    exact slice_take data inside
  have longer : payload.length ≤ data.length := by
    rw [← start]
    exact length_take_le' _ _
  have tagged : tag = signedAt payload 0 2 := by rw [isTag, signedAt, signedAt, same 0 2 (by omega)]
  unfold tags at known
  split at known <;> cases known
  all_goals simp only [decodeValue, bind_ok_iff, need_eq_ok, Int.reduceEq, reduceIte, mem_cons, or_true, or_false, or_self, not_mem_nil,
    pure_eq_ok, Except.ok.injEq, Prod.mk.injEq] at decoded
  case h_1 =>
    obtain ⟨size, rfl⟩ := decoded
    cases done
    exact ⟨⟨tagged, rfl⟩, ⟨fun _ => rfl, fun _ => rfl⟩, by rw [← size]; rfl, rfl⟩
  case h_2 =>
    obtain ⟨-, -, size, rfl⟩ := decoded
    cases done
    refine ⟨⟨tagged, rfl⟩, iff_of_false (by simp) (by simp), by rw [← size]; rfl, fun content => ?_⟩
    rw [same 2 8 (by omega)]
    exact some_hex_iff
  case h_3 =>
    obtain ⟨-, -, size, rfl⟩ := decoded
    obtain ⟨-, -, returned⟩ := bind_ok_iff.mp done
    cases returned
    refine ⟨⟨tagged, rfl⟩, iff_of_false (by simp) (by simp), by rw [← size]; rfl, fun content => ?_⟩
    rw [same 2 8 (by omega)]
    exact some_hex_iff
  case h_4 =>
    obtain ⟨filled, size, text, rfl, encoded⟩ := decodeString_ok decoded
    cases done
    have long : 14 ≤ payload.length := by split at size <;> omega
    have sized : signedAt payload 10 4 = signedAt data 10 4 := by rw [signedAt, signedAt, same 10 4 (by omega)]
    refine ⟨⟨tagged, rfl⟩, iff_of_false (by simp) (by simp), ?_, text, rfl, ?_⟩
    · rw [logicalLength, if_pos rfl, sized, size]
    · rw [encoded, between, start]
  case h_5 =>
    obtain ⟨-, isFlag, size, rfl⟩ := decoded
    cases done
    refine ⟨⟨tagged, rfl⟩, iff_of_false (by simp) (by simp), by rw [← size]; rfl, _, rfl, ?_⟩
    have room : 2 < data.length := by omega
    rw [same 2 1 (by omega), slice_one room]
    rcases Bool.or_eq_true_iff.mp isFlag with zero | one
    · rw [of_decide_eq_true zero]
      rfl
    · rw [of_decide_eq_true one]
      rfl
  case h_6 =>
    obtain ⟨size, rfl⟩ := decoded
    cases done
    obtain ⟨low, high⟩ := signedAt_eight data 2
    refine ⟨⟨tagged, rfl⟩, iff_of_false (by simp) (by simp), by rw [← size]; rfl, _, low, high, rfl, ?_⟩
    rw [same 2 8 (by omega)]
    exact signedBytes_signedAt (by omega)

theorem adaptCell_carries {cell : Json} {type : Option NativeType} {dateProfile : Option Json} {adapted : AdaptedCell}
    (done : adaptCell representation cell type dateProfile = .ok adapted) :
    ∃ payload, payloadOf cell = some payload ∧ Carries payload adapted := by
  rw [adaptCell] at done
  split at done
  next => cases done
  next cellType items size tagged found =>
    simp only [bind_ok_iff, need_eq_ok, Bool.and_eq_true, decide_eq_true_eq] at done
    obtain ⟨-, ⟨enough, -⟩, -, -, decoded, frame, -, ⟨tag, used⟩, -, -, done⟩ := done
    obtain ⟨data, read, isTag, value⟩ := decoded_frame frame
    obtain ⟨own, found, length, start⟩ := bytes_padded read
    rw [← tag, Option.bind_some] at tagged
    rw [found] at done
    rw [← length] at start used enough
    rw [used] at value
    refine ⟨own, by simp [payloadOf, *], adapted_carries tagged isTag start enough value done⟩
  next => cases done

end Cells

end NativeTable

end LoginomDock.Client
