import LoginomDock.Library.Bytes
import LoginomDock.Library.Checked

/-! An encrypted file is an envelope: a header of twelve bytes, the encrypted file key, the IV of the key, the IV of the
data and the encrypted content. -/

namespace LoginomDock.Crypto

open Bytes List

structure Envelope where
  providerType : UInt8
  encryptedFileKey : Bytes
  keyIv : Bytes
  dataIv : Bytes
  encryptedContent : Bytes
  deriving DecidableEq

/-- `b"OVE1"` -/
def magic : Bytes := [0x4f, 0x56, 0x45, 0x31]

def version : UInt8 := 0x01

def headerSize : Nat := 12

namespace Rust

inductive Error where
  | internal (message : String)
  deriving DecidableEq

/-- `u16::to_be_bytes` -/
def toBeBytes (value : UInt16) : Bytes := [(value >>> 8).toUInt8, value.toUInt8]

/-- `u16::from_be_bytes([data[i], data[i + 1]])` -/
def fromBeBytes (data : Bytes) (i : Nat) : UInt16 :=
  (data.getD i 0).toUInt16 <<< 8 ||| (data.getD (i + 1) 0).toUInt16

def buildEnvelope (providerType : UInt8) (encryptedFileKey keyIv dataIv encryptedContent : Bytes) : Bytes :=
  -- `as u16`: what does not fit is cut off.
  let efkLen := UInt16.ofNat encryptedFileKey.length
  let kivLen := UInt16.ofNat keyIv.length
  let divLen := UInt16.ofNat dataIv.length
  magic ++ [version] ++ [providerType] ++ toBeBytes efkLen ++ toBeBytes kivLen ++ toBeBytes divLen ++
    encryptedFileKey ++ keyIv ++ dataIv ++ encryptedContent

def parseEnvelope (data : Bytes) : Except Error Envelope :=
  if data.length < headerSize then .error (.internal "envelope too short")
  else if between data 0 4 ≠ magic then .error (.internal "invalid envelope magic")
  else if data.getD 4 0 ≠ version then .error (.internal s!"unsupported envelope version: {data.getD 4 0}")
  else
    let providerType := data.getD 5 0
    let efkLen := (fromBeBytes data 6).toNat
    let kivLen := (fromBeBytes data 8).toNat
    let divLen := (fromBeBytes data 10).toNat
    let efkEnd := headerSize + efkLen
    let kivEnd := efkEnd + kivLen
    let divEnd := kivEnd + divLen
    if data.length < divEnd then .error (.internal "incomplete envelope")
    else .ok {
      providerType
      encryptedFileKey := between data headerSize efkEnd
      keyIv := between data efkEnd kivEnd
      dataIv := between data kivEnd divEnd
      encryptedContent := data.drop divEnd }

end Rust

namespace Python

inductive Error where
  /-- `struct.error`: a number outside the range of its format -/
  | struct
  | corruptedCiphertext (message : String)
  /-- `InvalidMagicError(f"Invalid magic: {magic}")` -/
  | invalidMagic (magic : Bytes)
  deriving DecidableEq

/-- One number of `struct.pack("!…")`, in one byte (`B`) or in two (`H`). -/
def pack (width : Nat) (value : Int) : Except Error Bytes :=
  if 0 ≤ value ∧ value < (256 ^ width : Nat) then .ok (bigEndian width value.toNat) else .error .struct

/-- One number of `struct.unpack("!…")`. -/
def unpack (width offset : Nat) (data : Bytes) : Nat := bigEndianNumber (slice data offset width)

def buildEnvelope (providerType : Int) (encryptedFileKey keyIv dataIv encryptedContent : Bytes) : Except Error Bytes := do
  let efkLen := encryptedFileKey.length
  let kivLen := keyIv.length
  let divLen := dataIv.length
  let header := magic ++ (← pack 1 version.toNat) ++ (← pack 1 providerType) ++
    (← pack 2 efkLen) ++ (← pack 2 kivLen) ++ (← pack 2 divLen)
  return header ++ encryptedFileKey ++ keyIv ++ dataIv ++ encryptedContent

def parseEnvelope (ciphertext : Bytes) : Except Error Envelope :=
  if ciphertext.length < headerSize then .error (.corruptedCiphertext "Envelope too short")
  else
    let header := ciphertext.take headerSize
    let providerType := unpack 1 5 header
    let efkLen := unpack 2 6 header
    let kivLen := unpack 2 8 header
    let divLen := unpack 2 10 header
    if slice header 0 4 ≠ magic then .error (.invalidMagic (slice header 0 4))
    else if unpack 1 4 header ≠ version.toNat then
      .error (.corruptedCiphertext s!"Unsupported version: {unpack 1 4 header}")
    else
      let efkEnd := headerSize + efkLen
      let kivEnd := efkEnd + kivLen
      let divEnd := kivEnd + divLen
      if ciphertext.length < divEnd then .error (.corruptedCiphertext "Incomplete envelope")
      else .ok {
        providerType := UInt8.ofNat providerType
        encryptedFileKey := between ciphertext headerSize efkEnd
        keyIv := between ciphertext efkEnd kivEnd
        dataIv := between ciphertext kivEnd divEnd
        encryptedContent := ciphertext.drop divEnd }

end Python

namespace Envelope

def Fits (envelope : Envelope) : Prop :=
  envelope.encryptedFileKey.length < 256 ^ 2 ∧ envelope.keyIv.length < 256 ^ 2 ∧ envelope.dataIv.length < 256 ^ 2

instance (envelope : Envelope) : Decidable envelope.Fits := inferInstanceAs (Decidable (_ ∧ _ ∧ _))

def header (envelope : Envelope) : Bytes :=
  magic ++ [version, envelope.providerType] ++ bigEndian 2 envelope.encryptedFileKey.length ++
    bigEndian 2 envelope.keyIv.length ++ bigEndian 2 envelope.dataIv.length

def parts (envelope : Envelope) : Bytes :=
  envelope.encryptedFileKey ++ (envelope.keyIv ++ (envelope.dataIv ++ envelope.encryptedContent))

def layout (envelope : Envelope) : Bytes := envelope.header ++ envelope.parts

def cut (data : Bytes) (providerType : UInt8) (efkLen kivLen divLen : Nat) : Envelope where
  providerType
  encryptedFileKey := between data headerSize (headerSize + efkLen)
  keyIv := between data (headerSize + efkLen) (headerSize + efkLen + kivLen)
  dataIv := between data (headerSize + efkLen + kivLen) (headerSize + efkLen + kivLen + divLen)
  encryptedContent := data.drop (headerSize + efkLen + kivLen + divLen)

structure ReadAs (envelope : Envelope) (data : Bytes) : Prop where
  headed : headerSize ≤ data.length
  magic : slice data 0 4 = magic
  version : slice data 4 1 = [version]
  providerType : slice data 5 1 = [envelope.providerType]
  efkLen : bigEndianNumber (slice data 6 2) = envelope.encryptedFileKey.length
  kivLen : bigEndianNumber (slice data 8 2) = envelope.keyIv.length
  divLen : bigEndianNumber (slice data 10 2) = envelope.dataIv.length
  parts : data.drop headerSize = envelope.parts

@[simp] theorem length_header (envelope : Envelope) : envelope.header.length = headerSize := by
  simp [header, magic, headerSize]

theorem take_headerSize (data : Bytes) :
    data.take headerSize = slice data 0 4 ++ slice data 4 1 ++ slice data 5 1 ++ slice data 6 2 ++ slice data 8 2 ++ slice data 10 2 := by
  have joined (offset width : Nat) : data.take offset ++ slice data offset width = data.take (offset + width) := by
    rw [slice, take_add]
  calc data.take headerSize = data.take (10 + 2) := rfl
    _ = _ := by
      rw [← joined 10 2, ← joined 8 2, ← joined 6 2, ← joined 5 1, ← joined 4 1, ← joined 0 4]
      simp

variable {envelope : Envelope} {data : Bytes}

theorem fits_of_read (read : envelope.ReadAs data) : envelope.Fits := by
  have small (offset : Nat) : bigEndianNumber (slice data offset 2) < 256 ^ 2 := by
    apply (bigEndianNumber_lt _).trans_le
    exact Nat.pow_le_pow_right (by decide : 0 < 256) (length_take_le ..)
  refine ⟨?_, ?_, ?_⟩
  · rw [← read.efkLen]; exact small 6
  · rw [← read.kivLen]; exact small 8
  · rw [← read.divLen]; exact small 10

theorem layout_of_read (read : envelope.ReadAs data) : envelope.layout = data := by
  have two {offset : Nat} (inside : offset + 2 ≤ headerSize) : bigEndian 2 (bigEndianNumber (slice data offset 2)) = slice data offset 2 := by
    have headed := read.headed
    have width : (slice data offset 2).length = 2 := by
      rw [slice, length_take, length_drop]
      omega
    have back := bigEndian_bigEndianNumber (slice data offset 2)
    rwa [width] at back
  have top : envelope.header = data.take headerSize := by
    rw [take_headerSize, read.magic, read.version, read.providerType, header, ← read.efkLen, ← read.kivLen, ← read.divLen,
      two (by decide), two (by decide), two (by decide)]
    rfl
  rw [layout, top, ← read.parts, take_append_drop]

theorem read_layout (fits : envelope.Fits) : envelope.ReadAs envelope.layout := by
  obtain ⟨efk, kiv, div⟩ := fits
  have inHeader {offset width : Nat} (inside : offset + width ≤ headerSize) :
      slice envelope.layout offset width = slice envelope.header offset width := by
    rw [← slice_take _ inside, layout, ← length_header envelope, take_left]
  constructor
  · simp [layout]
  · rw [inHeader (by decide)]; rfl
  · rw [inHeader (by decide)]; rfl
  · rw [inHeader (by decide)]; rfl
  · rw [inHeader (by decide)]
    calc _ = bigEndianNumber (bigEndian 2 envelope.encryptedFileKey.length) := rfl
      _ = envelope.encryptedFileKey.length % 256 ^ 2 := bigEndianNumber_bigEndian ..
      _ = _ := Nat.mod_eq_of_lt efk
  · rw [inHeader (by decide)]
    calc _ = bigEndianNumber (bigEndian 2 envelope.keyIv.length) := rfl
      _ = envelope.keyIv.length % 256 ^ 2 := bigEndianNumber_bigEndian ..
      _ = _ := Nat.mod_eq_of_lt kiv
  · rw [inHeader (by decide)]
    calc _ = bigEndianNumber (bigEndian 2 envelope.dataIv.length) := rfl
      _ = envelope.dataIv.length % 256 ^ 2 := bigEndianNumber_bigEndian ..
      _ = _ := Nat.mod_eq_of_lt div
  · rw [layout, ← length_header envelope, drop_left]

theorem readAs_iff : envelope.ReadAs data ↔ envelope.Fits ∧ envelope.layout = data := by
  constructor
  · intro read
    exact ⟨fits_of_read read, layout_of_read read⟩
  · rintro ⟨fits, rfl⟩
    exact read_layout fits

theorem lengths_cut {providerType : UInt8} {efkLen kivLen divLen : Nat}
    (complete : headerSize + efkLen + kivLen + divLen ≤ data.length) :
    (cut data providerType efkLen kivLen divLen).encryptedFileKey.length = efkLen ∧
      (cut data providerType efkLen kivLen divLen).keyIv.length = kivLen ∧
      (cut data providerType efkLen kivLen divLen).dataIv.length = divLen := by
  refine ⟨?_, ?_, ?_⟩
  · rw [cut, length_between (by omega)]; omega
  · rw [cut, length_between (by omega)]; omega
  · rw [cut, length_between (by omega)]; omega

theorem parts_cut (data : Bytes) (providerType : UInt8) (efkLen kivLen divLen : Nat) :
    (cut data providerType efkLen kivLen divLen).parts = data.drop headerSize := by
  have tail {start stop : Nat} (ordered : start ≤ stop) : between data start stop ++ data.drop stop = data.drop start := by
    apply @append_cancel_left _ (data.take start)
    rw [← append_assoc, take_append_between data ordered, take_append_drop, take_append_drop]
  rw [parts, cut, tail (by omega), tail (by omega), tail (by omega)]

theorem cut_of_parts (headed : headerSize ≤ data.length)
    (rest : data.drop headerSize = envelope.parts) :
    cut data envelope.providerType envelope.encryptedFileKey.length envelope.keyIv.length envelope.dataIv.length = envelope := by
  obtain ⟨providerType, efk, kiv, div, content⟩ := envelope
  have whole : data = data.take headerSize ++ (efk ++ (kiv ++ (div ++ content))) := by
    calc data = data.take headerSize ++ data.drop headerSize := (take_append_drop ..).symm
      _ = _ := by rw [rest, parts]
  have top : (data.take headerSize).length = headerSize := by
    rw [length_take]
    omega
  have first : between data headerSize (headerSize + efk.length) = efk := by
    apply between_append (data.take headerSize) efk (kiv ++ (div ++ content))
    · simpa using whole
    · exact top
  have second : between data (headerSize + efk.length) (headerSize + efk.length + kiv.length) = kiv := by
    apply between_append (data.take headerSize ++ efk) kiv (div ++ content)
    · simpa using whole
    · simp [top]
  have third : between data (headerSize + efk.length + kiv.length) (headerSize + efk.length + kiv.length + div.length) = div := by
    apply between_append (data.take headerSize ++ efk ++ kiv) div content
    · simpa using whole
    · simp [top, Nat.add_assoc]
  have last : data.drop (headerSize + efk.length + kiv.length + div.length) = content := by
    rw [Nat.add_assoc, Nat.add_assoc, ← drop_drop, rest, parts]
    simp [← drop_drop]
  rw [cut, first, second, third, last]

theorem readAs_iff_cut :
    envelope.ReadAs data ↔ headerSize ≤ data.length ∧ slice data 0 4 = magic ∧ slice data 4 1 = [version] ∧
      headerSize + bigEndianNumber (slice data 6 2) + bigEndianNumber (slice data 8 2) + bigEndianNumber (slice data 10 2)
        ≤ data.length ∧
      ∃ providerType, slice data 5 1 = [providerType] ∧
        cut data providerType (bigEndianNumber (slice data 6 2)) (bigEndianNumber (slice data 8 2))
          (bigEndianNumber (slice data 10 2)) = envelope := by
  constructor
  · intro read
    rw [read.efkLen, read.kivLen, read.divLen]
    refine ⟨read.headed, read.magic, read.version, ?_, _, read.providerType, cut_of_parts read.headed read.parts⟩
    have long := congrArg List.length read.parts
    rw [parts, length_drop, List.length_append, List.length_append, List.length_append] at long
    have headed := read.headed
    omega
  · rintro ⟨headed, magical, versioned, complete, providerType, provided, rfl⟩
    obtain ⟨efk, kiv, div⟩ := @lengths_cut data providerType _ _ _ complete
    exact ⟨headed, magical, versioned, provided, efk.symm, kiv.symm, div.symm, (parts_cut ..).symm⟩

end Envelope

namespace Rust

theorem toBeBytes_ofNat (value : Nat) : toBeBytes (UInt16.ofNat value) = bigEndian 2 value := by
  have high : (UInt16.ofNat value >>> 8).toUInt8 = UInt8.ofNat (value / 256) := by
    apply UInt8.toNat_inj.mp
    simp [Nat.shiftRight_eq_div_pow]
    omega
  have low : (UInt16.ofNat value).toUInt8 = UInt8.ofNat value := by
    apply UInt8.toNat_inj.mp
    simp
  simp [toBeBytes, bigEndian, littleEndian, high, low]

theorem toNat_joined (high low : UInt8) : (high.toUInt16 <<< 8 ||| low.toUInt16).toNat = low.toNat + 256 * high.toNat := by
  have big := high.toNat_lt
  have shifted : high.toNat <<< 8 = 256 * high.toNat := by
    rw [Nat.shiftLeft_eq]
    omega
  calc (high.toUInt16 <<< 8 ||| low.toUInt16).toNat = high.toNat <<< 8 % 65536 ||| low.toNat := by simp
    _ = high.toNat <<< 8 ||| low.toNat := by rw [Nat.mod_eq_of_lt (by omega)]
    _ = high.toNat <<< 8 + low.toNat := (Nat.shiftLeft_add_eq_or_of_lt low.toNat_lt high.toNat).symm
    _ = low.toNat + 256 * high.toNat := by omega

theorem toNat_fromBeBytes {data : Bytes} {i : Nat} (inside : i + 2 ≤ data.length) :
    (fromBeBytes data i).toNat = bigEndianNumber (slice data i 2) := by
  have present (j : Nat) (within : j < data.length) : data[j]? = some (data.getD j 0) := by
    simp [within]
  have two : slice data i 2 = [data.getD i 0, data.getD (i + 1) 0] := by
    refine ext_getElem? fun j => ?_
    rw [getElem?_slice]
    match j with
    | 0 => exact present i (by omega)
    | 1 => exact present (i + 1) (by omega)
    | j + 2 => simp
  rw [two, fromBeBytes, toNat_joined]
  simp [bigEndianNumber, number]

theorem buildEnvelope_eq (envelope : Envelope) :
    buildEnvelope envelope.providerType envelope.encryptedFileKey envelope.keyIv envelope.dataIv envelope.encryptedContent =
      envelope.layout := by
  simp [buildEnvelope, toBeBytes_ofNat, Envelope.layout, Envelope.header, Envelope.parts]

theorem parseEnvelope_ok_iff {data : Bytes} {envelope : Envelope} :
    parseEnvelope data = .ok envelope ↔ envelope.ReadAs data := by
  rw [Envelope.readAs_iff_cut]
  unfold parseEnvelope
  by_cases short : data.length < headerSize
  · simp [short, Nat.not_le.mpr short]
  have headed : headerSize ≤ data.length := Nat.not_lt.mp short
  have word {i : Nat} (inside : i + 2 ≤ headerSize) : (fromBeBytes data i).toNat = bigEndianNumber (slice data i 2) :=
    toNat_fromBeBytes (inside.trans headed)
  have byte {i : Nat} (inside : i < headerSize) : slice data i 1 = [data.getD i 0] := slice_one (by omega)
  have front : between data 0 4 = slice data 0 4 := rfl
  rw [if_neg short, front, word (by decide), word (by decide), word (by decide), byte (by decide), byte (by decide)]
  generalize data.getD 4 0 = byteVersion
  generalize data.getD 5 0 = byteProvider
  by_cases magical : slice data 0 4 = magic
  · by_cases versioned : byteVersion = version
    · rw [if_neg (not_not.mpr magical), if_neg (not_not.mpr versioned)]
      dsimp only
      split
      · simp; omega
      · rename_i complete
        simp [headed, magical, versioned, Nat.not_lt.mp complete, Envelope.cut]
    · simp [magical, versioned]
  · simp [magical]

end Rust

namespace Python

theorem pack_ofNat {width value : Nat} (small : value < 256 ^ width) : pack width value = .ok (bigEndian width value) := by
  rw [pack, if_pos ⟨by omega, by exact_mod_cast small⟩]
  rfl

theorem pack_large {width value : Nat} (large : 256 ^ width ≤ value) : pack width value = .error .struct := by
  rw [pack, if_neg]
  rintro ⟨-, small⟩
  have back : value < 256 ^ width := by exact_mod_cast small
  omega

theorem pack_one (byte : UInt8) : pack 1 byte.toNat = .ok [byte] := by
  rw [pack_ofNat byte.toNat_lt]
  simp [bigEndian, littleEndian]

theorem buildEnvelope_fits {envelope : Envelope} (fits : envelope.Fits) :
    buildEnvelope envelope.providerType.toNat envelope.encryptedFileKey envelope.keyIv envelope.dataIv envelope.encryptedContent =
      .ok envelope.layout := by
  obtain ⟨efk, kiv, div⟩ := fits
  rw [buildEnvelope, pack_one, ok_bind, pack_one, ok_bind, pack_ofNat efk, ok_bind, pack_ofNat kiv, ok_bind, pack_ofNat div, ok_bind]
  simp [Envelope.layout, Envelope.header, Envelope.parts]

theorem buildEnvelope_unfit {envelope : Envelope} (unfit : ¬ envelope.Fits) :
    buildEnvelope envelope.providerType.toNat envelope.encryptedFileKey envelope.keyIv envelope.dataIv envelope.encryptedContent =
      .error .struct := by
  rw [buildEnvelope, pack_one, ok_bind, pack_one, ok_bind]
  by_cases efk : envelope.encryptedFileKey.length < 256 ^ 2
  · by_cases kiv : envelope.keyIv.length < 256 ^ 2
    · have div : ¬ envelope.dataIv.length < 256 ^ 2 := fun div => unfit ⟨efk, kiv, div⟩
      rw [pack_ofNat efk, ok_bind, pack_ofNat kiv, ok_bind, pack_large (Nat.not_lt.mp div), error_bind]
    · rw [pack_ofNat efk, ok_bind, pack_large (Nat.not_lt.mp kiv), error_bind]
  · rw [pack_large (Nat.not_lt.mp efk), error_bind]

theorem parseEnvelope_ok_iff {data : Bytes} {envelope : Envelope} :
    parseEnvelope data = .ok envelope ↔ envelope.ReadAs data := by
  rw [Envelope.readAs_iff_cut]
  unfold parseEnvelope
  by_cases short : data.length < headerSize
  · simp [short, Nat.not_le.mpr short]
  have headed : headerSize ≤ data.length := Nat.not_lt.mp short
  have word {width i : Nat} (inside : i + width ≤ headerSize) :
      unpack width i (data.take headerSize) = bigEndianNumber (slice data i width) := by
    rw [unpack, slice_take data inside]
  have byte {i : Nat} (inside : i < headerSize) : slice data i 1 = [data.getD i 0] := slice_one (by omega)
  have single (value : UInt8) : bigEndianNumber [value] = value.toNat := by simp [bigEndianNumber, number]
  rw [if_neg short]
  dsimp only
  rw [slice_take data (by decide), word (by decide), word (by decide), word (by decide), word (by decide), word (by decide),
    byte (by decide), byte (by decide), single, single, UInt8.ofNat_toNat]
  generalize data.getD 4 0 = byteVersion
  generalize data.getD 5 0 = byteProvider
  by_cases magical : slice data 0 4 = magic
  · by_cases versioned : byteVersion = version
    · rw [if_neg (not_not.mpr magical), if_neg (not_not.mpr (congrArg _ versioned))]
      split
      · simp; omega
      · rename_i complete
        simp [headed, magical, versioned, Nat.not_lt.mp complete, Envelope.cut]
    · have other : byteVersion.toNat ≠ version.toNat := fun same => versioned (UInt8.toNat_inj.mp same)
      simp [magical, versioned, other]
  · simp [magical]

end Python

-- The builders write the same bytes, or both refuse; what either built comes back from either parser.
def OneFormat (envelope : Envelope) : Prop :=
  let rust : Except Python.Error Bytes := .ok (Rust.buildEnvelope envelope.providerType envelope.encryptedFileKey envelope.keyIv
    envelope.dataIv envelope.encryptedContent)
  let python := Python.buildEnvelope envelope.providerType.toNat envelope.encryptedFileKey envelope.keyIv envelope.dataIv
    envelope.encryptedContent
  rust.toOption = python.toOption ∧
    ∀ data, rust = .ok data ∨ python = .ok data →
      Rust.parseEnvelope data = .ok envelope ∧ Python.parseEnvelope data = .ok envelope

-- Both parsers fail, or both find the same parts, which are the input behind its header.
def SameParse (data : Bytes) : Prop :=
  (Rust.parseEnvelope data).toOption = (Python.parseEnvelope data).toOption ∧
    ∀ envelope, Rust.parseEnvelope data = .ok envelope → data.take headerSize ++ envelope.parts = data

theorem toOption_eq_some_iff {ε α : Type} {result : Except ε α} {value : α} : result.toOption = some value ↔ result = .ok value := by
  cases result <;> simp

theorem sameParse (data : Bytes) : SameParse data := by
  constructor
  · refine Option.ext fun envelope => ?_
    rw [toOption_eq_some_iff, toOption_eq_some_iff, Rust.parseEnvelope_ok_iff, Python.parseEnvelope_ok_iff]
  · intro envelope parsed
    have read := Rust.parseEnvelope_ok_iff.mp parsed
    rw [← read.parts, take_append_drop]

theorem oneFormat_iff (envelope : Envelope) : OneFormat envelope ↔ envelope.Fits := by
  rw [OneFormat, Rust.buildEnvelope_eq]
  by_cases fits : envelope.Fits
  · have read := Envelope.read_layout fits
    rw [Python.buildEnvelope_fits fits]
    simp [fits, Rust.parseEnvelope_ok_iff, Python.parseEnvelope_ok_iff, read]
  · rw [Python.buildEnvelope_unfit fits]
    simp [fits]

theorem rust_round_trip_iff (envelope : Envelope) :
    Rust.parseEnvelope (Rust.buildEnvelope envelope.providerType envelope.encryptedFileKey envelope.keyIv envelope.dataIv
      envelope.encryptedContent) = .ok envelope ↔ envelope.Fits := by
  rw [Rust.buildEnvelope_eq, Rust.parseEnvelope_ok_iff, Envelope.readAs_iff]
  simp

theorem one_format_iff (envelope : Envelope) (data : Bytes) : (OneFormat envelope ↔ envelope.Fits) ∧ SameParse data :=
  ⟨oneFormat_iff envelope, sameParse data⟩

-- A wrapped key of one byte more than its length field can count.
def overlongKey : Envelope where
  providerType := 0x02
  encryptedFileKey := List.replicate (256 ^ 2) 0
  keyIv := []
  dataIv := []
  encryptedContent := []

theorem overlong_key_cut_off :
    ¬ OneFormat overlongKey ∧
      Python.buildEnvelope overlongKey.providerType.toNat overlongKey.encryptedFileKey overlongKey.keyIv overlongKey.dataIv
        overlongKey.encryptedContent = .error .struct ∧
      Rust.parseEnvelope (Rust.buildEnvelope overlongKey.providerType overlongKey.encryptedFileKey overlongKey.keyIv
        overlongKey.dataIv overlongKey.encryptedContent) ≠ .ok overlongKey := by
  have unfit : ¬ overlongKey.Fits := by
    rintro ⟨efk, -, -⟩
    rw [overlongKey, length_replicate] at efk
    exact Nat.lt_irrefl _ efk
  refine ⟨fun format => unfit ((oneFormat_iff _).mp format), Python.buildEnvelope_unfit unfit, fun parsed => ?_⟩
  exact unfit ((rust_round_trip_iff overlongKey).mp parsed)

end LoginomDock.Crypto
