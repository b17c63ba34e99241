import LoginomDock.Library.Text

/-! The hash of a text is that of its UTF-8 bytes, written in hexadecimal digits. Words are numbers below `2 ^ 32`. -/

namespace LoginomDock

open List

def Text.encode (text : Text) : List UInt8 := text.flatMap String.utf8EncodeChar

namespace Sha256

def word (value : Nat) : Nat := value % 2 ^ 32

def rotate (count value : Nat) : Nat := word ((value >>> count) ||| (value <<< (32 - count)))

def roundConstants : List Nat := [
  0x428a2f98, 0x71374491, 0xb5c0fbcf, 0xe9b5dba5, 0x3956c25b, 0x59f111f1, 0x923f82a4, 0xab1c5ed5,
  0xd807aa98, 0x12835b01, 0x243185be, 0x550c7dc3, 0x72be5d74, 0x80deb1fe, 0x9bdc06a7, 0xc19bf174,
  0xe49b69c1, 0xefbe4786, 0x0fc19dc6, 0x240ca1cc, 0x2de92c6f, 0x4a7484aa, 0x5cb0a9dc, 0x76f988da,
  0x983e5152, 0xa831c66d, 0xb00327c8, 0xbf597fc7, 0xc6e00bf3, 0xd5a79147, 0x06ca6351, 0x14292967,
  0x27b70a85, 0x2e1b2138, 0x4d2c6dfc, 0x53380d13, 0x650a7354, 0x766a0abb, 0x81c2c92e, 0x92722c85,
  0xa2bfe8a1, 0xa81a664b, 0xc24b8b70, 0xc76c51a3, 0xd192e819, 0xd6990624, 0xf40e3585, 0x106aa070,
  0x19a4c116, 0x1e376c08, 0x2748774c, 0x34b0bcb5, 0x391c0cb3, 0x4ed8aa4a, 0x5b9cca4f, 0x682e6ff3,
  0x748f82ee, 0x78a5636f, 0x84c87814, 0x8cc70208, 0x90befffa, 0xa4506ceb, 0xbef9a3f7, 0xc67178f2]

structure Working where
  a : Nat
  b : Nat
  c : Nat
  d : Nat
  e : Nat
  f : Nat
  g : Nat
  h : Nat

def initial : Working := ⟨0x6a09e667, 0xbb67ae85, 0x3c6ef372, 0xa54ff53a,
  0x510e527f, 0x9b05688c, 0x1f83d9ab, 0x5be0cd19⟩

def round (state : Working) (constant entry : Nat) : Working :=
  let sum1 := rotate 6 state.e ^^^ rotate 11 state.e ^^^ rotate 25 state.e
  let choice := (state.e &&& state.f) ^^^ ((2 ^ 32 - 1 - state.e) &&& state.g)
  let first := state.h + sum1 + choice + constant + entry
  let sum0 := rotate 2 state.a ^^^ rotate 13 state.a ^^^ rotate 22 state.a
  let majority := (state.a &&& state.b) ^^^ (state.a &&& state.c) ^^^ (state.b &&& state.c)
  ⟨word (first + sum0 + majority), state.a, state.b, state.c, word (state.d + first), state.e, state.f, state.g⟩

def nextWord (window : List Nat) : Nat :=
  let early := window.getD 1 0
  let late := window.getD 14 0
  word (window.getD 0 0 + (rotate 7 early ^^^ rotate 18 early ^^^ (early >>> 3)) + window.getD 9 0 +
    (rotate 17 late ^^^ rotate 19 late ^^^ (late >>> 10)))

def rounds : List Nat → List Nat → Working → Working
  | [], _, state => state
  | constant :: rest, window, state =>
    rounds rest (window.drop 1 ++ [nextWord window]) (round state constant (window.getD 0 0))

def compress (state : Working) (block : List Nat) : Working :=
  let done := rounds roundConstants block state
  ⟨word (state.a + done.a), word (state.b + done.b), word (state.c + done.c), word (state.d + done.d),
    word (state.e + done.e), word (state.f + done.f), word (state.g + done.g), word (state.h + done.h)⟩

def padded (message : List Nat) : List Nat :=
  message ++ 128 :: List.replicate ((119 - message.length % 64) % 64) 0 ++
    (List.range 8).map fun place => (8 * message.length) / 256 ^ (7 - place) % 256

def wordAt (bytes : List Nat) (place : Nat) : Nat :=
  ((bytes.drop (4 * place)).take 4).foldl (fun value byte => 256 * value + byte) 0

def blocks (bytes : List Nat) : List (List Nat) :=
  (List.range (bytes.length / 64)).map fun block => (List.range 16).map fun place => wordAt bytes (16 * block + place)

def digest (message : List Nat) : Working := (blocks (padded message)).foldl compress initial

def Working.words (state : Working) : List Nat := [state.a, state.b, state.c, state.d, state.e, state.f, state.g, state.h]

def hexDigit (value : Nat) : Char := "0123456789abcdef".toList.getD (value % 16) '0'

def hexDigits (value : Nat) : Text := (List.range 8).map fun place => hexDigit (value / 16 ^ (7 - place))

end Sha256

/-- `hashlib.sha256(text.encode("utf-8")).hexdigest()` -/
def hexdigest (text : Text) : Text := (Sha256.digest (text.encode.map UInt8.toNat)).words.flatMap Sha256.hexDigits

theorem length_hexdigest (text : Text) : (hexdigest text).length = 64 := by
  simp [hexdigest, Sha256.Working.words, Sha256.hexDigits]

def hexAlphabet : Text := "0123456789abcdef"

theorem Sha256.hexDigit_mem (value : Nat) : Sha256.hexDigit value ∈ hexAlphabet := by
  have small : value % 16 < hexAlphabet.length := Nat.mod_lt _ (by decide)
  have there : hexAlphabet[value % 16]? = some hexAlphabet[value % 16] := getElem?_eq_getElem small
  rw [Sha256.hexDigit, getD_eq_getElem?_getD]
  change (hexAlphabet[value % 16]?).getD '0' ∈ hexAlphabet
  rw [there]
  exact getElem_mem small

theorem hexdigest_mem (text : Text) : ∀ digit ∈ hexdigest text, digit ∈ hexAlphabet := by
  intro digit member
  obtain ⟨number, -, inside⟩ := mem_flatMap.mp member
  obtain ⟨place, -, rfl⟩ := mem_map.mp inside
  exact Sha256.hexDigit_mem _

end LoginomDock
