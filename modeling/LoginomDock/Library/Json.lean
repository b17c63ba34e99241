import LoginomDock.Library.Text
import Mathlib.Data.Rat.Defs

/-! A number is an integer of at most 64 bits or a double. Doubles are taken as the rationals they denote. -/

namespace LoginomDock

inductive Json where
  | null
  | bool (value : Bool)
  | integer (value : Int)
  | double (value : ℚ)
  | string (value : Text)
  | array (items : List Json)
  | object (members : List (Text × Json))

namespace Json

def member? (name : String) : Json → Option Json
  | .object members => (members.find? fun member => member.1 = name.toList).map Prod.snd
  | _ => none

def isObject : Json → Bool
  | .object _ => true
  | _ => false

def int64? : Json → Option Int
  | .integer value => if -2 ^ 63 ≤ value ∧ value < 2 ^ 63 then some value else none
  | _ => none

def uint64? : Json → Option Nat
  | .integer value => if 0 ≤ value ∧ value < 2 ^ 64 then some value.toNat else none
  | _ => none

end Json

/-- A text up to its first NUL, as `std::string(const char*)` takes it. -/
def cString (text : Text) : Text := text.takeWhile (· ≠ '\x00')

/-- `std::to_string` of an integer -/
def decimal (value : Int) : Text := (toString value).toList

end LoginomDock
