import Mathlib.Data.Nat.Digits.Defs
import LoginomDock.Library.Batch
import LoginomDock.Library.Json

/-! Reading members of values that may be missing, and the text of a value. A number that is not an integer has the text
that it is given. -/

namespace LoginomDock.Json

/-- `value?.name`, absent for undefined -/
def get? (value : Option Json) (name : String) : Option Json := value.bind (·.member? name)

def truthy : Option Json → Bool
  | none | some .null | some (.bool false) | some (.string []) => false
  | some (.integer value) => decide (value ≠ 0)
  | some (.double value) => decide (value ≠ 0)
  | some _ => true

/-- `value === text` -/
def isText (value : Option Json) (text : String) : Bool :=
  match value with
  | some (.string found) => decide (found = text.toList)
  | _ => false

/-- `value === true` -/
def isTrue : Option Json → Bool
  | some (.bool true) => true
  | _ => false

/-- `value ?? []` as a list -/
def listOf : Option Json → List Json
  | some (.array items) => items
  | _ => []

def membersOf : Option Json → List (Text × Json)
  | some (.object members) => members
  | _ => []

def setMember (name : Text) (value : Json) : List (Text × Json) → List (Text × Json)
  | [] => [(name, value)]
  | member :: rest => if member.1 = name then (name, value) :: rest else member :: setMember name value rest

def withoutMembers (names : List String) (members : List (Text × Json)) : List (Text × Json) :=
  members.filter fun member => member.1 ∉ names.map String.toList

def present (members : List (String × Option Json)) : List (Text × Json) :=
  members.filterMap fun member => member.2.map fun value => (member.1.toList, value)

mutual

def canonical : Json → Json
  | .array items => .array (canonicalItems items)
  | .object members =>
    .object ((canonicalMembers members).insertionSort fun first second => first.1 ≤ second.1)
  | value => value
termination_by structural value => value

def canonicalItems : List Json → List Json
  | [] => []
  | item :: rest => canonical item :: canonicalItems rest
termination_by structural items => items

def canonicalMembers : List (Text × Json) → List (Text × Json)
  | [] => []
  | (name, value) :: rest => (name, canonical value) :: canonicalMembers rest
termination_by structural members => members

end

def hexDigit (value : Nat) : Char := if value < 10 then Char.ofNat (48 + value) else Char.ofNat (87 + value)

def escaped (char : Char) : Text :=
  if char = '"' then ['\\', '"']
  else if char = '\\' then ['\\', '\\']
  else if char = '\x08' then ['\\', 'b']
  else if char = '\x0c' then ['\\', 'f']
  else if char = '\n' then ['\\', 'n']
  else if char = '\r' then ['\\', 'r']
  else if char = '\t' then ['\\', 't']
  else if char.toNat < 32 then ['\\', 'u', '0', '0', hexDigit (char.toNat / 16), hexDigit (char.toNat % 16)]
  else [char]

def quoted (text : Text) : Text := '"' :: text.flatMap escaped ++ ['"']

section Stringify

variable (number : ℚ → Text)

mutual

/-- `JSON.stringify` -/
def stringify : Json → Text
  | .null => "null"
  | .bool true => "true"
  | .bool false => "false"
  | .integer value => decimal value
  | .double value => number value
  | .string text => quoted text
  | .array items => '[' :: [','].intercalate (stringifyItems items) ++ [']']
  | .object members => '{' :: [','].intercalate (stringifyMembers members) ++ ['}']
termination_by structural value => value

def stringifyItems : List Json → List Text
  | [] => []
  | item :: rest => stringify item :: stringifyItems rest
termination_by structural items => items

def stringifyMembers : List (Text × Json) → List Text
  | [] => []
  | (name, value) :: rest => (quoted name ++ ':' :: stringify value) :: stringifyMembers rest
termination_by structural members => members

end

@[simp] theorem stringify_integer (value : Int) : stringify number (.integer value) = decimal value := by rw [stringify]

theorem stringifyMembers_eq (members : List (Text × Json)) : stringifyMembers number members =
    members.map fun member => quoted member.1 ++ ':' :: stringify number member.2 := by
  induction members with
  | nil => rfl
  | cons member rest ih =>
    obtain ⟨name, value⟩ := member
    rw [stringifyMembers, ih, List.map_cons]

end Stringify

end LoginomDock.Json

namespace LoginomDock

/-- `Buffer.byteLength` -/
def utf8Bytes (text : Text) : Nat := (text.map Char.utf8Size).sum

@[simp] theorem utf8Bytes_nil : utf8Bytes [] = 0 := rfl

@[simp] theorem utf8Bytes_cons (char : Char) (rest : Text) : utf8Bytes (char :: rest) = char.utf8Size + utf8Bytes rest := by
  simp [utf8Bytes]

@[simp] theorem utf8Bytes_append (first second : Text) : utf8Bytes (first ++ second) = utf8Bytes first + utf8Bytes second := by
  simp [utf8Bytes]

theorem utf8Bytes_intercalate (separator : Text) (parts : List Text) : utf8Bytes (separator.intercalate parts) =
    (parts.map utf8Bytes).sum + (parts.length - 1) * utf8Bytes separator := by
  induction parts with
  | nil => simp
  | cons first rest ih =>
    cases rest with
    | nil => simp
    | cons second rest =>
      rw [List.intercalate_cons_of_ne_nil (by simp), utf8Bytes_append, utf8Bytes_append, ih]
      simp only [List.map_cons, List.sum_cons, List.length_cons]
      have lengths : rest.length + 1 + 1 - 1 = rest.length + 1 - 1 + 1 := by omega
      rw [lengths, Nat.add_mul]
      omega

namespace Json

variable (number : ℚ → Text)

def memberBytes (member : Text × Json) : Nat := utf8Bytes (quoted member.1) + 1 + utf8Bytes (stringify number member.2)

theorem utf8Bytes_object (members : List (Text × Json)) : utf8Bytes (stringify number (.object members)) =
    2 + (members.map (memberBytes number)).sum + (members.length - 1) := by
  have parts : (stringifyMembers number members).map utf8Bytes = members.map (memberBytes number) := by
    rw [stringifyMembers_eq, List.map_map]
    refine List.map_congr_left fun member _ => ?_
    simp only [Function.comp_apply, utf8Bytes_append, utf8Bytes_cons, memberBytes]
    rw [show Char.utf8Size ':' = 1 from rfl]
    omega
  rw [stringify, List.cons_append, utf8Bytes_cons, utf8Bytes_append, utf8Bytes_intercalate, parts, stringifyMembers_eq,
    List.length_map]
  rw [show Char.utf8Size '{' = 1 from rfl, show utf8Bytes ['}'] = 1 from rfl, show utf8Bytes [','] = 1 from rfl]
  omega

section

variable (name : Text) (value : Json) (members : List (Text × Json))

include name value members

theorem length_setMember :
    members.length ≤ (setMember name value members).length ∧ (setMember name value members).length ≤ members.length + 1 ∧
      1 ≤ (setMember name value members).length := by
  induction members with
  | nil => simp [setMember]
  | cons member rest ih =>
    rw [setMember]
    split
    · simp
    · simp only [List.length_cons]
      omega

theorem sum_setMember :
    ((setMember name value members).map (memberBytes number)).sum ≤
      (members.map (memberBytes number)).sum + memberBytes number (name, value) := by
  induction members with
  | nil => simp [setMember]
  | cons member rest ih =>
    rw [setMember]
    split
    · simp only [List.map_cons, List.sum_cons]
      omega
    · simp only [List.map_cons, List.sum_cons]
      omega

theorem setMember_bytes :
    utf8Bytes (stringify number (.object (setMember name value members))) ≤
      utf8Bytes (stringify number (.object members)) + memberBytes number (name, value) + 1 := by
  have sum := sum_setMember number name value members
  obtain ⟨-, more, -⟩ := length_setMember name value members
  rw [utf8Bytes_object, utf8Bytes_object]
  omega

end

end Json

theorem decimal_natCast (value : Nat) : decimal (value : Int) = Nat.toDigits 10 value := by
  rw [decimal, Int.toString_eq_repr, Int.repr_eq_if]
  simp

theorem utf8Bytes_decimal {value digits : Nat} (some : 0 < digits) (less : value < 10 ^ digits) :
    utf8Bytes (decimal value) ≤ digits := by
  rw [decimal_natCast]
  have ascii : ∀ char ∈ Nat.toDigits 10 value, Char.utf8Size char = 1 := by
    intro char member
    have digit := Nat.isDigit_of_mem_toDigits (by omega) (by omega) member
    rw [Char.utf8Size_eq_one_iff]
    simp only [Char.isDigit, Bool.and_eq_true, decide_eq_true_eq] at digit
    exact UInt32.le_trans digit.2 (by decide)
  have bytes : utf8Bytes (Nat.toDigits 10 value) = (Nat.toDigits 10 value).length := by
    rw [utf8Bytes, List.map_congr_left ascii]
    simp
  rw [bytes]
  exact (Nat.length_toDigits_le_iff (by omega) some).mpr less

end LoginomDock
