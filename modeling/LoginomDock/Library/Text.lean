import Mathlib.Algebra.Order.Ring.Int
import Mathlib.Data.Char
import Mathlib.Data.List.Infix
import Mathlib.Data.List.Lex

/-! Strings are lists of characters. `components` splits a path at every slash, as `str::split('/')` does, and `joined`
puts components back together. -/

namespace LoginomDock

open List

abbrev Text := List Char

instance : LawfulBEq Text := inferInstance

instance : LawfulBEq (List Text) := inferInstance

instance : Coe String Text := ⟨String.toList⟩

namespace Text

def components (path : Text) : List Text := path.splitOn '/'

def joined (parts : List Text) : Text := ['/'].intercalate parts

def IsName (name : Text) : Prop := name ≠ [] ∧ '/' ∉ name

instance (name : Text) : Decidable (IsName name) := inferInstanceAs (Decidable (_ ∧ _))

def IsPath (parts : List Text) : Prop := parts ≠ [] ∧ ∀ part ∈ parts, IsName part

instance (parts : List Text) : Decidable (IsPath parts) := inferInstanceAs (Decidable (_ ∧ _))

@[simp] theorem joined_components (path : Text) : joined (components path) = path :=
  intercalate_splitOn '/'

variable {parts : List Text}

theorem components_joined (valid : IsPath parts) :
    components (joined parts) = parts :=
  splitOn_intercalate '/' (fun part member => (valid.2 part member).2) valid.1

variable {first second : List Text}

theorem joined_injective (validFirst : IsPath first)
    (validSecond : IsPath second) (same : joined first = joined second) : first = second := by
  rw [← components_joined validFirst, ← components_joined validSecond, same]

theorem components_ne_nil (path : Text) : components path ≠ [] := splitOn_ne_nil _ _

theorem not_mem_of_mem_splitOn {α : Type} [DecidableEq α] {separator : α} {text piece : List α}
    (member : piece ∈ text.splitOn separator) : separator ∉ piece := by
  induction text generalizing piece with
  | nil =>
    rw [mem_singleton.mp member]
    simp
  | cons char rest ih =>
    rw [splitOn_cons_eq_if_modifyHead] at member
    rcases split : rest.splitOn separator with _ | ⟨first, others⟩
    · exact absurd split (splitOn_ne_nil _ _)
    · have inner : ∀ other ∈ first :: others, separator ∉ other := fun other inside => ih (by rw [split]; exact inside)
      by_cases same : char = separator
      · rw [if_pos (by simpa using same), split] at member
        rcases mem_cons.mp member with rfl | later
        · simp
        · exact inner piece later
      · rw [if_neg (by simpa using same), split] at member
        rcases mem_cons.mp member with rfl | later
        · simpa [Ne.symm same] using inner first (by simp)
        · exact inner piece (by simp [later])

theorem slash_not_mem_component {path part : Text} (member : part ∈ components path) : '/' ∉ part := not_mem_of_mem_splitOn member

theorem isPath_components {path : Text} (noneEmpty : [] ∉ components path) : IsPath (components path) :=
  ⟨components_ne_nil path, fun _ member =>
    ⟨fun empty => noneEmpty (empty ▸ member), slash_not_mem_component member⟩⟩

@[simp] theorem joined_singleton (name : Text) : joined [name] = name :=
  intercalate_singleton

theorem components_name {name : Text} (isName : IsName name) : components name = [name] := by
  have split := components_joined (show IsPath [name] from ⟨by simp, by simpa using isName⟩)
  rwa [joined_singleton] at split

theorem joined_cons {name : Text} {rest : List Text} (more : rest ≠ []) :
    joined (name :: rest) = name ++ '/' :: joined rest := by
  simp [joined, intercalate_cons_of_ne_nil more]

theorem joined_append (someFirst : first ≠ [])
    (someSecond : second ≠ []) : joined (first ++ second) = joined first ++ '/' :: joined second := by
  induction first with
  | nil => exact absurd rfl someFirst
  | cons name rest ih =>
    by_cases last : rest = []
    · subst last
      simp [joined_cons someSecond]
    · have more : rest ++ second ≠ [] := by simp [last]
      rw [cons_append, joined_cons more, ih last, joined_cons last]
      simp

theorem slash_prefix_joined (validFirst : IsPath first)
    (validSecond : IsPath second) :
    (joined first ++ ['/']) <+: joined second ↔ first <+: second ∧ first ≠ second := by
  constructor
  · rintro ⟨tail, same⟩
    have split : components (joined second) = first ++ components tail := by
      rw [← same, append_assoc]
      change List.splitOn '/' (joined first ++ '/' :: tail) = _
      rw [splitOn_append_cons_self]
      congr 1
      exact components_joined validFirst
    rw [components_joined validSecond] at split
    refine ⟨⟨_, split.symm⟩, ?_⟩
    intro equal
    rw [equal] at split
    exact components_ne_nil tail (by simpa using split.symm)
  · rintro ⟨⟨rest, rfl⟩, different⟩
    have more : rest ≠ [] := by
      rintro rfl
      simp at different
    refine ⟨joined rest, ?_⟩
    rw [joined_append validFirst.1 more]
    simp

def IsNames (parts : List Text) : Prop := ∀ part ∈ parts, IsName part

instance (parts : List Text) : Decidable (IsNames parts) := inferInstanceAs (Decidable (∀ part ∈ parts, _))

-- The absolute path with the given components. Without components it is the root.
def absolute (parts : List Text) : Text := '/' :: joined parts

def dirPrefix (path : Text) : Text := if path = ['/'] then ['/'] else path ++ ['/']

@[simp] theorem joined_nil : joined [] = [] := rfl

@[simp] theorem absolute_nil : absolute [] = ['/'] := rfl

theorem joined_ne_nil (names : IsNames parts) (some : parts ≠ []) : joined parts ≠ [] := by
  cases parts with
  | nil => exact absurd rfl some
  | cons name rest =>
    have filled := (names name (by simp)).1
    by_cases last : rest = []
    · simpa [last] using filled
    · simp [joined_cons last]

theorem absolute_eq_root (names : IsNames parts) : absolute parts = ['/'] ↔ parts = [] := by
  constructor
  · intro root
    by_contra more
    exact joined_ne_nil names more (List.cons.inj root).2
  · rintro rfl
    rfl

theorem absolute_injective (namesFirst : IsNames first)
    (namesSecond : IsNames second) (same : absolute first = absolute second) : first = second := by
  by_cases none : second = []
  · subst none
    exact (absolute_eq_root namesFirst).mp same
  · have more : first ≠ [] := by
      rintro rfl
      exact none ((absolute_eq_root namesSecond).mp same.symm)
    exact joined_injective ⟨more, namesFirst⟩ ⟨none, namesSecond⟩ (List.cons.inj same).2

theorem absolute_inj (namesFirst : IsNames first) (namesSecond : IsNames second) :
    absolute first = absolute second ↔ first = second :=
  ⟨absolute_injective namesFirst namesSecond, fun same => same ▸ rfl⟩

theorem components_absolute (valid : IsPath parts) :
    components (absolute parts) = [] :: parts := by
  have split := splitOn_append_cons_self ([] : Text) (joined parts) (a := '/')
  rw [absolute, components, ← nil_append ('/' :: joined parts), split]
  exact congrArg ([] :: ·) (components_joined valid)

theorem absolute_append (namesFirst : IsNames first) (more : second ≠ []) :
    absolute (first ++ second) = dirPrefix (absolute first) ++ joined second := by
  by_cases root : first = []
  · simp [root, dirPrefix, absolute]
  · rw [dirPrefix, if_neg (mt (absolute_eq_root namesFirst).mp root)]
    simp [absolute, joined_append root more]

theorem dirPrefix_prefix_absolute (namesFirst : IsNames first)
    (namesSecond : IsNames second) (different : second ≠ first) :
    dirPrefix (absolute first) <+: absolute second ↔ first <+: second := by
  constructor
  · intro starts
    by_cases root : first = []
    · simp [root]
    · rw [dirPrefix, if_neg (mt (absolute_eq_root namesFirst).mp root)] at starts
      have below : (joined first ++ ['/']) <+: joined second := by
        simpa [absolute] using starts
      have more : second ≠ [] := by
        rintro rfl
        simp at below
      exact ((slash_prefix_joined ⟨root, namesFirst⟩ ⟨more, namesSecond⟩).mp below).1
  · rintro ⟨rest, rfl⟩
    have more : rest ≠ [] := by
      rintro rfl
      simp at different
    rw [absolute_append namesFirst more]
    exact prefix_append _ _

theorem IsNames.append {first second : List Text} (namesFirst : IsNames first) (namesSecond : IsNames second) :
    IsNames (first ++ second) := by
  intro part member
  rcases mem_append.mp member with left | right
  · exact namesFirst part left
  · exact namesSecond part right

theorem IsNames.of_append (names : IsNames (first ++ second)) :
    IsNames first ∧ IsNames second :=
  ⟨fun part member => names part (by simp [member]), fun part member => names part (by simp [member])⟩

theorem cut_last {α : Type} {separator : α} {first second firstTail secondTail : List α} (notFirst : separator ∉ firstTail)
    (notSecond : separator ∉ secondTail) (same : first ++ separator :: firstTail = second ++ separator :: secondTail) :
    first = second ∧ firstTail = secondTail := by
  rcases append_eq_append_iff.mp same with ⟨between, rfl, rest⟩ | ⟨between, rfl, rest⟩
  · cases between with
    | nil => simpa using rest
    | cons char between =>
      obtain ⟨-, rfl⟩ := List.cons.inj rest
      simp at notFirst
  · cases between with
    | nil => simpa using rest.symm
    | cons char between =>
      obtain ⟨-, rfl⟩ := List.cons.inj rest
      simp at notSecond

theorem bounds_of_alphanum {char : Char} {others : List Char} (known : (char.isAlphanum || char ∈ others) = true)
    (near : ∀ other ∈ others, 45 ≤ other.toNat ∧ other.toNat ≤ 122) : 45 ≤ char.toNat ∧ char.toNat ≤ 122 := by
  have point : char.toNat = char.val.toNat := rfl
  unfold Char.isAlphanum Char.isAlpha Char.isUpper Char.isLower Char.isDigit at known
  simp only [Bool.or_eq_true, Bool.and_eq_true, decide_eq_true_eq, UInt32.le_iff_toNat_le, ge_iff_le] at known
  rcases known with letters | special
  · have a : 'A'.val.toNat = 65 := rfl
    have z : 'Z'.val.toNat = 90 := rfl
    have a' : 'a'.val.toNat = 97 := rfl
    have z' : 'z'.val.toNat = 122 := rfl
    have zero : '0'.val.toNat = 48 := rfl
    have nine : '9'.val.toNat = 57 := rfl
    omega
  · exact near char special

/-- Where `str.splitlines` ends a line. -/
def isLineBreak (char : Char) : Bool := char.toNat ∈ [10, 11, 12, 13, 28, 29, 30, 133, 8232, 8233]

/-- `str.splitlines(keepends=True)` -/
def splitLines : Text → List Text
  | [] => []
  | '\r' :: '\n' :: rest => ['\r', '\n'] :: splitLines rest
  | char :: rest =>
    if isLineBreak char then [char] :: splitLines rest
    else match splitLines rest with
      | [] => [[char]]
      | line :: lines => (char :: line) :: lines

theorem flatten_splitLines (text : Text) : (splitLines text).flatten = text := by
  induction text using splitLines.induct with
  | case1 => rfl
  | case2 rest ih => rw [splitLines, flatten_cons, ih]; rfl
  | case3 char rest pair breaks ih =>
    rw [splitLines.eq_3 _ _ pair, if_pos breaks, flatten_cons, ih]
    rfl
  | case4 char rest pair inside ended ih =>
    rw [splitLines.eq_3 _ _ pair, if_neg inside, ended]
    rw [ended] at ih
    rw [← ih]
    rfl
  | case5 char rest pair inside line lines more ih =>
    rw [splitLines.eq_3 _ _ pair, if_neg inside, more]
    rw [more] at ih
    rw [← ih]
    rfl

theorem splitLines_append (first second : Text) :
    splitLines (first ++ '\n' :: second) = splitLines (first ++ ['\n']) ++ splitLines second := by
  have ended : ∀ (char : Char) (rest : Text), ¬ (char = '\r' ∧ rest = []) → (∀ tail, char = '\r' → rest = '\n' :: tail → False) →
      splitLines (rest ++ '\n' :: second) = splitLines (rest ++ ['\n']) ++ splitLines second →
      splitLines (char :: (rest ++ '\n' :: second)) = splitLines (char :: (rest ++ ['\n'])) ++ splitLines second := by
    intro char rest joins alone ih
    have apart : ∀ last tail : Text, char = '\r' → rest ++ '\n' :: last = '\n' :: tail → False := by
      intro last tail same starts
      cases rest with
      | nil => exact joins ⟨same, rfl⟩
      | cons next rest =>
        obtain ⟨rfl, -⟩ := List.cons.inj starts
        exact alone rest same rfl
    rw [splitLines.eq_3 _ _ (apart second), splitLines.eq_3 _ _ (apart []), ih]
    by_cases breaks : isLineBreak char = true
    · simp only [if_pos breaks, cons_append]
    · simp only [if_neg breaks]
      cases lines : splitLines (rest ++ ['\n']) with
      | nil =>
        have whole := flatten_splitLines (rest ++ ['\n'])
        rw [lines] at whole
        simp at whole
      | cons line lines => rfl
  induction first using splitLines.induct with
  | case1 => rw [nil_append, nil_append, splitLines.eq_3 _ _ (by simp)]; rfl
  | case2 rest ih =>
    rw [cons_append, cons_append, cons_append, cons_append, splitLines, splitLines, ih, cons_append]
  | case3 char rest alone breaks ih | case4 char rest alone inside none ih | case5 char rest alone inside line lines more ih =>
    by_cases carriage : char = '\r' ∧ rest = []
    · obtain ⟨rfl, rfl⟩ := carriage
      rfl
    · exact ended char rest carriage alone ih

end Text

end LoginomDock
