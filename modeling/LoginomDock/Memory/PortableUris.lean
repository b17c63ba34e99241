import LoginomDock.Library.Checked
import LoginomDock.Library.Sha256
import Mathlib.Data.List.DropRight

/-! `generate_uri`: a URI template becomes a URI whose segments can be path components on every system. -/

namespace LoginomDock.Memory

open List

-- A Python string by its code points, lone surrogates among them
abbrev Str := List Nat

def str (text : String) : Str := text.toList.map Char.toNat

-- `str.upper` of one character, the first 16 digits of the digest, and the classes `\w` and `\s`
structure Python where
  upper : Nat → Str
  digest : Str → Str
  isWord : Nat → Bool
  isSpace : Nat → Bool
  upper_kept : ∀ char ∈ str "_~", upper char = [char]
  digest_hex : ∀ text, ∀ digit ∈ digest text, digit ∈ str "0123456789abcdef"
  digest_length : ∀ text, (digest text).length = 16

inductive UriError (ε : Type) where
  /-- `ValueError` -/
  | value (message : Str)
  | rendering (error : ε)

def dot : Nat := 46

def slash : Nat := 47

def underscore : Nat := 95

def marker : Str := str "~ov~"

def isInvalid (char : Nat) : Bool := char ∈ str "<>:\"\\|?*" || char < 32 || char = 127 || (0xD800 ≤ char && char ≤ 0xDFFF)

def reservedStems : List Str :=
  ["CON", "PRN", "AUX", "NUL", "COM1", "COM2", "COM3", "COM4", "COM5", "COM6", "COM7", "COM8", "COM9",
    "LPT1", "LPT2", "LPT3", "LPT4", "LPT5", "LPT6", "LPT7", "LPT8", "LPT9"].map str

/-- `segment.rstrip(" .")` -/
def stripEnd (segment : Str) : Str := segment.rdropWhile fun char => char ∈ str " ."

-- `stem.rstrip(" .") or "_"`
def strippedStem (stem : Str) : Str := if stripEnd stem = [] then [underscore] else stripEnd stem

section Segments

variable (python : Python)

section

variable (segment : Str)

def reservedStem : Str := (stripEnd (segment.takeWhile (· ≠ dot))).flatMap python.upper

def isReserved : Bool := reservedStem python segment ∈ reservedStems

def isPortable : Bool :=
  segment ∉ [[], [dot], [dot, dot]] && segment.getLast?.all (· ∉ str " .") && !decide (marker <:+: segment) &&
    !segment.any isInvalid && !isReserved python segment

/-- `segment.rpartition(".")` where there is a dot -/
def splitSafeExtension : Str × Str :=
  let stem := (segment.rdropWhile (· ≠ dot)).dropLast
  let extension := segment.rtakeWhile (· ≠ dot)
  if dot ∉ segment ∨ stem = [] ∨ extension = [] ∨ extension.any isInvalid then (segment, []) else (stem, dot :: extension)

def cleaned : Str :=
  let cleaned := stripEnd (segment.map fun char => if isInvalid char then underscore else char)
  let cleaned := if cleaned ∈ [[], [dot], [dot, dot]] then [underscore] else cleaned
  if isReserved python cleaned then underscore :: cleaned else cleaned

def portableSegment : Str :=
  if isPortable python segment then segment
  else
    let (stem, extension) := splitSafeExtension (cleaned python segment)
    strippedStem stem ++ (marker ++ (python.digest segment ++ extension))

end

end Segments

section Templates

variable {ε V : Type} (python : Python)

def matchVariable (text : Str) : Option (Str × Str) :=
  let rest := (text.drop 2).dropWhile python.isSpace
  let name := rest.takeWhile python.isWord
  let rest := (rest.dropWhile python.isWord).dropWhile python.isSpace
  if text.take 2 = str "\x7b\x7b" ∧ name ≠ [] ∧ rest.take 2 = str "\x7d\x7d" then some (name, rest.drop 2) else none

/-- `re.findall` of the variables, `fuel` characters long -/
def findVariables : Nat → Str → List Str
  | 0, _ | _, [] => []
  | fuel + 1, char :: rest =>
    match matchVariable python (char :: rest) with
    | some (name, rest) => name :: findVariables fuel rest
    | none => findVariables fuel rest

def isTrusted (template : Str) : Bool :=
  let rest := (template.drop 2).dropWhile python.isSpace
  template.take 2 = str "\x7b\x7b" && rest.take 10 = str "user_space" && (rest.drop 10).dropWhile python.isSpace = str "\x7d\x7d"

/-- `template.partition("://")` -/
def partitionScheme : Str → Option (Str × Str)
  | [] => none
  | char :: rest =>
    if str "://" <+: char :: rest then some ([], rest.drop 2) else (partitionScheme rest).map fun (scheme, path) => (char :: scheme, path)

def schemeOf (template : Str) : Str :=
  match partitionScheme template with
  | some (scheme, _) => scheme ++ str "://"
  | none => []

def segmentTemplates (template : Str) : List Str :=
  let path := match partitionScheme template with
    | some (_, path) => path
    | none => template
  if path = [] then [] else path.splitOn slash

-- `rendered.replace("/", "_")`
def single (rendered : Str) : Str := rendered.map fun char => if char = slash then underscore else char

def segmentsOf (template rendered : Str) : List Str := if isTrusted python template then rendered.splitOn slash else [single rendered]

section

variable (render : Str → Except ε Str) (template : Str)

def renderSegment : Except (UriError ε) (List Str) :=
  match render template with
  | .error error => .error (.rendering error)
  | .ok rendered => .ok (segmentsOf python template rendered)

def renderPortableUriTemplate : Except (UriError ε) Str := do
  let segments ← (segmentTemplates template).mapM (renderSegment python render)
  return schemeOf template ++ [slash].intercalate (segments.flatten.map (portableSegment python))

end

def uriTemplate (directory filename : Str) : Str :=
  if directory ≠ [] ∧ filename ≠ [] then directory.rdropWhile (· = slash) ++ slash :: filename.dropWhile (· = slash)
  else if directory ≠ [] then directory else filename

-- A field may be there and be `None`.
def context (fields : List (Str × Option V)) (userSpace : V) (name : Str) : Option (Option V) :=
  if name = str "user_space" then some (some userSpace) else fields.lookup name

def checkVariable (context : Str → Option (Option V)) (name : Str) : Except (UriError ε) Unit :=
  match context name with
  | none => .error (.value (str "Missing template variable: " ++ name))
  | some none => .error (.value (str "Template variable '" ++ name ++ str "' has None value"))
  | some (some _) => .ok ()

def generateUri (render : (Str → Option (Option V)) → Str → Except ε Str) (directory filename : Str) (fields : List (Str × Option V))
    (userSpace : V) : Except (UriError ε) Str := do
  let template := uriTemplate directory filename
  let context := context fields userSpace
  let _ ← (findVariables python template.length template).mapM (checkVariable context)
  renderPortableUriTemplate python (render context) template

end Templates

section Safety

variable {python : Python} {segment : Str}

abbrev Clean (segment : Str) : Prop := ∀ char ∈ segment, char ≠ slash ∧ isInvalid char = false

abbrev Ended (segment : Str) : Prop := ∀ char ∈ segment.getLast?, char ∉ str " ."

-- A component that every system takes
structure Valid (python : Python) (segment : Str) : Prop where
  named : segment ∉ [[], [dot], [dot, dot]]
  clean : Clean segment
  ended : Ended segment
  free : isReserved python segment = false

theorem clean_append_iff {first second : Str} : Clean (first ++ second) ↔ Clean first ∧ Clean second := forall_mem_append

theorem ended_append_iff {first second : Str} (filled : second ≠ []) : Ended (first ++ second) ↔ Ended second := by
  rw [Ended, Ended, getLast?_append_of_ne_nil _ filled]

theorem Valid.filled (valid : Valid python segment) : segment ≠ [] := by
  rintro rfl
  exact valid.named (by simp)

theorem Valid.of (filled : segment ≠ []) (clean : Clean segment) (ended : Ended segment) (free : isReserved python segment = false) :
    Valid python segment := by
  refine ⟨?_, clean, ended, free⟩
  simp only [mem_cons, not_mem_nil, or_false]
  rintro (rfl | rfl | rfl)
  · exact filled rfl
  · exact ended dot rfl (by decide)
  · exact ended dot rfl (by decide)

theorem valid_of_isPortable (portable : isPortable python segment = true) (alone : slash ∉ segment) : Valid python segment := by
  simp only [isPortable, Bool.and_eq_true, Bool.not_eq_true', decide_eq_true_eq, any_eq_false, Option.all_eq_true] at portable
  obtain ⟨⟨⟨⟨named, ended⟩, -⟩, clean⟩, free⟩ := portable
  exact ⟨named, fun char inside => ⟨fun same => alone (same ▸ inside), by simpa using clean char inside⟩,
    fun char last => by simpa using ended char last, free⟩

theorem stripEnd_front (text : Str) : stripEnd text <+: text := List.rdropWhile_prefix _ _

theorem mem_stripEnd {char : Nat} (kept : char ∉ str " .") {text : Str} (inside : char ∈ text) : char ∈ stripEnd text := by
  have whole : stripEnd text ++ text.rtakeWhile (fun char => char ∈ str " .") = text := rdropWhile_append_rtakeWhile
  rw [← whole] at inside
  refine (mem_append.mp inside).resolve_right fun blank => kept ?_
  simpa using mem_rtakeWhile_imp blank

theorem ended_stripEnd : Ended (stripEnd segment) := by
  intro char last
  have some : stripEnd segment ≠ [] := by
    intro blank
    rw [blank] at last
    cases last
  rw [getLast?_eq_getLast_of_ne_nil some, Option.mem_some_iff] at last
  have kept : ¬ decide ((stripEnd segment).getLast some ∈ str " .") = true := rdropWhile_last_not _ _ some
  rw [← last]
  simpa using kept

-- No device has an underscore or a tilde in its name.
theorem isReserved_false {char : Nat} (kept : char ∈ str "_~") (inside : char ∈ segment.takeWhile (· ≠ dot)) :
    isReserved python segment = false := by
  have none : ∀ stem ∈ reservedStems, ∀ char ∈ str "_~", char ∉ stem := by decide
  have printed : ∀ char ∈ str "_~", char ∉ str " ." := by decide
  rw [isReserved, decide_eq_false_iff_not]
  intro reserved
  refine none _ reserved char kept (mem_flatMap.mpr ⟨char, mem_stripEnd (printed char kept) inside, ?_⟩)
  simp [python.upper_kept char kept]

theorem isReserved_append {text : Str} (inside : dot ∈ text) (more : Str) : isReserved python (text ++ more) = isReserved python text := by
  obtain ⟨front, rest, rfl, undotted⟩ := eq_append_cons_of_mem inside
  have first : ∀ tail : Str, (front ++ dot :: tail).takeWhile (· ≠ dot) = front := fun tail => by
    rw [takeWhile_append_of_pos fun char inside => by simpa using ne_of_mem_of_not_mem inside undotted,
      takeWhile_cons_of_neg (by simp), append_nil]
  rw [isReserved, isReserved, reservedStem, reservedStem, append_assoc, cons_append, first, first]

theorem valid_cleaned (alone : slash ∉ segment) : Valid python (cleaned python segment) := by
  have plain : Clean (stripEnd (segment.map fun char => if isInvalid char then underscore else char)) := by
    intro char inside
    obtain ⟨old, there, rfl⟩ := mem_map.mp ((stripEnd_front _).subset inside)
    split
    · decide
    next fine => exact ⟨fun same => alone (same ▸ there), by simpa using fine⟩
  have named : ∃ whole, whole ≠ [] ∧ Clean whole ∧ Ended whole ∧
      cleaned python segment = if isReserved python whole then underscore :: whole else whole := by
    rw [cleaned]
    split
    next => exact ⟨[underscore], by simp, by decide, by decide, rfl⟩
    next usual => exact ⟨_, fun blank => usual (by simp [blank]), plain, ended_stripEnd, rfl⟩
  obtain ⟨whole, filled, clean, ended, same⟩ := named
  rw [same]
  cases reserved : isReserved python whole with
  | false => exact .of filled clean ended reserved
  | true =>
    have free : isReserved python ([underscore] ++ whole) = false :=
      @isReserved_false _ _ underscore (by decide) (by simp [underscore, dot])
    rw [if_pos rfl]
    change Valid python ([underscore] ++ whole)
    exact .of (by simp) (clean_append_iff.mpr ⟨by decide, clean⟩) ((ended_append_iff filled).mpr ended) free

-- What a rewritten segment consists of, beside the marker and the digest
structure Parts (python : Python) (body extension : Str) : Prop where
  filled : body ≠ []
  clean : Clean (body ++ extension)
  free : dot ∈ body → isReserved python body = false
  shape : extension = [] ∧ dot ∉ body.tail ∨ ∃ rest, extension = dot :: rest ∧ dot ∉ rest
  ended : Ended extension

-- The dot that ends nothing is the first character or none.
theorem split_spec {whole : Str} (known : Valid python whole) :
    (splitSafeExtension whole = (whole, []) ∧ dot ∉ whole.tail) ∨
      ∃ stem rest, splitSafeExtension whole = (stem, dot :: rest) ∧ whole = stem ++ dot :: rest ∧ dot ∉ rest ∧ rest ≠ [] := by
  by_cases dotted : dot ∈ whole
  · have front : whole.rdropWhile (· ≠ dot) ≠ [] := by
      intro blank
      simpa using rdropWhile_eq_nil_iff.mp blank dot dotted
    have last : (whole.rdropWhile (· ≠ dot)).getLast front = dot := by simpa using rdropWhile_last_not _ _ front
    have parted : whole = (whole.rdropWhile (· ≠ dot)).dropLast ++ dot :: whole.rtakeWhile (· ≠ dot) := by
      conv_lhs => rw [← rdropWhile_append_rtakeWhile (p := (· ≠ dot)) (l := whole), ← dropLast_append_getLast front, last]
      simp
    have undotted : dot ∉ whole.rtakeWhile (· ≠ dot) := fun inside => by simpa using mem_rtakeWhile_imp inside
    rw [splitSafeExtension]
    generalize (whole.rdropWhile (· ≠ dot)).dropLast = stem at *
    generalize whole.rtakeWhile (· ≠ dot) = rest at *
    have filled : rest ≠ [] := by
      rintro rfl
      exact absurd (known.ended dot (by simp [parted])) (by decide)
    have fine : rest.any isInvalid = false := by
      refine any_eq_false.mpr fun char inside => ?_
      simp [(known.clean char (by simp [parted, inside])).2]
    by_cases bare : stem = []
    · rw [if_pos (.inr (.inl bare))]
      refine .inl ⟨rfl, ?_⟩
      rw [parted, bare]
      exact undotted
    · rw [if_neg (by simp [dotted, bare, filled, fine])]
      exact .inr ⟨stem, rest, rfl, parted, undotted, filled⟩
  · exact .inl ⟨by rw [splitSafeExtension, if_pos (.inl dotted)], fun inside => dotted (mem_of_mem_tail inside)⟩

theorem rewritten_parts (alone : slash ∉ segment) (rewritten : isPortable python segment = false) :
    ∃ body extension, portableSegment python segment = body ++ (marker ++ (python.digest segment ++ extension)) ∧ Parts python body extension := by
  have known := @valid_cleaned python segment alone
  rw [portableSegment, if_neg (by simp [rewritten])]
  rcases split_spec known with ⟨same, undotted⟩ | ⟨stem, rest, same, whole, last, some⟩
  · have kept : strippedStem (cleaned python segment) = cleaned python segment := by
      have unstripped : stripEnd (cleaned python segment) = cleaned python segment := by
        refine rdropWhile_eq_self_iff.mpr fun filled => ?_
        simpa using known.ended _ (getLast?_eq_getLast_of_ne_nil filled)
      rw [strippedStem, unstripped, if_neg known.filled]
    rw [same]
    refine ⟨_, [], rfl, ?_⟩
    rw [kept]
    exact {
      filled := known.filled
      clean := by simpa using known.clean
      free := fun _ => known.free
      shape := .inl ⟨rfl, undotted⟩
      ended := nofun }
  · rw [same]
    refine ⟨_, _, rfl, ?_⟩
    have stripped : strippedStem stem = [underscore] ∨ strippedStem stem = stripEnd stem ∧ stripEnd stem ≠ [] := by
      rw [strippedStem]
      split
      next => exact .inl rfl
      next filled => exact .inr ⟨rfl, filled⟩
    exact {
      filled := by rcases stripped with same | ⟨same, filled⟩ <;> simp_all
      clean := by
        obtain ⟨front, back⟩ := clean_append_iff.mp (whole ▸ known.clean)
        refine clean_append_iff.mpr ⟨?_, back⟩
        rcases stripped with same | ⟨same, -⟩ <;> rw [same]
        · decide
        · exact fun char inside => front char ((stripEnd_front stem).subset inside)
      free := by
        intro inside
        rcases stripped with same | ⟨same, -⟩
        · rw [same] at inside
          exact absurd inside (by decide)
        · rw [same] at inside ⊢
          obtain ⟨blanks, front⟩ := stripEnd_front stem
          rw [← isReserved_append inside (blanks ++ dot :: rest), ← append_assoc, front, ← whole]
          exact known.free
      shape := .inr ⟨rest, rfl, last⟩
      ended := (ended_append_iff (by simp)).mp (whole ▸ known.ended) }

theorem valid_rewritten {body extension : Str} (parts : Parts python body extension) :
    Valid python (body ++ (marker ++ (python.digest segment ++ extension))) := by
  refine .of (by simp [parts.filled]) ?_ ?_ ?_
  · obtain ⟨front, back⟩ := clean_append_iff.mp parts.clean
    have hex : Clean (str "0123456789abcdef") := by decide
    have digits : Clean (python.digest segment) := fun char inside => hex char (python.digest_hex _ char inside)
    simp only [clean_append_iff]
    exact ⟨front, by decide, digits, back⟩
  · have hex : ∀ char ∈ str "0123456789abcdef", char ∉ str " ." := by decide
    have filled : python.digest segment ≠ [] := fun blank => by simpa [blank] using python.digest_length segment
    rw [ended_append_iff (by simp [filled]), ended_append_iff (by simp [filled])]
    by_cases bare : extension = []
    · rw [bare, append_nil]
      exact fun char last => hex char (python.digest_hex _ char (mem_of_getLast? last))
    · rw [ended_append_iff bare]
      exact parts.ended
  · by_cases dotted : dot ∈ body
    · rw [isReserved_append dotted]
      exact parts.free dotted
    · refine @isReserved_false _ _ 126 (by decide) ?_
      rw [takeWhile_append_of_pos fun char inside => by simpa using ne_of_mem_of_not_mem inside dotted]
      simp [marker, str, dot]

theorem portableSegment_valid (alone : slash ∉ segment) : Valid python (portableSegment python segment) := by
  cases portable : isPortable python segment with
  | true =>
    rw [portableSegment, if_pos portable]
    exact valid_of_isPortable portable alone
  | false =>
    obtain ⟨body, extension, same, parts⟩ := rewritten_parts alone portable
    rw [same]
    exact valid_rewritten parts

section Distinct

variable {first second body extension otherBody otherExtension : Str}

theorem dot_mem_tail (parts : Parts python body extension) :
    dot ∈ (body ++ (marker ++ (python.digest first ++ extension))).tail ↔ extension ≠ [] := by
  rw [tail_append_of_ne_nil parts.filled]
  rcases parts.shape with ⟨rfl, undotted⟩ | ⟨rest, rfl, -⟩
  · have plain : dot ∉ python.digest first := fun inside => absurd (python.digest_hex _ _ inside) (by decide)
    simpa [undotted, plain] using show dot ∉ marker by decide
  · simp

theorem digest_eq (parts : Parts python body extension) (other : Parts python otherBody otherExtension)
    (same : body ++ (marker ++ (python.digest first ++ extension)) = otherBody ++ (marker ++ (python.digest second ++ otherExtension))) :
    python.digest first = python.digest second := by
  have ended : ∀ {front others : Str}, front ++ python.digest first = others ++ python.digest second → python.digest first = python.digest second :=
    fun same => (append_inj' same (by rw [python.digest_length, python.digest_length])).2
  have alike : extension ≠ [] ↔ otherExtension ≠ [] := by rw [← dot_mem_tail parts, same, dot_mem_tail other]
  rcases parts.shape with ⟨rfl, -⟩ | ⟨rest, rfl, undotted⟩
  · obtain rfl : otherExtension = [] := by simpa using alike
    exact @ended (body ++ marker) (otherBody ++ marker) (by simpa using same)
  · rcases other.shape with ⟨rfl, -⟩ | ⟨otherRest, rfl, otherUndotted⟩
    · simp at alike
    · have fronts : body ++ marker ++ python.digest first = otherBody ++ marker ++ python.digest second :=
        (Text.cut_last undotted otherUndotted (by simpa using same)).1
      exact ended fronts

theorem marked (portable : isPortable python first = true) : ¬ marker <:+: first := by
  simp only [isPortable, Bool.and_eq_true, Bool.not_eq_true', decide_eq_false_iff_not] at portable
  exact portable.1.1.2

theorem portableSegment_injective (aloneFirst : slash ∉ first) (aloneSecond : slash ∉ second)
    (prefixes : python.digest first = python.digest second → first = second) (same : portableSegment python first = portableSegment python second) :
    first = second := by
  have apart : ∀ {kept rewritten : Str}, slash ∉ rewritten → isPortable python kept = true → isPortable python rewritten = false →
      portableSegment python kept ≠ portableSegment python rewritten := by
    intro kept rewritten alone portable not same
    obtain ⟨body, extension, form, -⟩ := rewritten_parts alone not
    rw [portableSegment, if_pos portable, form] at same
    exact marked portable ⟨body, _, by rw [same, append_assoc]⟩
  cases one : isPortable python first <;> cases two : isPortable python second
  case false.false =>
    obtain ⟨body, extension, form, parts⟩ := rewritten_parts aloneFirst one
    obtain ⟨otherBody, otherExtension, otherForm, other⟩ := rewritten_parts aloneSecond two
    rw [form, otherForm] at same
    exact prefixes (digest_eq parts other same)
  case false.true => exact absurd same.symm (apart aloneFirst two one)
  case true.false => exact absurd same (apart aloneSecond one two)
  case true.true => rwa [portableSegment, if_pos one, portableSegment, if_pos two] at same

end Distinct

end Safety

section Generation

variable {ε V : Type} {python : Python}

theorem slash_not_mem_single (rendered : Str) : slash ∉ single rendered := by
  intro inside
  obtain ⟨char, -, same⟩ := mem_map.mp inside
  split at same
  · exact absurd same (by decide)
  next other => exact other same

theorem segmentsOf_valid (template rendered : Str) :
    ∀ segment ∈ (segmentsOf python template rendered).map (portableSegment python), Valid python segment := by
  intro segment inside
  obtain ⟨raw, there, rfl⟩ := mem_map.mp inside
  refine portableSegment_valid ?_
  rw [segmentsOf] at there
  split at there
  · exact Text.not_mem_of_mem_splitOn there
  · rw [mem_singleton.mp there]
    exact slash_not_mem_single rendered

variable (python) in
-- The URI's segments, by the template segment each comes from
def Generated (render : Str → Except ε Str) (template : Str) (segments : List Str) : Prop :=
  (isTrusted python template = false → segments.length = 1) ∧ (∀ segment ∈ segments, Valid python segment) ∧
    ∃ rendered, render template = .ok rendered ∧ segments = (segmentsOf python template rendered).map (portableSegment python)

theorem generated {render : Str → Except ε Str} {template : Str} {raw : List Str} (done : renderSegment python render template = .ok raw) :
    Generated python render template (raw.map (portableSegment python)) := by
  cases rendered : render template with
  | error error =>
    rw [renderSegment, rendered] at done
    cases done
  | ok text =>
    rw [renderSegment, rendered] at done
    cases done
    refine ⟨fun untrusted => ?_, segmentsOf_valid template text, text, rendered, rfl⟩
    simp [segmentsOf, untrusted]

variable (render : (Str → Option (Option V)) → Str → Except ε Str) (directory filename : Str) (fields : List (Str × Option V)) (userSpace : V)

theorem generate_uri_safe :
    (match generateUri python render directory filename fields userSpace with
      | .ok uri =>
        ∃ pieces, Forall₂ (Generated python (render (context fields userSpace))) (segmentTemplates (uriTemplate directory filename)) pieces ∧
          uri = schemeOf (uriTemplate directory filename) ++ [slash].intercalate pieces.flatten
      | .error (.value _) => True
      | .error (.rendering error) =>
        ∃ template ∈ segmentTemplates (uriTemplate directory filename), render (context fields userSpace) template = .error error) ∧
    ∀ first second, (python.digest (single first) = python.digest (single second) → single first = single second) →
      single first ≠ single second → portableSegment python (single first) ≠ portableSegment python (single second) := by
  refine ⟨?_, fun first second prefixes different same => different
    (portableSegment_injective (slash_not_mem_single first) (slash_not_mem_single second) prefixes same)⟩
  split
  next uri done =>
    rw [generateUri] at done
    obtain ⟨-, -, done⟩ := bind_ok_iff.mp done
    obtain ⟨raws, rendered, done⟩ := bind_ok_iff.mp done
    cases done
    refine ⟨raws.map (List.map (portableSegment python)), ?_, by rw [map_flatten]⟩
    exact forall₂_map_right_iff.mpr ((mapM_ok_iff.mp rendered).imp fun _ _ => generated)
  next => trivial
  next error failed =>
    rw [generateUri] at failed
    rcases bind_error_iff.mp failed with checked | ⟨-, -, failed⟩
    · obtain ⟨name, -, raised⟩ := mapM_error checked
      rw [checkVariable] at raised
      split at raised <;> cases raised
    · rcases bind_error_iff.mp failed with rendered | ⟨raws, -, done⟩
      · obtain ⟨template, inside, raised⟩ := mapM_error rendered
        refine ⟨template, inside, ?_⟩
        rw [renderSegment] at raised
        split at raised
        next same =>
          cases raised
          exact same
        next => cases raised
      · cases done

end Generation

def asciiPython : Python where
  upper char := [if 97 ≤ char ∧ char ≤ 122 then char - 32 else char]
  digest text := ((hexdigest (text.map Char.ofNat)).take 16).map Char.toNat
  isWord char := decide (48 ≤ char ∧ char ≤ 57 ∨ 65 ≤ char ∧ char ≤ 90 ∨ char = underscore ∨ 97 ≤ char ∧ char ≤ 122)
  isSpace char := char ∈ [9, 10, 11, 12, 13, 32]
  upper_kept := by decide
  digest_hex := by
    intro text digit inside
    obtain ⟨char, taken, rfl⟩ := mem_map.mp inside
    exact mem_map_of_mem (hexdigest_mem _ char (mem_of_mem_take taken))
  digest_length text := by simp [length_hexdigest]

-- Jinja where no expression is closed
def renderUnclosed (_ : Str → Option (Option Unit)) (template : Str) : Except Str Str :=
  if str "\x7b\x7b" <:+: template ∧ ¬ str "\x7d\x7d" <:+: template then .error (str "unexpected end of template") else .ok template

theorem unclosed_expression_raises :
    generateUri asciiPython renderUnclosed (str "viking://notes") (str "\x7b\x7b a") [] () =
      .error (.rendering (str "unexpected end of template")) := by
  rfl

theorem note_uri_generated :
    (∃ pieces, Forall₂ (Generated asciiPython (renderUnclosed (context [] ()))) [str "notes", str "a.md"] pieces ∧
      str "viking://notes/a.md" = str "viking://" ++ [slash].intercalate pieces.flatten) ∧
    portableSegment asciiPython (single (str "a/b?")) ≠ portableSegment asciiPython (single (str "a*b?")) := by
  have safe := @generate_uri_safe _ _ asciiPython renderUnclosed (str "viking://notes/") (str "a.md") [] ()
  have digests : asciiPython.digest (single (str "a/b?")) ≠ asciiPython.digest (single (str "a*b?")) := by decide
  exact ⟨safe.1, safe.2 (str "a/b?") (str "a*b?") (fun same => absurd same digests) (by decide)⟩

end LoginomDock.Memory
