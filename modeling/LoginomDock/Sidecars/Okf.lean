import LoginomDock.Access.Uris

/-! The two sidecars of a directory, `.abstract.md` and `.overview.md`: metadata in YAML between two delimiters, and a
body. -/

namespace LoginomDock.Sidecars

open Access (strip isSpace scheme)
open List

inductive Failure where
  /-- `AbstractOverviewFormatError` -/
  | format (message : Text)
  /-- `AbstractOverviewMetadataError` -/
  | metadata (message : Text)
  | value (message : Text)
  /-- What the storage or the lock raises -/
  | storage (message : Text)
  deriving DecidableEq

-- What YAML loads. Lists, floats and dates are never looked into.
inductive Yaml where
  | null
  | bool (value : Bool)
  | integer (value : Int)
  | text (content : Text)
  | mapping (fields : List (Text × Yaml))
  | other

abbrev Fields := List (Text × Yaml)

def Fields.get? (fields : Fields) (name : String) : Option Yaml := fields.lookup name.toList

def Fields.set (fields : Fields) (name : String) (value : Yaml) : Fields :=
  if (fields.get? name).isSome then fields.map fun field => if field.1 = name.toList then (field.1, value) else field
  else fields ++ [(name.toList, value)]

def formatError (parts : List String) : Failure := .format (parts.flatMap String.toList)

def normalizeDirectoryUri (dirUri : Text) : Except Failure Text :=
  let value := strip dirUri
  if value = [] then .error (formatError ["abstract overview directory must not be empty"])
  else if !scheme.isPrefixOf value then .error (formatError ["abstract overview directory must be a viking:// URI"])
  else .ok (value.rdropWhile (· = '/') ++ ['/'])

/-- A text that has passed `_bounded_string` -/
abbrev Label (limit : Nat) := { content : Text // strip content = content ∧ content ≠ [] ∧ content.length ≤ limit }

def boundedString (value : Yaml) (field : String) (limit : Nat) : Except Failure (Label limit) :=
  match value with
  | .text content =>
    if filled : strip content = [] then .error (formatError ["abstract overview ", field, " must be a non-empty string"])
    else if short : (strip content).length ≤ limit then .ok ⟨strip content, Access.strip_strip content, filled, short⟩
    else .error (formatError ["abstract overview ", field, " exceeds the ", toString limit, "-character policy limit"])
  | _ => .error (formatError ["abstract overview ", field, " must be a non-empty string"])

structure Freshness where
  total : Nat
  sampled : Nat
  unsampled : Nat
  pending : Nat
  adds : sampled + unsampled = total
  deriving DecidableEq

def maxSourceUriChars : Nat := 4096

def maxLabelChars : Nat := 128

-- Metadata that has passed the schema
structure Metadata where
  directory : Option Text := none
  /-- `kind` and `uri` -/
  source : Option (Label maxLabelChars × Label maxSourceUriChars) := none
  /-- `component` and `trigger` -/
  generatedBy : Option (Label maxLabelChars × Label maxLabelChars) := none
  freshness : Option Freshness := none
  deriving DecidableEq

def Freshness.fields (freshness : Freshness) : Fields :=
  [("total_entries", .integer freshness.total), ("sampled_entries", .integer freshness.sampled),
    ("unsampled_entries", .integer freshness.unsampled), ("pending_child_changes", .integer freshness.pending)]

def labelFields {first second : Nat} (firstName secondName : String) (labels : Label first × Label second) : Fields :=
  [(firstName.toList, .text labels.1.1), (secondName.toList, .text labels.2.1)]

/-- The fields in the order of `_METADATA_ORDER` -/
def Metadata.fields (metadata : Metadata) : Fields :=
  (metadata.directory.map fun directory => ("directory".toList, Yaml.text directory)).toList ++
    (metadata.source.map fun source => ("source".toList, Yaml.mapping (labelFields "kind" "uri" source))).toList ++
    (metadata.generatedBy.map fun by_ => ("generated_by".toList, Yaml.mapping (labelFields "component" "trigger" by_))).toList ++
    (metadata.freshness.map fun freshness => ("freshness".toList, Yaml.mapping freshness.fields)).toList

def labelPair (field firstName secondName : String) (firstLimit secondLimit : Nat) (metadata : Fields) :
    Except Failure (Option (Label firstLimit × Label secondLimit)) :=
  let incomplete := formatError ["abstract overview ", field, " must contain ", firstName, " and ", secondName]
  match metadata.get? field with
  | none | some .null => .ok none
  | some (.mapping inner) =>
    match Fields.get? inner firstName, Fields.get? inner secondName with
    | some first, some second => do
        let first ← boundedString first (field ++ "." ++ firstName) firstLimit
        let second ← boundedString second (field ++ "." ++ secondName) secondLimit
        pure (some (first, second))
    | _, _ => .error incomplete
  | some _ => .error incomplete

def normalizeSource : Fields → Except Failure (Option (Label maxLabelChars × Label maxSourceUriChars)) :=
  labelPair "source" "kind" "uri" maxLabelChars maxSourceUriChars

def normalizeGeneratedBy : Fields → Except Failure (Option (Label maxLabelChars × Label maxLabelChars)) :=
  labelPair "generated_by" "component" "trigger" maxLabelChars maxLabelChars

def counter (freshness : Fields) (field : String) : Except Failure Nat :=
  match freshness.get? field with
  | some (.integer (.ofNat value)) => .ok value
  | _ => .error (formatError ["abstract overview freshness.", field, " must be a non-negative integer"])

def counters (freshness : Fields) : Except Failure Freshness := do
  let total ← counter freshness "total_entries"
  let sampled ← counter freshness "sampled_entries"
  let unsampled ← counter freshness "unsampled_entries"
  let pending ← counter freshness "pending_child_changes"
  if adds : sampled + unsampled = total then pure ⟨total, sampled, unsampled, pending, adds⟩
  else throw (formatError ["abstract overview freshness sampled + unsampled must equal total"])

def counterFields : List String := ["total_entries", "sampled_entries", "unsampled_entries", "pending_child_changes"]

def normalizeFreshness (metadata : Fields) : Except Failure (Option Freshness) :=
  match metadata.get? "freshness" with
  | none | some .null => .ok none
  | some (.mapping inner) =>
    if counterFields.all fun field => (Fields.get? inner field).isSome then (counters inner).map some
    else .error (formatError ["abstract overview freshness has an invalid field set"])
  | some _ => .error (formatError ["abstract overview freshness has an invalid field set"])

-- Of what is not a text, Python's rendering does not start with the scheme.
def normalizeDirectory (metadata : Fields) : Except Failure (Option Text) :=
  match metadata.get? "directory" with
  | none => .ok none
  | some (.text directory) => (normalizeDirectoryUri directory).map some
  | some _ => .error (formatError ["abstract overview directory must be a viking:// URI"])

-- Unknown fields are dropped; the known ones are strict.
def normalizeMetadata (metadata : Fields) : Except Failure Metadata := do
  let directory ← normalizeDirectory metadata
  let source ← normalizeSource metadata
  let generatedBy ← normalizeGeneratedBy metadata
  let freshness ← normalizeFreshness metadata
  pure { directory, source, generatedBy, freshness }

structure Document where
  metadata : Metadata
  body : Text
  legacy : Bool
  deriving DecidableEq

def isDelimiter (line : Text) : Bool := line.rdropWhile (· ∈ ['\r', '\n']) = "---"

/-- The metadata of a frontmatter, as `yaml.safe_load` has loaded it -/
def loadedMetadata (loaded : Except Text Yaml) : Except Failure Metadata :=
  match loaded with
  | .error message => .error (.format ("invalid abstract overview YAML: " ++ message))
  | .ok .null => .error (formatError ["abstract overview frontmatter must contain directory"])
  | .ok (.mapping fields) =>
    if (Fields.get? fields "directory").isNone then
      .error (formatError ["abstract overview frontmatter must contain directory"])
    else normalizeMetadata fields
  | .ok _ => .error (formatError ["abstract overview frontmatter must be a YAML object"])

def frontmatter (dump : Text) : Text := dump.rdropWhile isSpace

structure PyYaml where
  safeLoad : Text → Except Text Yaml
  safeDump : Fields → Text
  load_dump : ∀ (metadata : Metadata) (directory : Text), metadata.directory = some directory →
    normalizeDirectoryUri directory = .ok directory →
    ∃ loaded, loadedMetadata (safeLoad (frontmatter (safeDump metadata.fields) ++ ['\n'])) = .ok loaded ∧
      loaded.freshness = metadata.freshness
  dump_inside : ∀ (metadata : Metadata), metadata.directory ≠ none → ∀ line ∈ Text.splitLines (frontmatter (safeDump metadata.fields) ++ ['\n']),
    isDelimiter line = false

variable (yaml : PyYaml)

def parseAbstractOverview (raw : Text) : Except Failure Document :=
  match Text.splitLines raw with
  | [] => .ok ⟨{}, raw, true⟩
  | first :: lines =>
    if !isDelimiter first then .ok ⟨{}, raw, true⟩
    else match lines.dropWhile fun line => !isDelimiter line with
      | [] => .error (formatError ["abstract overview frontmatter is not closed"])
      | _ :: after => do
          let metadata ← loadedMetadata (yaml.safeLoad (lines.takeWhile fun line => !isDelimiter line).flatten)
          let body := match after.flatten with
            | '\r' :: '\n' :: body => body
            | '\n' :: body => body
            | body => body
          pure ⟨metadata, body, false⟩

-- The level is one of the two that have sidecars, and is not written.
def renderAbstractOverview (dirUri body : Text) (metadata : Fields) : Except Failure Text := do
  let directory ← normalizeDirectoryUri dirUri
  let normalized ← normalizeMetadata (metadata.set "directory" (.text directory))
  pure ("---\n" ++ frontmatter (yaml.safeDump normalized.fields) ++ "\n---\n\n" ++ strip body ++ ['\n'])

theorem Fields.get?_set_self (fields : Fields) (name : String) (value : Yaml) : (fields.set name value).get? name = some value := by
  unfold Fields.set Fields.get?
  split
  next there =>
    induction fields with
    | nil => simp at there
    | cons field rest ih =>
      obtain ⟨key, old⟩ := field
      by_cases same : key = name.toList
      · simp [same]
      · have apart : (name.toList == key) = false := by simpa using Ne.symm same
        rw [lookup_cons, apart] at there
        rw [map_cons, if_neg same, lookup_cons, apart]
        exact ih there
  next missing =>
    have gone : fields.lookup name.toList = none := Option.not_isSome_iff_eq_none.mp missing
    rw [lookup_append, gone]
    simp

theorem Fields.get?_set_ne (fields : Fields) {name other : String} (value : Yaml) (different : other.toList ≠ name.toList) :
    (fields.set name value).get? other = fields.get? other := by
  unfold Fields.set Fields.get?
  split
  next there =>
    clear there
    induction fields with
    | nil => rfl
    | cons field rest ih =>
      obtain ⟨key, old⟩ := field
      by_cases same : key = name.toList
      · have apart : (other.toList == key) = false := by simpa [same] using different
        rw [map_cons, if_pos same, lookup_cons, lookup_cons, apart]
        exact ih
      · rw [map_cons, if_neg same, lookup_cons, lookup_cons]
        by_cases found : (other.toList == key) = true
        · rw [found]
        · rw [Bool.not_eq_true _ |>.mp found]
          exact ih
  next missing =>
    rw [lookup_append]
    have apart : (other.toList == name.toList) = false := by simpa using different
    cases fields.lookup other.toList with
    | none => rw [lookup_cons, apart]; rfl
    | some found => rfl

section

variable {dirUri directory : Text} (done : normalizeDirectoryUri dirUri = .ok directory)

include done

theorem normalizeDirectoryUri_ok :
    scheme <+: strip dirUri ∧ directory = (strip dirUri).rdropWhile (· = '/') ++ ['/'] := by
  simp only [normalizeDirectoryUri] at done
  split at done
  · cases done
  · split at done
    · cases done
    next starts => exact ⟨by simpa using starts, (Except.ok.inj done).symm⟩

theorem strip_directory : strip directory = directory := by
  obtain ⟨starts, rfl⟩ := normalizeDirectoryUri_ok done
  have opens : scheme = 'v' :: "iking://" := by decide
  obtain ⟨rest, whole⟩ : ∃ rest, strip dirUri = 'v' :: rest := by
    obtain ⟨rest, whole⟩ := starts
    exact ⟨"iking://" ++ rest, by rw [← whole, opens, cons_append]⟩
  obtain ⟨tail, begins⟩ : ∃ tail, (strip dirUri).rdropWhile (· = '/') = 'v' :: tail := by
    obtain ⟨cut, kept⟩ := List.rdropWhile_prefix (· = '/') (l := strip dirUri)
    cases left : (strip dirUri).rdropWhile (· = '/') with
    | nil => exact absurd (rdropWhile_eq_nil_iff.mp left 'v' (by rw [whole]; exact mem_cons_self)) (by simp)
    | cons char others =>
      rw [left, whole] at kept
      exact ⟨others, by rw [(List.cons.inj kept).1]⟩
  rw [strip, begins, cons_append, dropWhile_cons_of_neg (by decide), ← cons_append,
    rdropWhile_concat_neg _ _ _ (by decide)]

end

theorem normalizeDirectoryUri_again {dirUri directory again : Text} (done : normalizeDirectoryUri dirUri = .ok directory)
    (twice : normalizeDirectoryUri directory = .ok again) : again = directory := by
  obtain ⟨-, rfl⟩ := normalizeDirectoryUri_ok twice
  rw [strip_directory done]
  obtain ⟨-, rfl⟩ := normalizeDirectoryUri_ok done
  rw [rdropWhile_concat_pos _ _ _ (by simp), rdropWhile_idempotent]

theorem normalizeMetadata_ok {fields : Fields} {metadata : Metadata} (done : normalizeMetadata fields = .ok metadata) :
    normalizeDirectory fields = .ok metadata.directory ∧ normalizeFreshness fields = .ok metadata.freshness := by
  unfold normalizeMetadata at done
  obtain ⟨directory, first, done⟩ := bind_ok_iff.mp done
  obtain ⟨source, -, done⟩ := bind_ok_iff.mp done
  obtain ⟨generatedBy, -, done⟩ := bind_ok_iff.mp done
  obtain ⟨freshness, last, done⟩ := bind_ok_iff.mp done
  cases done
  exact ⟨first, last⟩

def rendering (metadata : Metadata) (body : Text) : Text :=
  "---\n" ++ frontmatter (yaml.safeDump metadata.fields) ++ "\n---\n\n" ++ strip body ++ ['\n']

theorem render_ok {dirUri body raw : Text} {fields : Fields} (rendered : renderAbstractOverview yaml dirUri body fields = .ok raw) :
    ∃ directory normalized, normalizeDirectoryUri dirUri = .ok directory ∧ normalizeDirectoryUri directory = .ok directory ∧
      normalizeMetadata (fields.set "directory" (.text directory)) = .ok normalized ∧ normalized.directory = some directory ∧
      raw = rendering yaml normalized body := by
  unfold renderAbstractOverview at rendered
  obtain ⟨directory, named, rendered⟩ := bind_ok_iff.mp rendered
  obtain ⟨normalized, valid, rendered⟩ := bind_ok_iff.mp rendered
  have place := (normalizeMetadata_ok valid).1
  rw [normalizeDirectory, Fields.get?_set_self] at place
  change (normalizeDirectoryUri directory).map some = _ at place
  cases twice : normalizeDirectoryUri directory with
  | error failed => rw [twice] at place; cases place
  | ok again =>
    rw [twice] at place
    cases normalizeDirectoryUri_again named twice
    exact ⟨directory, normalized, named, twice, valid, (Except.ok.inj place).symm, (Except.ok.inj rendered).symm⟩

theorem parse_rendering {metadata : Metadata} (body : Text) (held : metadata.directory ≠ none) :
    parseAbstractOverview yaml (rendering yaml metadata body) =
      (loadedMetadata (yaml.safeLoad (frontmatter (yaml.safeDump metadata.fields) ++ ['\n']))).map (⟨·, strip body ++ ['\n'], false⟩) := by
  have inside := yaml.dump_inside metadata held
  have lines : Text.splitLines (rendering yaml metadata body) = "---\n".toList ::
      (Text.splitLines (frontmatter (yaml.safeDump metadata.fields) ++ ['\n']) ++ "---\n".toList :: Text.splitLines ('\n' :: (strip body ++ ['\n']))) := by
    have shape : rendering yaml metadata body = "---".toList ++ '\n' :: (frontmatter (yaml.safeDump metadata.fields) ++ '\n' ::
        ("---" ++ '\n' :: ('\n' :: (strip body ++ ['\n'])))) := by
      unfold rendering
      simp
    have mark : Text.splitLines ("---" ++ ['\n']) = ["---\n"] := by decide
    rw [shape, Text.splitLines_append "---", Text.splitLines_append (frontmatter _), Text.splitLines_append "---", mark]
    rfl
  have opened : isDelimiter "---\n" = true := by decide
  have closing : ¬ (fun line => !isDelimiter line) "---\n" = true := by decide
  unfold parseAbstractOverview
  rw [lines]
  simp only [opened, Bool.not_true, Bool.false_eq_true, if_false]
  rw [dropWhile_append_of_pos (by simpa using inside), dropWhile_cons_of_neg (p := fun line => !isDelimiter line) closing,
    takeWhile_append_of_pos (by simpa using inside), takeWhile_cons_of_neg (p := fun line => !isDelimiter line) closing, append_nil,
    Text.flatten_splitLines]
  dsimp only
  rw [Text.flatten_splitLines]
  cases loadedMetadata _ <;> rfl

theorem parse_render {dirUri body raw : Text} {fields : Fields} (rendered : renderAbstractOverview yaml dirUri body fields = .ok raw) :
    ∃ document, parseAbstractOverview yaml raw = .ok document ∧ document.legacy = false ∧
      normalizeFreshness fields = .ok document.metadata.freshness := by
  obtain ⟨directory, normalized, -, twice, valid, held, rfl⟩ := render_ok yaml rendered
  have fresh := (normalizeMetadata_ok valid).2
  rw [normalizeFreshness, Fields.get?_set_ne _ _ (by decide), ← normalizeFreshness] at fresh
  obtain ⟨loaded, loads, kept⟩ := yaml.load_dump normalized directory held twice
  refine ⟨⟨loaded, strip body ++ ['\n'], false⟩, ?_, rfl, by rw [kept, fresh]⟩
  rw [parse_rendering yaml body (by rw [held]; simp), loads, map_ok]

end LoginomDock.Sidecars
