import LoginomDock.Sidecars.PendingChanges

/-! Block mappings of plain scalars, as PyYAML writes them. A character that would have to be quoted is written as a
question mark. -/

namespace LoginomDock.Sidecars

open Access (strip isSpace scheme)
open List

namespace Plain

def isPlain (char : Char) : Bool := char.isAlphanum || char ∈ ['/', ':', '.', '_', '-', '?']

def plain (content : Text) : Text := content.map fun char => if isPlain char then char else '?'

def writeText (content : Text) : Text := if content.all Char.isDigit then '\'' :: content ++ ['\''] else content

def writeScalar : Yaml → Text
  | .text content => writeText (plain content)
  | .integer value => (toString value).toList
  | _ => "null"

def readScalar (value : Text) : Yaml :=
  match value with
  | '\'' :: rest => .text rest.dropLast
  | value => if value.all Char.isDigit then .integer (Nat.ofDigitChars 10 value 0 : Nat) else .text value

def writeEntry (entry : Text × Yaml) : Text := entry.1 ++ ": " ++ writeScalar entry.2

def writeField : Text × Yaml → List Text
  | (key, .mapping inner) => (key ++ [':']) :: inner.map fun entry => "  " ++ writeEntry entry
  | field => [writeEntry field]

def readEntry (line : Text) : Text × Yaml :=
  let key := line.takeWhile (· ≠ ':')
  (key, readScalar (line.drop (key.length + 2)))

def readLine (line : Text) (below : Fields × Fields) : Fields × Fields :=
  if line.take 2 = "  " then (readEntry (line.drop 2) :: below.1, below.2)
  else if line.getLast? = some ':' then ([], (line.dropLast, .mapping below.1) :: below.2)
  else ([], readEntry line :: below.2)

def safeDump (fields : Fields) : Text := (fields.flatMap writeField).flatMap fun line => line ++ ['\n']

def safeLoad (document : Text) : Except Text Yaml :=
  .ok (.mapping (((Text.splitLines document).map List.dropLast).foldr readLine ([], [])).2)

theorem isPlain_plain {content : Text} {char : Char} (inside : char ∈ plain content) : isPlain char = true := by
  obtain ⟨old, -, rfl⟩ := mem_map.mp inside
  split
  next known => exact known
  next => decide

def Solid (content : Text) : Prop := ∀ char ∈ content, Text.isLineBreak char = false ∧ isSpace char = false

theorem solid_of_plain {char : Char} (known : isPlain char = true) : Text.isLineBreak char = false ∧ isSpace char = false := by
  have bounds := Text.bounds_of_alphanum known (by simp)
  constructor
  · simp only [Text.isLineBreak, mem_cons, not_mem_nil, or_false, decide_eq_false_iff_not]
    omega
  · simp only [isSpace, mem_cons, not_mem_nil, or_false, decide_eq_false_iff_not]
    omega

theorem solid_writeText (content : Text) : Solid (writeText (plain content)) := by
  intro char inside
  unfold writeText at inside
  split at inside
  · rcases mem_append.mp inside with quoted | last
    · rcases mem_cons.mp quoted with rfl | inner
      · decide
      · exact solid_of_plain (isPlain_plain inner)
    · rw [mem_singleton.mp last]
      decide
  · exact solid_of_plain (isPlain_plain inside)

theorem toString_natCast (value : Nat) : (toString (value : Int)).toList = Nat.toDigits 10 value := by
  change (Nat.repr value).toList = _
  rw [Nat.toList_repr]

theorem isDigit_toDigits {value : Nat} {char : Char} (inside : char ∈ Nat.toDigits 10 value) : char.isDigit = true :=
  Nat.isDigit_of_mem_toDigits (by omega) (by omega) inside

theorem solid_digits (value : Nat) : Solid (Nat.toDigits 10 value) := by
  intro char inside
  exact solid_of_plain (by simp [isPlain, Char.isAlphanum, isDigit_toDigits inside])

theorem readScalar_text (content : Text) : readScalar (writeScalar (.text content)) = .text (plain content) := by
  rw [writeScalar, writeText]
  by_cases digits : (plain content).all Char.isDigit = true
  · rw [if_pos digits]
    simp [readScalar]
  · rw [if_neg digits]
    have unquoted : ∀ rest, plain content ≠ '\'' :: rest := by
      intro rest same
      exact absurd (@isPlain_plain content _ (by rw [same]; exact mem_cons_self)) (by decide)
    unfold readScalar
    split
    next rest same => exact absurd same (unquoted rest)
    next => rw [if_neg digits]

theorem readScalar_natCast (value : Nat) : readScalar (writeScalar (.integer value)) = .integer value := by
  rw [writeScalar, toString_natCast]
  unfold readScalar
  split
  next rest same => exact absurd (@isDigit_toDigits value _ (by rw [same]; exact mem_cons_self)) (by decide)
  next =>
    rw [if_pos (by simpa using fun char inside => isDigit_toDigits inside), Nat.ofDigitChars_ten_toDigits]

-- A line that is read as it was written
structure Good (line : Text) : Prop where
  unbroken : ∀ char ∈ line, Text.isLineBreak char = false
  ends : ∃ front last, line = front ++ [last] ∧ isSpace last = false
  opens : line.head? ≠ some '-'

def isKey (key : Text) : Bool := key ≠ [] && key.all fun char => char.isAlpha || char = '_'

theorem isPlain_of_isKey {key : Text} (isName : isKey key = true) {char : Char} (inside : char ∈ key) : isPlain char = true ∧ char ≠ ':' ∧ char ≠ '-' := by
  have letter : char.isAlpha = true ∨ char = '_' := by
    simp only [isKey, Bool.and_eq_true, all_eq_true, Bool.or_eq_true, decide_eq_true_eq] at isName
    exact isName.2 char inside
  rcases letter with letter | rfl
  · refine ⟨by simp [isPlain, Char.isAlphanum, letter], ?_, ?_⟩
    · rintro rfl
      exact absurd letter (by decide)
    · rintro rfl
      exact absurd letter (by decide)
  · decide

-- A value that fits on a line
structure Writable (value : Yaml) : Prop where
  filled : writeScalar value ≠ []
  solid : Solid (writeScalar value)

theorem writable_text (content : Text) : Writable (.text content) where
  filled := by
    rw [writeScalar, writeText]
    split
    next => simp
    next other =>
      intro blank
      rw [blank] at other
      exact other rfl
  solid := solid_writeText content

theorem writable_natCast (value : Nat) : Writable (.integer value) where
  filled := by
    rw [writeScalar, toString_natCast]
    exact Nat.toDigits_ne_nil
  solid := by
    rw [writeScalar, toString_natCast]
    exact solid_digits value

variable {key : Text}

theorem good_entry {value : Yaml} (isName : isKey key = true) (writable : Writable value) : Good (writeEntry (key, value)) where
  unbroken := by
    intro char inside
    rcases mem_append.mp inside with before | within
    · rcases mem_append.mp before with named | separator
      · exact (solid_of_plain (isPlain_of_isKey isName named).1).1
      · have between : ∀ char ∈ ": ".toList, Text.isLineBreak char = false := by simp [Text.isLineBreak]
        exact between char separator
    · exact (writable.solid char within).1
  ends := by
    obtain ⟨front, last, same⟩ := eq_nil_or_concat' (writeScalar value) |>.resolve_left writable.filled
    refine ⟨key ++ ": " ++ front, last, by rw [writeEntry, same]; simp, ?_⟩
    exact (writable.solid last (by rw [same]; simp)).2
  opens := by
    cases key with
    | nil => exact absurd isName (by decide)
    | cons char rest =>
      rintro ⟨⟩
      exact (@isPlain_of_isKey _ isName '-' mem_cons_self).2.2 rfl

theorem Good.indented {line : Text} (good : Good line) : Good ("  " ++ line) where
  unbroken := by
    intro char inside
    rcases mem_append.mp inside with indent | within
    · have spaces : ∀ char ∈ "  ".toList, Text.isLineBreak char = false := by simp [Text.isLineBreak]
      exact spaces char indent
    · exact good.unbroken char within
  ends := by
    obtain ⟨front, last, rfl, solid⟩ := good.ends
    exact ⟨"  " ++ front, last, (append_assoc ..).symm, solid⟩
  opens := by simp

theorem good_header (isName : isKey key = true) : Good (key ++ [':']) where
  unbroken := by
    intro char inside
    rcases mem_append.mp inside with named | separator
    · exact (solid_of_plain (isPlain_of_isKey isName named).1).1
    · rw [mem_singleton.mp separator]
      decide
  ends := ⟨key, ':', rfl, by decide⟩
  opens := by
    cases key with
    | nil => exact absurd isName (by decide)
    | cons char rest =>
      rintro ⟨⟩
      exact (@isPlain_of_isKey _ isName '-' mem_cons_self).2.2 rfl

theorem splitLines_line {line : Text} (unbroken : ∀ char ∈ line, Text.isLineBreak char = false) :
    Text.splitLines (line ++ ['\n']) = [line ++ ['\n']] := by
  induction line with
  | nil => decide
  | cons char rest ih =>
    have inside := unbroken char mem_cons_self
    have apart : ∀ tail : Text, char = '\r' → rest ++ ['\n'] = '\n' :: tail → False := by
      rintro tail rfl
      exact absurd inside (by decide)
    rw [cons_append, Text.splitLines.eq_3 _ _ apart, if_neg (by rw [inside]; simp),
      ih fun other later => unbroken other (mem_cons_of_mem _ later)]

variable {lines : List Text}

theorem splitLines_lines (good : ∀ line ∈ lines, Good line) :
    Text.splitLines (lines.flatMap fun line => line ++ ['\n']) = lines.map fun line => line ++ ['\n'] := by
  induction lines with
  | nil => rfl
  | cons line rest ih =>
    rw [flatMap_cons, append_assoc, singleton_append, Text.splitLines_append,
      splitLines_line (good line mem_cons_self).unbroken, ih fun other later => good other (mem_cons_of_mem _ later)]
    rfl

theorem frontmatter_lines (more : lines ≠ []) (good : ∀ line ∈ lines, Good line) :
    frontmatter (lines.flatMap fun line => line ++ ['\n']) ++ ['\n'] = lines.flatMap fun line => line ++ ['\n'] := by
  obtain ⟨front, last, rfl⟩ := (eq_nil_or_concat' lines).resolve_left more
  obtain ⟨start, final, rfl, solid⟩ := (good last (by simp)).ends
  rw [flatMap_append, flatMap_singleton, ← append_assoc, ← append_assoc, frontmatter,
    rdropWhile_concat_pos _ _ _ (by decide), rdropWhile_concat_neg _ _ _ (by rw [solid]; simp)]

def restored : Text × Yaml → Text × Yaml
  | (key, .mapping inner) => (key, .mapping (inner.map fun entry => (entry.1, readScalar (writeScalar entry.2))))
  | (key, value) => (key, readScalar (writeScalar value))

theorem readEntry_writeEntry (value : Yaml) (isName : isKey key = true) :
    readEntry (writeEntry (key, value)) = (key, readScalar (writeScalar value)) := by
  have cut : (writeEntry (key, value)).takeWhile (· ≠ ':') = key := by
    rw [writeEntry, append_assoc]
    change (key ++ ':' :: (' ' :: writeScalar value)).takeWhile _ = key
    rw [takeWhile_append_of_pos, takeWhile_cons_of_neg (by simp), append_nil]
    exact fun char inside => by simpa using (isPlain_of_isKey isName inside).2.1
  rw [readEntry, cut]
  congr 2
  rw [writeEntry, append_assoc, drop_append]
  simp

theorem readLine_indented (line : Text) (below : Fields × Fields) :
    readLine ("  " ++ line) below = (readEntry line :: below.1, below.2) := by
  rw [readLine, if_pos (by simp)]
  rfl

theorem take_ne_indent (isName : isKey key = true) (rest : Text) : (key ++ rest).take 2 ≠ "  " := by
  cases key with
  | nil => exact absurd isName (by decide)
  | cons char more =>
    intro same
    have first : char = ' ' := by
      have heads := congrArg List.head? same
      simpa using heads
    exact absurd (@isPlain_of_isKey _ isName ' ' (by rw [first]; exact mem_cons_self)).1 (by decide)

theorem readLine_header (isName : isKey key = true) (below : Fields × Fields) :
    readLine (key ++ [':']) below = ([], (key, .mapping below.1) :: below.2) := by
  rw [readLine, if_neg (take_ne_indent isName _), if_pos (by simp), dropLast_concat]

theorem readLine_entry {value : Yaml} (isName : isKey key = true) (filled : writeScalar value ≠ [])
    (open' : (writeScalar value).getLast? ≠ some ':') (below : Fields × Fields) :
    readLine (writeEntry (key, value)) below = ([], (key, readScalar (writeScalar value)) :: below.2) := by
  have last : (writeEntry (key, value)).getLast? ≠ some ':' := by
    rw [writeEntry, getLast?_append_of_ne_nil _ filled]
    exact open'
  rw [readLine, if_neg (by rw [writeEntry, append_assoc]; exact take_ne_indent isName _), if_neg last, readEntry_writeEntry value isName]

theorem foldr_mapping {inner : Fields} (isName : isKey key = true) (names : ∀ entry ∈ inner, isKey entry.1 = true) (below : Fields) :
    (writeField (key, .mapping inner)).foldr readLine ([], below) = ([], restored (key, .mapping inner) :: below) := by
  have nested : (inner.map fun entry => "  " ++ writeEntry entry).foldr readLine ([], below) =
      (inner.map fun entry => (entry.1, readScalar (writeScalar entry.2)), below) := by
    induction inner with
    | nil => rfl
    | cons entry rest ih =>
      rw [map_cons, foldr_cons, ih fun other later => names other (mem_cons_of_mem _ later), readLine_indented,
        readEntry_writeEntry entry.2 (names entry mem_cons_self)]
      rfl
  rw [writeField, foldr_cons, nested, readLine_header isName]
  rfl

def Shaped : Text × Yaml → Prop
  | (key, .mapping inner) => isKey key = true ∧ ∀ entry ∈ inner, isKey entry.1 = true ∧ Writable entry.2
  | (key, value) => isKey key = true ∧ Writable value

variable (metadata : Metadata)

theorem shaped_fields : ∀ field ∈ metadata.fields, Shaped field := by
  have labels : ∀ {first second : Nat} (firstName secondName : String) (pair : Label first × Label second),
      isKey firstName.toList = true → isKey secondName.toList = true →
      ∀ entry ∈ labelFields firstName secondName pair, isKey entry.1 = true ∧ Writable entry.2 := by
    intro first second firstName secondName pair firstKey secondKey entry inside
    rcases mem_cons.mp inside with rfl | inside
    · exact ⟨firstKey, writable_text _⟩
    · rw [mem_singleton.mp inside]
      exact ⟨secondKey, writable_text _⟩
  intro field inside
  simp only [Metadata.fields, mem_append, Option.mem_toList, Option.map_eq_some_iff] at inside
  rcases inside with ((⟨directory, -, rfl⟩ | ⟨source, -, rfl⟩) | ⟨generatedBy, -, rfl⟩) | ⟨freshness, -, rfl⟩
  · exact ⟨by decide, writable_text directory⟩
  · exact ⟨by decide, labels _ _ source (by decide) (by decide)⟩
  · exact ⟨by decide, labels _ _ generatedBy (by decide) (by decide)⟩
  · refine ⟨by decide, ?_⟩
    simp only [Freshness.fields, mem_cons, not_mem_nil, or_false]
    rintro entry (rfl | rfl | rfl | rfl)
    · exact ⟨(by decide : isKey "total_entries" = true), writable_natCast _⟩
    · exact ⟨(by decide : isKey "sampled_entries" = true), writable_natCast _⟩
    · exact ⟨(by decide : isKey "unsampled_entries" = true), writable_natCast _⟩
    · exact ⟨(by decide : isKey "pending_child_changes" = true), writable_natCast _⟩

variable {fields : Fields}

theorem good_lines (shaped : ∀ field ∈ fields, Shaped field) : ∀ line ∈ fields.flatMap writeField, Good line := by
  intro line inside
  obtain ⟨⟨key, value⟩, member, inside⟩ := mem_flatMap.mp inside
  have shape := shaped _ member
  cases value with
  | mapping inner =>
    rcases mem_cons.mp inside with rfl | nested
    · exact good_header shape.1
    · obtain ⟨entry, there, rfl⟩ := mem_map.mp nested
      obtain ⟨isName, writable⟩ := shape.2 entry there
      exact (good_entry isName writable).indented
  | null | bool | integer | text | other =>
    rw [mem_singleton.mp inside]
    exact good_entry shape.1 shape.2

-- What is not a mapping must not look like the header of one.
def Closed : Text × Yaml → Prop
  | (_, .mapping _) => True
  | (_, value) => (writeScalar value).getLast? ≠ some ':'

theorem foldr_fields (shaped : ∀ field ∈ fields, Shaped field) (closed : ∀ field ∈ fields, Closed field) :
    (fields.flatMap writeField).foldr readLine ([], []) = ([], fields.map restored) := by
  induction fields with
  | nil => rfl
  | cons field rest ih =>
    obtain ⟨key, value⟩ := field
    have shape := shaped _ mem_cons_self
    have shut := closed _ mem_cons_self
    rw [flatMap_cons, foldr_append, ih (fun other later => shaped other (mem_cons_of_mem _ later))
      fun other later => closed other (mem_cons_of_mem _ later)]
    cases value with
    | mapping inner => exact foldr_mapping shape.1 (fun entry there => (shape.2 entry there).1) _
    | null | bool | integer | text | other => exact readLine_entry shape.1 shape.2.filled shut _

theorem strip_solid {content : Text} (solid : Solid content) : strip content = content := by
  have front : content.dropWhile isSpace = content := by
    cases content with
    | nil => rfl
    | cons char rest => exact dropWhile_cons_of_neg (by rw [(solid char mem_cons_self).2]; simp)
  rw [strip, front, rdropWhile_eq_self_iff]
  intro filled
  rw [(solid _ (getLast_mem filled)).2]
  simp

theorem solid_plain (content : Text) : Solid (plain content) := fun _ inside => solid_of_plain (isPlain_plain inside)

theorem boundedString_plain {limit : Nat} (label : Label limit) (field : String) :
    ∃ result, boundedString (.text (plain label.1)) field limit = .ok result := by
  have kept := strip_solid (solid_plain label.1)
  have filled : ¬ strip (plain label.1) = [] := by
    rw [kept, plain, map_eq_nil_iff]
    exact label.2.2.1
  have short : (strip (plain label.1)).length ≤ limit := by
    rw [kept, plain, length_map]
    exact label.2.2.2
  rw [boundedString, dif_neg filled, dif_pos short]
  exact ⟨_, rfl⟩

theorem lookup_restored (fields : Fields) (name : String) :
    Fields.get? (fields.map restored) name = (Fields.get? fields name).map fun value => (restored (name.toList, value)).2 := by
  induction fields with
  | nil => rfl
  | cons field rest ih =>
    obtain ⟨key, value⟩ := field
    have same : (restored (key, value)).1 = key := by cases value <;> rfl
    have alike : ∀ other : Text, (restored (other, value)).2 = (restored (key, value)).2 := by intro other; cases value <;> rfl
    unfold Fields.get? at ih ⊢
    rw [map_cons, ← Prod.mk.eta (p := restored (key, value)), lookup_cons, lookup_cons, same]
    cases (name.toList == key) with
    | true => exact congrArg some (alike _).symm
    | false => exact ih

theorem get?_directory_fields : metadata.fields.get? "directory" = metadata.directory.map Yaml.text := by
  obtain ⟨directory, source, generatedBy, freshness⟩ := metadata
  cases directory <;> cases source <;> cases generatedBy <;> cases freshness <;> rfl

theorem get?_source_fields :
    metadata.fields.get? "source" = metadata.source.map fun source => Yaml.mapping (labelFields "kind" "uri" source) := by
  obtain ⟨directory, source, generatedBy, freshness⟩ := metadata
  cases directory <;> cases source <;> cases generatedBy <;> cases freshness <;> rfl

theorem get?_generatedBy_fields :
    metadata.fields.get? "generated_by" = metadata.generatedBy.map fun labels => Yaml.mapping (labelFields "component" "trigger" labels) := by
  obtain ⟨directory, source, generatedBy, freshness⟩ := metadata
  cases directory <;> cases source <;> cases generatedBy <;> cases freshness <;> rfl

variable {directory : Text}

theorem normalizeDirectoryUri_plain (proper : normalizeDirectoryUri directory = .ok directory) :
    ∃ place, normalizeDirectoryUri (plain directory) = .ok place := by
  obtain ⟨starts, -⟩ := normalizeDirectoryUri_ok proper
  rw [strip_directory proper] at starts
  obtain ⟨rest, rfl⟩ := starts
  have kept := strip_solid (solid_plain (scheme ++ rest))
  have begins : plain (scheme ++ rest) = scheme ++ plain rest := by
    rw [plain, map_append]
    exact congrArg (· ++ plain rest) (by decide : plain scheme = scheme)
  have filled : plain (scheme ++ rest) ≠ [] := by
    rw [begins]
    intro blank
    exact absurd (append_eq_nil_iff.mp blank).1 (by decide)
  have prefixed : scheme.isPrefixOf (plain (scheme ++ rest)) = true := by
    rw [begins, List.isPrefixOf_iff_prefix]
    exact prefix_append _ _
  refine ⟨(plain (scheme ++ rest)).rdropWhile (· = '/') ++ ['/'], ?_⟩
  simp only [normalizeDirectoryUri, kept]
  rw [if_neg filled, if_neg (by rw [prefixed]; simp)]

theorem labelPair_restored {field firstName secondName : String} {first second : Nat}
    (pair : Option (Label first × Label second))
    (found : fields.get? field = pair.map fun labels => Yaml.mapping (labelFields firstName secondName labels))
    (different : (secondName.toList == firstName.toList) = false) :
    ∃ result, labelPair field firstName secondName first second (fields.map restored) = .ok result := by
  unfold labelPair
  rw [lookup_restored, found]
  cases pair with
  | none => exact ⟨none, rfl⟩
  | some labels =>
    obtain ⟨firstResult, boundFirst⟩ := boundedString_plain labels.1 (field ++ "." ++ firstName)
    obtain ⟨secondResult, boundSecond⟩ := boundedString_plain labels.2 (field ++ "." ++ secondName)
    refine ⟨some (firstResult, secondResult), ?_⟩
    have inner : (restored (field.toList, .mapping (labelFields firstName secondName labels))).2 =
        .mapping [(firstName.toList, .text (plain labels.1.1)), (secondName.toList, .text (plain labels.2.1))] := by
      rw [restored, labelFields, map_cons, map_cons, map_nil, readScalar_text, readScalar_text]
    have one : Fields.get? [(firstName.toList, Yaml.text (plain labels.1.1)), (secondName.toList, .text (plain labels.2.1))] firstName =
        some (.text (plain labels.1.1)) := by
      rw [Fields.get?, lookup_cons, beq_self_eq_true]
    have two : Fields.get? [(firstName.toList, Yaml.text (plain labels.1.1)), (secondName.toList, .text (plain labels.2.1))] secondName =
        some (.text (plain labels.2.1)) := by
      rw [Fields.get?, lookup_cons, different, lookup_cons, beq_self_eq_true]
    simp only [Option.map_some, inner, one, two, boundFirst, boundSecond]
    rfl

section

variable (held : metadata.directory = some directory) (proper : normalizeDirectoryUri directory = .ok directory)

include held proper

theorem normalized_restored :
    ∃ loaded, normalizeMetadata (metadata.fields.map restored) = .ok loaded ∧ loaded.freshness = metadata.freshness := by
  obtain ⟨place, placed⟩ : ∃ place, normalizeDirectory (metadata.fields.map restored) = .ok place := by
    obtain ⟨place, done⟩ := normalizeDirectoryUri_plain proper
    refine ⟨some place, ?_⟩
    have read : (restored ("directory", .text directory)).2 = .text (plain directory) := readScalar_text directory
    rw [normalizeDirectory, lookup_restored, get?_directory_fields, held, Option.map_some, Option.map_some, read]
    change (normalizeDirectoryUri (plain directory)).map some = _
    rw [done]
    rfl
  obtain ⟨source, sourced⟩ : ∃ source, normalizeSource (metadata.fields.map restored) = .ok source :=
    labelPair_restored metadata.source (get?_source_fields metadata) (by decide)
  obtain ⟨generatedBy, generated⟩ : ∃ generatedBy, normalizeGeneratedBy (metadata.fields.map restored) = .ok generatedBy :=
    labelPair_restored metadata.generatedBy (get?_generatedBy_fields metadata) (by decide)
  have fresh : normalizeFreshness (metadata.fields.map restored) = .ok metadata.freshness := by
    cases known : metadata.freshness with
    | none =>
      rw [normalizeFreshness, lookup_restored, get?_freshness_fields, known]
      rfl
    | some freshness =>
      have found : Fields.get? (metadata.fields.map restored) "freshness" =
          some (.mapping (freshness.fields.map fun entry => (entry.1, readScalar (writeScalar entry.2)))) := by
        rw [lookup_restored, get?_freshness_fields, known]
        rfl
      refine normalizeFreshness_mapping found ?_ ?_ ?_ ?_
      · exact congrArg some (readScalar_natCast freshness.total)
      · exact congrArg some (readScalar_natCast freshness.sampled)
      · exact congrArg some (readScalar_natCast freshness.unsampled)
      · exact congrArg some (readScalar_natCast freshness.pending)
  exact ⟨{ directory := place, source, generatedBy, freshness := metadata.freshness }, by
    rw [normalizeMetadata, placed, sourced, generated, fresh]; rfl, rfl⟩

theorem closed_fields : ∀ field ∈ metadata.fields, Closed field := by
  intro field inside
  simp only [Metadata.fields, mem_append, Option.mem_toList, Option.map_eq_some_iff] at inside
  rcases inside with ((⟨place, same, rfl⟩ | ⟨source, -, rfl⟩) | ⟨generatedBy, -, rfl⟩) | ⟨freshness, -, rfl⟩
  · rw [held] at same
    cases same
    obtain ⟨-, ends⟩ := normalizeDirectoryUri_ok proper
    have last : plain directory = plain ((strip directory).rdropWhile (· = '/')) ++ ['/'] := by
      conv_lhs => rw [ends]
      rw [plain, plain, map_append]
      rfl
    change (writeText (plain directory)).getLast? ≠ some ':'
    rw [writeText, if_neg (by rw [last]; simp), last, getLast?_concat]
    decide
  · trivial
  · trivial
  · trivial

end

theorem lines_ne_nil {metadata : Metadata} (held : metadata.directory ≠ none) : metadata.fields.flatMap writeField ≠ [] := by
  obtain ⟨directory, source, generatedBy, freshness⟩ := metadata
  cases directory with
  | none => exact absurd rfl held
  | some directory => exact cons_ne_nil _ _

end Plain

def plainYaml : PyYaml where
  safeLoad := Plain.safeLoad
  safeDump := Plain.safeDump
  load_dump metadata directory held proper := by
    have good := Plain.good_lines (Plain.shaped_fields metadata)
    have more := @Plain.lines_ne_nil metadata (by rw [held]; simp)
    obtain ⟨loaded, normalized, fresh⟩ := Plain.normalized_restored metadata held proper
    refine ⟨loaded, ?_, fresh⟩
    have read : Plain.safeLoad (frontmatter (Plain.safeDump metadata.fields) ++ ['\n']) = .ok (.mapping (metadata.fields.map Plain.restored)) := by
      rw [Plain.safeDump, Plain.frontmatter_lines more good, Plain.safeLoad, Plain.splitLines_lines good, map_map]
      have uncut : (List.dropLast ∘ fun line : Text => line ++ ['\n']) = id := by
        funext line
        exact dropLast_concat
      rw [uncut, map_id, Plain.foldr_fields (Plain.shaped_fields metadata) (Plain.closed_fields metadata held proper)]
    have directed : (Fields.get? (metadata.fields.map Plain.restored) "directory").isNone = false := by
      rw [Plain.lookup_restored, Plain.get?_directory_fields, held]
      rfl
    rw [read]
    change (if _ then _ else normalizeMetadata _) = _
    rw [if_neg (by rw [directed]; simp), normalized]
  dump_inside metadata held line inside := by
    have good := Plain.good_lines (Plain.shaped_fields metadata)
    rw [Plain.safeDump, Plain.frontmatter_lines (Plain.lines_ne_nil held) good, Plain.splitLines_lines good] at inside
    obtain ⟨old, there, rfl⟩ := mem_map.mp inside
    obtain ⟨front, last, rfl, solid⟩ := (good old there).ends
    have visible : last ∉ ['\r', '\n'] := by
      intro broken
      simp only [mem_cons, not_mem_nil, or_false] at broken
      rcases broken with rfl | rfl
      · exact absurd solid (by decide)
      · exact absurd solid (by decide)
    rw [isDelimiter, rdropWhile_concat_pos _ _ _ (by decide), rdropWhile_concat_neg _ _ _ (by simpa using visible)]
    have opens := (good _ there).opens
    by_contra delimits
    rw [Bool.not_eq_false, decide_eq_true_eq] at delimits
    rw [delimits] at opens
    exact opens (by decide)

end LoginomDock.Sidecars
