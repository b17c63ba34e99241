import LoginomDock.Sidecars.PlainYaml

namespace LoginomDock.Sidecars

open Access (strip)
open List Fields

section Normalized

variable {metadata : Metadata} {fields other : Fields}

theorem boundedString_label {limit : Nat} (label : Label limit) (field : String) :
    boundedString (.text label.1) field limit = .ok label := by
  obtain ⟨content, stripped, filled, short⟩ := label
  rw [boundedString, dif_neg (by rwa [stripped]), dif_pos (by rwa [stripped])]
  exact congrArg Except.ok (Subtype.ext stripped)

theorem labelPair_fields {first second : Nat} {field firstName secondName : String} (pair : Option (Label first × Label second))
    (found : fields.get? field = pair.map fun labels => Yaml.mapping (labelFields firstName secondName labels))
    (different : (secondName.toList == firstName.toList) = false) :
    labelPair field firstName secondName first second fields = .ok pair := by
  rw [labelPair, found]
  cases pair with
  | none => rfl
  | some labels =>
    have one : get? (labelFields firstName secondName labels) firstName = some (.text labels.1.1) := by
      rw [labelFields, get?, lookup_cons, beq_self_eq_true]
    have two : get? (labelFields firstName secondName labels) secondName = some (.text labels.2.1) := by
      rw [labelFields, get?, lookup_cons, different, lookup_cons, beq_self_eq_true]
    simp only [Option.map_some, one, two, boundedString_label, ok_bind]
    rfl

theorem normalizeMetadata_fields (proper : ∀ directory ∈ metadata.directory, normalizeDirectoryUri directory = .ok directory) :
    normalizeMetadata metadata.fields = .ok metadata := by
  have place : normalizeDirectory metadata.fields = .ok metadata.directory := by
    rw [normalizeDirectory, Plain.get?_directory_fields]
    cases held : metadata.directory with
    | none => rfl
    | some directory =>
      change (normalizeDirectoryUri directory).map some = _
      rw [proper directory held, map_ok]
  have sourced : normalizeSource metadata.fields = .ok metadata.source :=
    labelPair_fields metadata.source (Plain.get?_source_fields metadata) (by decide)
  have generated : normalizeGeneratedBy metadata.fields = .ok metadata.generatedBy :=
    labelPair_fields metadata.generatedBy (Plain.get?_generatedBy_fields metadata) (by decide)
  rw [normalizeMetadata, place, sourced, generated, normalizeFreshness_fields]
  rfl

theorem normalizeMetadata_congr (same : ∀ name, fields.get? name = other.get? name) : normalizeMetadata fields = normalizeMetadata other := by
  simp only [normalizeMetadata, normalizeDirectory, normalizeSource, normalizeGeneratedBy, labelPair, normalizeFreshness, same]

theorem get?_set_held {name : String} {value : Yaml} (held : fields.get? name = some value) (asked : String) :
    (fields.set name value).get? asked = fields.get? asked := by
  by_cases same : asked.toList = name.toList
  · rw [String.toList_injective same, get?_set_self, held]
  · exact get?_set_ne fields value same

theorem normalizeMetadata_set {directory : Text} (held : metadata.directory = some directory)
    (proper : normalizeDirectoryUri directory = .ok directory) :
    normalizeMetadata (metadata.fields.set "directory" (.text directory)) = .ok metadata := by
  rw [normalizeMetadata_congr (get?_set_held (by rw [Plain.get?_directory_fields, held]; rfl)), normalizeMetadata_fields]
  rintro _ same
  rw [held] at same
  cases same
  exact proper

end Normalized

variable {yaml : PyYaml}

def Inverts (yaml : PyYaml) (metadata : Metadata) : Prop :=
  yaml.safeLoad (frontmatter (yaml.safeDump metadata.fields) ++ ['\n']) = .ok (.mapping metadata.fields)

theorem parse_inverted {metadata : Metadata} {directory : Text} (body : Text) (held : metadata.directory = some directory)
    (proper : normalizeDirectoryUri directory = .ok directory) (inverts : Inverts yaml metadata) :
    parseAbstractOverview yaml (rendering yaml metadata body) = .ok ⟨metadata, strip body ++ ['\n'], false⟩ := by
  have named : (get? metadata.fields "directory").isNone = false := by
    rw [Plain.get?_directory_fields, held]
    rfl
  rw [parse_rendering yaml body (by rw [held]; simp), inverts]
  change (if _ then _ else normalizeMetadata _).map _ = _
  rw [named, if_neg (by simp), normalizeMetadata_fields, map_ok]
  rintro _ same
  rw [held] at same
  cases same
  exact proper

theorem strip_line (body : Text) : strip (strip body ++ ['\n']) = strip body := by
  have front : (strip body).dropWhile Access.isSpace = strip body :=
    Access.dropWhile_of_prefix (List.rdropWhile_prefix Access.isSpace (body.dropWhile Access.isSpace)) (dropWhile_idempotent ..)
  cases stripped : strip body with
  | nil => decide
  | cons char rest =>
    have kept : ¬Access.isSpace char = true := by
      intro passes
      have longer := (dropWhile_suffix Access.isSpace (l := rest)).length_le
      rw [stripped, dropWhile_cons_of_pos passes] at front
      rw [front, length_cons] at longer
      omega
    rw [strip, cons_append, dropWhile_cons_of_neg kept, ← cons_append, rdropWhile_concat_pos _ _ _ (by decide),
      ← stripped, strip, rdropWhile_idempotent]

theorem loadedMetadata_directory {loaded : Except Text Yaml} {metadata : Metadata} (done : loadedMetadata loaded = .ok metadata) :
    ∃ given directory, metadata.directory = some directory ∧ normalizeDirectoryUri given = .ok directory := by
  unfold loadedMetadata at done
  split at done
  any_goals cases done
  next fields =>
    split at done
    · cases done
    next there =>
      have place := (normalizeMetadata_ok done).1
      rw [normalizeDirectory] at place
      split at place
      next missing => simp [missing] at there
      next given _ =>
        obtain ⟨directory, named, same⟩ := map_ok_iff.mp place
        exact ⟨given, directory, same.symm, named⟩
      next => cases place

theorem parse_directory {raw : Text} {document : Document} (parsed : parseAbstractOverview yaml raw = .ok document) :
    if document.legacy then document.metadata = {} else ∃ given directory, document.metadata.directory = some directory ∧
      normalizeDirectoryUri given = .ok directory := by
  unfold parseAbstractOverview at parsed
  split at parsed
  · cases parsed
    rfl
  · split at parsed
    · cases parsed
      rfl
    · split at parsed
      · cases parsed
      · obtain ⟨metadata, loaded, same⟩ := bind_ok_iff.mp parsed
        cases same
        exact loadedMetadata_directory loaded

def RoundTrips (yaml : PyYaml) : Prop :=
  ∀ dirUri body fields raw, renderAbstractOverview yaml dirUri body fields = .ok raw →
    ∃ directory metadata, normalizeDirectoryUri dirUri = .ok directory ∧
      normalizeMetadata (fields.set "directory" (.text directory)) = .ok metadata ∧
      (Inverts yaml metadata → ∃ document, parseAbstractOverview yaml raw = .ok document ∧ document.legacy = false ∧
        document.metadata = metadata ∧ document.body = strip body ++ ['\n'] ∧
        renderAbstractOverview yaml directory document.body document.metadata.fields = .ok raw)

def KeepsMetadata (yaml : PyYaml) : Prop :=
  ∀ uri currentRaw requestedRaw mode raw, prepareAbstractOverviewWrite yaml uri currentRaw requestedRaw mode = .ok raw →
    ∃ current requested metadata, parseAbstractOverview yaml currentRaw = .ok current ∧
      parseAbstractOverview yaml requestedRaw = .ok requested ∧
      (if current.legacy then ∃ directory, normalizeDirectoryUri (((trimmedUri uri).rdropWhile (· ≠ '/')).dropLast) = .ok directory ∧
        metadata = { directory := some directory } else metadata = current.metadata) ∧
      (Inverts yaml metadata → ∃ document, parseAbstractOverview yaml raw = .ok document ∧ document.metadata = metadata ∧
        strip document.body = strip (writtenBody mode current.body requested.body))

theorem parse_again {dirUri body raw directory : Text} {fields : Fields} {metadata : Metadata}
    (rendered : renderAbstractOverview yaml dirUri body fields = .ok raw) (named : normalizeDirectoryUri dirUri = .ok directory)
    (valid : normalizeMetadata (fields.set "directory" (.text directory)) = .ok metadata) (inverts : Inverts yaml metadata) :
    parseAbstractOverview yaml raw = .ok ⟨metadata, strip body ++ ['\n'], false⟩ := by
  obtain ⟨_, _, first, proper, second, held, rfl⟩ := render_ok yaml rendered
  cases first.symm.trans named
  cases second.symm.trans valid
  exact parse_inverted body held proper inverts

theorem sidecars_round_trip (yaml : PyYaml) : RoundTrips yaml ∧ KeepsMetadata yaml := by
  constructor
  · intro dirUri body fields raw rendered
    obtain ⟨directory, metadata, named, proper, valid, held, whole⟩ := render_ok yaml rendered
    refine ⟨directory, metadata, named, valid, fun inverts => ⟨_, parse_again rendered named valid inverts, rfl, rfl, rfl, ?_⟩⟩
    rw [renderAbstractOverview, proper, ok_bind, normalizeMetadata_set held proper, ok_bind, strip_line, whole]
    rfl
  · intro uri currentRaw requestedRaw mode raw prepared
    obtain ⟨current, requested, stored, asked, rendered⟩ := prepare_ok prepared
    obtain ⟨directory, metadata, named, proper, valid, held, -⟩ := render_ok yaml rendered
    have known := parse_directory stored
    refine ⟨current, requested, metadata, stored, asked, ?_, fun inverts => ?_⟩
    · split at known
      next legacy =>
        rw [if_pos legacy]
        rw [known] at valid
        rw [writtenDirectory, known] at named
        refine ⟨directory, named, ?_⟩
        have alone : Fields.set (Metadata.fields {}) "directory" (.text directory) = Metadata.fields { directory := some directory } := rfl
        rw [alone, normalizeMetadata_fields (by rintro _ ⟨⟩; exact proper)] at valid
        exact (Except.ok.inj valid).symm
      next parsed =>
        rw [if_neg parsed]
        obtain ⟨given, place, there, normal⟩ := known
        have written : writtenDirectory uri current = place := by
          rw [writtenDirectory, there]
          cases place with
          | nil => exact absurd (normalizeDirectoryUri_ok normal).2.symm (by simp)
          | cons char rest => rfl
        rw [written] at named
        cases normalizeDirectoryUri_again normal named
        exact Except.ok.inj (valid.symm.trans (normalizeMetadata_set there proper))
    · exact ⟨_, parse_again rendered named valid inverts, rfl, strip_line _⟩

def roundTripMetadata : Metadata := { directory := some "viking://a/".toList }

theorem plain_sidecar_round_trip : ∃ document,
    parseAbstractOverview plainYaml "---\ndirectory: viking://a/\n---\n\nb\n" = .ok document ∧ document.legacy = false ∧
      document.metadata = roundTripMetadata ∧ document.body = "b\n" := by
  obtain ⟨directory, metadata, named, valid, trips⟩ := (sidecars_round_trip plainYaml).1 "viking://a" " b " [] _ rfl
  cases named
  cases valid
  obtain ⟨document, parsed, strict, same, body, -⟩ := trips rfl
  exact ⟨document, parsed, strict, same, body⟩

end LoginomDock.Sidecars
