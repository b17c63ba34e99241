import LoginomDock.Library.Interleave
import LoginomDock.Sidecars.Writeback

/-! The count of pending changes stands in both sidecars, which are written one after the other. -/

namespace LoginomDock.Sidecars

open Access (names)
open Fields

variable (yaml : PyYaml)

-- A sidecar with a baseline and that many pending changes
def Stores (files : List Text → Option Text) (place : List Text) (pending : Nat) : Prop :=
  ∃ raw document freshness, files place = some raw ∧ parseAbstractOverview yaml raw = .ok document ∧
    document.legacy = false ∧ document.metadata.freshness = some freshness ∧ freshness.pending = pending

abbrev Holding (files : List Text → Option Text) : Disk → Prop := fun disk => disk.files = files

variable {yaml} {α : Type} {files : List Text → Option Text}

theorem attains_access (use : (List Text → Option Text) → α × (List Text → Option Text)) :
    Attains (Holding files) (access use) (fun value disk => value = (use files).1 ∧ disk.files = (use files).2) (Holding files) := by
  rintro disk rfl
  cases faulty : disk.faults 0 with
  | some failed =>
    have ended : (access use).run.run disk = (.error failed, disk.later) := by
      simp only [access, ExceptT.run, ExceptT.mk, StateT.run, faulty]
    rw [ended]
    exact rfl
  | none =>
    have ended : (access use).run.run disk = (.ok (use disk.files).1, { disk.later with files := (use disk.files).2 }) := by
      simp only [access, ExceptT.run, ExceptT.mk, StateT.run, faulty]
    rw [ended]
    exact ⟨rfl, rfl⟩

theorem attains_isStale : Attains (Holding files) isStale (fun _ => Holding files) (Holding files) := fun _ held => held

theorem attains_attempt (result : Except Failure α) :
    Attains (Holding files) (attempt result) (fun value disk => result = .ok value ∧ disk.files = files) (Holding files) := by
  intro disk held
  cases result with
  | ok value => exact ⟨rfl, held⟩
  | error failed => exact held

variable {pending : Nat}

theorem Stores.update {place other : List Text} {content : Text} (stores : Stores yaml files place pending)
    (different : place ≠ other) : Stores yaml (Function.update files other (some content)) place pending := by
  obtain ⟨raw, document, freshness, found, rest⟩ := stores
  exact ⟨raw, document, freshness, by rw [Function.update_of_ne different, found], rest⟩

theorem stores_rendered {dirUri body rendered : Text} {fields : Fields} {freshness : Freshness} {place : List Text}
    (done : renderAbstractOverview yaml dirUri body fields = .ok rendered) (fresh : normalizeFreshness fields = .ok (some freshness))
    (found : files place = some rendered) : Stores yaml files place freshness.pending := by
  obtain ⟨document, parsed, strict, kept⟩ := parse_render yaml done
  rw [fresh] at kept
  exact ⟨rendered, document, freshness, found, parsed, strict, (Except.ok.inj kept).symm, rfl⟩

theorem attains_readExistingDocument {uri : Text} (stores : Stores yaml files (names uri) pending) :
    Attains (Holding files) (readExistingDocument yaml uri)
      (fun existing disk => disk.files = files ∧ ∃ known : Document × Freshness, existing = some known.1 ∧
        baseline existing = some known ∧ known.1.metadata.freshness = some known.2 ∧ known.2.pending = pending)
      (Holding files) := by
  obtain ⟨raw, document, freshness, found, parsed, strict, fresh, count⟩ := stores
  refine Attains.bind (attains_access _) fun content => ?_
  refine Attains.fix fun now read => ?_
  obtain ⟨rfl, held⟩ := read
  simp only [found]
  refine (attains_attempt _).loosen (fun disk same => same ▸ held) ?_ fun _ held => held
  rintro existing disk ⟨given, kept⟩
  rw [parsed] at given
  cases given
  refine ⟨kept, (document, freshness), rfl, ?_, fresh, count⟩
  simp [baseline, strict, fresh]

variable {fields : Fields}

theorem counter_ok {field : String} {value : Nat} (found : fields.get? field = some (.integer value)) :
    counter fields field = .ok value := by
  rw [counter, found]

theorem counters_ok (freshness : Freshness) (total : fields.get? "total_entries" = some (.integer freshness.total))
    (sampled : fields.get? "sampled_entries" = some (.integer freshness.sampled))
    (unsampled : fields.get? "unsampled_entries" = some (.integer freshness.unsampled))
    (pending : fields.get? "pending_child_changes" = some (.integer freshness.pending)) : counters fields = .ok freshness := by
  rw [counters, counter_ok total, counter_ok sampled, counter_ok unsampled, counter_ok pending]
  exact dif_pos freshness.adds

theorem normalizeFreshness_mapping {metadata inner : Fields} {freshness : Freshness} (found : metadata.get? "freshness" = some (.mapping inner))
    (total : inner.get? "total_entries" = some (.integer freshness.total))
    (sampled : inner.get? "sampled_entries" = some (.integer freshness.sampled))
    (unsampled : inner.get? "unsampled_entries" = some (.integer freshness.unsampled))
    (pending : inner.get? "pending_child_changes" = some (.integer freshness.pending)) :
    normalizeFreshness metadata = .ok (some freshness) := by
  have complete : (counterFields.all fun field => (inner.get? field).isSome) = true := by
    simp [counterFields, total, sampled, unsampled, pending]
  rw [normalizeFreshness, found]
  change (if _ then _ else _) = _
  rw [if_pos complete, counters_ok freshness total sampled unsampled pending, Except.map]

theorem get?_freshness_fields (metadata : Metadata) :
    metadata.fields.get? "freshness" = metadata.freshness.map fun freshness => Yaml.mapping freshness.fields := by
  obtain ⟨directory, source, generatedBy, freshness⟩ := metadata
  cases directory <;> cases source <;> cases generatedBy <;> cases freshness <;> rfl

theorem normalizeFreshness_fields (metadata : Metadata) : normalizeFreshness metadata.fields = .ok metadata.freshness := by
  cases fresh : metadata.freshness with
  | none => rw [normalizeFreshness, get?_freshness_fields, fresh]; rfl
  | some freshness =>
    refine @normalizeFreshness_mapping _ freshness.fields _ (by rw [get?_freshness_fields, fresh]; rfl) ?_ ?_ ?_ ?_ <;> rfl

theorem attains_writeIfChanged {uri rendered : Text} {current : Option Text} (read : current = files (names uri))
    (stores : ∀ after : List Text → Option Text, after (names uri) = some rendered → Stores yaml after (names uri) pending) :
    Attains (Holding files) (if current = some rendered then pure () else writeFile uri rendered : Section Unit)
      (fun _ disk => Stores yaml disk.files (names uri) pending ∧ ∀ place ≠ names uri, disk.files place = files place)
      (Holding files) := by
  by_cases already : current = some rendered
  · rw [if_pos already]
    refine Attains.pure fun disk held => ?_
    exact ⟨stores _ (by rw [held, ← read, already]), fun place _ => by rw [held]⟩
  · rw [if_neg already]
    refine (attains_access _).loosen (fun _ held => held) ?_ fun _ held => held
    rintro - disk ⟨-, written⟩
    rw [written]
    exact ⟨stores _ (Function.update_self ..), fun place different => Function.update_of_ne different _ _⟩

theorem attains_writePending (dirUri uri : Text) (known : Document × Freshness) (pending : Nat) :
    Attains (Holding files) (writePending yaml dirUri uri known pending)
      (fun _ disk => Stores yaml disk.files (names uri) pending ∧ ∀ place ≠ names uri, disk.files place = files place)
      (Holding files) := by
  refine Attains.bind (attains_attempt _) fun rendered => Attains.fix fun now ready => ?_
  obtain ⟨done, held⟩ := ready
  refine (attains_access _).onwards held (fun _ held => held) fun raw later read => ?_
  obtain ⟨same, held⟩ := read
  have stores : ∀ after : List Text → Option Text, after (names uri) = some rendered → Stores yaml after (names uri) pending :=
    fun after found => @stores_rendered yaml after _ _ _ _ { known.2 with pending := pending } _ done (normalizeFreshness_fields _) found
  exact (attains_writeIfChanged same stores).loosen (fun disk now => now ▸ held) (fun _ _ held => held) fun _ held => held

section

variable (dirUri : Text)

include dirUri

theorem names_sidecar (name : String) (single : '/' ∉ name.toList) (filled : name.toList ≠ []) :
    names (dirUri ++ '/' :: name.toList) = names dirUri ++ [name.toList] := by
  rw [Access.names_append_slash, Access.names_of_noSlash single, if_neg filled]

theorem names_overviewUri : names (overviewUri dirUri) = names dirUri ++ [".overview.md".toList] :=
  names_sidecar dirUri ".overview.md" (by decide) (by decide)

theorem names_abstractUri : names (abstractUri dirUri) = names dirUri ++ [".abstract.md".toList] :=
  names_sidecar dirUri ".abstract.md" (by decide) (by decide)

@[simp] theorem names_trimmed_overviewUri : names (overviewUri (trimmedUri dirUri)) = names (overviewUri dirUri) := by
  rw [names_overviewUri, names_overviewUri, trimmedUri, Access.names_rdropWhile]

@[simp] theorem names_trimmed_abstractUri : names (abstractUri (trimmedUri dirUri)) = names (abstractUri dirUri) := by
  rw [names_abstractUri, names_abstractUri, trimmedUri, Access.names_rdropWhile]

theorem abstract_ne_overview : names (abstractUri dirUri) ≠ names (overviewUri dirUri) := by
  rw [names_overviewUri, names_abstractUri]
  intro same
  exact absurd (List.append_cancel_left same) (by decide)

end

variable {dirUri : Text} {overview abstract : Nat}

-- Both sidecars have a baseline, with those counts.
def Counts (yaml : PyYaml) (dirUri : Text) (files : List Text → Option Text) (overview abstract : Nat) : Prop :=
  Stores yaml files (names (overviewUri dirUri)) overview ∧ Stores yaml files (names (abstractUri dirUri)) abstract

theorem Stores.elsewhere {place written : List Text} {after : List Text → Option Text} (stores : Stores yaml files place pending)
    (different : place ≠ written) (same : ∀ other ≠ written, after other = files other) : Stores yaml after place pending := by
  obtain ⟨raw, document, freshness, found, rest⟩ := stores
  exact ⟨raw, document, freshness, by rw [same place different, found], rest⟩

-- Where the writes of a section end: the overview is written before the abstract.
def Interrupted (yaml : PyYaml) (dirUri : Text) (overview abstract next : Nat) (disk : Disk) : Prop :=
  Counts yaml dirUri disk.files overview abstract ∨ Counts yaml dirUri disk.files next abstract

theorem attains_recordChanges (counts : Counts yaml dirUri files overview abstract) (request : PlanRequest)
    (more : 0 < request.changedEntries) :
    Attains (Holding files) (recordChanges yaml dirUri request)
      (fun _ disk => Counts yaml dirUri disk.files (max overview abstract + request.changedEntries.toNat)
        (max overview abstract + request.changedEntries.toNat))
      (Interrupted yaml dirUri overview abstract (max overview abstract + request.changedEntries.toNat)) := by
  have early : ∀ disk : Disk, disk.files = files →
      Interrupted yaml dirUri overview abstract (max overview abstract + request.changedEntries.toNat) disk := by
    rintro disk rfl
    exact Or.inl counts
  refine Attains.bind ((attains_access _).loosen (fun _ held => held) (fun _ _ held => held.2) early) fun _ => ?_
  refine Attains.bind ((attains_readExistingDocument (by simpa using counts.1)).loosen (fun _ held => held) (fun _ _ held => held) early)
    fun first => ?_
  refine Attains.fix fun now read => ?_
  obtain ⟨held, known, -, isKnown, -, pendingFirst⟩ := read
  refine (attains_readExistingDocument (by simpa using counts.2)).onwards held early fun second later read => ?_
  obtain ⟨held, other, -, isOther, -, pendingSecond⟩ := read
  simp only [isKnown, isOther]
  have decided : (decideParentRefresh true true known.2.total (max known.2.pending other.2.pending) request.changedEntries.toNat
      request.policy).pendingAfter = max overview abstract + request.changedEntries.toNat := by
    rw [decideParentRefresh, if_neg (by simp; omega), pendingFirst, pendingSecond]
    simp only [Bool.not_true, Bool.false_eq_true, if_false]
    split <;> rfl
  rw [decided]
  refine (attains_writePending dirUri _ known _).onwards held early fun _ written done => ?_
  obtain ⟨wrote, others⟩ := done
  rw [names_trimmed_overviewUri] at wrote others
  have half := counts.2.elsewhere (abstract_ne_overview dirUri) others
  refine Attains.bind ((attains_writePending dirUri _ other _).loosen (fun disk same => congrArg Disk.files same.symm)
    (fun _ _ held => held) ?_) fun _ => ?_
  · rintro disk same
    exact Or.inr ⟨same ▸ wrote, same ▸ half⟩
  · refine Attains.pure fun disk done => ?_
    obtain ⟨last, kept⟩ := done
    rw [names_trimmed_abstractUri] at last kept
    exact ⟨wrote.elsewhere (abstract_ne_overview dirUri).symm kept, last⟩

theorem attains_readPendingSnapshot (counts : Counts yaml dirUri files overview abstract) (locked : Bool) :
    Attains (Holding files) (readPendingSnapshot yaml dirUri locked)
      (fun pending disk => pending = max overview abstract ∧ disk.files = files) (Holding files) := by
  have lease : Attains (Holding files) (if locked then pure () else pathlockAcquire) (fun _ => Holding files) (Holding files) := by
    cases locked with
    | true => exact Attains.pure fun _ held => held
    | false => exact (attains_access _).entails fun _ _ held => held.2
  refine Attains.bind lease fun _ => ?_
  refine Attains.bind (attains_readExistingDocument (by simpa using counts.1)) fun first => Attains.fix fun now read => ?_
  obtain ⟨held, known, -, isKnown, -, pendingFirst⟩ := read
  refine (attains_readExistingDocument (by simpa using counts.2)).onwards held (fun _ held => held) fun second disk read => ?_
  obtain ⟨held, other, -, isOther, -, pendingSecond⟩ := read
  refine Attains.pure fun disk same => ?_
  subst same
  simp [isKnown, isOther, pendingFirst, pendingSecond, held]

theorem freshnessMetadata_ok {total sampled pending : Int} (done : freshnessMetadata total sampled pending = .ok fields) :
    ∃ freshness : Freshness, fields = freshness.fields := by
  obtain ⟨freshness, -, same⟩ := bind_ok_iff.mp done
  exact ⟨freshness, (Except.ok.inj same).symm⟩

theorem get?_inheritSource (metadata : Fields) (existing : List (Option Document)) :
    (inheritSource metadata existing).get? "freshness" = metadata.get? "freshness" := by
  unfold inheritSource
  split
  · rfl
  · split
    · exact get?_set_ne _ _ (by decide)
    · rfl

theorem normalizeFreshness_carryPending {metadata : Fields} {freshness : Freshness}
    (given : metadata.get? "freshness" = some (.mapping freshness.fields)) (current consumed : Nat) :
    normalizeFreshness (carryPending metadata current (some consumed)) = .ok (some { freshness with pending := current - consumed }) := by
  have left : max ((current : Int) - max (consumed : Int) 0) 0 = ((current - consumed : Nat) : Int) := by omega
  rw [carryPending, given]
  refine normalizeFreshness_mapping (get?_set_self _ _ _) ?_ ?_ ?_ ?_
  · exact get?_set_ne _ _ (by decide)
  · exact get?_set_ne _ _ (by decide)
  · exact get?_set_ne _ _ (by decide)
  · rw [get?_set_self, left]

def Refreshed (yaml : PyYaml) (dirUri : Text) (files : List Text → Option Text) (next : Nat) (result : WriteResult) (disk : Disk) : Prop :=
  if result.wrote then Counts yaml dirUri disk.files next next else disk.files = files

theorem attains_writeSidecars (counts : Counts yaml dirUri files overview abstract) {request : WriteRequest} {freshness : Freshness}
    {consumed : Nat} (given : request.metadata.get? "freshness" = some (.mapping freshness.fields))
    (seen : request.consumePending = some (consumed : Int)) :
    Attains (Holding files) (writeSidecars yaml dirUri request) (Refreshed yaml dirUri files (max overview abstract - consumed))
      (Interrupted yaml dirUri overview abstract (max overview abstract - consumed)) := by
  have early : ∀ disk : Disk, disk.files = files → Interrupted yaml dirUri overview abstract (max overview abstract - consumed) disk := by
    rintro disk rfl
    exact Or.inl counts
  refine Attains.bind (attains_isStale.loosen (fun _ held => held) (fun _ _ held => held) early) fun stale => ?_
  cases stale with
  | true => exact Attains.pure fun _ held => held
  | false =>
    simp only [Bool.false_eq_true, if_false]
    refine Attains.bind ((attains_readExistingDocument counts.1).loosen (fun _ held => held) (fun _ _ held => held) early) fun first => ?_
    refine Attains.fix fun now read => ?_
    obtain ⟨held, known, isKnown, -, fresh, pendingFirst⟩ := read
    refine (attains_readExistingDocument counts.2).onwards held early fun second now read => ?_
    obtain ⟨held, other, isOther, -, freshOther, pendingSecond⟩ := read
    have current : max (pendingOf first) (pendingOf second) = max overview abstract := by
      rw [isKnown, isOther]
      simp [pendingOf, fresh, freshOther, pendingFirst, pendingSecond]
    rw [current, seen]
    have carried := normalizeFreshness_carryPending ((get?_inheritSource request.metadata [first, second]).trans given) (max overview abstract) consumed
    refine (attains_attempt _).onwards held early fun renderedOverview now ready => ?_
    obtain ⟨doneOverview, held⟩ := ready
    refine (attains_attempt _).onwards held early fun renderedAbstract now ready => ?_
    obtain ⟨doneAbstract, held⟩ := ready
    refine (attains_access _).onwards held early fun currentOverview now read => ?_
    obtain ⟨sameOverview, held⟩ := read
    refine (attains_access _).onwards held early fun currentAbstract now read => ?_
    obtain ⟨sameAbstract, held⟩ := read
    refine (attains_writeIfChanged sameOverview fun _ found => stores_rendered doneOverview carried found).onwards held early
      fun _ written done => ?_
    obtain ⟨wrote, others⟩ := done
    have half := counts.2.elsewhere (abstract_ne_overview dirUri) others
    have untouched : currentAbstract = written.files (names (abstractUri dirUri)) := by
      rw [others _ (abstract_ne_overview dirUri), sameAbstract]
    refine Attains.bind ((attains_writeIfChanged untouched fun _ found => stores_rendered doneAbstract carried found).loosen
      (fun disk same => congrArg Disk.files same.symm) (fun _ _ held => held) ?_) fun _ => ?_
    · rintro disk same
      exact Or.inr ⟨same ▸ wrote, same ▸ half⟩
    · refine Attains.pure fun disk done => ?_
      exact ⟨wrote.elsewhere (abstract_ne_overview dirUri).symm done.2, done.1⟩

theorem attains_writeDirectorySemantics (counts : Counts yaml dirUri files overview abstract) (semantics : DirectorySemantics) (consumed : Nat) :
    Attains (Holding files) (writeDirectorySemantics yaml dirUri semantics consumed)
      (Refreshed yaml dirUri files (max overview abstract - consumed))
      (Interrupted yaml dirUri overview abstract (max overview abstract - consumed)) := by
  have early : ∀ disk : Disk, disk.files = files → Interrupted yaml dirUri overview abstract (max overview abstract - consumed) disk := by
    rintro disk rfl
    exact Or.inl counts
  refine Attains.bind ((attains_attempt _).loosen (fun _ held => held) (fun _ _ held => held) early) fun fields => Attains.fix fun now ready => ?_
  obtain ⟨done, held⟩ := ready
  obtain ⟨freshness, rfl⟩ := freshnessMetadata_ok done
  refine Attains.bind (attains_isStale.loosen (fun disk same => same ▸ held) (fun _ _ held => held) early) fun stale => ?_
  cases stale with
  | true => exact Attains.pure fun _ held => held
  | false =>
    have lease : Attains (Holding files) (if semantics.locked then pure () else pathlockAcquire) (fun _ => Holding files)
        (Interrupted yaml dirUri overview abstract (max overview abstract - consumed)) := by
      cases semantics.locked with
      | true => exact Attains.pure fun _ held => held
      | false => exact (attains_access _).loosen (fun _ held => held) (fun _ _ held => held.2) early
    refine Attains.bind lease fun _ => @attains_writeSidecars yaml _ _ _ _ counts _ freshness _ ?_ rfl
    rfl

def writtenBody (mode : WriteMode) (stored requested : Text) : Text :=
  match mode with
  | .append => stored ++ requested
  | .replace => requested

def writtenDirectory (uri : Text) (current : Document) : Text :=
  match current.metadata.directory with
  | some (char :: rest) => char :: rest
  | _ => ((trimmedUri uri).rdropWhile (· ≠ '/')).dropLast

theorem prepare_ok {uri currentRaw requestedRaw rendered : Text} {mode : WriteMode}
    (done : prepareAbstractOverviewWrite yaml uri currentRaw requestedRaw mode = .ok rendered) :
    ∃ current requested, parseAbstractOverview yaml currentRaw = .ok current ∧ parseAbstractOverview yaml requestedRaw = .ok requested ∧
      renderAbstractOverview yaml (writtenDirectory uri current) (writtenBody mode current.body requested.body) current.metadata.fields =
        .ok rendered := by
  unfold prepareAbstractOverviewWrite at done
  by_cases named : (!isAbstractOverviewUri uri) = true
  · rw [if_pos named] at done
    cases done
  · rw [if_neg named] at done
    obtain ⟨current, parsed, done⟩ := bind_ok_iff.mp done
    obtain ⟨requested, asked, done⟩ := bind_ok_iff.mp done
    by_cases protects : !requested.legacy ∧ requested.metadata ≠ current.metadata
    · rw [if_pos protects] at done
      cases done
    · rw [if_neg protects] at done
      refine ⟨current, requested, parsed, asked, ?_⟩
      cases mode <;> exact done

theorem attains_writeInPlace (counts : Counts yaml dirUri files overview abstract) (uri requestedRaw : Text) (mode : WriteMode) :
    Attains (Holding files) (writeInPlace yaml uri requestedRaw mode) (fun _ disk => Counts yaml dirUri disk.files overview abstract)
      (Holding files) := by
  refine Attains.bind ((attains_access _).entails fun _ _ held => held.2) fun _ => ?_
  refine Attains.bind (attains_access _) fun content => Attains.fix fun now read => ?_
  obtain ⟨same, held⟩ := read
  cases content with
  | none => exact Attains.throw fun disk now => now ▸ held
  | some currentRaw =>
    refine (attains_attempt _).onwards held (fun _ held => held) fun rendered now ready => ?_
    obtain ⟨done, held⟩ := ready
    obtain ⟨document, requested, parsed, -, rerendered⟩ := prepare_ok done
    refine (attains_access _).loosen (fun disk same => same ▸ held) ?_ fun _ held => held
    rintro - disk ⟨-, written⟩
    rw [written]
    have kept : ∀ place pending, Stores yaml files place pending →
        Stores yaml (Function.update files (names uri) (some rendered)) place pending := by
      intro place pending stores
      by_cases here : place = names uri
      · obtain ⟨raw, current, freshness, found, parsedRaw, -, fresh, count⟩ := stores
        have same : some currentRaw = files (names uri) := same
        rw [here, ← same] at found
        cases found
        cases parsed.symm.trans parsedRaw
        rw [here, ← count]
        refine stores_rendered rerendered ?_ (Function.update_self ..)
        rw [normalizeFreshness_fields, fresh]
      · exact stores.update here
    exact ⟨kept _ _ counts.1, kept _ _ counts.2⟩

end LoginomDock.Sidecars
