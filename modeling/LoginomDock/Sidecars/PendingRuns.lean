import LoginomDock.Sidecars.PlainYaml

namespace LoginomDock.Sidecars

open Access (names)

-- What reaches the sidecars of a directory: a read without a lease, or a section under one
inductive SidecarCall where
  | look (uri : Text)
  | record (request : PlanRequest)
  | edit (uri requestedRaw : Text) (mode : WriteMode)
  | snapshot (locked : Bool)
  | refresh (semantics : DirectorySemantics) (consumePending : Int)

def SidecarCall.Answer : SidecarCall → Type
  | .look _ => Except Failure (Option Document)
  | .record _ => Except Failure FreshnessDecision
  | .edit .. => Except Failure Unit
  | .snapshot _ => Except Failure Nat
  | .refresh .. => Except Failure WriteResult

-- What counts in the history of a directory
inductive Event where
  | recorded (changes : Nat)
  /-- A change that was recorded in one sidecar at most -/
  | interrupted
  | snapshot
  | refreshed
  | abandoned

-- Where a baseline is missing nothing is recorded; in the runs below none ever is.
def eventOf : (call : SidecarCall) → call.Answer → List Event
  | .record request, .ok _ => [.recorded request.changedEntries.toNat]
  | .record _, .error _ => [.interrupted]
  | .snapshot _, .ok _ => [.snapshot]
  | .refresh .., .ok result => [if result.wrote then .refreshed else .abandoned]
  | .refresh .., .error _ => [.abandoned]
  | _, _ => []

-- The sidecars, and what has happened to them, newest first
structure Watched where
  disk : Disk
  history : List Event

variable (yaml : PyYaml) (dirUri : Text)

def sectionOf : (call : SidecarCall) → StateM Disk call.Answer
  | .look uri => (readExistingDocument yaml uri).run
  | .record request => (recordChanges yaml dirUri request).run
  | .edit uri requestedRaw mode => (writeInPlace yaml uri requestedRaw mode).run
  | .snapshot locked => (readPendingSnapshot yaml dirUri locked).run
  | .refresh semantics consumePending => (writeDirectorySemantics yaml dirUri semantics consumePending).run

def machine : Machine SidecarCall SidecarCall.Answer Watched where
  handle call watched :=
    let ended := (sectionOf yaml dirUri call).run watched.disk
    (ended.1, { disk := ended.2, history := eventOf call ended.1 ++ watched.history })
  enabled _ _ := True

instance (call : SidecarCall) (watched : Watched) : Decidable ((machine yaml dirUri).enabled call watched) := inferInstanceAs (Decidable True)

abbrev Calling (α : Type) := ExceptT Failure (Prog SidecarCall SidecarCall.Answer) α

def callLook (uri : Text) : Calling (Option Document) := ExceptT.mk (Prog.perform (SidecarCall.look uri))

def callRecord (request : PlanRequest) : Calling FreshnessDecision := ExceptT.mk (Prog.perform (SidecarCall.record request))

def callEdit (uri requestedRaw : Text) (mode : WriteMode) : Calling Unit := ExceptT.mk (Prog.perform (SidecarCall.edit uri requestedRaw mode))

def callSnapshot (locked : Bool) : Calling Nat := ExceptT.mk (Prog.perform (SidecarCall.snapshot locked))

def callRefresh (semantics : DirectorySemantics) (consumePending : Int) : Calling WriteResult :=
  ExceptT.mk (Prog.perform (SidecarCall.refresh semantics consumePending))

-- The sidecars are first looked at without a lease.
def planAbstractOverviewRefresh (request : PlanRequest) : Calling FreshnessDecision :=
  if request.changedEntries ≤ 0 ∨ !request.l0BodyChanged then pure ⟨.noop, 0, 0⟩
  else do
    let overview ← callLook (overviewUri (trimmedUri dirUri))
    let abstract ← callLook (abstractUri (trimmedUri dirUri))
    if (baseline overview).isNone ∨ (baseline abstract).isNone then pure (unknownBaseline request)
    else callRecord request

inductive Activity where
  | plan (request : PlanRequest)
  | write (uri requestedRaw : Text) (mode : WriteMode)

def Activity.program : Activity → Calling Unit
  | .plan request => do
      let _ ← planAbstractOverviewRefresh dirUri request
      pure ()
  | .write uri requestedRaw mode => callEdit uri requestedRaw mode

-- A refresh, which may end without a write
structure Refresh where
  locked : Bool
  generated : Option DirectorySemantics

def Refresh.program (refresh : Refresh) : Calling Unit := do
  let seen ← callSnapshot refresh.locked
  match refresh.generated with
  | none => pure ()
  | some semantics => do
      let _ ← callRefresh semantics seen
      pure ()

def refreshes : List Refresh → Prog SidecarCall SidecarCall.Answer Unit
  | [] => pure ()
  | refresh :: rest => do
      let _ ← refresh.program.run
      refreshes rest

def started {ι : Type} [DecidableEq ι] (refresher : ι) (jobs : List Refresh) (activities : ι → Activity) (disk : Disk) :
    Pool ι SidecarCall SidecarCall.Answer Unit Watched where
  state := ⟨disk, []⟩
  log := []
  threads thread :=
    if thread = refresher then refreshes jobs
    else do
      let _ ← ((activities thread).program dirUri).run
      pure ()

structure Tally where
  /-- Changes recorded after the snapshot of the last refresh that was written -/
  owed : Nat := 0
  /-- Changes recorded after the last snapshot -/
  since : Nat := 0
  /-- No change was recorded after the last snapshot, not even in one sidecar. -/
  quiet : Bool := false

def Tally.after (tally : Tally) : Event → Tally
  | .recorded changes => { owed := tally.owed + changes, since := tally.since + changes, quiet := false }
  | .interrupted => { tally with quiet := false }
  | .snapshot => { tally with since := 0, quiet := true }
  | .refreshed => { tally with owed := tally.since }
  | .abandoned => tally

def tally (history : List Event) : Tally := history.foldr (fun event before => before.after event) {}

def pendingAt (files : List Text → Option Text) (uri : Text) : Nat :=
  match files (names uri) with
  | none => 0
  | some raw =>
    match parseAbstractOverview yaml raw with
    | .ok document => pendingOf (some document)
    | .error _ => 0

def largerPending (files : List Text → Option Text) : Nat := max (pendingAt yaml files (overviewUri dirUri)) (pendingAt yaml files (abstractUri dirUri))

variable {yaml dirUri} {files : List Text → Option Text} {overview abstract : Nat} {watched : Watched} {pending : Nat}

theorem Stores.pendingAt {uri : Text} (stores : Stores yaml files (names uri) pending) : pendingAt yaml files uri = pending := by
  obtain ⟨raw, document, freshness, found, parsed, -, fresh, rfl⟩ := stores
  simp [Sidecars.pendingAt, found, parsed, pendingOf, fresh]

theorem Counts.larger (counts : Counts yaml dirUri files overview abstract) : largerPending yaml dirUri files = max overview abstract := by
  rw [largerPending, counts.1.pendingAt, counts.2.pendingAt]

section

variable (yaml : PyYaml) (dirUri : Text)

def Settled (watched : Watched) : Prop :=
  ∀ earlier, watched.history = .refreshed :: earlier → (tally earlier).quiet → largerPending yaml dirUri watched.disk.files = 0

def Covered (watched : Watched) : Prop :=
  (∃ overview abstract, Counts yaml dirUri watched.disk.files overview abstract ∧ (tally watched.history).owed ≤ abstract) ∧
    Settled yaml dirUri watched

-- What a refresh relies on: the count grows by what is recorded, and without a change it stays.
def Grown (before after : Watched) : Prop :=
  ∃ more, (tally after.history).since = (tally before.history).since + more ∧
    largerPending yaml dirUri before.disk.files + more ≤ largerPending yaml dirUri after.disk.files ∧
    ((tally after.history).quiet → (tally before.history).quiet ∧
      largerPending yaml dirUri after.disk.files = largerPending yaml dirUri before.disk.files)

end

theorem Grown.refl (watched : Watched) : Grown yaml dirUri watched watched :=
  ⟨0, rfl, le_rfl, fun quiet => ⟨quiet, rfl⟩⟩

theorem Grown.trans {first second third : Watched} (before : Grown yaml dirUri first second) (after : Grown yaml dirUri second third) :
    Grown yaml dirUri first third := by
  obtain ⟨some, since, grows, still⟩ := before
  obtain ⟨more, later, growsOn, stillOn⟩ := after
  refine ⟨some + more, by omega, by omega, fun quiet => ?_⟩
  obtain ⟨between, same⟩ := stillOn quiet
  exact ⟨(still between).1, same.trans (still between).2⟩

theorem Grown.of_same {before after : Watched} (history : after.history = before.history)
    (larger : largerPending yaml dirUri after.disk.files = largerPending yaml dirUri before.disk.files) : Grown yaml dirUri before after :=
  ⟨0, by rw [history, Nat.add_zero], by rw [larger, Nat.add_zero], fun quiet => ⟨history ▸ quiet, larger⟩⟩

variable {after : Watched}

theorem covered_of_counts (covered : Covered yaml dirUri watched) (history : after.history = watched.history)
    (counts : ∀ overview abstract, Counts yaml dirUri watched.disk.files overview abstract → Counts yaml dirUri after.disk.files overview abstract) :
    Covered yaml dirUri after ∧ Grown yaml dirUri watched after := by
  obtain ⟨⟨overview, abstract, before, owed⟩, settled⟩ := covered
  have larger : largerPending yaml dirUri after.disk.files = largerPending yaml dirUri watched.disk.files := by
    rw [(counts _ _ before).larger, before.larger]
  refine ⟨⟨⟨overview, abstract, counts _ _ before, history ▸ owed⟩, ?_⟩, .of_same history larger⟩
  intro earlier newest quiet
  rw [larger]
  exact settled earlier (history ▸ newest) quiet

theorem attains_look (uri : Text) : Attains (Holding files) (readExistingDocument yaml uri) (fun _ => Holding files) (Holding files) := by
  refine Attains.bind ((attains_access _).entails fun _ _ held => held) fun content => Attains.fix fun now read => ?_
  cases content with
  | none => exact Attains.pure fun disk same => same ▸ read.2
  | some raw => exact (attains_attempt _).loosen (fun disk same => same ▸ read.2) (fun _ _ held => held.2) fun _ held => held

theorem leaves_of_attains {α : Type} {pre post : Disk → Prop} {program : Section α} (attains : Attains pre program (fun _ => post) post)
    {disk : Disk} (holds : pre disk) : post (program.run.run disk).2 := by
  have spec := attains disk holds
  revert spec
  generalize program.run.run disk = ended
  obtain ⟨result, after⟩ := ended
  cases result with
  | ok value => exact id
  | error failed => exact id

def FromOthers : SidecarCall → Prop
  | .look _ | .edit .. => True
  | .record request => 0 < request.changedEntries
  | .snapshot _ | .refresh .. => False

theorem covered_recorded {changes : Nat} (covered : Covered yaml dirUri watched)
    (history : after.history = .recorded changes :: watched.history)
    (counts : ∀ overview abstract, Counts yaml dirUri watched.disk.files overview abstract →
      Counts yaml dirUri after.disk.files (max overview abstract + changes) (max overview abstract + changes)) :
    Covered yaml dirUri after ∧ Grown yaml dirUri watched after := by
  obtain ⟨⟨overview, abstract, before, owed⟩, -⟩ := covered
  have tallied : tally after.history = (tally watched.history).after (.recorded changes) := by rw [history]; rfl
  have larger : largerPending yaml dirUri after.disk.files = largerPending yaml dirUri watched.disk.files + changes := by
    rw [(counts _ _ before).larger, before.larger, max_self]
  refine ⟨⟨⟨_, _, counts _ _ before, ?_⟩, ?_⟩, changes, by rw [tallied]; rfl, larger.ge, ?_⟩
  · rw [tallied]
    change (tally watched.history).owed + changes ≤ _
    omega
  · intro earlier newest
    rw [history] at newest
    cases newest
  · intro quiet
    rw [tallied] at quiet
    cases quiet

theorem covered_interrupted {changes : Nat} (covered : Covered yaml dirUri watched)
    (history : after.history = .interrupted :: watched.history)
    (ended : ∀ overview abstract, Counts yaml dirUri watched.disk.files overview abstract →
      Interrupted yaml dirUri overview abstract (max overview abstract + changes) after.disk) :
    Covered yaml dirUri after ∧ Grown yaml dirUri watched after := by
  obtain ⟨⟨overview, abstract, before, owed⟩, -⟩ := covered
  have tallied : tally after.history = (tally watched.history).after .interrupted := by rw [history]; rfl
  obtain ⟨first, counts, least⟩ : ∃ first, Counts yaml dirUri after.disk.files first abstract ∧ overview ≤ first := by
    rcases ended _ _ before with same | half
    · exact ⟨overview, same, le_rfl⟩
    · exact ⟨_, half, by omega⟩
  refine ⟨⟨⟨first, abstract, counts, by rw [tallied]; exact owed⟩, ?_⟩, 0, by rw [tallied]; rfl, ?_, ?_⟩
  · intro earlier newest
    rw [history] at newest
    cases newest
  · rw [counts.larger, before.larger]
    omega
  · intro quiet
    rw [tallied] at quiet
    cases quiet

theorem step_others (covered : Covered yaml dirUri watched) {call : SidecarCall} (allowed : FromOthers call) :
    Covered yaml dirUri ((machine yaml dirUri).handle call watched).2 ∧
      Grown yaml dirUri watched ((machine yaml dirUri).handle call watched).2 := by
  cases call with
  | look uri =>
    refine covered_of_counts covered rfl fun overview abstract counts => ?_
    have same := leaves_of_attains (@attains_look yaml watched.disk.files uri) rfl
    exact same ▸ counts
  | edit uri requestedRaw mode =>
    refine covered_of_counts covered rfl fun overview abstract counts => ?_
    refine leaves_of_attains ((attains_writeInPlace counts uri requestedRaw mode).loosen (fun _ held => held) (fun _ _ held => held) ?_) rfl
    rintro disk same
    exact same ▸ counts
  | record request =>
    have spec := fun overview abstract (counts : Counts yaml dirUri watched.disk.files overview abstract) =>
      attains_recordChanges counts request allowed watched.disk rfl
    change Covered yaml dirUri ⟨((recordChanges yaml dirUri request).run.run watched.disk).2,
      eventOf (.record request) ((recordChanges yaml dirUri request).run.run watched.disk).1 ++ watched.history⟩ ∧ Grown yaml dirUri watched
        ⟨((recordChanges yaml dirUri request).run.run watched.disk).2,
          eventOf (.record request) ((recordChanges yaml dirUri request).run.run watched.disk).1 ++ watched.history⟩
    generalize (recordChanges yaml dirUri request).run.run watched.disk = ended at spec
    obtain ⟨result, disk⟩ := ended
    cases result with
    | ok decision => exact covered_recorded covered rfl spec
    | error failed => exact covered_interrupted covered rfl spec
  | snapshot locked => exact allowed.elim
  | refresh semantics consumePending => exact allowed.elim

-- What a refresh knows of its snapshot
def Seen (yaml : PyYaml) (dirUri : Text) (pending : Nat) (watched : Watched) : Prop :=
  pending + (tally watched.history).since ≤ largerPending yaml dirUri watched.disk.files ∧
    ((tally watched.history).quiet → largerPending yaml dirUri watched.disk.files = pending)

theorem Seen.grown {pending : Nat} {after : Watched} (seen : Seen yaml dirUri pending watched) (grown : Grown yaml dirUri watched after) :
    Seen yaml dirUri pending after := by
  obtain ⟨more, since, grows, still⟩ := grown
  have least := seen.1
  refine ⟨by omega, fun quiet => ?_⟩
  obtain ⟨before, same⟩ := still quiet
  rw [same, seen.2 before]

theorem step_snapshot (covered : Covered yaml dirUri watched) (locked : Bool) :
    let ended := (machine yaml dirUri).handle (.snapshot locked) watched
    Covered yaml dirUri ended.2 ∧ ∀ pending, ended.1 = .ok pending → Seen yaml dirUri pending ended.2 := by
  obtain ⟨⟨overview, abstract, counts, owed⟩, settled⟩ := covered
  have spec := attains_readPendingSnapshot counts locked watched.disk rfl
  change Covered yaml dirUri ⟨((readPendingSnapshot yaml dirUri locked).run.run watched.disk).2,
    eventOf (.snapshot locked) ((readPendingSnapshot yaml dirUri locked).run.run watched.disk).1 ++ watched.history⟩ ∧
      ∀ pending, ((readPendingSnapshot yaml dirUri locked).run.run watched.disk).1 = .ok pending → Seen yaml dirUri pending
        ⟨((readPendingSnapshot yaml dirUri locked).run.run watched.disk).2,
          eventOf (.snapshot locked) ((readPendingSnapshot yaml dirUri locked).run.run watched.disk).1 ++ watched.history⟩
  generalize (readPendingSnapshot yaml dirUri locked).run.run watched.disk = ended at spec
  obtain ⟨result, disk⟩ := ended
  cases result with
  | error failed =>
    have same : disk.files = watched.disk.files := spec
    refine ⟨⟨⟨overview, abstract, same ▸ counts, owed⟩, ?_⟩, fun pending given => by cases given⟩
    intro earlier newest quiet
    rw [same]
    exact settled earlier newest quiet
  | ok pending =>
    obtain ⟨value, same⟩ : pending = max overview abstract ∧ disk.files = watched.disk.files := spec
    refine ⟨⟨⟨overview, abstract, same ▸ counts, owed⟩, fun earlier newest => by cases newest⟩, ?_⟩
    rintro _ ⟨⟩
    have larger : largerPending yaml dirUri disk.files = pending := by rw [same, counts.larger, value]
    exact ⟨by rw [larger]; exact le_rfl, fun _ => larger⟩

theorem step_refresh (covered : Covered yaml dirUri watched) (semantics : DirectorySemantics)
    (seen : Seen yaml dirUri pending watched) :
    Covered yaml dirUri ((machine yaml dirUri).handle (.refresh semantics pending) watched).2 := by
  obtain ⟨⟨overview, abstract, counts, owed⟩, -⟩ := covered
  have spec := attains_writeDirectorySemantics counts semantics pending watched.disk rfl
  change Covered yaml dirUri ⟨((writeDirectorySemantics yaml dirUri semantics pending).run.run watched.disk).2,
    eventOf (.refresh semantics pending) ((writeDirectorySemantics yaml dirUri semantics pending).run.run watched.disk).1 ++ watched.history⟩
  generalize (writeDirectorySemantics yaml dirUri semantics pending).run.run watched.disk = ended at spec
  obtain ⟨result, disk⟩ := ended
  have known := seen.1
  rw [counts.larger] at known
  cases result with
  | error failed =>
    refine ⟨?_, fun earlier newest => by cases newest⟩
    rcases spec with same | half
    · exact ⟨overview, abstract, same, owed⟩
    · exact ⟨_, abstract, half, owed⟩
  | ok result =>
    have spec : if result.wrote then Counts yaml dirUri disk.files (max overview abstract - pending) (max overview abstract - pending)
      else disk.files = watched.disk.files := spec
    by_cases wrote : result.wrote = true
    · rw [if_pos wrote] at spec
      have event : eventOf (.refresh semantics pending) (.ok result) = [.refreshed] := by rw [eventOf, if_pos wrote]
      rw [event]
      refine ⟨⟨_, _, spec, ?_⟩, ?_⟩
      · change (tally watched.history).since ≤ _
        omega
      · rintro earlier ⟨⟩ quiet
        have larger := seen.2 quiet
        rw [counts.larger] at larger
        rw [spec.larger, larger]
        simp
    · rw [if_neg wrote] at spec
      have event : eventOf (.refresh semantics pending) (.ok result) = [.abandoned] := by rw [eventOf, if_neg wrote]
      rw [event]
      exact ⟨⟨overview, abstract, spec ▸ counts, owed⟩, fun earlier newest => by cases newest⟩

section Runs

variable {ι : Type} (yaml dirUri) (refresher : ι)

def sidecarContract : Contract ι SidecarCall Watched where
  invariant world := Covered yaml dirUri world.state
  rely thread before after := thread = refresher → Grown yaml dirUri before.state after.state
  refl _ world _ := .refl world.state
  trans _ _ _ _ first second mine := (first mine).trans (second mine)

variable {yaml dirUri refresher} {world : World ι SidecarCall Watched} {thread : ι}

abbrev OfOthers {α : Type} (program : Calling α) : Prop :=
  Prog.Does (fun _ _ => True) FromOthers (fun _ => True) (fun _ => True) program

theorem ends_always {α : Type} (answer : Except Failure α) : Prog.Ends (fun _ => True) (fun _ => True) answer := by
  cases answer <;> trivial

theorem ofOthers_plan (request : PlanRequest) : OfOthers (planAbstractOverviewRefresh dirUri request) := by
  have looks : ∀ uri, OfOthers (callLook uri) := fun uri => ⟨trivial, fun answer _ => ends_always answer⟩
  unfold planAbstractOverviewRefresh
  split
  · exact Prog.Does.pure trivial
  next changes =>
    refine Prog.Does.bind (looks _) fun first _ => Prog.Does.bind (looks _) fun second _ => ?_
    split
    · exact Prog.Does.pure trivial
    · exact ⟨by simp only [FromOthers]; omega, fun answer _ => ends_always answer⟩

theorem ofOthers_activity (activity : Activity) : OfOthers (activity.program dirUri) := by
  cases activity with
  | plan request => exact Prog.Does.bind (ofOthers_plan request) fun _ _ => Prog.Does.pure trivial
  | write uri requestedRaw mode => exact ⟨trivial, fun answer _ => ends_always answer⟩

theorem respects_activity (activity : Activity) :
    (sidecarContract yaml dirUri refresher).Respects (machine yaml dirUri) thread (fun _ _ => True)
      ((activity.program dirUri).run >>= fun _ => pure ()) world := by
  have within : Prog.Within (fun _ _ => True) FromOthers (fun _ => True) ((activity.program dirUri).run >>= fun _ => pure ()) :=
    Prog.Within.bind (ofOthers_activity activity) fun _ _ => trivial
  refine (Contract.Respects.of_within (fun _ _ _ _ (held : True) => held) ?_ within trivial).weaken fun _ _ _ _ => trivial
  intro call before covered _ allowed _
  obtain ⟨kept, grown⟩ := step_others covered allowed
  exact ⟨kept, fun _ _ _ => grown, trivial⟩

theorem attempts_snapshot (locked : Bool) :
    (sidecarContract yaml dirUri refresher).Attempts (machine yaml dirUri) refresher
      (fun pending later => Seen yaml dirUri pending later.state) (fun _ _ => True) (callSnapshot locked) world := by
  intro later covered _ _
  obtain ⟨kept, seen⟩ := step_snapshot covered locked
  refine ⟨kept, fun other different mine => absurd mine different, ?_⟩
  intro last _ moves
  cases answer : ((machine yaml dirUri).handle (.snapshot locked) later.state).1 with
  | error failed => trivial
  | ok pending => exact (seen pending answer).grown (moves rfl)

theorem attempts_refresh (semantics : DirectorySemantics) (seen : Seen yaml dirUri pending world.state) :
    (sidecarContract yaml dirUri refresher).Attempts (machine yaml dirUri) refresher (fun _ _ => True) (fun _ _ => True)
      (callRefresh semantics pending) world := by
  intro later covered moves _
  refine ⟨step_refresh covered semantics (seen.grown (moves rfl)), fun other different mine => absurd mine different, ?_⟩
  intro last _ _
  cases ((machine yaml dirUri).handle (.refresh semantics pending) later.state).1 <;> trivial

theorem respects_refreshes (jobs : List Refresh) :
    (sidecarContract yaml dirUri refresher).Respects (machine yaml dirUri) refresher (fun _ _ => True) (refreshes jobs) world := by
  induction jobs generalizing world with
  | nil => exact fun _ _ _ => trivial
  | cons refresh rest ih =>
    have one : (sidecarContract yaml dirUri refresher).Attempts (machine yaml dirUri) refresher (fun _ _ => True) (fun _ _ => True)
        refresh.program world := by
      refine (attempts_snapshot refresh.locked).bind (fun _ _ _ _ _ => trivial) fun pending later _ seen => ?_
      cases refresh.generated with
      | none => exact Contract.Attempts.pure fun _ _ => trivial
      | some semantics => exact (attempts_refresh semantics seen).bind (fun _ _ _ _ _ => trivial) fun _ _ _ _ =>
        Contract.Attempts.pure fun _ _ => trivial
    exact Contract.Respects.bind one fun _ _ _ _ => ih

variable [DecidableEq ι]

end Runs

namespace Small

def wideDirectory : Text := "viking://a"

def wideFreshness : Freshness := ⟨40, 32, 8, 2, by decide⟩

def wideSidecar : Text :=
  "---\ndirectory: viking://a/\nfreshness:\n  total_entries: 40\n  sampled_entries: 32\n  unsampled_entries: 8\n  pending_child_changes: 2\n---\n\nFiles\n"

def wideDisk : Disk where
  files place := if place ∈ [names (overviewUri wideDirectory), names (abstractUri wideDirectory)] then some wideSidecar else none
  faults _ := none
  stale _ := false

theorem wide_counts : Counts plainYaml wideDirectory wideDisk.files 2 2 := by
  have rendered : renderAbstractOverview plainYaml wideDirectory "Files" ({ freshness := some wideFreshness } : Metadata).fields = .ok wideSidecar := by
    decide +kernel
  constructor
  · exact stores_rendered rendered (normalizeFreshness_fields _) (by simp [wideDisk])
  · exact stores_rendered rendered (normalizeFreshness_fields _) (by simp [wideDisk])

def wideRefresh : Refresh where
  locked := false
  generated := some ⟨"Overview", "Abstract", 40, 32, "semantic_refresh", none, false⟩

def oneChange : Activity := .plan ⟨1, true, ⟨32, 1 / 10, false⟩⟩

def wideRun : Pool Bool SidecarCall SidecarCall.Answer Unit Watched :=
  Pool.follow (machine plainYaml wideDirectory) [true, false, false, false, true]
    (started wideDirectory true [wideRefresh] (fun _ => oneChange) wideDisk)

end Small

end LoginomDock.Sidecars
