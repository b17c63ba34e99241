import LoginomDock.Delivery.NavigationCalls

/-! The job that is active belongs to one call, and only its run touches the job. -/

namespace LoginomDock.Delivery

variable {ι : Type}

section

variable (id : Text)

def uploadIdOf : Text := id ++ ":upload"

def verificationIdOf : Text := id ++ ":verify"

def Ask.uploads : Ask → Bool
  | .uploadDeliveredArtifact request => request.operationId = uploadIdOf id
  | _ => false

def Ask.verifies : Ask → Bool
  | .verifyDeliveredArtifact request => request.verificationId = verificationIdOf id
  | _ => false

def uploadsOf (events : List Event) : Nat := events.countP fun event => event.ask.uploads id

def verificationsOf (events : List Event) : Nat := events.countP fun event => event.ask.verifies id

end

def Inspection.Shows (final : Inspection) (artifact : Artifact) : Prop :=
  ∃ output outcome receipt copy, final.output = some output ∧ output.outcome = some outcome ∧
    outcome.output = some receipt ∧ receipt.serverCopyVerification = some copy ∧
      copy.destination = some artifact.upload.destination ∧ copy.bytes = some artifact.bytes ∧
        copy.sha256 = some artifact.sha256

def Receipted (id : Text) (artifact : Artifact) (events : List Event) : Prop :=
  ∃ final : Inspection, (⟨.inspect (uploadIdOf id), .ok final⟩ : Event) ∈ events ∧ final.Shows artifact

theorem shows_of_provenCopy {artifact : Artifact} {final : Inspection} {copy : ServerCopy}
    (proven : provenCopy artifact final = some copy) : final.Shows artifact := by
  rw [provenCopy] at proven
  obtain ⟨output, there, proven⟩ := Option.bind_eq_some_iff.mp proven
  obtain ⟨outcome, ended, proven⟩ := Option.bind_eq_some_iff.mp proven
  obtain ⟨receipt, given, proven⟩ := Option.bind_eq_some_iff.mp proven
  obtain ⟨found, held, proven⟩ := Option.bind_eq_some_iff.mp proven
  split at proven
  next checks =>
    obtain ⟨-, -, -, -, -, destination, bytes, sha256⟩ := checks
    exact ⟨output, outcome, receipt, found, there, ended, given, held, destination, bytes, sha256⟩
  next => cases proven

theorem Receipted.mono {id : Text} {artifact : Artifact} {events later : List Event}
    (receipted : Receipted id artifact events) (more : ∀ event ∈ events, event ∈ later) :
    Receipted id artifact later := by
  obtain ⟨final, asked, shows'⟩ := receipted
  exact ⟨final, more _ asked, shows'⟩

def Outcome.Succeeded : Outcome → Prop
  | .succeeded _ _ _ _ _ => True
  | _ => False

structure Job.Sound (job : Job ι) (id : Text) (events : List Event) : Prop where
  named : job.id = id
  uploadNamed : job.uploadId = uploadIdOf id
  uploads : uploadsOf id events ≤ 1
  notUploaded : job.uploadStarted = none → uploadsOf id events = 0 ∧ job.verificationStarted = false
  verifications : verificationsOf id events ≤ 1
  notVerified : job.verificationStarted = false → verificationsOf id events = 0
  resumable : job.preUploadResume = true → job.uploadStarted = none
  succeeded : ∀ outcome ∈ job.outcome, outcome.Succeeded → Receipted id job.artifact events

structure DeliveryState.Sound (state : DeliveryState ι) : Prop where
  jobs : ∀ id job, state.jobs.lookup id = some job → job.Sound id state.events
  unknown : ∀ id, state.jobs.lookup id = none → uploadsOf id state.events = 0 ∧ verificationsOf id state.events = 0
  running : ∀ id job, state.jobs.lookup id = some job → job.state = .running → ∃ call, state.active = some ⟨id, call⟩

-- No job is dropped or gets another artifact, and no answer is forgotten.
structure DeliveryState.Preserves (before after : DeliveryState ι) : Prop where
  admitted : ∀ id job, before.jobs.lookup id = some job →
    ∃ later, after.jobs.lookup id = some later ∧ later.artifact = job.artifact
  events : ∀ event ∈ before.events, event ∈ after.events

-- The others leave the job of a run alone.
structure DeliveryState.Leads (call : ι) (before after : DeliveryState ι) : Prop where
  own : ∀ id, before.active = some ⟨id, call⟩ → after.active = some ⟨id, call⟩ ∧
    after.jobs.lookup id = before.jobs.lookup id ∧ uploadsOf id after.events = uploadsOf id before.events ∧
      verificationsOf id after.events = verificationsOf id before.events
  preserves : before.Preserves after

theorem DeliveryState.Preserves.refl (state : DeliveryState ι) : state.Preserves state :=
  ⟨fun _ job there => ⟨job, there, rfl⟩, fun _ member => member⟩

theorem DeliveryState.Preserves.trans {first second third : DeliveryState ι} (preserves : first.Preserves second)
    (more : second.Preserves third) : first.Preserves third where
  admitted := by
    intro id job there
    obtain ⟨later, found, same⟩ := preserves.admitted id job there
    obtain ⟨last, foundLast, sameLast⟩ := more.admitted id later found
    exact ⟨last, foundLast, sameLast.trans same⟩
  events event member := more.events event (preserves.events event member)

theorem DeliveryState.Leads.refl (call : ι) (state : DeliveryState ι) : state.Leads call state where
  own _ active := ⟨active, rfl, rfl, rfl⟩
  preserves := .refl state

theorem DeliveryState.Leads.trans {call : ι} {first second third : DeliveryState ι} (leads : first.Leads call second)
    (more : second.Leads call third) : first.Leads call third where
  own := by
    intro id active
    obtain ⟨stays, job, uploads, verifications⟩ := leads.own id active
    obtain ⟨stays', job', uploads', verifications'⟩ := more.own id stays
    exact ⟨stays', job'.trans job, uploads'.trans uploads, verifications'.trans verifications⟩
  preserves := leads.preserves.trans more.preserves

abbrev DeliveryWorld (ι : Type) := World ι (Op ι) (DeliveryState ι)

def deliveryContract : Contract ι (Op ι) (DeliveryState ι) where
  invariant world := world.state.Sound
  rely call world later := world.state.Leads call later.state
  refl call world := .refl call world.state
  trans _ _ _ _ leads more := leads.trans more

theorem DeliveryState.sound_initial : ({} : DeliveryState ι).Sound where
  jobs _ _ there := by cases there
  unknown _ _ := ⟨rfl, rfl⟩
  running _ _ there := by cases there

-- What a run knows of its job: its fields, how often the runtime was asked, and whether a receipt has come.
structure Progress where
  uploadStarted : Option Bool
  preUploadResume : Bool
  verificationStarted : Bool
  artifact : Artifact
  uploads : Nat
  verifications : Nat
  receipted : Bool

structure Job.Shows (job : Job ι) (progress : Progress) : Prop where
  uploadStarted : job.uploadStarted = progress.uploadStarted
  preUploadResume : job.preUploadResume = progress.preUploadResume
  verificationStarted : job.verificationStarted = progress.verificationStarted
  artifact : job.artifact = progress.artifact

structure Holding (call : ι) (id : Text) (progress : Progress) (state : DeliveryState ι) : Prop where
  active : state.active = some ⟨id, call⟩
  job : ∃ job, state.jobs.lookup id = some job ∧ job.Shows progress
  uploads : uploadsOf id state.events = progress.uploads
  verifications : verificationsOf id state.events = progress.verifications
  receipted : progress.receipted = true → Receipted id progress.artifact state.events

def Held (call : ι) (id : Text) (state : DeliveryState ι) : Prop := ∃ progress, Holding call id progress state

variable {call : ι} {id : Text} {progress : Progress} {state later : DeliveryState ι}

theorem Holding.stable (holding : Holding call id progress state) (leads : state.Leads call later) :
    Holding call id progress later := by
  obtain ⟨active, jobs, uploads, verifications⟩ := leads.own id holding.active
  refine ⟨active, ?_, uploads.trans holding.uploads, verifications.trans holding.verifications, ?_⟩
  · rw [jobs]
    exact holding.job
  · exact fun shown => (holding.receipted shown).mono leads.preserves.events

theorem Held.stable (held : Held call id state) (leads : state.Leads call later) : Held call id later := by
  obtain ⟨progress, holding⟩ := held
  exact ⟨progress, holding.stable leads⟩

-- What a step of a call keeps: the invariant, what the others rely on, and an assertion of its own.
structure Kept (call : ι) (before after : DeliveryState ι) (assertion : DeliveryState ι → Prop) : Prop where
  sound : after.Sound
  preserves : before.Preserves after
  others : ∀ other, other ≠ call → before.Leads other after
  assertion : assertion after

theorem Kept.alone {assertion : DeliveryState ι → Prop} (sound : later.Sound) (preserves : state.Preserves later)
    (alone : ∀ active ∈ state.active, active.call = call) (holds : assertion later) :
    Kept call state later assertion where
  sound := sound
  preserves := preserves
  others _ different := {
    own := fun _ active => absurd (alone _ active) different
    preserves := preserves }
  assertion := holds

theorem Holding.alone (holding : Holding call id progress state) : ∀ active ∈ state.active, active.call = call := by
  intro active given
  rw [holding.active] at given
  cases given
  rfl

section Assign

variable {job : Job ι} (there : state.jobs.lookup id = some job) (assignment : Assignment)

include there

theorem DeliveryState.assign_eq :
    state.assign id assignment = { state with jobs := state.jobs.insert id (job.assign assignment) } := by
  rw [assign, there]

theorem DeliveryState.lookup_assign (other : Text) : (state.assign id assignment).jobs.lookup other =
    if other = id then some (job.assign assignment) else state.jobs.lookup other := by
  rw [assign_eq there]
  exact Table.lookup_insert_if _ _ _ _

end Assign

@[simp] theorem Job.assign_artifact (job : Job ι) (assignment : Assignment) :
    (job.assign assignment).artifact = job.artifact := by
  cases assignment <;> rfl

theorem Holding.assign (holding : Holding call id progress state) (sound : state.Sound)
    {assignment : Assignment} {after : Progress}
    (keeps : ∀ job : Job ι, job.Sound id state.events → job.Shows progress →
      (job.assign assignment).Sound id state.events ∧ (job.assign assignment).Shows after)
    (uploads : after.uploads = progress.uploads) (verifications : after.verifications = progress.verifications)
    (receipted : after.receipted = progress.receipted) :
    Kept call state (state.assign id assignment) (Holding call id after) := by
  obtain ⟨job, there, shown⟩ := holding.job
  obtain ⟨soundNow, shownNow⟩ := keeps job (sound.jobs id job there) shown
  have lookup := DeliveryState.lookup_assign there assignment
  have events : (state.assign id assignment).events = state.events := by rw [DeliveryState.assign_eq there]
  have active : (state.assign id assignment).active = state.active := by rw [DeliveryState.assign_eq there]
  have artifact : after.artifact = progress.artifact := by
    rw [← shownNow.artifact, Job.assign_artifact, shown.artifact]
  refine .alone ⟨?_, ?_, ?_⟩ ⟨?_, ?_⟩ holding.alone ⟨active.trans holding.active,
    ⟨_, (lookup id).trans (if_pos rfl), shownNow⟩, by rw [events, holding.uploads, uploads],
    by rw [events, holding.verifications, verifications], ?_⟩
  · intro other found thereNow
    rw [lookup] at thereNow
    rw [events]
    split at thereNow
    next same =>
      cases thereNow
      rw [same]
      exact soundNow
    next => exact sound.jobs other found thereNow
  · intro other missing
    rw [lookup] at missing
    rw [events]
    split at missing
    · cases missing
    · exact sound.unknown other missing
  · intro other found thereNow runs
    rw [active]
    rw [lookup] at thereNow
    split at thereNow
    next same => exact ⟨call, by rw [holding.active, same]⟩
    next => exact sound.running other found thereNow runs
  · intro other found thereBefore
    rw [lookup]
    by_cases same : other = id
    · subst same
      rw [there] at thereBefore
      cases thereBefore
      exact ⟨_, if_pos rfl, Job.assign_artifact ..⟩
    · exact ⟨found, by rw [if_neg same]; exact thereBefore, rfl⟩
  · intro event member
    rw [events]
    exact member
  · intro known
    rw [artifact, events]
    exact holding.receipted (receipted ▸ known)

def DeliveryState.answered (state : DeliveryState ι) (question : Ask) (answer : question.Answer) : DeliveryState ι :=
  { state with events := ⟨question, answer⟩ :: state.events }

section Counts

variable (id) (question : Ask) (answer : question.Answer) (events : List Event)

theorem uploadsOf_cons :
    uploadsOf id (⟨question, answer⟩ :: events) = uploadsOf id events + (question.uploads id).toNat := by
  cases asked : question.uploads id <;> simp [uploadsOf, asked]

theorem verificationsOf_cons :
    verificationsOf id (⟨question, answer⟩ :: events) = verificationsOf id events + (question.verifies id).toNat := by
  cases asked : question.verifies id <;> simp [verificationsOf, asked]

end Counts

theorem Ask.Plain.uploads {question : Ask} (plain : question.Plain) (id : Text) : question.uploads id = false := by
  cases question <;> first | rfl | exact plain.elim

theorem Ask.Plain.verifies {question : Ask} (plain : question.Plain) (id : Text) : question.verifies id = false := by
  cases question <;> first | rfl | exact plain.elim

def Progress.asked (progress : Progress) (id : Text) (question : Ask) : Progress := { progress with
  uploads := progress.uploads + (question.uploads id).toNat
  verifications := progress.verifications + (question.verifies id).toNat }

theorem Progress.asked_plain (progress : Progress) (id : Text) {question : Ask} (plain : question.Plain) :
    progress.asked id question = progress := by
  simp [asked, plain.uploads, plain.verifies]

section

variable (holding : Holding call id progress state) (sound : state.Sound)

include holding sound

-- A question about no other job, after which the own job still tells the truth.
theorem Holding.answered (question : Ask)
    (answer : question.Answer)
    (others : ∀ other, other ≠ id → question.uploads other = false ∧ question.verifies other = false)
    (uploads : uploadsOf id state.events + (question.uploads id).toNat ≤ 1)
    (verifications : verificationsOf id state.events + (question.verifies id).toNat ≤ 1)
    (notUploaded : question.uploads id = true → progress.uploadStarted ≠ none)
    (notVerified : question.verifies id = true → progress.verificationStarted = true) :
    Kept call state (state.answered question answer) (Holding call id (progress.asked id question)) := by
  have more : ∀ event ∈ state.events, event ∈ (state.answered question answer).events :=
    fun event member => List.mem_cons_of_mem _ member
  obtain ⟨job, there, shown⟩ := holding.job
  refine .alone ⟨?_, ?_, sound.running⟩ ⟨fun _ job there => ⟨job, there, rfl⟩, more⟩ holding.alone ⟨holding.active,
    ⟨job, there, shown.uploadStarted, shown.preUploadResume, shown.verificationStarted, shown.artifact⟩, ?_, ?_,
    fun known => (holding.receipted known).mono more⟩
  · intro other found thereNow
    change state.jobs.lookup other = some found at thereNow
    have before := sound.jobs other found thereNow
    have kept : ∀ outcome ∈ found.outcome, outcome.Succeeded →
        Receipted other found.artifact (state.answered question answer).events :=
      fun outcome given succeeded => (before.succeeded outcome given succeeded).mono more
    rw [DeliveryState.answered] at kept ⊢
    by_cases same : other = id
    · subst same
      rw [there] at thereNow
      cases thereNow
      refine ⟨before.named, before.uploadNamed, by rw [uploadsOf_cons]; exact uploads, ?_,
        by rw [verificationsOf_cons]; exact verifications, ?_, before.resumable, kept⟩
      · intro none'
        have quiet : question.uploads other = false := by
          by_contra loud
          exact notUploaded (by simpa using loud) (shown.uploadStarted ▸ none')
        rw [uploadsOf_cons, quiet]
        exact before.notUploaded none'
      · intro unverified
        have quiet : question.verifies other = false := by
          by_contra loud
          have started := notVerified (by simpa using loud)
          rw [← shown.verificationStarted, unverified] at started
          cases started
        rw [verificationsOf_cons, quiet]
        exact before.notVerified unverified
    · obtain ⟨noUpload, noVerification⟩ := others other same
      refine ⟨before.named, before.uploadNamed, ?_, ?_, ?_, ?_, before.resumable, kept⟩
      · rw [uploadsOf_cons, noUpload]
        exact before.uploads
      · rw [uploadsOf_cons, noUpload]
        exact before.notUploaded
      · rw [verificationsOf_cons, noVerification]
        exact before.verifications
      · rw [verificationsOf_cons, noVerification]
        exact before.notVerified
  · intro other missing
    have different : other ≠ id := by
      rintro rfl
      change state.jobs.lookup other = none at missing
      rw [there] at missing
      cases missing
    obtain ⟨noUpload, noVerification⟩ := others other different
    rw [DeliveryState.answered, uploadsOf_cons, verificationsOf_cons, noUpload, noVerification]
    exact sound.unknown other missing
  · rw [DeliveryState.answered, uploadsOf_cons, holding.uploads]
    rfl
  · rw [DeliveryState.answered, verificationsOf_cons, holding.verifications]
    rfl

theorem Holding.answered_plain (question : Ask)
    (answer : question.Answer) (plain : question.Plain) :
    Kept call state (state.answered question answer) (Holding call id progress) := by
  obtain ⟨job, there, -⟩ := holding.job
  have before := sound.jobs id job there
  rw [← progress.asked_plain id plain]
  refine holding.answered sound question answer (fun other _ => ⟨plain.uploads other, plain.verifies other⟩) ?_ ?_ ?_ ?_
  · rw [plain.uploads]
    exact before.uploads
  · rw [plain.verifies]
    exact before.verifications
  · rw [plain.uploads]
    exact nofun
  · rw [plain.verifies]
    exact nofun

theorem Holding.assign_plain {assignment : Assignment} (plain : assignment.Plain) :
    Kept call state (state.assign id assignment) (Holding call id progress) := by
  refine holding.assign sound (fun job sound shown => ?_) rfl rfl rfl
  cases assignment with
  | uploadStarted | preUploadResume | verificationStarted => exact plain.elim
  | outcome value =>
    refine ⟨{ sound with succeeded := ?_ }, ⟨shown.1, shown.2, shown.3, shown.4⟩⟩
    intro outcome given succeeded
    cases given
    cases value with
    | succeeded => exact plain.elim
    | notApplied | rejected | incomplete => exact succeeded.elim
  | _ => exact ⟨⟨sound.1, sound.2, sound.3, sound.4, sound.5, sound.6, sound.7, sound.8⟩,
      ⟨shown.1, shown.2, shown.3, shown.4⟩⟩

end

end LoginomDock.Delivery
