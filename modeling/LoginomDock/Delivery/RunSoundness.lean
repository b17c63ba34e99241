import LoginomDock.Delivery.JobSoundness

namespace LoginomDock.Delivery

open Delivery

variable {ι : Type} {call : ι} {id : Text} {progress : Progress} {state later : DeliveryState ι}

theorem Kept.unchanged {assertion : DeliveryState ι → Prop} (sound : state.Sound) (holds : assertion state) :
    Kept call state state assertion :=
  ⟨sound, .refl state, fun other _ => .refl other state, holds⟩

theorem Holding.plain (holding : Holding call id progress state) (sound : state.Sound) {op : Op ι}
    (plain : op.Plain id) (environment : Environment) (signatures : Signatures) :
    Kept call state ((deliveryMachine environment signatures).handle op state).2 (Holding call id progress) := by
  cases op with
  | deliver | resume | deactivate => exact plain.elim
  | status | read => exact .unchanged sound holding
  | ask question => exact holding.answered_plain sound question _ plain
  | assign target assignment =>
    obtain ⟨rfl, plain⟩ := plain
    exact holding.assign_plain sound plain

section Procedures

variable {environment : Environment} {signatures : Signatures} {α β : Type} {world : DeliveryWorld ι}

-- A procedure of the run of that job: where it throws, the call still holds the job.
abbrev Carries (environment : Environment) (signatures : Signatures) (call : ι) (id : Text)
    (post : α → DeliveryState ι → Prop) (program : DeliveryM ι α) (world : DeliveryWorld ι) : Prop :=
  deliveryContract.Attempts (deliveryMachine environment signatures) call (fun value later => post value later.state)
    (fun _ later => Held call id later.state) program world

variable {post : α → DeliveryState ι → Prop}

theorem Carries.bind {after : β → DeliveryState ι → Prop} {program : DeliveryM ι α}
    {next : α → DeliveryM ι β} (first : Carries environment signatures call id post program world)
    (rest : ∀ value (later : DeliveryWorld ι), later.state.Sound → post value later.state →
      Carries environment signatures call id after (next value) later) :
    Carries environment signatures call id after (program >>= next) world :=
  Contract.Attempts.bind first (fun _ _ _ moves held => held.stable moves) rest

theorem Carries.pure {value : α}
    (holds : ∀ later : DeliveryState ι, world.state.Leads call later → post value later) :
    Carries environment signatures call id post (Pure.pure value) world :=
  Contract.Attempts.pure fun later moves => holds later.state moves

theorem Carries.throw {error : JsError} (held : Held call id world.state) :
    Carries environment signatures call id post (MonadExcept.throw error) world :=
  Contract.Attempts.throw fun _ moves => held.stable moves

theorem Carries.perform (op : Op ι) {post : op.Res → DeliveryState ι → Prop}
    (kept : ∀ later : DeliveryState ι, later.Sound → world.state.Leads call later →
      Kept call later ((deliveryMachine environment signatures).handle op later).2
        (post ((deliveryMachine environment signatures).handle op later).1))
    (stable : ∀ answer (before later : DeliveryState ι), before.Leads call later → post answer before →
      post answer later) :
    Carries environment signatures call id post (ExceptT.lift (Prog.perform op)) world := by
  intro later sound moves _
  obtain ⟨soundNow, -, others, holds⟩ := kept later.state sound moves
  exact ⟨soundNow, others, fun last _ movesOn => stable _ _ _ movesOn holds⟩

theorem Holding.navigates {program : DeliveryM ι α} (holding : Holding call id progress world.state)
    (navigates : Navigates id program) :
    Carries environment signatures call id (fun _ => Holding call id progress) program world := by
  have lasts : deliveryContract.Respects (deliveryMachine environment signatures) call
      (fun result later => Prog.Ends (fun _ => True) (fun _ => True) result ∧ Holding call id progress later.state)
      program.run world :=
    .of_within (fun _ _ _ moves holding => Holding.stable holding moves)
      (fun op before sound holding plain _ => by
        obtain ⟨soundNow, -, others, holds⟩ := Holding.plain holding sound plain environment signatures
        exact ⟨soundNow, others, holds⟩)
      navigates holding
  refine lasts.weaken fun result later _ holds => ?_
  cases result with
  | ok value => exact holds.2
  | error error => exact ⟨progress, holds.2⟩

end Procedures

def Snapshot.Backed (snapshot : Snapshot) (state : DeliveryState ι) : Prop :=
  ∀ outcome ∈ snapshot.outcome, outcome.Succeeded → ∃ job, state.jobs.lookup snapshot.operationId = some job ∧
    Receipted snapshot.operationId job.artifact state.events

theorem Snapshot.Backed.stable {snapshot : Snapshot} (backed : snapshot.Backed state) (preserves : state.Preserves later) :
    snapshot.Backed later := by
  intro outcome given succeeded
  obtain ⟨job, there, receipted⟩ := backed outcome given succeeded
  obtain ⟨last, found, same⟩ := preserves.admitted _ job there
  exact ⟨last, found, same ▸ receipted.mono preserves.events⟩

theorem DeliveryState.Sound.backed (sound : state.Sound) {job : Job ι} (there : state.jobs.lookup id = some job) :
    job.snapshot.Backed state := by
  have here := sound.jobs id job there
  intro outcome given succeeded
  have named : job.snapshot.operationId = id := here.named
  rw [named]
  exact ⟨job, there, here.succeeded outcome given succeeded⟩

section

variable (holding : Holding call id progress state)

include holding

theorem Holding.learn (receipted : Receipted id progress.artifact state.events) :
    Holding call id { progress with receipted := true } state where
  __ := holding
  job := by
    obtain ⟨job, there, shown⟩ := holding.job
    exact ⟨job, there, shown.1, shown.2, shown.3, shown.4⟩
  receipted _ := receipted

theorem Holding.notUploaded (sound : state.Sound)
    (none' : progress.uploadStarted = none) : progress.uploads = 0 ∧ progress.verificationStarted = false := by
  obtain ⟨job, there, shown⟩ := holding.job
  obtain ⟨uploads, unverified⟩ := (sound.jobs id job there).notUploaded (shown.uploadStarted.trans none')
  exact ⟨holding.uploads ▸ uploads, shown.verificationStarted ▸ unverified⟩

theorem Holding.notVerified (sound : state.Sound)
    (unverified : progress.verificationStarted = false) : progress.verifications = 0 := by
  obtain ⟨job, there, shown⟩ := holding.job
  exact holding.verifications ▸ (sound.jobs id job there).notVerified (shown.verificationStarted.trans unverified)

end

section Run

variable {environment : Environment} {signatures : Signatures} {α β : Type} {world : DeliveryWorld ι}
  {context : RunContext}

variable {after : β → DeliveryState ι → Prop}

theorem Holding.carries {program : DeliveryM ι α} {next : α → DeliveryM ι β} (holding : Holding call id progress world.state) (first : Navigates id program)
    (rest : ∀ value (later : DeliveryWorld ι), Holding call id progress later.state →
      Carries environment signatures call id after (next value) later) :
    Carries environment signatures call id after (program >>= next) world :=
  (holding.navigates first).bind fun value later _ held => rest value later held

theorem Holding.requires {condition : Bool} {message : String} {next : Unit → DeliveryM ι β} (holding : Holding call id progress world.state)
    (rest : condition = true → Carries environment signatures call id after (next ()) world) :
    Carries environment signatures call id after (requireValue condition message >>= next) world := by
  cases condition with
  | true => exact rest rfl
  | false => exact Carries.throw ⟨_, holding⟩

theorem Holding.readJob (holding : Holding call context.id progress world.state) :
    Carries environment signatures call context.id
      (fun job later => Holding call context.id progress later ∧ job.Shows progress ∧ job.snapshot.Backed later)
      (readJob context) world := by
  have read : Carries environment signatures call context.id
      (fun found later => Holding call context.id progress later ∧
        ∃ job, found = some job ∧ job.Shows progress ∧ job.snapshot.Backed later)
      (ExceptT.lift (Prog.perform (Op.read context.id : Op ι))) world := by
    refine .perform (Op.read context.id) (fun later sound leads => .unchanged sound ⟨holding.stable leads, ?_⟩) ?_
    · obtain ⟨job, there, shown⟩ := (holding.stable leads).job
      exact ⟨job, there, shown, sound.backed there⟩
    · rintro found before later leads ⟨held, job, there, shown, backed⟩
      exact ⟨held.stable leads, job, there, shown, backed.stable leads.preserves⟩
  refine read.bind fun found later _ ⟨held, job, there, shown, backed⟩ => ?_
  subst there
  exact .pure fun last leads => ⟨held.stable leads, shown, backed.stable leads.preserves⟩

theorem Holding.snapshot (holding : Holding call context.id progress world.state) :
    Carries environment signatures call context.id
      (fun snapshot later => Held call context.id later ∧ snapshot.Backed later) (currentSnapshot context) world :=
  holding.readJob.bind fun _ _ _ ⟨held, _, backed⟩ =>
    .pure fun _ leads => ⟨⟨_, held.stable leads⟩, backed.stable leads.preserves⟩

theorem Holding.assigns (assignment : Assignment) (after : Progress)
    (holding : Holding call context.id progress world.state)
    (keeps : ∀ (later : DeliveryState ι) (job : Job ι), Holding call context.id progress later →
      job.Sound context.id later.events → job.Shows progress →
        (job.assign assignment).Sound context.id later.events ∧ (job.assign assignment).Shows after)
    (uploads : after.uploads = progress.uploads) (verifications : after.verifications = progress.verifications)
    (receipted : after.receipted = progress.receipted) :
    Carries environment signatures call context.id (fun _ => Holding call context.id after)
      (Delivery.assign context assignment) world := by
  refine .perform (Op.assign context.id assignment) (fun later sound leads => ?_) fun _ _ _ leads held => held.stable leads
  have here := holding.stable leads
  exact here.assign sound (fun job => keeps later job here) uploads verifications receipted

def Progress.inspected (progress : Progress) (final : Inspection) : Progress :=
  { progress with receipted := progress.receipted || (provenCopy progress.artifact final).isSome }

theorem Progress.inspected_receipted (progress : Progress) (final : Inspection)
    (shown : (provenCopy progress.artifact final).isSome) : (progress.inspected final).receipted = true := by
  rw [inspected, shown, Bool.or_true]

theorem Holding.inspect (own : context.uploadId = uploadIdOf context.id)
    (holding : Holding call context.id progress world.state) :
    Carries environment signatures call context.id
      (fun final => Holding call context.id (progress.inspected final)) (inspect context) world := by
  have asked : Carries environment signatures call context.id
      (fun answer later => Holding call context.id progress later ∧
        (⟨.inspect context.uploadId, answer⟩ : Event) ∈ later.events)
      (Delivery.ask (.inspect context.uploadId)) world := by
    refine .perform (Op.ask (.inspect context.uploadId)) (fun later sound leads => ?_) fun _ _ _ leads held =>
      ⟨held.1.stable leads, leads.preserves.events _ held.2⟩
    obtain ⟨soundNow, preserves, others, holds⟩ := (holding.stable leads).answered_plain sound
      (.inspect context.uploadId) (environment later.events _) trivial
    exact ⟨soundNow, preserves, others, holds, List.mem_cons_self⟩
  refine asked.bind fun answer later _ ⟨held, known⟩ => ?_
  cases answer with
  | error error => exact .throw ⟨_, held⟩
  | ok final =>
    refine .pure fun last leads => Holding.stable ?_ leads
    rw [Progress.inspected]
    cases proven : provenCopy progress.artifact final with
    | none =>
      rw [Option.isSome_none, Bool.or_false]
      exact held
    | some copy =>
      rw [Option.isSome_some, Bool.or_true]
      exact held.learn ⟨final, own ▸ known, shows_of_provenCopy proven⟩

theorem Holding.finish {final : Inspection} (holding : Holding call context.id progress world.state)
    (known : (provenCopy progress.artifact final).isSome → progress.receipted = true) :
    Carries environment signatures call context.id (fun _ => Held call context.id)
      (Delivery.finish context progress.artifact final) world := by
  unfold Delivery.finish
  cases proven : provenCopy progress.artifact final with
  | none => exact .throw ⟨_, holding⟩
  | some proof =>
    refine holding.carries (.acknowledge context _ _) fun _ later held => ?_
    refine (held.assigns (.outcome _) progress ?_ rfl rfl rfl).bind fun _ later _ held => ?_
    · intro later job here sound shown
      refine ⟨{ sound with succeeded := ?_ }, ⟨shown.1, shown.2, shown.3, shown.4⟩⟩
      intro _ _ _
      rw [Job.assign_artifact, shown.artifact]
      exact here.receipted (known (by rw [proven]; rfl))
    refine held.carries (.assign context trivial) fun _ later held => ?_
    have last : (Assignment.error none).Plain := trivial
    exact (held.navigates (.assign context last)).weaken (fun _ _ _ held => ⟨_, held⟩) fun _ _ _ held => held

-- What the first part of a run leaves: its last answer, or an upload that nobody verified.
def Stage.Ready (call : ι) (id : Text) (artifact : Artifact) (stage : Stage) (state : DeliveryState ι) : Prop :=
  match stage with
  | .ended snapshot => Held call id state ∧ snapshot.Backed state
  | .uploaded _ _ => ∃ progress, Holding call id progress state ∧ progress.uploadStarted ≠ none ∧
      progress.verificationStarted = false ∧ progress.artifact = artifact

def Backs (call : ι) (id : Text) (ended : Option Snapshot) (state : DeliveryState ι) : Prop :=
  Held call id state ∧ ∀ snapshot ∈ ended, snapshot.Backed state

theorem Held.backs (held : Held call id state) : Backs call id none state := ⟨held, fun _ same => (by cases same)⟩

theorem Held.ends {artifact : Artifact} (held : Held call context.id world.state) :
    Carries environment signatures call context.id (Stage.Ready call context.id artifact)
      (do
        let snapshot ← currentSnapshot context
        pure (.ended snapshot)) world := by
  obtain ⟨progress, holding⟩ := held
  exact holding.snapshot.bind fun snapshot later _ ⟨held, backed⟩ =>
    .pure fun last leads => ⟨held.stable leads, backed.stable leads.preserves⟩

theorem Holding.resumeUpload (own : context.uploadId = uploadIdOf context.id)
    (holding : Holding call context.id progress world.state) (started : progress.uploadStarted ≠ none)
    (resumeId : Text) :
    Carries environment signatures call context.id (Stage.Ready call context.id progress.artifact)
      (resumeUpload context progress.artifact resumeId) world := by
  refine holding.carries (.readJob context) fun job later held => ?_
  refine held.carries (.acknowledge context _ _) fun _ later held => ?_
  refine held.carries (.check context) fun _ later held => ?_
  refine (held.inspect own).bind fun inspected later _ held => ?_
  refine held.carries (.acknowledge context _ _) fun _ later held => ?_
  refine held.carries (.ownOutcome context _ _) fun upload later held => ?_
  split
  · refine (held.finish (Progress.inspected_receipted progress inspected)).bind fun _ later _ ended => ?_
    obtain ⟨last, held⟩ := ended
    exact held.carries (.assign context rfl) fun _ later held => Held.ends ⟨_, held⟩
  · refine held.readJob.bind fun job later _ ⟨held, shown, _⟩ => ?_
    refine held.requires fun unverified => .pure fun last leads => ⟨_, held.stable leads, started, ?_, rfl⟩
    rw [← shown.verificationStarted]
    simpa using unverified

theorem Holding.openDestination (holding : Holding call context.id progress world.state) (artifact : Artifact) :
    Carries environment signatures call context.id
      (fun _ => Holding call context.id { progress with preUploadResume := false })
      (Delivery.openDestination context artifact) world := by
  refine holding.carries (.acknowledge context _ _) fun _ later held => ?_
  refine held.carries (.assign context trivial) fun _ later held => ?_
  refine held.carries (.roots context) fun r later held => ?_
  refine held.carries (.requireValue _ _) fun _ later held => ?_
  refine held.carries (.readJob context) fun job later held => ?_
  refine held.carries (.requireValue _ _) fun _ later held => ?_
  refine held.carries (.assign context trivial) fun _ later held => ?_
  refine (held.assigns (.preUploadResume false) { progress with preUploadResume := false } ?_ rfl rfl rfl).bind
    fun _ later _ held => ?_
  · intro later job here sound shown
    exact ⟨{ sound with resumable := nofun }, shown.1, rfl, shown.3, shown.4⟩
  refine held.navigates (.bind (.openStorage context r) fun _ => .bind (.directory context none) fun s => ?_)
  refine .bind (.requireValue _ _) fun _ => .bind (.openDirectory context _ s) fun s => ?_
  exact .bind (.requireValue _ _) fun _ => .pure s

theorem uploadIdOf_inj {first second : Text} (same : uploadIdOf first = uploadIdOf second) : first = second :=
  List.append_cancel_right same

theorem verificationIdOf_inj {first second : Text} (same : verificationIdOf first = verificationIdOf second) :
    first = second :=
  List.append_cancel_right same

theorem Holding.askUpload (own : context.uploadId = uploadIdOf context.id)
    (holding : Holding call context.id progress world.state) (started : progress.uploadStarted ≠ none)
    (noUpload : progress.uploads = 0) (artifactId grantId observationId : Text) :
    Carries environment signatures call context.id (fun _ => Holding call context.id { progress with uploads := 1 })
      (ask (.uploadDeliveredArtifact ⟨artifactId, grantId, observationId, context.uploadId⟩)) world := by
  refine .perform (Op.ask (.uploadDeliveredArtifact ⟨artifactId, grantId, observationId, context.uploadId⟩))
    (fun later sound leads => ?_) fun _ _ _ leads held => held.stable leads
  have here := holding.stable leads
  obtain ⟨job, there, -⟩ := here.job
  have uploads : Ask.uploads context.id (.uploadDeliveredArtifact
      ⟨artifactId, grantId, observationId, context.uploadId⟩) = true := by
    rw [own]
    exact decide_eq_true rfl
  have step := here.answered sound
    (.uploadDeliveredArtifact ⟨artifactId, grantId, observationId, context.uploadId⟩) (environment later.events _)
    (fun other different => ⟨?_, rfl⟩) ?_ (sound.jobs _ job there).verifications (fun _ => started) nofun
  · rw [Progress.asked, uploads, noUpload] at step
    exact step
  · exact decide_eq_false fun same => different (uploadIdOf_inj (same.symm.trans own))
  · rw [uploads, here.uploads, noUpload]
    exact le_refl 1

theorem Holding.askVerification
    (holding : Holding call context.id progress world.state) (started : progress.verificationStarted = true)
    (noVerification : progress.verifications = 0) (observationId : Text) :
    Carries environment signatures call context.id
      (fun _ => Holding call context.id { progress with verifications := 1 })
      (ask (.verifyDeliveredArtifact ⟨context.uploadId, verificationIdOf context.id, observationId⟩)) world := by
  refine .perform (Op.ask (.verifyDeliveredArtifact ⟨context.uploadId, verificationIdOf context.id, observationId⟩))
    (fun later sound leads => ?_) fun _ _ _ leads held => held.stable leads
  have here := holding.stable leads
  obtain ⟨job, there, -⟩ := here.job
  have verifies : Ask.verifies context.id (.verifyDeliveredArtifact
      ⟨context.uploadId, verificationIdOf context.id, observationId⟩) = true := decide_eq_true rfl
  have step := here.answered sound
    (.verifyDeliveredArtifact ⟨context.uploadId, verificationIdOf context.id, observationId⟩)
    (environment later.events _) (fun other different => ⟨rfl, ?_⟩) (sound.jobs _ job there).uploads ?_ nofun
    (fun _ => started)
  · rw [Progress.asked, verifies, noVerification] at step
    exact step
  · exact decide_eq_false fun same => different (verificationIdOf_inj same.symm)
  · rw [verifies, here.verifications, noVerification]
    exact le_refl 1

section

variable (own : context.uploadId = uploadIdOf context.id)

include own

section

variable (holding : Holding call context.id progress world.state)

include holding

theorem Holding.submitUpload (fresh : progress.uploadStarted = none)
    (begun : progress.preUploadResume = false) (s : Observation) :
    Carries environment signatures call context.id (Stage.Ready call context.id progress.artifact)
      (Delivery.submitUpload context progress.artifact s) world := by
  refine (holding.navigates (.check context)).bind fun _ later sound held => ?_
  obtain ⟨noUpload, unverified⟩ := held.notUploaded sound fresh
  have noVerification := held.notVerified sound unverified
  refine held.carries (.assign context trivial) fun _ later held => ?_
  have noting : ∀ (value : Bool) (now : Progress) (later : DeliveryState ι) (job : Job ι), now.preUploadResume = false →
      job.Sound context.id later.events → job.Shows now →
        (job.assign (.uploadStarted value)).Sound context.id later.events ∧
          (job.assign (.uploadStarted value)).Shows { now with uploadStarted := some value } := by
    intro value now later job begun sound shown
    refine ⟨{ sound with notUploaded := nofun, resumable := fun resumes => ?_ }, rfl, shown.2, shown.3, shown.4⟩
    change job.preUploadResume = true at resumes
    rw [shown.preUploadResume, begun] at resumes
    cases resumes
  refine (held.assigns (.uploadStarted true) { progress with uploadStarted := some true }
    (fun later job _ => noting true progress later job begun) rfl rfl rfl).bind fun _ later _ held => ?_
  refine held.carries (.assign context trivial) fun _ later held => ?_
  refine (held.askUpload own nofun noUpload _ _ _).bind fun answer later _ held => ?_
  refine held.carries (.raise _) fun upload later held => ?_
  refine held.carries (.acknowledge context _ _) fun _ later held => ?_
  split
  · refine (held.assigns (.uploadStarted false) { progress with uploadStarted := some false, uploads := 1 }
      (fun later job _ => noting false _ later job begun) rfl rfl rfl).bind fun _ later _ held => ?_
    refine held.carries (.acknowledge context _ _) fun _ later held => ?_
    refine held.carries (.assign context trivial) fun _ later held => ?_
    refine held.carries (.assign context trivial) fun _ later held => ?_
    refine held.carries (.assign context rfl) fun _ later held => ?_
    exact held.carries (.assign context trivial) fun _ later held => Held.ends ⟨_, held⟩
  · refine held.carries (.check context) fun _ later held => ?_
    split
    · refine held.carries (.check context) fun _ later held => ?_
      refine (held.inspect own).bind fun inspected later _ held => ?_
      refine held.carries (.ownOutcome context _ _) fun outcome later held => ?_
      refine held.carries (.acknowledge context _ _) fun _ later held => ?_
      exact .pure fun last leads => ⟨_, held.stable leads, nofun, unverified, rfl⟩
    · exact .pure fun last leads => ⟨_, held.stable leads, nofun, unverified, rfl⟩

theorem Holding.verifyUpload (started : progress.uploadStarted ≠ none)
    (unverified : progress.verificationStarted = false) (upload : Receipt) (inspected : Option Inspection) :
    Carries environment signatures call context.id (Backs call context.id)
      (Delivery.verifyUpload context progress.artifact upload inspected) world := by
  unfold Delivery.verifyUpload
  split
  · refine holding.carries (.acknowledge context _ _) fun _ later held => ?_
    refine held.carries (.assign context trivial) fun _ later held => ?_
    refine held.carries (.assign context trivial) fun _ later held => ?_
    refine held.carries (.assign context rfl) fun _ later held => ?_
    refine held.snapshot.bind fun snapshot later _ ⟨held, backed⟩ => .pure fun last leads => ⟨held.stable leads, ?_⟩
    rintro _ ⟨⟩
    exact backed.stable leads.preserves
  · refine holding.carries (.requireValue _ _) fun _ later held => ?_
    refine held.carries (.inspectedOr context inspected) fun inspected later held => ?_
    refine held.carries (.requireValue _ _) fun _ later held => ?_
    refine held.carries (.assign context trivial) fun _ later held => ?_
    refine held.carries (.directory context none) fun destination later held => ?_
    refine held.carries (.requireValue _ _) fun _ later held => ?_
    refine held.carries (.readJob context) fun job later held => ?_
    refine held.carries (.requireValue _ _) fun _ later held => ?_
    refine (held.navigates (.check context)).bind fun _ later sound held => ?_
    have noVerification := held.notVerified sound unverified
    refine (held.assigns .verificationStarted { progress with verificationStarted := true } ?_ rfl rfl rfl).bind
      fun _ later _ held => ?_
    · intro later job here sound shown
      refine ⟨{ sound with notUploaded := fun none' => ?_, notVerified := nofun }, shown.1, shown.2, rfl, shown.4⟩
      exact absurd (shown.uploadStarted ▸ none') started
    refine (held.askVerification rfl noVerification _).bind fun answer later _ held => ?_
    refine held.carries (.raise _) fun verification later held => ?_
    refine held.carries (.requireValue _ _) fun _ later held => ?_
    refine held.carries (.check context) fun _ later held => ?_
    refine (held.inspect own).bind fun final later _ held => ?_
    let verified : Progress := { progress with verificationStarted := true, verifications := 1 }
    have finished : ∀ later : DeliveryWorld ι, Holding call context.id (verified.inspected final) later.state →
        Carries environment signatures call context.id
          (Backs call context.id)
          (do
            Delivery.finish context progress.artifact final
            pure none) later := fun later held =>
      (held.finish (verified.inspected_receipted final)).bind fun _ last _ held =>
        .pure fun last leads => (held.stable leads).backs
    split
    · exact held.carries (.acknowledge context _ _) fun _ later held => finished later held
    · exact finished later held

theorem Holding.submit (fresh : progress.uploadStarted = none) :
    Carries environment signatures call context.id (Stage.Ready call context.id progress.artifact)
      (submit context progress.artifact) world :=
  (holding.openDestination progress.artifact).bind fun s _ _ held => held.submitUpload own fresh rfl s

theorem Holding.transfer
    (resumed : context.resumeId.isSome = true → context.preUploadResume = false → progress.uploadStarted ≠ none)
    (fresh : context.resumeId = none ∨ context.preUploadResume = true → progress.uploadStarted = none) :
    Carries environment signatures call context.id (Backs call context.id)
      (transfer context progress.artifact) world := by
  have obtained : Carries environment signatures call context.id (Stage.Ready call context.id progress.artifact)
      (obtainReceipt context progress.artifact) world := by
    unfold obtainReceipt
    split
    next resumeId given =>
      split
      next before => exact holding.submit own (fresh (.inr before))
      next after =>
        exact holding.resumeUpload own (resumed (by rw [given]; rfl) (by simpa using after)) resumeId
    next first => exact holding.submit own (fresh (.inl first))
  refine obtained.bind fun stage later _ ready => ?_
  cases stage with
  | ended snapshot =>
    refine .pure fun last leads => ⟨ready.1.stable leads, ?_⟩
    rintro _ ⟨⟩
    exact ready.2.stable leads.preserves
  | uploaded upload inspected =>
    obtain ⟨now, held, started, unverified, same⟩ := ready
    rw [← same]
    exact held.verifyUpload own started unverified upload inspected

end

end

theorem Held.settleFailure (held : Held call context.id world.state) (artifact : Artifact) (error : JsError) :
    Carries environment signatures call context.id (Backs call context.id)
      (Delivery.settleFailure context artifact error) world := by
  obtain ⟨progress, holding⟩ := held
  refine holding.readJob.bind fun job later _ ⟨held, shown, _⟩ => ?_
  have settled : ∀ (now : Progress) (failure) (outcome : Outcome) (later : DeliveryWorld ι),
      Holding call context.id now later.state → outcome.Unproven → Carries environment signatures call context.id
        (Backs call context.id)
        (do
          Delivery.assign context (.error failure)
          Delivery.assign context (.outcome outcome)
          pure none) later := by
    intro now failure outcome later held unproven
    refine held.carries (.assign context trivial) fun _ later held => ?_
    refine held.carries (.assign context unproven) fun _ later held => ?_
    exact .pure fun last leads => Held.backs ⟨_, held.stable leads⟩
  have incomplete : ∀ effect submitted uploadId required,
      (Outcome.incomplete effect submitted uploadId required).Unproven := fun _ _ _ _ => trivial
  dsimp only
  split
  next resumable =>
    have fresh : progress.uploadStarted = none := by
      rw [← shown.uploadStarted]
      exact (of_decide_eq_true resumable).1
    refine held.carries (.acknowledge context _ _) fun _ later held => ?_
    refine (held.assigns (.preUploadResume true) { progress with preUploadResume := true } ?_ rfl rfl rfl).bind
      fun _ later _ held => settled _ _ _ later held (incomplete ..)
    intro later job here sound shown
    exact ⟨{ sound with resumable := fun _ => shown.uploadStarted.trans fresh }, shown.1, rfl, shown.3, shown.4⟩
  next => exact settled _ _ _ later held (incomplete ..)

end Run

end LoginomDock.Delivery
