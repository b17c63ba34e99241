import LoginomDock.Delivery.RunSoundness

/-! The turns that start a run and the steps that end it; then every interleaving of the calls of one service. -/

namespace LoginomDock.Delivery

open List DeliveryState

variable {ι : Type} {call : ι} {id : Text} {progress : Progress} {state later : DeliveryState ι}

structure Asked (before after : DeliveryState ι) : Prop where
  jobs : after.jobs = before.jobs
  active : after.active = before.active
  events : ∃ more : List Event, after.events = more ++ before.events ∧ ∀ event ∈ more, event.ask.Plain

namespace Asked

variable {before after : DeliveryState ι}

theorem refl (state : DeliveryState ι) : Asked state state :=
  ⟨rfl, rfl, [], rfl, fun _ member => by cases member⟩

section

variable (asked : Asked before after)

include asked

theorem answered {question : Ask} (plain : question.Plain) (answer : question.Answer) :
    Asked before (after.answered question answer) := by
  obtain ⟨more, events, all⟩ := asked.events
  refine ⟨asked.jobs, asked.active, ⟨question, answer⟩ :: more, congrArg (List.cons _) events, ?_⟩
  intro event member
  rcases mem_cons.mp member with rfl | old
  · exact plain
  · exact all event old

theorem askNow (environment : Environment) (question : Ask) (plain : question.Plain) :
    Asked before (Delivery.askNow environment question after).2 := asked.answered plain _

theorem counts (id : Text) :
    uploadsOf id after.events = uploadsOf id before.events ∧
      verificationsOf id after.events = verificationsOf id before.events := by
  obtain ⟨more, events, all⟩ := asked.events
  have noUpload : uploadsOf id more = 0 := countP_eq_zero.mpr fun event member => by
    simp [(all event member).uploads id]
  have noVerification : verificationsOf id more = 0 := countP_eq_zero.mpr fun event member => by
    simp [(all event member).verifies id]
  rw [events]
  constructor
  · exact (countP_append ..).trans ((congrArg (· + _) noUpload).trans (Nat.zero_add _))
  · exact (countP_append ..).trans ((congrArg (· + _) noVerification).trans (Nat.zero_add _))

theorem mem (event : Event) (member : event ∈ before.events) : event ∈ after.events := by
  obtain ⟨more, events, -⟩ := asked.events
  rw [events]
  exact mem_append_right _ member

theorem preserves : before.Preserves after :=
  ⟨fun _ job there => ⟨job, by rw [asked.jobs, there], rfl⟩, asked.mem⟩

theorem leads (other : ι) : before.Leads other after where
  own id active := ⟨asked.active.trans active, by rw [asked.jobs], (asked.counts id).1, (asked.counts id).2⟩
  preserves := asked.preserves

end

end Asked

theorem Job.Sound.extended {job : Job ι} {events extended : List Event} (sound : job.Sound id events)
    (uploads : uploadsOf id extended = uploadsOf id events)
    (verifications : verificationsOf id extended = verificationsOf id events)
    (more : ∀ event ∈ events, event ∈ extended) : job.Sound id extended where
  named := sound.named
  uploadNamed := sound.uploadNamed
  uploads := uploads ▸ sound.uploads
  notUploaded := uploads ▸ sound.notUploaded
  verifications := verifications ▸ sound.verifications
  notVerified := verifications ▸ sound.notVerified
  resumable := sound.resumable
  succeeded outcome given succeeded := (sound.succeeded outcome given succeeded).mono more

theorem Asked.sound {before after : DeliveryState ι} (asked : Asked before after) (sound : before.Sound) : after.Sound where
  jobs id job there := by
    rw [asked.jobs] at there
    exact (sound.jobs id job there).extended (asked.counts id).1 (asked.counts id).2 asked.mem
  unknown id missing := by
    rw [asked.jobs] at missing
    rw [(asked.counts id).1, (asked.counts id).2]
    exact sound.unknown id missing
  running id job there runs := by
    rw [asked.jobs] at there
    rw [asked.active]
    exact sound.running id job there runs

structure Starts (call : ι) (resumeId : Option Text) (job : Job ι) (start after : DeliveryState ι) : Prop where
  free : start.active = none
  sound : job.Sound job.id start.events
  first : resumeId = none → job.uploadStarted = none
  resumed : resumeId.isSome = true → job.uploadStarted = some true ∨ job.preUploadResume = true
  same : ∀ old, start.jobs.lookup job.id = some old → job.artifact = old.artifact
  after : ∃ middle, Asked start middle ∧ after =
    { middle with jobs := middle.jobs.insert job.id job, active := some ⟨job.id, call⟩ }

def Begun.Follows (call : ι) (resumeId : Option Text) (start : DeliveryState ι) (begun : Begun ι)
    (after : DeliveryState ι) : Prop :=
  match begun with
  | .promise _ => Asked start after
  | .settled snapshot => Asked start after ∧ ∃ id job, start.jobs.lookup id = some job ∧ snapshot = job.snapshot
  | .run job artifact => Starts call resumeId job start after ∧ job.artifact = artifact

section Turns

variable {environment : Environment} {signatures : Signatures} {α : Type} {start : DeliveryState ι}
  {post : α → DeliveryState ι → Prop}

theorem attains_requireNow {condition : Bool} {message : String} {next : Unit → Turn ι α}
    (rest : condition = true → Attains (Asked start) (next ()) post (Asked start)) :
    Attains (Asked start) (requireNow condition message >>= next) post (Asked start) := by
  cases condition with
  | true => exact rest rfl
  | false => exact Attains.throw fun _ asked => asked

theorem attains_asks {β : Type} {asks : StateM (DeliveryState ι) (Except JsError β)} {next : β → Turn ι α}
    (keeps : ∀ state, Asked start state → Asked start (asks state).2)
    (rest : ∀ value, Attains (Asked start) (next value) post (Asked start)) :
    Attains (Asked start) ((ExceptT.mk asks : Turn ι β) >>= next) post (Asked start) := by
  have first : Attains (Asked start) (ExceptT.mk asks : Turn ι β) (fun _ => Asked start) (Asked start) := by
    intro state asked
    have after := keeps state asked
    rcases ran : asks state with ⟨result, later⟩
    rw [ran] at after
    cases result <;> simpa [ExceptT.mk, StateT.run, ExceptT.run, ran] using after
  exact first.bind rest

theorem attains_get {next : DeliveryState ι → Turn ι α}
    (rest : ∀ now, now.jobs = start.jobs → now.active = start.active →
      Attains (Asked start) (next now) post (Asked start)) :
    Attains (Asked start) (get >>= next) post (Asked start) :=
  fun state asked => rest state asked.jobs asked.active state asked

theorem attains_asksLift {β : Type} {asks : StateM (DeliveryState ι) β} {next : β → Turn ι α}
    (keeps : ∀ state, Asked start state → Asked start (asks state).2)
    (rest : ∀ value, Attains (Asked start) (next value) post (Asked start)) :
    Attains (Asked start) ((ExceptT.lift asks : Turn ι β) >>= next) post (Asked start) := by
  have first : Attains (Asked start) (ExceptT.lift asks : Turn ι β) (fun _ => Asked start) (Asked start) :=
    fun state asked => keeps state asked
  exact first.bind rest

theorem attains_deliver (sound : start.Sound) (request : DeliverRequest) :
    Attains (fun state => start = state) (deliver environment signatures call request)
      (Begun.Follows call none start) (Asked start) := by
  have begins : Attains (Asked start) (deliver environment signatures call request)
      (Begun.Follows call none start) (Asked start) := by
    unfold deliver
    refine attains_requireNow fun _ => attains_requireNow fun _ => attains_get fun now jobs active => ?_
    cases known : now.jobs.lookup request.operationId with
    | some previous => exact attains_requireNow fun _ => Attains.pure fun _ asked => asked
    | none =>
      rw [jobs] at known
      obtain ⟨noUpload, noVerification⟩ := sound.unknown _ known
      refine attains_requireNow fun idle => attains_asks (fun _ asked => asked.askNow environment _ trivial) fun _ => ?_
      refine attains_asks (fun _ asked => asked.askNow environment _ trivial) fun artifact => attains_requireNow fun _ => ?_
      refine attains_asks (fun _ asked => asked.askNow environment _ trivial) fun _ => ?_
      refine attains_asksLift (fun _ asked => asked.askNow environment _ trivial) fun clock => ?_
      intro state asked
      refine ⟨⟨?_, ?_, fun _ => rfl, nofun, ?_, state, asked, rfl⟩, rfl⟩
      · rw [← active]
        exact Option.isNone_iff_eq_none.mp idle
      · refine ⟨rfl, rfl, ?_, fun _ => ⟨noUpload, rfl⟩, ?_, fun _ => noVerification, nofun, nofun⟩
        · rw [noUpload]
          exact Nat.zero_le 1
        · rw [noVerification]
          exact Nat.zero_le 1
      · intro old there
        rw [known] at there
        cases there
  exact begins.weaken (fun state same => same ▸ .refl start) fun _ _ held => held

theorem attains_resume (sound : start.Sound) (request : ResumeRequest) :
    Attains (fun state => start = state) (resume environment signatures call request)
      (Begun.Follows call (some request.resumeId) start) (Asked start) := by
  have begins : Attains (Asked start) (resume environment signatures call request)
      (Begun.Follows call (some request.resumeId) start) (Asked start) := by
    unfold resume
    refine attains_requireNow fun _ => attains_requireNow fun _ => attains_get fun now jobs active => ?_
    cases known : now.jobs.lookup request.operationId with
    | none => exact Attains.throw fun _ asked => asked
    | some job =>
      rw [jobs] at known
      have here := sound.jobs _ job known
      dsimp only
      split
      · exact attains_requireNow fun _ => Attains.pure fun _ asked => asked
      · refine attains_requireNow fun idle => attains_asks (fun _ asked => asked.askNow environment _ trivial) fun _ => ?_
        split
        · exact Attains.pure fun _ asked => ⟨asked, _, job, known, rfl⟩
        · refine attains_requireNow fun resumable => ?_
          refine attains_asks (fun _ asked => asked.askNow environment _ trivial) fun artifact => ?_
          refine attains_requireNow fun unchanged => ?_
          refine attains_asks (fun _ asked => asked.askNow environment _ trivial) fun _ => ?_
          refine attains_asksLift (fun _ asked => asked.askNow environment _ trivial) fun clock => ?_
          intro state asked
          refine ⟨⟨?_, ?_, nofun, fun _ => by simpa using resumable, ?_, state, asked, ?_⟩, ?_⟩
          · rw [← active]
            exact Option.isNone_iff_eq_none.mp idle
          · rw [show job.id = request.operationId from here.named]
            exact ⟨rfl, here.2, here.3, here.4, here.5, here.6, here.7, here.8⟩
          · intro old there
            rw [show job.id = request.operationId from here.named, known] at there
            cases there
            rfl
          · rw [show job.id = request.operationId from here.named]
            rfl
          · exact (of_decide_eq_true unchanged).symm
  exact begins.weaken (fun state same => same ▸ .refl start) fun _ _ held => held

end Turns

def Job.standing (job : Job ι) (events : List Event) : Progress where
  uploadStarted := job.uploadStarted
  preUploadResume := job.preUploadResume
  verificationStarted := job.verificationStarted
  artifact := job.artifact
  uploads := uploadsOf job.id events
  verifications := verificationsOf job.id events
  receipted := false

variable {resumeId : Option Text}

theorem Starts.kept {start after : DeliveryState ι} {job : Job ι}
    (starts : Starts call resumeId job start after) (sound : start.Sound) :
    Kept call start after (Holding call job.id (job.standing start.events)) := by
  obtain ⟨free, soundJob, -, -, same, middle, asked, rfl⟩ := starts
  have middleSound := asked.sound sound
  have lookup : ∀ other, (middle.jobs.insert job.id job).lookup other =
      if other = job.id then some job else start.jobs.lookup other := by
    intro other
    rw [Table.lookup_insert_if, asked.jobs]
  have counts := asked.counts
  refine .alone ⟨?_, ?_, ?_⟩ ⟨?_, asked.mem⟩ ?_ ?_
  · intro other found there
    dsimp only at there ⊢
    rw [lookup] at there
    split at there
    next here =>
      cases there
      rw [here]
      exact soundJob.extended (counts _).1 (counts _).2 asked.mem
    next => exact (sound.jobs other found there).extended (counts _).1 (counts _).2 asked.mem
  · intro other missing
    dsimp only at missing ⊢
    rw [lookup] at missing
    split at missing
    · cases missing
    · rw [(counts other).1, (counts other).2]
      exact sound.unknown other missing
  · intro other found there runs
    dsimp only at there ⊢
    rw [lookup] at there
    split at there
    next here => exact ⟨call, by rw [here]⟩
    next =>
      obtain ⟨owner, active⟩ := sound.running other found there runs
      rw [free] at active
      cases active
  · intro other old there
    dsimp only
    rw [lookup]
    split
    next here =>
      rw [here] at there
      exact ⟨job, rfl, same old there⟩
    next => exact ⟨old, there, rfl⟩
  · intro active given
    rw [free] at given
    cases given
  · exact ⟨rfl, ⟨job, (lookup job.id).trans (if_pos rfl), rfl, rfl, rfl, rfl⟩, (counts job.id).1, (counts job.id).2, nofun⟩

structure Settled (call : ι) (id : Text) (state : DeliveryState ι) : Prop where
  active : state.active = some ⟨id, call⟩
  state : ∀ job, state.jobs.lookup id = some job → job.state ≠ .running

theorem Settled.stable (settled : Settled call id state) (leads : state.Leads call later) : Settled call id later := by
  obtain ⟨active, jobs, -, -⟩ := leads.own id settled.active
  exact ⟨active, jobs ▸ settled.state⟩

theorem Holding.settle (holding : Holding call id progress state) (sound : state.Sound) :
    Kept call state (state.assign id (.state .settled)) (Settled call id) := by
  obtain ⟨soundNow, preserves, others, holds⟩ :=
    holding.assign_plain sound (show (Assignment.state .settled).Plain from rfl)
  obtain ⟨job, there, -⟩ := holding.job
  refine ⟨soundNow, preserves, others, holds.active, fun found here => ?_⟩
  rw [lookup_assign there, if_pos rfl] at here
  cases here
  exact fun same => by cases same

theorem Settled.deactivate (settled : Settled call id state) (sound : state.Sound) :
    Kept call state { state with active := none } fun _ => True := by
  refine .alone ⟨sound.jobs, sound.unknown, fun other job there runs => ?_⟩
    ⟨fun _ job there => ⟨job, there, rfl⟩, fun _ member => member⟩ (fun active given => ?_) trivial
  · obtain ⟨owner, active⟩ := sound.running other job there runs
    rw [settled.active] at active
    cases active
    exact absurd runs (settled.state job there)
  · rw [settled.active] at given
    cases given
    rfl

section Service

variable {environment : Environment} {signatures : Signatures} {world : DeliveryWorld ι} {α : Type}

def BackedResult (result : Except JsError Snapshot) (later : DeliveryWorld ι) : Prop :=
  ∀ snapshot, result = .ok snapshot → snapshot.Backed later.state

theorem respects_perform {op : Op ι} {next : op.Res → Prog (Op ι) Op.Res α} {post : α → DeliveryWorld ι → Prop}
    {assertion : DeliveryState ι → Prop}
    (kept : ∀ later : DeliveryState ι, later.Sound → world.state.Leads call later →
      Kept call later ((deliveryMachine environment signatures).handle op later).2 assertion)
    (rest : ∀ answer (later : DeliveryWorld ι), assertion later.state →
      deliveryContract.Respects (deliveryMachine environment signatures) call post (next answer) later) :
    deliveryContract.Respects (deliveryMachine environment signatures) call post (Prog.perform op >>= next) world := by
  intro later sound moves _
  obtain ⟨soundNow, -, others, holds⟩ := kept later.state sound moves
  exact ⟨soundNow, others, rest _ _ holds⟩

theorem respects_currentSnapshot (context : RunContext) :
    deliveryContract.Respects (deliveryMachine environment signatures) call BackedResult
      (currentSnapshot context : DeliveryM ι Snapshot).run world := by
  intro later sound moves _
  refine ⟨sound, fun other _ => .refl other later.state, ?_⟩
  change deliveryContract.Respects _ call BackedResult
    ((defined (later.state.jobs.lookup context.id) >>= fun job => pure job.snapshot : DeliveryM ι Snapshot)).run _
  cases there : later.state.jobs.lookup context.id with
  | none => exact fun last _ _ snapshot fails => by cases fails
  | some job =>
    intro last _ leads snapshot same
    cases same
    exact (sound.backed there).stable (Leads.preserves leads)

-- A run leaves the service free, and reports a success only with its receipt.
theorem Holding.run {job : Job ι}
    (holding : Holding call job.id progress world.state) (named : job.uploadId = uploadIdOf job.id)
    (shown : job.Shows progress) (first : resumeId = none → job.uploadStarted = none)
    (resumed : resumeId.isSome = true → job.uploadStarted = some true ∨ job.preUploadResume = true)
    (resumable : job.preUploadResume = true → job.uploadStarted = none) :
    deliveryContract.Respects (deliveryMachine environment signatures) call BackedResult
      (Delivery.run job progress.artifact resumeId) world := by
  let context := RunContext.of job resumeId
  have opened : deliveryContract.Respects (deliveryMachine environment signatures) call
      (fun _ later => Holding call context.id progress later.state)
      (Delivery.assign context (.start (job.uploadStarted = some true)) : DeliveryM ι Unit).run world := by
    intro later sound leads _
    obtain ⟨soundNow, -, others, holds⟩ := (holding.stable leads).assign_plain sound
      (show (Assignment.start (job.uploadStarted = some true)).Plain from trivial)
    exact ⟨soundNow, others, fun last _ leads => holds.stable leads⟩
  refine opened.bind fun _ later _ held => ?_
  have transfers : Carries environment signatures call context.id (Backs call context.id)
      (Delivery.transfer context progress.artifact) later := by
    refine held.transfer named (fun resumes after => ?_) fun fresh => ?_
    · rw [← shown.uploadStarted]
      rcases resumed resumes with started | before
      · rw [started]
        exact nofun
      · have goes : context.preUploadResume = (resumeId.isSome && job.preUploadResume) := rfl
        rw [goes, show resumeId.isSome = true from resumes, before] at after
        cases after
    · rw [← shown.uploadStarted]
      rcases fresh with none' | before
      · exact first none'
      · exact resumable (Bool.and_eq_true_iff.mp before).2
  have settles : deliveryContract.Respects (deliveryMachine environment signatures) call
      (fun result later => Held call context.id later.state ∧
        ∀ snapshot, result = .ok (some snapshot) → snapshot.Backed later.state)
      (tryCatch (Delivery.transfer context progress.artifact) (Delivery.settleFailure context progress.artifact) :
        DeliveryM ι _).run later := by
    have caught := Contract.Attempts.tryCatch transfers
      (fun _ _ _ leads ended => ⟨ended.1.stable leads, fun snapshot member => (ended.2 snapshot member).stable leads.preserves⟩)
      (fun error last _ held => held.settleFailure progress.artifact error)
    refine Contract.Respects.weaken caught fun result last _ ends => ?_
    cases result with
    | ok ended => exact ⟨ends.1, fun snapshot same => ends.2 snapshot (by cases same; rfl)⟩
    | error error => exact ⟨ends, fun _ same => (by cases same)⟩
  refine settles.bind fun result later _ ⟨⟨now, held⟩, backed⟩ => ?_
  let Answered (state : DeliveryState ι) : Prop := ∀ snapshot, result = .ok (some snapshot) → snapshot.Backed state
  have answered : ∀ {before after : DeliveryState ι}, before.Preserves after → Answered before → Answered after :=
    fun preserves holds snapshot same => (holds snapshot same).stable preserves
  have settle : ∀ last : DeliveryState ι, last.Sound → later.state.Leads call last → Kept call last
      (last.assign job.id (.state .settled)) fun last => Settled call job.id last ∧ Answered last := by
    intro last sound leads
    obtain ⟨soundNow, preserves, others, settled⟩ := (held.stable leads).settle sound
    exact ⟨soundNow, preserves, others, settled, answered preserves (answered leads.preserves backed)⟩
  refine respects_perform settle fun _ later ⟨settled, backed⟩ => ?_
  have deactivate : ∀ last : DeliveryState ι, last.Sound → later.state.Leads call last →
      Kept call last { last with active := none } Answered := by
    intro last sound leads
    obtain ⟨soundNow, preserves, others, -⟩ := (settled.stable leads).deactivate sound
    exact ⟨soundNow, preserves, others, answered preserves (answered leads.preserves backed)⟩
  refine respects_perform deactivate fun _ later backed => ?_
  rcases result with error | - | snapshot
  · exact fun _ _ _ snapshot same => by cases same
  · exact respects_currentSnapshot context
  · intro last _ leads found same
    cases same
    exact answered leads.preserves backed snapshot rfl

-- What a call returns: a snapshot whose success has its receipt, or another promise.
def BackedReply (result : Except JsError (Reply ι)) (later : DeliveryWorld ι) : Prop :=
  ∀ snapshot, result = .ok (.snapshot snapshot) → snapshot.Backed later.state

theorem BackedResult.reply {result : Except JsError Snapshot} {later : DeliveryWorld ι}
    (backed : BackedResult result later) : BackedReply (result.map Reply.snapshot) later := by
  intro snapshot same
  cases result with
  | error error => cases same
  | ok value =>
    cases same
    exact backed _ rfl

theorem BackedReply.stable {result : Except JsError (Reply ι)} {later last : DeliveryWorld ι}
    (backed : BackedReply result later) (leads : later.state.Leads call last.state) : BackedReply result last :=
  fun snapshot same => (backed snapshot same).stable leads.preserves

theorem respects_proceed {start : DeliveryState ι} {result : Except JsError (Begun ι)}
    (sound : start.Sound)
    (follows : ∀ begun, result = .ok begun → begun.Follows call resumeId start world.state)
    (holding : ∀ job artifact, result = .ok (.run job artifact) →
      Holding call job.id (job.standing start.events) world.state) :
    deliveryContract.Respects (deliveryMachine environment signatures) call BackedReply
      (proceed resumeId result) world := by
  rcases result with error | begun
  · exact fun _ _ _ snapshot same => by cases same
  cases begun with
  | promise other => exact fun _ _ _ snapshot same => by cases same
  | settled snapshot =>
    obtain ⟨asked, id, job, there, rfl⟩ := follows _ rfl
    intro last _ leads found same
    cases same
    exact ((sound.backed there).stable asked.preserves).stable (Leads.preserves leads)
  | run job artifact =>
    obtain ⟨starts, rfl⟩ := follows _ rfl
    have running : deliveryContract.Respects (deliveryMachine environment signatures) call BackedResult
        (run job job.artifact resumeId) world :=
      (holding job job.artifact rfl).run starts.sound.uploadNamed ⟨rfl, rfl, rfl, rfl⟩ starts.first starts.resumed
        starts.sound.resumable
    exact running.bind fun result later _ backed last _ leads => backed.reply.stable leads

theorem turn_kept (environment : Environment) (signatures : Signatures) {start : DeliveryState ι} {turn : Turn ι (Begun ι)} (sound : start.Sound)
    (attains : Attains (fun state => start = state) turn (Begun.Follows call resumeId start) (Asked start)) :
    (turn.run start).2.Sound ∧ (∀ other, other ≠ call → start.Leads other (turn.run start).2) ∧
      ∀ world : DeliveryWorld ι, world.state = (turn.run start).2 →
        deliveryContract.Respects (deliveryMachine environment signatures) call BackedReply
          (proceed resumeId (turn.run start).1) world := by
  have ends := attains start rfl
  rcases ran : turn.run start with ⟨result, after⟩
  have reached : StateT.run (ExceptT.run turn) start = (result, after) := ran
  rw [reached] at ends
  dsimp only
  rcases result with error | begun
  · have asked : Asked start after := ends
    exact ⟨asked.sound sound, fun other _ => asked.leads other, fun _ _ _ _ _ snapshot same => by cases same⟩
  have follows : begun.Follows call resumeId start after := ends
  have goes : ∀ (soundNow : after.Sound) (others : ∀ other, other ≠ call → start.Leads other after)
      (holding : ∀ job artifact, begun = .run job artifact → Holding call job.id (job.standing start.events) after),
      after.Sound ∧ (∀ other, other ≠ call → start.Leads other after) ∧
        ∀ world : DeliveryWorld ι, world.state = after →
          deliveryContract.Respects (deliveryMachine environment signatures) call BackedReply
            (proceed resumeId (.ok begun)) world := by
    rintro soundNow others holding
    refine ⟨soundNow, others, ?_⟩
    rintro world rfl
    refine respects_proceed sound (fun _ same => by cases same; exact follows) fun job artifact same => ?_
    exact holding job artifact (by cases same; rfl)
  cases begun with
  | promise other =>
    exact goes (Asked.sound follows sound) (fun other _ => Asked.leads follows other)
      fun _ _ same => by cases same
  | settled snapshot =>
    exact goes (follows.1.sound sound) (fun other _ => follows.1.leads other)
      fun _ _ same => by cases same
  | run job artifact =>
    obtain ⟨soundNow, -, others, holding⟩ := follows.1.kept sound
    exact goes soundNow others fun _ _ same => by cases same; exact holding

theorem respects_serve (request : Request) :
    deliveryContract.Respects (deliveryMachine environment signatures) call BackedReply (serve call request) world := by
  cases request with
  | deliver request =>
    intro later sound _ _
    have attains : Attains (fun state => later.state = state) (deliver environment signatures call request)
        (Begun.Follows call none later.state) (Asked later.state) := attains_deliver sound request
    obtain ⟨soundNow, others, goes⟩ := turn_kept environment signatures sound attains
    exact ⟨soundNow, others, goes _ rfl⟩
  | resume request =>
    intro later sound _ _
    have attains : Attains (fun state => later.state = state) (resume environment signatures call request)
        (Begun.Follows call (some request.resumeId) later.state) (Asked later.state) := attains_resume sound request
    obtain ⟨soundNow, others, goes⟩ := turn_kept environment signatures sound attains
    exact ⟨soundNow, others, goes _ rfl⟩
  | status id =>
    intro later sound _ _
    refine ⟨sound, fun other _ => .refl other later.state, ?_⟩
    have backed : BackedResult (status id later.state) later := by
      intro snapshot same
      rw [status] at same
      cases there : later.state.jobs.lookup id with
      | none =>
        rw [there] at same
        cases same
      | some job =>
        rw [there] at same
        cases same
        exact sound.backed there
    exact fun last _ leads => backed.reply.stable leads

end Service

structure DeliveredOnce (pool : DeliveryPool ι) : Prop where
  uploads : ∀ id, uploadsOf id pool.state.events ≤ 1
  verifications : ∀ id, verificationsOf id pool.state.events ≤ 1
  running : ∀ first second one two, pool.state.jobs.lookup first = some one → pool.state.jobs.lookup second = some two →
    one.state = .running → two.state = .running → first = second
  succeeded : ∀ id job outcome, pool.state.jobs.lookup id = some job → job.outcome = some outcome → outcome.Succeeded →
    Receipted id job.artifact pool.state.events
  reported : ∀ call snapshot, pool.threads call = .done (.ok (.snapshot snapshot)) → snapshot.Backed pool.state

/-- Whatever is requested, in whatever order, and whatever the surroundings answer. -/
theorem delivered_once [DecidableEq ι] (environment : Environment) (signatures : Signatures) (requests : ι → Request)
    {pool : DeliveryPool ι}
    (reached : Pool.Reaches (deliveryMachine environment signatures) (DeliveryPool.initial requests) pool) :
    DeliveredOnce pool := by
  have start : deliveryContract.Holds (deliveryMachine environment signatures) (fun _ => BackedReply)
      (DeliveryPool.initial requests) :=
    ⟨sound_initial, fun call => respects_serve (requests call)⟩
  have holds := start.reaches reached
  have sound : pool.state.Sound := holds.invariant
  refine ⟨fun id => ?_, fun id => ?_, ?_, ?_, ?_⟩
  · cases there : pool.state.jobs.lookup id with
    | none => exact (sound.unknown id there).1 ▸ Nat.zero_le 1
    | some job => exact (sound.jobs id job there).uploads
  · cases there : pool.state.jobs.lookup id with
    | none => exact (sound.unknown id there).2 ▸ Nat.zero_le 1
    | some job => exact (sound.jobs id job there).verifications
  · intro first second one two inFirst inSecond runsFirst runsSecond
    obtain ⟨call, active⟩ := sound.running first one inFirst runsFirst
    obtain ⟨other, same⟩ := sound.running second two inSecond runsSecond
    rw [active] at same
    cases same
    rfl
  · exact fun id job outcome there given succeeded => (sound.jobs id job there).succeeded outcome given succeeded
  · exact fun call snapshot ended => holds.finished ended snapshot rfl

namespace DeliveredFile

def artifact : Artifact := ⟨"file", 3, "hash", ⟨"grant", "/in", "/in/f", "reject"⟩⟩

def element (tid : String) : UiElement := ⟨"ref", some tid.toList, [], [], none, none, none⟩

def opened : Observation where
  observationId := "seen"
  domEpoch := some ⟨some "document".toList, []⟩
  workflowRef := some ⟨some "W".toList, []⟩
  activeTabRef := none
  fileStorage := some ⟨"observed", "/in"⟩
  elements := [element "W;FileStorageForm;tbl", element "W;NavigationBar;NavigationPanel"]
  dialogs := []
  masks := []
  nextCursor := none

def copy : ServerCopy := ⟨some true, some true, some "/in/f".toList, some 3, some "hash".toList, none⟩

def receipt : Receipt :=
  ⟨none, some "SUCCEEDED".toList, none, none, some true, some ⟨some true, none, some true, some copy⟩⟩

def environment : Environment := fun _ question =>
  match question with
  | .getUploadGrant _ _ => .ok artifact
  | .admitOperation _ _ | .admitResume _ _ _ _ _ | .throwIfAborted => .ok ()
  | .now => (0 : Int)
  | .sleep _ => ()
  | .record entry => .ok ⟨some entry.phase, some entry.operationId⟩
  | .observe _ => .ok ⟨"SUCCEEDED", none, some opened⟩
  | .uiAct _ => .ok ⟨some "SUCCEEDED".toList, some true⟩
  | .inspect _ => .ok ⟨some ⟨none, some "resolved".toList, some true, some receipt⟩⟩
  | .uploadDeliveredArtifact _ | .verifyDeliveredArtifact _ => .ok receipt

def signatures : Signatures := ⟨fun artifactId grantId _ => artifactId ++ grantId, ResumeRequest.resumeId⟩

instance : ∀ op state, Decidable ((deliveryMachine (ι := Unit) environment signatures).enabled op state) :=
  fun _ _ => .isTrue trivial

def ended : DeliveryPool Unit :=
  Pool.follow (deliveryMachine environment signatures) (List.replicate 120 ())
    (DeliveryPool.initial fun _ => .deliver ⟨"d", "file", "grant", 5000⟩)

/-- The run is over, and the runtime was asked once for each. -/
theorem file_delivered_once : DeliveredOnce ended ∧ uploadsOf "d" ended.state.events = 1 ∧
    verificationsOf "d" ended.state.events = 1 :=
  ⟨delivered_once environment signatures _ (Pool.reaches_follow _ _ _), rfl, rfl⟩

end DeliveredFile

end LoginomDock.Delivery
