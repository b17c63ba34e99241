import LoginomDock.Delivery.Surroundings
import LoginomDock.Library.Interleave
import LoginomDock.Library.Stateful

namespace LoginomDock.Delivery

variable {ι : Type}

inductive JobState where
  | running | settled
deriving DecidableEq

inductive Phase where
  | prepared | destination | upload | notApplied | rejected | verify | completed
deriving DecidableEq

-- The tab in which the upload was submitted.
structure Binding where
  document : Option Text
  workflowRef : Option WorkflowRef
  activeTabRef : Option Text

-- The last three only where the destination could not be opened.
structure DeliveryError where
  code : Text
  message : Text
  artifactId : Option Text := none
  directory : Option Text := none
  storageEntry : Option UnavailableEntry := none

structure Resumption (ι : Type) where
  signature : Text
  promise : ι

/-- `submitted` and `effectPossible` are the variables that a run shares with its catch block. -/
structure Job (ι : Type) where
  artifact : Artifact
  resumeRequests : Table Text (Resumption ι) := ∅
  id : Text
  uploadId : Text
  signature : Text
  promise : ι
  state : JobState := .running
  phase : Phase := .prepared
  deadline : Int
  uploadStarted : Option Bool := none
  preUploadResume : Bool := false
  verificationStarted : Bool := false
  navigationUncertain : Bool := false
  navigationStep : Nat := 0
  navigationDocument : Option Text := none
  binding : Option Binding := none
  outcome : Option Outcome := none
  error : Option DeliveryError := none
  submitted : Bool := false
  effectPossible : Bool := false

structure Snapshot where
  operationId : Text
  state : JobState
  phase : Phase
  uploadOperationId : Text
  outcome : Option Outcome
  error : Option DeliveryError

def Job.snapshot (job : Job ι) : Snapshot :=
  ⟨job.id, job.state, job.phase, job.uploadId, job.outcome, job.error⟩

-- What a run assigns to fields of its job.
inductive Assignment where
  | start (submitted : Bool)
  | state (value : JobState)
  | phase (value : Phase)
  | uploadStarted (value : Bool)
  | preUploadResume (value : Bool)
  | verificationStarted
  | navigationUncertain (value : Bool)
  | navigationStep (value : Nat)
  | navigationDocument (value : Option Text)
  | binding (value : Binding)
  | outcome (value : Outcome)
  | error (value : Option DeliveryError)

def Job.assign (job : Job ι) : Assignment → Job ι
  | .start submitted => { job with submitted := submitted, effectPossible := submitted }
  | .state value => { job with state := value }
  | .phase value => { job with phase := value }
  | .uploadStarted value => { job with uploadStarted := some value, submitted := value, effectPossible := value }
  | .preUploadResume value => { job with preUploadResume := value }
  | .verificationStarted => { job with verificationStarted := true }
  | .navigationUncertain value =>
    { job with navigationUncertain := value, effectPossible := value || job.effectPossible }
  | .navigationStep value => { job with navigationStep := value }
  | .navigationDocument value => { job with navigationDocument := value }
  | .binding value => { job with binding := some value }
  | .outcome value => { job with outcome := some value }
  | .error value => { job with error := value }

structure Active (ι : Type) where
  job : Text
  call : ι

structure DeliveryState (ι : Type) where
  jobs : Table Text (Job ι) := ∅
  active : Option (Active ι) := none
  events : List Event := []

inductive Begun (ι : Type) where
  | promise (call : ι)
  | settled (snapshot : Snapshot)
  | run (job : Job ι) (artifact : Artifact)

inductive Op (ι : Type) where
  | deliver (call : ι) (request : DeliverRequest)
  | resume (call : ι) (request : ResumeRequest)
  | status (id : Text)
  | ask (question : Ask)
  | read (id : Text)
  | assign (id : Text) (assignment : Assignment)
  | deactivate

abbrev Op.Res : Op ι → Type
  | .deliver _ _ | .resume _ _ => Except JsError (Begun ι)
  | .status _ => Except JsError Snapshot
  | .ask question => question.Answer
  | .read _ => Option (Job ι)
  | .assign _ _ | .deactivate => Unit

-- What does not come from the surroundings: the hash of a request.
structure Signatures where
  deliver : Text → Text → Int → Text
  resume : ResumeRequest → Text

section Beginning

variable (environment : Environment) (signatures : Signatures)

-- A turn of JavaScript without an await.
abbrev Turn (ι : Type) := ExceptT JsError (StateM (DeliveryState ι))

def askNow (question : Ask) : StateM (DeliveryState ι) question.Answer := fun state =>
  let answer := environment state.events question
  (answer, { state with events := ⟨question, answer⟩ :: state.events })

def requireNow (condition : Bool) (message : String) : Turn ι Unit :=
  if condition then pure () else throw (failure message)

def boundedId (id : Text) : Bool :=
  id ≠ [] ∧ id.length ≤ 80 ∧ id.all fun char =>
    ('A' ≤ char ∧ char ≤ 'Z') ∨ ('a' ≤ char ∧ char ≤ 'z') ∨ ('0' ≤ char ∧ char ≤ '9') ∨ char ∈ "_.:-".toList

def boundedBudget (budget : Int) : Bool := 1000 ≤ budget ∧ budget ≤ 1800000

def deliver (call : ι) (request : DeliverRequest) : Turn ι (Begun ι) := do
  requireNow (boundedId request.operationId) "Bounded delivery ID required"
  requireNow (boundedBudget request.budgetMs) "Delivery budget must be 1000..1800000 ms"
  let signature := signatures.deliver request.artifactId request.uploadGrantId request.budgetMs
  let state ← get
  match state.jobs.lookup request.operationId with
  | some previous =>
    requireNow (previous.signature = signature) "Delivery ID has different parameters"
    pure (.promise previous.promise)
  | none =>
    requireNow state.active.isNone "Another artifact delivery is in progress"
    (ExceptT.mk (askNow environment .throwIfAborted) : Turn ι Unit)
    let artifact ← ExceptT.mk (askNow environment (.getUploadGrant request.artifactId request.uploadGrantId))
    requireNow (artifact.upload.overwrite ∈ ["replace".toList, "reject".toList]) "Unsupported upload conflict policy"
    (ExceptT.mk (askNow environment (.admitOperation request.operationId signature)) : Turn ι Unit)
    let now ← ExceptT.lift (askNow environment .now)
    let job : Job ι := {
      artifact
      id := request.operationId
      uploadId := request.operationId ++ ":upload"
      signature
      promise := call
      deadline := now + request.budgetMs }
    modify fun state => { state with jobs := state.jobs.insert job.id job, active := some ⟨job.id, call⟩ }
    pure (.run job artifact)

def resume (call : ι) (request : ResumeRequest) : Turn ι (Begun ι) := do
  requireNow (boundedId request.resumeId) "Bounded resume ID required"
  requireNow (boundedBudget request.budgetMs) "Delivery resume budget must be 1000..1800000 ms"
  let state ← get
  match state.jobs.lookup request.operationId with
  | none => throw (failure "Unknown delivery operation in this session")
  | some job =>
    let signature := signatures.resume request
    match job.resumeRequests.lookup request.resumeId with
    | some prior =>
      requireNow (prior.signature = signature) "Resume ID has different parameters"
      pure (.promise prior.promise)
    | none =>
      requireNow state.active.isNone "Another delivery or resume is in progress"
      (ExceptT.mk (askNow environment .throwIfAborted) : Turn ι Unit)
      if job.phase = .completed ∨ job.phase = .rejected then pure (.settled job.snapshot)
      else
        requireNow (job.uploadStarted = some true ∨ job.preUploadResume)
          "Delivery stopped before upload; inspect navigation before a new request"
        let artifact ← ExceptT.mk
          (askNow environment (.getUploadGrant job.artifact.artifactId job.artifact.upload.grantId))
        requireNow (artifact = job.artifact) "Admitted artifact changed"
        (ExceptT.mk (askNow environment
          (.admitResume job.uploadId request.resumeId signature job.preUploadResume job.id)) : Turn ι Unit)
        let now ← ExceptT.lift (askNow environment .now)
        let job : Job ι := { job with
          deadline := now + request.budgetMs
          state := .running
          error := none
          resumeRequests := job.resumeRequests.insert request.resumeId ⟨signature, call⟩ }
        modify fun state => { state with
          jobs := state.jobs.insert request.operationId job
          active := some ⟨request.operationId, call⟩ }
        pure (.run job artifact)

def status (id : Text) (state : DeliveryState ι) : Except JsError Snapshot :=
  ((state.jobs.lookup id).map Job.snapshot).elim (.error (failure "Unknown delivery operation")) .ok

def DeliveryState.assign (state : DeliveryState ι) (id : Text) (assignment : Assignment) : DeliveryState ι :=
  match state.jobs.lookup id with
  | some job => { state with jobs := state.jobs.insert id (job.assign assignment) }
  | none => state

def deliveryMachine : Machine (Op ι) Op.Res (DeliveryState ι) where
  handle
    | .deliver call request, state => (deliver environment signatures call request).run state
    | .resume call request, state => (resume environment signatures call request).run state
    | .status id, state => (status id state, state)
    | .ask question, state => askNow environment question state
    | .read id, state => (state.jobs.lookup id, state)
    | .assign id assignment, state => ((), state.assign id assignment)
    | .deactivate, state => ((), { state with active := none })
  enabled _ _ := True

end Beginning

-- A procedure of a run: it may throw.
abbrev DeliveryM (ι : Type) := ExceptT JsError (Prog (Op ι) Op.Res)

end LoginomDock.Delivery
