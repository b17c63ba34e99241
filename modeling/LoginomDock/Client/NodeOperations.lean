import LoginomDock.Library.Js

namespace LoginomDock.Client

/-- `/^[A-Za-z0-9_.:-]{1,128}$/` -/
def isOperationId (id : Text) : Bool :=
  1 ≤ id.length && id.length ≤ 128 && id.all fun char => char.isAlphanum || char ∈ ['_', '.', ':', '-']

inductive JobState where
  | running
  | settled
  deriving DecidableEq

inductive WorkerResult where
  | resolved (outcome : Json)
  | uncloneable
  | rejected (message : Text)
  | rejectedNull

-- A synchronous exception of the worker is kept as its end.
structure Job where
  id : Text
  request : Json
  signature : Text
  attempt : Nat
  state : JobState := .running
  cancelRequested : Bool := false
  serverStopRequested : Bool := false
  thrown : Option WorkerResult := none
  completed : Bool := false
  outcome : Option Json := none
  error : Option Text := none

structure Snapshot where
  operationId : Text
  attempt : Nat
  state : JobState
  cancelRequested : Bool
  serverStopRequested : Bool
  progress : Json
  outcome : Option Json
  error : Option (Text × Text)

/-- What the runner is made with: `digest` hashes a canonical value. At a call, `validate` gives the revision of
the handler or throws, `progress` tells how far an operation is, and `run` may throw at once. -/
structure Callbacks where
  digest : Json → Text
  validate : Json → Option Json
  progress : Text → Json
  runThrows : Option WorkerResult

abbrev Jobs := Table Text Job

/-- A call of `run`. -/
structure Launch where
  id : Text
  request : Json
  signature : Text
  attempt : Nat
  resume : Bool

namespace NodeOperationRunner

def checkId (value : Option Json) : Except String Text :=
  match value with
  | some (.string id) => if isOperationId id then .ok id else .error "Stable node operation ID required"
  | _ => .error "Stable node operation ID required"

def find (jobs : Jobs) (id : Text) : Except String Job := do
  let id ← checkId (some (.string id))
  match jobs.lookup id with
  | none => throw "Unknown node operation"
  | some job => return job

def snapshot (callbacks : Callbacks) (job : Job) : Snapshot where
  operationId := job.id
  attempt := job.attempt
  state := job.state
  cancelRequested := job.cancelRequested
  serverStopRequested := job.serverStopRequested
  progress := callbacks.progress job.id
  outcome := job.outcome
  error := job.error.map fun message => ("NODE_WORKER_REJECTED", message)

def busy (jobs : Jobs) : Bool := jobs.entries.any fun entry => entry.2.state = .running

def active (callbacks : Callbacks) (jobs : Jobs) : Option Snapshot :=
  (jobs.entries.find? fun entry => entry.2.state = .running).map fun entry => snapshot callbacks entry.2

def launch (callbacks : Callbacks) (jobs : Jobs) (id : Text) (request : Json) (signature : Text) (attempt : Nat)
    (resume : Bool) : Jobs × Snapshot × Option Launch :=
  let job := { id, request, signature, attempt, thrown := callbacks.runThrows : Job }
  (jobs.insert id job, snapshot callbacks job, some ⟨id, request, signature, attempt, resume⟩)

-- The outcome of an attempt after which there is nothing to resume.
def isFinal (outcome : Option Json) : Bool :=
  let status := outcome.bind (·.member? "status")
  let execution := (outcome.bind (·.member? "output")).bind (·.member? "execution")
  let ended := execution.bind (·.member? "status")
  let is := fun (value : Option Json) (text : String) => match value with
    | some (.string found) => decide (found = text.toList)
    | _ => false
  let holds := fun value : Option Json => match value with
    | some (.bool true) => true
    | _ => false
  is status "SUCCEEDED" || is ended "cancelled" ||
    (is status "FAILED" && holds (outcome.bind (·.member? "cleanup_complete")) && is ended "failed" &&
      holds (execution.bind (·.member? "failure_verified")))

def members : Json → List (Text × Json)
  | .object members => members
  | _ => []

def operationId : Json → Except String Text
  | .null => .error "Cannot read properties of null (reading 'operation_id')"
  | request => checkId (request.member? "operation_id")

/-- The part of `start` after the signature of the request is known. -/
def startSigned (callbacks : Callbacks) (jobs : Jobs) (id : Text) (request : Json) (signature : Text) (resume : Bool) :
    Except String (Jobs × Snapshot × Option Launch) :=
  match jobs.lookup id with
  | some old =>
    if old.signature ≠ signature then .error "Node operation ID was used with different parameters"
    else if !resume || old.state = .running || isFinal old.outcome then .ok (jobs, snapshot callbacks old, none)
    else if busy jobs then .error "Another node operation is running"
    else .ok (launch callbacks jobs id request signature (old.attempt + 1) true)
  | none =>
    if resume then .error "Cannot resume an unknown node operation"
    else if busy jobs then .error "Another node operation is running"
    else .ok (launch callbacks jobs id request signature 1 false)

def givenRequest (jobs : Jobs) (id : Text) (request : Json) (resume : Bool) : Except String Json :=
  if resume && (members request).length = 1 then (find jobs id).map Job.request else .ok request

section

variable (callbacks : Callbacks) (jobs : Jobs)

def start (request : Json) (resume : Bool) :
    Except String (Jobs × Snapshot × Option Launch) := do
  let id ← operationId request
  let request ← givenRequest jobs id request resume
  match callbacks.validate request with
  | none => throw "invalid request"
  | some revision =>
    let signature := callbacks.digest (Json.canonical (.object
      [("request", request), ("handler_revision", revision)]))
    startSigned callbacks jobs id request signature resume

def status (id : Text) : Except String Snapshot :=
  (find jobs id).map (snapshot callbacks)

/-- What `wait` gives at once; nothing when it waits for the worker or the timeout. -/
def wait (id : Text) (timeoutMs : ℚ) (aborted : Bool) :
    Except String (Option Snapshot) := do
  let job ← find jobs id
  if timeoutMs.den ≠ 1 ∨ timeoutMs < 0 ∨ 60000 < timeoutMs then throw "Node wait timeout must be 0..60000 ms"
  else if aborted then throw "aborted"
  else if job.state ≠ .running ∨ timeoutMs = 0 then return some (snapshot callbacks job)
  else return none

end

def awaitsExecution (progress : Json) : Bool :=
  let execution := progress.member? "execution"
  (match progress.member? "pending_phase" with
    | some (.string phase) => decide (phase = "execute")
    | _ => false) &&
  (match execution.bind (·.member? "status") with
    | some (.string status) => decide (status = "pending")
    | _ => false) &&
  (match execution.bind (·.member? "execution_id") with
    | none | some .null | some (.bool false) | some (.string []) => false
    | some (.integer number) => decide (number ≠ 0)
    | some (.double number) => decide (number ≠ 0)
    | some _ => true)

section

variable (callbacks : Callbacks) (jobs : Jobs) (id : Text)

def stop : Except String (Jobs × Snapshot) := do
  let job ← find jobs id
  if job.serverStopRequested || job.state ≠ .running then return (jobs, snapshot callbacks job)
  else if !awaitsExecution (callbacks.progress job.id) then
    throw "Server stop requires an identified execution currently being awaited"
  else
    let job := { job with serverStopRequested := true }
    return (jobs.insert id job, snapshot callbacks job)

def cancel : Except String (Jobs × Snapshot) := do
  let job ← find jobs id
  let job := if job.state = .running then { job with cancelRequested := true } else job
  return (jobs.insert id job, snapshot callbacks job)

end

def complete (job : Job) (result : WorkerResult) : Job :=
  let job := { job with completed := true }
  match job.thrown.getD result with
  | .resolved outcome => { job with outcome := some outcome, state := .settled }
  | .rejected message => { job with error := some (message.take 1000), state := .settled }
  | .uncloneable | .rejectedNull => job

end NodeOperationRunner

inductive RunnerCall where
  | start (request : Json) (resume : Bool)
  | status (id : Text)
  | wait (id : Text) (timeoutMs : ℚ) (aborted : Bool)
  | stop (id : Text)
  | cancel (id : Text)
  | completes (id : Text) (attempt : Nat) (result : WorkerResult)

inductive RunnerEvent where
  | launched (launch : Launch)
  | settled (id : Text) (attempt : Nat) (outcome : Option Json)

structure RunnerHistory where
  jobs : Jobs := ∅
  events : List RunnerEvent := []

namespace RunnerHistory

open NodeOperationRunner

def completes (history : RunnerHistory) (id : Text) (attempt : Nat) (result : WorkerResult) : RunnerHistory :=
  match history.jobs.lookup id with
  | none => history
  | some job =>
    if job.attempt ≠ attempt ∨ job.completed then history
    else
      let ended := complete job result
      ⟨history.jobs.insert id ended,
        if ended.state = .settled then history.events ++ [.settled id attempt ended.outcome] else history.events⟩

def step (history : RunnerHistory) (callbacks : Callbacks) : RunnerCall → RunnerHistory
  | .start request resume =>
    match NodeOperationRunner.start callbacks history.jobs request resume with
    | .error _ => history
    | .ok (jobs, _, launched) => ⟨jobs, history.events ++ (launched.map RunnerEvent.launched).toList⟩
  | .status _ => history
  | .wait _ _ _ => history
  | .stop id =>
    match NodeOperationRunner.stop callbacks history.jobs id with
    | .error _ => history
    | .ok (jobs, _) => { history with jobs }
  | .cancel id =>
    match NodeOperationRunner.cancel callbacks history.jobs id with
    | .error _ => history
    | .ok (jobs, _) => { history with jobs }
  | .completes id attempt result => history.completes id attempt result

def run (calls : List (Callbacks × RunnerCall)) : RunnerHistory :=
  calls.foldl (fun history call => history.step call.1 call.2) {}

end RunnerHistory

end LoginomDock.Client
