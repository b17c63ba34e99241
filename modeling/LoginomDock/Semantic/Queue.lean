import LoginomDock.Library.Interleave
import LoginomDock.Semantic.Messages

/-! The durable queue of semantic messages beside what the process keeps in its memory: the window that drops repeated
memory messages, the versions of the coalesce keys and the circuit breaker. -/

namespace LoginomDock.Semantic

inductive ErrorClass where
  | inputTooLarge
  | contentSafety
  | permanent
  | auth
  | quotaExceeded
  | transient
  | unknown
  deriving DecidableEq

-- An exception: whether it is a `LockAcquisitionError`, how it is classified, and its text
structure Failure where
  lock : Bool := false
  errorClass : ErrorClass := .unknown
  message : Text := []

-- A call that raises may have taken effect before.
structure Fault where
  failure : Failure
  done : Bool

def seconds (count : Nat) : Nat := count * 1000000000

inductive BreakerState where
  | closed
  | opened
  | halfOpen
  deriving DecidableEq

structure CircuitBreaker where
  failureThreshold : Nat := 5
  baseResetTimeout : Nat := seconds 300
  maxResetTimeout : Nat := seconds 300
  currentResetTimeout : Nat := seconds 300
  state : BreakerState := .closed
  failureCount : Nat := 0
  lastFailureTime : Nat := 0

namespace CircuitBreaker

section

variable (breaker : CircuitBreaker)

def check (now : Nat) : Bool × CircuitBreaker :=
  match breaker.state with
  | .closed | .halfOpen => (false, breaker)
  | .opened =>
    if (breaker.currentResetTimeout : Int) ≤ now - breaker.lastFailureTime then (false, { breaker with state := .halfOpen })
    else (true, breaker)

def recordSuccess : CircuitBreaker :=
  { breaker with failureCount := 0, state := .closed, currentResetTimeout := breaker.baseResetTimeout }

def recordFailure (errorClass : ErrorClass) (now : Nat) : CircuitBreaker :=
  if errorClass = .inputTooLarge then breaker
  else
    let counted := { breaker with failureCount := breaker.failureCount + 1, lastFailureTime := now }
    if breaker.state = .halfOpen then
      { counted with state := .opened, currentResetTimeout := min (breaker.currentResetTimeout * 2) breaker.maxResetTimeout }
    else if errorClass ∈ [.permanent, .auth, .quotaExceeded] ∨ breaker.failureThreshold ≤ counted.failureCount then
      { counted with state := .opened, currentResetTimeout := breaker.baseResetTimeout }
    else counted

end

end CircuitBreaker

-- The times at which messages were let through, in the order of a Python dict
abbrev Window := List (Text × Nat)

def memoryParentSemanticDedupe : Nat := seconds 45

section

variable (window : Window)

def Window.put (key : Text) (now : Nat) : Window :=
  if (window.lookup key).isSome then window.map fun entry => if entry.1 = key then (key, now) else entry
  else window ++ [(key, now)]

-- A window that has grown too large loses up to 800 of the keys that are out of date.
def Window.evict (now : Nat) : Window :=
  if 2000 < window.length then
    let cutoff := (now : Int) - memoryParentSemanticDedupe * 4
    let stale := (window.filter fun entry => entry.2 < cutoff).take 800
    window.filter fun entry => entry ∉ stale
  else window

-- A key that is missing was last seen at zero.
def Window.shut (key : Text) (now : Nat) : Bool :=
  (now : Int) - ((window.lookup key).getD 0 : Nat) < memoryParentSemanticDedupe

def Window.claim (key : Text) (now : Nat) : Bool × Window :=
  if window.shut key now then (true, window) else (false, (window.put key now).evict now)

end

-- A message whose handler has reported its end is handled; it stays in the queue until it is acknowledged.
inductive Phase (ι : Type) where
  | pending
  | processing (worker : ι)
  | handled (worker : ι)
  deriving DecidableEq

structure Entry (ι : Type) where
  place : Nat
  msg : SemanticMsg
  phase : Phase ι

-- What a worker holds: the place in the queue and the message as it was dequeued
structure Delivery where
  place : Nat
  msg : SemanticMsg
  deriving DecidableEq

inductive Outcome where
  | success
  | requeue
  | error (message : Text)
  deriving DecidableEq

-- How the handling of a message ended
inductive Ending where
  | processed
  | root
  | stale
  | requeued
  | failed
  deriving DecidableEq

structure QueueStatus where
  inProgress : Int := 0
  processed : Nat := 0
  requeueCount : Nat := 0
  errorCount : Nat := 0
  errors : List Text := []

structure Issue where
  key : Text
  id : Nat
  version : Nat
  deriving DecidableEq

-- The last five fields only keep a record: the versions taken, those of earlier lives of the process, those whose
-- message was stored, the handlings that were acknowledged, and who wrote the sidecars under which key.
structure Semantics (ι : Type) where
  entries : List (Entry ι) := []
  nextPlace : Nat := 0
  nextId : Nat := 0
  last : Window := []
  versions : Text → Nat := fun _ => 0
  breaker : CircuitBreaker := {}
  status : QueueStatus := {}
  classify : Text → ErrorClass := fun _ => .unknown
  times : Nat → Nat := fun _ => 0
  faults : Nat → Option Fault := fun _ => none
  chances : Nat → Bool := fun _ => false
  issued : List Issue := []
  before : List Issue := []
  stored : List Issue := []
  settled : List (Delivery × Ending) := []
  written : List (Text × Nat) := []

inductive Stage where
  | context
  | adoptLock
  | acquireTree
  | closeLock
  | list
  | summaries
  | overview
  | lease
  | vectorize
  | exists
  | sync
  | dispatch
  | parentPlan
  | queueManager
  deriving DecidableEq

inductive Question where
  | memoryFiles
  | writesChild
  | writesRoot
  | formatError
  | refreshNow
  deriving DecidableEq

-- One atomic step each. A retry names the delivery it retries.
inductive SemanticCall (ι : Type) where
  | draw
  | claimWindow (retryOf : Option Delivery) (msg : SemanticMsg)
  | nextVersion (msg : SemanticMsg)
  | store (retryOf : Option Delivery) (msg : SemanticMsg)
  | isStale (msg : SemanticMsg)
  | breakerCheck
  | recordFailure (errorClass : ErrorClass)
  | recordSuccess
  | classify (message : Text)
  | work (stage : Stage)
  | ask (question : Question)
  | writeSidecars (delivery : Delivery) (msg : SemanticMsg)
  | take (worker : ι)
  | report (delivery : Delivery) (outcome : Outcome)
  | ack (delivery : Delivery) (ending : Ending)
  deriving DecidableEq

variable {ι : Type}

def SemanticCall.Answer : SemanticCall ι → Type
  | .draw | .nextVersion _ => Nat
  | .claimWindow .. | .isStale _ | .breakerCheck | .ask _ => Bool
  | .store .. | .work _ => Except Failure Unit
  | .classify _ => ErrorClass
  | .writeSidecars .. => Except Failure Bool
  | .take _ => Option Delivery
  | .recordFailure _ | .recordSuccess | .report .. | .ack .. => Unit

namespace Semantics

def ticked (state : Semantics ι) : Semantics ι := { state with times := fun turn => state.times (turn + 1) }

def faulted (state : Semantics ι) : Semantics ι := { state with faults := fun turn => state.faults (turn + 1) }

def attempt {α : Type} (state : Semantics ι) (value : α) (effect : Semantics ι → Semantics ι) : Except Failure α × Semantics ι :=
  match state.faults 0 with
  | none => (.ok value, effect state.faulted)
  | some fault => (.error fault.failure, if fault.done then effect state.faulted else state.faulted)

section

variable (state : Semantics ι)

def isCoalesceStale (coalesceKey : Text) (coalesceVersion : Nat) : Bool :=
  if coalesceKey = [] ∨ coalesceVersion ≤ 0 then false else coalesceVersion < state.versions coalesceKey

def isMsgStale (msg : SemanticMsg) : Bool := state.isCoalesceStale msg.coalesceKey msg.coalesceVersion

def takeVersion (msg : SemanticMsg) : Semantics ι :=
  let version := state.versions msg.coalesceKey + 1
  { state with
    versions := Function.update state.versions msg.coalesceKey version
    issued := ⟨msg.coalesceKey, msg.id, version⟩ :: state.issued }

def append (msg : SemanticMsg) : Semantics ι :=
  { state with
    entries := state.entries ++ [⟨state.nextPlace, msg, .pending⟩]
    nextPlace := state.nextPlace + 1
    stored := ⟨msg.coalesceKey, msg.id, msg.coalesceVersion⟩ :: state.stored }

def setPhase (place : Nat) (phase : Phase ι → Phase ι) : Semantics ι :=
  { state with entries := state.entries.map fun entry => if entry.place = place then { entry with phase := phase entry.phase } else entry }

def firstPending : Option (Entry ι) :=
  state.entries.find? fun entry => match entry.phase with
    | .pending => true
    | _ => false

def started : Semantics ι :=
  { state with status := { state.status with inProgress := state.status.inProgress + 1 } }

def succeeded : Semantics ι :=
  { state with status := { state.status with inProgress := state.status.inProgress - 1, processed := state.status.processed + 1 } }

-- The last 100 errors are kept.
def errored (message : Text) : Semantics ι :=
  let errors := state.status.errors ++ [message]
  { state with status := { state.status with
      inProgress := state.status.inProgress - 1
      errorCount := state.status.errorCount + 1
      errors := errors.drop (errors.length - 100) } }

end

def finished (phase : Phase ι) : Phase ι :=
  match phase with
  | .processing worker => .handled worker
  | other => other

def reported (state : Semantics ι) (delivery : Delivery) : Outcome → Semantics ι
  | .success => (state.setPhase delivery.place finished).succeeded
  | .requeue => { state with status := { state.status with requeueCount := state.status.requeueCount + 1 } }
  | .error message => (state.setPhase delivery.place finished).errored message

def remove (state : Semantics ι) (delivery : Delivery) (ending : Ending) : Semantics ι :=
  { state with
    entries := state.entries.filter fun entry => entry.place ≠ delivery.place
    settled := (delivery, ending) :: state.settled }

-- The memory of the process is lost; messages that were not acknowledged are delivered again.
def restarted (state : Semantics ι) : Semantics ι :=
  { state with
    entries := state.entries.map fun entry => { entry with phase := .pending }
    last := []
    versions := fun _ => 0
    breaker := {}
    status := {}
    issued := []
    before := state.issued ++ state.before }

def handle : (call : SemanticCall ι) → Semantics ι → call.Answer × Semantics ι
  | .draw, state => (state.nextId, { state with nextId := state.nextId + 1 })
  | .claimWindow _ msg, state =>
    let claimed := state.last.claim msg.memoryParentSemanticKey (state.times 0)
    (claimed.1, { state.ticked with last := claimed.2 })
  | .nextVersion msg, state => (state.versions msg.coalesceKey + 1, state.takeVersion msg)
  | .store _ msg, state => state.attempt () fun state => state.append msg
  | .isStale msg, state => (state.isMsgStale msg, state)
  | .breakerCheck, state =>
    let checked := state.breaker.check (state.times 0)
    (checked.1, { state.ticked with breaker := checked.2 })
  | .recordFailure errorClass, state => ((), { state.ticked with breaker := state.breaker.recordFailure errorClass (state.times 0) })
  | .recordSuccess, state => ((), { state with breaker := state.breaker.recordSuccess })
  | .classify message, state => (state.classify message, state)
  | .work _, state => state.attempt () id
  | .ask _, state => (state.chances 0, { state with chances := fun turn => state.chances (turn + 1) })
  -- The section under the lease: the test for staleness, then the write of the two sidecars
  | .writeSidecars delivery msg, state =>
    if state.isMsgStale msg then (.ok false, state)
    else state.attempt true fun state => { state with written := (delivery.msg.coalesceKey, delivery.msg.id) :: state.written }
  | .take worker, state =>
    match state.firstPending with
    | none => (none, state)
    | some entry =>
      let taken := state.setPhase entry.place fun _ => .processing worker
      match state.faults 0 with
      | none => (some ⟨entry.place, entry.msg⟩, taken.faulted.started)
      | some fault => (none, if fault.done then taken.faulted else state.faulted)
  | .report delivery outcome, state => ((), state.reported delivery outcome)
  -- A failure of an acknowledgement is only logged.
  | .ack delivery ending, state => ((), (state.attempt () fun state => state.remove delivery ending).2)

end Semantics

def machine (meets : SemanticCall ι → Semantics ι → Prop) : Machine (SemanticCall ι) SemanticCall.Answer (Semantics ι) where
  handle := Semantics.handle
  enabled := meets

abbrev Handling (ι α : Type) := ExceptT Failure (Prog (SemanticCall ι) SemanticCall.Answer) α

def callStore (retryOf : Option Delivery) (msg : SemanticMsg) : Handling ι Unit :=
  ExceptT.mk (Prog.perform (SemanticCall.store retryOf msg))

def callWork (stage : Stage) : Handling ι Unit := ExceptT.mk (Prog.perform (SemanticCall.work stage))

def callWriteSidecars (delivery : Delivery) (msg : SemanticMsg) : Handling ι Bool :=
  ExceptT.mk (Prog.perform (SemanticCall.writeSidecars delivery msg))

def callDraw : Handling ι Nat := ExceptT.lift (Prog.perform SemanticCall.draw)

def callClaimWindow (retryOf : Option Delivery) (msg : SemanticMsg) : Handling ι Bool :=
  ExceptT.lift (Prog.perform (SemanticCall.claimWindow retryOf msg))

def callNextVersion (msg : SemanticMsg) : Handling ι Nat := ExceptT.lift (Prog.perform (SemanticCall.nextVersion msg))

def callAsk (question : Question) : Handling ι Bool := ExceptT.lift (Prog.perform (SemanticCall.ask question))

inductive Enqueued where
  | stored
  | deduplicated

def enqueue (retryOf : Option Delivery) (msg : SemanticMsg) : Handling ι Enqueued := do
  let repeated ← (if msg.isPlainMemory then callClaimWindow retryOf msg else pure false : Handling ι Bool)
  if repeated then pure .deduplicated
  else do
    let versioned ← (if msg.coalesceKey ≠ [] then do
        let version ← callNextVersion msg
        pure { msg with coalesceVersion := version }
      else pure msg : Handling ι SemanticMsg)
    callStore retryOf versioned
    pure .stored

end LoginomDock.Semantic
