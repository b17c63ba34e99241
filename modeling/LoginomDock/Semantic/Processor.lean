import LoginomDock.Semantic.Queue

/-! What a worker does with a message of the queue: it is skipped, processed, dropped or enqueued again, and then
acknowledged in any case. -/

namespace LoginomDock.Semantic

open Access (AccessError)
open SemanticCall

variable {ι : Type}

section

variable (delivery : Delivery)

-- The wait while the breaker is open only lets time pass.
def reenqueueSemanticMsg (msg : SemanticMsg) : Handling ι Unit := do
  callWork .queueManager
  let _ ← enqueue (some delivery) msg
  pure ()

def report (outcome : Outcome) : Prog (SemanticCall ι) SemanticCall.Answer Unit :=
  Prog.perform (SemanticCall.report delivery outcome)

def requeueSemanticMsgAfterError (msg : SemanticMsg) (failure : Failure) :
    Prog (SemanticCall ι) SemanticCall.Answer Ending := do
  match ← (reenqueueSemanticMsg delivery msg).run with
  | .ok _ => do
      report delivery .requeue
      report delivery .success
      pure .requeued
  | .error _ => do
      report delivery (.error failure.message)
      pure .failed

def retryOrReport (msg : Option SemanticMsg) (failure : Failure) :
    Prog (SemanticCall ι) SemanticCall.Answer Ending :=
  match msg with
  | some msg => requeueSemanticMsgAfterError delivery msg failure
  | none => do
      report delivery (.error failure.message)
      pure .failed

def afterError (msg : Option SemanticMsg) (failure : Failure) :
    Prog (SemanticCall ι) SemanticCall.Answer Ending :=
  if failure.lock then retryOrReport delivery msg failure
  else
    match failure.errorClass with
    | .inputTooLarge => do
        report delivery (.error failure.message)
        pure .failed
    | .permanent => do
        Prog.perform (recordFailure failure.errorClass)
        report delivery (.error failure.message)
        pure .failed
    | _ => do
        Prog.perform (recordFailure failure.errorClass)
        retryOrReport delivery msg failure

end

def valueError (message : Text) : Prog (SemanticCall ι) SemanticCall.Answer Failure := do
  let errorClass ← Prog.perform (classify message)
  pure { errorClass := errorClass, message := message }

def uriMessage : AccessError → Text
  | .value message | .namespaceShape message | .denied message _ => message

-- The paths to lock come from the handoff or else from the URI, so that there is always one.
def resolveLock (msg : SemanticMsg) : Handling ι Bool :=
  match msg.lockHandoff with
  | none => pure false
  | some _ =>
    tryCatch (do
      callWork .adoptLock
      pure true) fun failure => do
        if failure.lock then do
          callWork .acquireTree
          pure true
        else throw failure

-- `try: ... finally: await semantic_lock.close()`
def closing {α : Type} (owned : Bool) (body : Handling ι α) : Handling ι α := do
  let result ← (ExceptT.lift body.run : Handling ι (Except Failure α))
  (if owned then callWork .closeLock else pure () : Handling ι Unit)
  match result with
  | .ok value => pure value
  | .error failure => throw failure

def callIsStale (msg : SemanticMsg) : Handling ι Bool := ExceptT.lift (Prog.perform (isStale msg))

section

variable (delivery : Delivery) (msg : SemanticMsg)

def writeAbstractOverview : Handling ι Bool := do
  if ← callIsStale msg then pure false
  else do
    callWork .lease
    callWriteSidecars delivery msg

def processMemoryDirectory : Handling ι Unit := do
  callWork .list
  if ← callAsk .memoryFiles then do
    callWork .summaries
    callWork .overview
    if ← writeAbstractOverview delivery msg then (if msg.skipVectorization then pure () else callWork .vectorize)
    else pure ()
  else pure ()

-- The sidecars below the root are written first, under the same test. A write of the root that fails leaves it as it
-- is, unless the sidecars are no valid documents. The answer says whether the executor found itself stale.
def runExecutor : Handling ι Bool := do
  callWork .dispatch
  if !msg.aggregateDirectory then pure false
  else do
    let early ← (do if ← callAsk .writesChild then callIsStale msg else pure false : Handling ι Bool)
    if ← callAsk .writesRoot then do
      match ← (ExceptT.lift (writeAbstractOverview delivery msg).run : Handling ι (Except Failure Bool)) with
      | .error failure => do
          if ← callAsk .formatError then throw failure
          else do
            (if msg.skipVectorization then pure () else callWork .vectorize : Handling ι Unit)
            pure early
      | .ok wrote => do
          (if wrote && !msg.skipVectorization then callWork .vectorize else pure () : Handling ι Unit)
          pure (early || !wrote)
    else pure early

end

def unrefreshedParents : List Text := ["", "viking://", "viking:", "viking://user", "viking://agent"].map String.toList

-- Busy sidecars of the parent are left alone.
def planParentRefresh : Handling ι Bool := do
  let planned ← tryCatch (do
    callWork .parentPlan
    pure true) fun failure => if failure.lock then pure false else throw failure
  if planned then callAsk .refreshNow else pure false

def parentMessage (msg : SemanticMsg) (id : Nat) (uri parentUri : Text) : SemanticMsg :=
  { id := id
    uri := parentUri
    contextType := msg.contextType
    recursive := false
    accountId := msg.accountId
    userId := msg.userId
    groupIds := msg.groupIds
    peerId := msg.peerId
    role := msg.role
    skipVectorization := msg.skipVectorization
    changes := some [("modified", [uri])]
    generationTrigger := "parent_refresh"
    coalesceKey := buildSemanticCoalesceKey msg.contextType parentUri msg.accountId msg.userId msg.peerId }

def enqueueParentRefresh (msg : SemanticMsg) (uri : Text) : Handling ι Unit :=
  if msg.contextType ∉ ["resource".toList, "skill".toList] ∨ !msg.propagateToParent then pure ()
  else
    match parentOf uri with
    | .error error => do
        let failure ← (ExceptT.lift (valueError (uriMessage error)) : Handling ι Failure)
        throw failure
    | .ok none => pure ()
    | .ok (some parent) =>
      let parentUri := parent.rdropWhile (· = '/')
      if parentUri ∈ unrefreshedParents ∨ parentUri = uri.rdropWhile (· = '/') then pure ()
      else do
        callWork .context
        if ← planParentRefresh then do
          callWork .queueManager
          let id ← callDraw
          let _ ← enqueue none (parentMessage msg id uri parentUri)
          pure ()
        else pure ()

section

variable (delivery : Delivery) (msg : SemanticMsg)

def processDirectory : Handling ι Ending := do
  if msg.isFlat then do
    processMemoryDirectory delivery msg
    pure .processed
  else do
    (if msg.targetUri ≠ [] then do
        callWork .exists
        (if msg.uri ≠ msg.targetUri then callWork .sync else pure ())
      else pure () : Handling ι Unit)
    let stale ← runExecutor delivery msg
    if stale then pure .stale
    else do
      (if msg.aggregateDirectory then enqueueParentRefresh msg (if msg.targetUri = [] then msg.uri else msg.targetUri)
        else pure () : Handling ι Unit)
      pure .processed

def processMessage : Handling ι Ending := do
  let opened ← (ExceptT.lift (Prog.perform breakerCheck) : Handling ι Bool)
  if opened then do
    reenqueueSemanticMsg delivery msg
    ExceptT.lift (report delivery .requeue)
    ExceptT.lift (report delivery .success)
    pure .requeued
  else do
    callWork .context
    let owned ← resolveLock msg
    let ending ← closing owned (processDirectory delivery msg)
    ExceptT.lift (report delivery .success)
    ExceptT.lift (Prog.perform recordSuccess)
    pure ending

def handled : Prog (SemanticCall ι) SemanticCall.Answer Ending := do
  match ← (processMessage delivery msg).run with
  | .ok ending => pure ending
  | .error failure => afterError delivery (some msg) failure

end

def onDequeue (delivery : Delivery) : Prog (SemanticCall ι) SemanticCall.Answer Ending :=
  match delivery.msg.fromDict with
  | .error message => do
      let failure ← valueError message
      afterError delivery none failure
  | .ok msg =>
    match parentOf msg.uri with
    | .error error => do
        let failure ← valueError (uriMessage error)
        afterError delivery (some msg) failure
    | .ok none => do
        report delivery .success
        pure .root
    | .ok (some _) => do
        let stale : Bool ← Prog.perform (isStale msg)
        if stale && !msg.keepsFileWork then do
          report delivery .success
          pure .stale
        else handled delivery (if stale then msg.downgraded else msg)

-- The acknowledgement follows whatever the handler did.
def serve (worker : ι) : Prog (SemanticCall ι) SemanticCall.Answer Unit := do
  match ← Prog.perform (take worker) with
  | none => pure ()
  | some delivery => do
      let ending ← onDequeue delivery
      Prog.perform (SemanticCall.ack delivery ending)

inductive Activity where
  | request (msg : SemanticMsg)
  | serve

def Activity.program (worker : ι) : Activity → Prog (SemanticCall ι) SemanticCall.Answer Unit
  | .request msg => do
      let _ ← (do
        let id ← callDraw
        enqueue none { msg with id := id } : Handling ι Enqueued).run
      pure ()
  | .serve => Semantic.serve worker

def activities (worker : ι) : List Activity → Prog (SemanticCall ι) SemanticCall.Answer Unit
  | [] => pure ()
  | activity :: rest => do
      activity.program worker
      activities worker rest

def started (jobs : ι → List Activity) (state : Semantics ι) : Pool ι (SemanticCall ι) SemanticCall.Answer Unit (Semantics ι) where
  state := state
  log := []
  threads thread := activities thread (jobs thread)

end LoginomDock.Semantic
