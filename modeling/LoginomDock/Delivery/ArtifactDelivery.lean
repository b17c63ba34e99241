import LoginomDock.Delivery.Navigation

/-! The run of a delivery: the way to the destination, the upload, the verification, and what is left of them where one
of these fails. -/

namespace LoginomDock.Delivery

open ReceiptOutput

variable {ι : Type}

section Run

variable (context : RunContext)

def currentSnapshot : DeliveryM ι Snapshot := do
  let job ← readJob context
  pure job.snapshot

def inspect : DeliveryM ι Inspection := do
  raise (← ask (.inspect context.uploadId))

def provenCopy (artifact : Artifact) (final : Inspection) : Option ServerCopy := do
  let output ← final.output
  let outcome ← output.outcome
  let receipt ← outcome.output
  let proof ← receipt.serverCopyVerification
  if output.state = some "resolved".toList ∧ output.cleanupConfirmed = some true ∧
      outcome.status = some "SUCCEEDED".toList ∧ proof.bytesVerified = some true ∧
      proof.uploadCompletionVerified = some true ∧ proof.destination = some artifact.upload.destination ∧
      proof.bytes = some artifact.bytes ∧ proof.sha256 = some artifact.sha256 then some proof
  else none

def finish (artifact : Artifact) (final : Inspection) : DeliveryM ι Unit := do
  match provenCopy artifact final with
  | none => throw (failure "Final transfer proof mismatch")
  | some proof =>
    let result : Outcome :=
      .succeeded context.uploadId proof.destination proof.bytes proof.sha256 proof.verificationId
    acknowledge context "artifact_delivery_completed" (.result result)
    assign context (.outcome result)
    assign context (.phase .completed)
    assign context (.error none)

def ownOutcome (inspected : Inspection) (message : String) : DeliveryM ι Receipt := do
  let output ← defined inspected.output
  let outcome ← defined output.outcome
  requireValue (output.operationId = some context.uploadId ∧ output.cleanupConfirmed = some true ∧
    outcome.operationId = some context.uploadId) message
  pure outcome

-- What a run has after its first part: its last answer, or the receipt of the upload.
inductive Stage where
  | ended (snapshot : Snapshot)
  | uploaded (upload : Receipt) (inspected : Option Inspection)

def resumeUpload (artifact : Artifact) (resumeId : Text) : DeliveryM ι Stage := do
  let job ← readJob context
  acknowledge context "artifact_delivery_resume_started"
    (.resumeStarted resumeId context.uploadId job.verificationStarted context.deadline)
  check context
  let inspected ← inspect context
  acknowledge context "artifact_delivery_resume_inspected" (.resumeInspected resumeId inspected)
  let upload ← ownOutcome context inspected "Original delivery receipt remains uncertain"
  if (inspected.output.bind InspectOutput.state) = some "resolved".toList ∧
      upload.status = some "SUCCEEDED".toList then
    finish context artifact inspected
    assign context (.state .settled)
    let snapshot ← currentSnapshot context
    pure (.ended snapshot)
  else
    let job ← readJob context
    requireValue (!job.verificationStarted)
      "The existing verification remains unresolved; no repeated download allowed"
    pure (.uploaded upload (some inspected))

def openDestination (artifact : Artifact) : DeliveryM ι Observation := do
  acknowledge context "artifact_delivery_prepared" (.prepared artifact context.deadline)
  assign context (.phase .destination)
  let r ← roots context
  requireValue (documentOf r).isSome "Delivery document identity is unavailable"
  let job ← readJob context
  requireValue (!context.preUploadResume || documentOf r = job.navigationDocument)
    "Delivery document changed before upload resume"
  assign context (.navigationDocument (job.navigationDocument.or (documentOf r)))
  assign context (.preUploadResume false)
  openStorage context r
  let s ← directory context none
  requireValue (isObserved s) "Storage path is not observed"
  let s ← openDirectory context artifact.upload.directory s
  requireValue (directoryOf s = some artifact.upload.directory) "Authorized destination mismatch"
  pure s

def submitUpload (artifact : Artifact) (s : Observation) : DeliveryM ι Stage := do
  check context
  assign context (.phase .upload)
  assign context (.uploadStarted true)
  assign context (.binding ⟨documentOf s, s.workflowRef, s.activeTabRef⟩)
  let upload ← raise (← ask (.uploadDeliveredArtifact
    ⟨artifact.artifactId, artifact.upload.grantId, s.observationId, context.uploadId⟩))
  acknowledge context "artifact_delivery_upload_receipt" (.uploadReceipt upload)
  if upload.status = some "NOT_APPLIED".toList ∧ upload.effectPossible = some false ∧
      upload.cleanupComplete = some true then
    assign context (.uploadStarted false)
    let refused : Outcome := .notApplied context.uploadId (upload.errorCode.getD "UPLOAD_NOT_APPLIED")
    acknowledge context "artifact_delivery_not_applied" (.result refused)
    assign context (.outcome refused)
    assign context (.phase .notApplied)
    assign context (.state .settled)
    assign context (.error none)
    let snapshot ← currentSnapshot context
    pure (.ended snapshot)
  else
    check context
    if upload.errorCode = some "BROWSER_CALL_UNCERTAIN".toList then
      check context
      let inspected ← inspect context
      let outcome ← ownOutcome context inspected "Original upload receipt remains uncertain"
      acknowledge context "artifact_delivery_upload_reconciled" (.uploadReconciled inspected)
      pure (.uploaded outcome (some inspected))
    else pure (.uploaded upload none)

def inUploadTab (binding : Option Binding) (destination : Observation) : Bool :=
  binding.any fun tab => tab.document.any (· ≠ []) ∧ documentOf destination = tab.document ∧
    workflowJson destination = tab.workflowRef.map WorkflowRef.json ∧ destination.activeTabRef = tab.activeTabRef

def inspectedOr : Option Inspection → DeliveryM ι Inspection
  | some inspected => pure inspected
  | none => inspect context

section

variable (artifact : Artifact)

def verifyUpload (upload : Receipt) (inspected : Option Inspection) :
    DeliveryM ι (Option Snapshot) := do
  if upload.status = some "FAILED".toList ∧ (upload.output.bind conflictRejected) = some true ∧
      upload.cleanupComplete = some true then
    let refused : Outcome := .rejected artifact.upload.destination context.uploadId
    acknowledge context "artifact_delivery_rejected" (.result refused)
    assign context (.outcome refused)
    assign context (.phase .rejected)
    assign context (.state .settled)
    let snapshot ← currentSnapshot context
    pure (some snapshot)
  else
    requireValue ((upload.output.bind uploadSubmitted) = some true ∧
      upload.cleanupComplete = some true) "Upload submission requires inspection"
    let inspected ← inspectedOr context inspected
    requireValue ((inspected.output.bind InspectOutput.cleanupConfirmed) = some true ∧
      (((inspected.output.bind InspectOutput.outcome).bind Receipt.output).bind uploadSubmitted) =
        some true) "Upload cleanup is not confirmed"
    assign context (.phase .verify)
    let destination ← directory context none
    requireValue (directoryOf destination = some artifact.upload.directory) "Verification directory changed"
    let job ← readJob context
    requireValue (context.resumeId.isNone || inUploadTab job.binding destination)
      "Delivery browser context changed; no verification dispatched"
    check context
    assign context .verificationStarted
    let verification ← raise (← ask (.verifyDeliveredArtifact
      ⟨context.uploadId, context.id ++ ":verify", destination.observationId⟩))
    let lostVerification := verification.errorCode = some "BROWSER_CALL_UNCERTAIN".toList
    requireValue (lostVerification ∨ (verification.status = some "SUCCEEDED".toList ∧
      verification.cleanupComplete = some true ∧
      (verification.output.bind bytesVerified) = some true)) "Destination bytes require inspection"
    check context
    let final ← inspect context
    if lostVerification then
      acknowledge context "artifact_delivery_verification_reconciled" (.verificationReconciled final)
    finish context artifact final
    pure none

def submit : DeliveryM ι Stage := do
  let s ← openDestination context artifact
  submitUpload context artifact s

def obtainReceipt : DeliveryM ι Stage :=
  match context.resumeId with
  | some resumeId => if context.preUploadResume then submit context artifact else resumeUpload context artifact resumeId
  | none => submit context artifact

def transfer : DeliveryM ι (Option Snapshot) := do
  match ← obtainReceipt context artifact with
  | .ended snapshot => pure (some snapshot)
  | .uploaded upload inspected => verifyUpload context artifact upload inspected

def incompleteError (error : JsError) (submitted : Bool) : DeliveryError :=
  if error.code = some "STORAGE_ENTRY_UNAVAILABLE".toList ∧ submitted = false then {
    code := "ARTIFACT_DESTINATION_UNAVAILABLE"
    message := error.message.take 1000
    artifactId := some artifact.artifactId
    directory := some artifact.upload.directory
    storageEntry := error.storageEntry }
  else {
    code := "ARTIFACT_DELIVERY_INCOMPLETE"
    message := error.message.take 1000 }

def settleFailure (error : JsError) : DeliveryM ι (Option Snapshot) := do
  let job ← readJob context
  let navigationResumable : Bool :=
    job.uploadStarted = none ∧ job.navigationUncertain = false ∧ job.navigationDocument.isSome
  if navigationResumable then
    acknowledge context "artifact_delivery_preupload_checkpoint"
      (.checkpoint (job.navigationDocument.getD []) job.navigationStep)
    assign context (.preUploadResume true)
  assign context (.error (some (incompleteError artifact error job.submitted)))
  assign context (.outcome (.incomplete job.effectPossible job.submitted context.uploadId !navigationResumable))
  pure none

end

end Run

-- The job is settled and the service free again, whether the procedure returns or throws.
def run (job : Job ι) (artifact : Artifact) (resumeId : Option Text) :
    Prog (Op ι) Op.Res (Except JsError Snapshot) := do
  let context := RunContext.of job resumeId
  let _ ← (assign context (.start (job.uploadStarted = some true)) : DeliveryM ι Unit).run
  let result ← (tryCatch (transfer context artifact) (settleFailure context artifact) : DeliveryM ι _).run
  let _ ← Prog.perform (Op.assign job.id (.state .settled) : Op ι)
  let _ ← Prog.perform (Op.deactivate : Op ι)
  match result with
  | .error error => pure (.error error)
  | .ok (some snapshot) => pure (.ok snapshot)
  | .ok none => (currentSnapshot context).run

inductive Request where
  | deliver (request : DeliverRequest)
  | resume (request : ResumeRequest)
  | status (id : Text)

inductive Reply (ι : Type) where
  | snapshot (snapshot : Snapshot)
  | promise (call : ι)

def proceed (resumeId : Option Text) : Except JsError (Begun ι) → Prog (Op ι) Op.Res (Except JsError (Reply ι))
  | .error error => pure (.error error)
  | .ok (.promise call) => pure (.ok (.promise call))
  | .ok (.settled snapshot) => pure (.ok (.snapshot snapshot))
  | .ok (.run job artifact) => do
      let result ← run job artifact resumeId
      pure (result.map Reply.snapshot)

def serve (call : ι) : Request → Prog (Op ι) Op.Res (Except JsError (Reply ι))
  | .deliver request => do proceed none (← Prog.perform (Op.deliver call request))
  | .resume request => do proceed (some request.resumeId) (← Prog.perform (Op.resume call request))
  | .status id => do
      let found ← Prog.perform (Op.status id : Op ι)
      pure (found.map Reply.snapshot)

abbrev DeliveryPool (ι : Type) := Pool ι (Op ι) Op.Res (Except JsError (Reply ι)) (DeliveryState ι)

def DeliveryPool.initial (requests : ι → Request) : DeliveryPool ι where
  state := {}
  log := []
  threads := fun call => serve call (requests call)

end LoginomDock.Delivery
