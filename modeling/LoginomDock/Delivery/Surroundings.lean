import LoginomDock.Library.Text
import LoginomDock.Library.Table
import LoginomDock.Library.Prog
import Mathlib.Algebra.Order.Ring.Unbundled.Rat

/-! The runtime, the record function, the artifact store, the clock and the signal may answer anything and throw
anything. -/

namespace LoginomDock.Delivery

structure UnavailableEntry where
  name : Text
  directory : Text
  reason : Text

structure JsError where
  message : Text
  code : Option Text := none
  storageEntry : Option UnavailableEntry := none

def failure (message : String) : JsError := { message := message.toList }

structure Scroll where
  ref : Text
  top : ℚ
  maxTop : ℚ

structure UiElement where
  ref : Text
  tid : Option Text
  label : Text
  allowedActions : List Text
  interactionState : Option Text
  scroll : Option Scroll
  storageEntryKind : Option Text

structure FileStorage where
  status : Text
  directory : Text

structure WorkflowRef where
  tidPrefix : Option Text
  json : Text

structure DomEpoch where
  document : Option Text
  json : Text

structure Observation where
  observationId : Text
  domEpoch : Option DomEpoch
  workflowRef : Option WorkflowRef
  activeTabRef : Option Text
  fileStorage : Option FileStorage
  elements : List UiElement
  dialogs : List Text
  masks : List Text
  nextCursor : Option Text

inductive ObserveOptions where
  | roots (storageName : Option Text)
  | root (rootRef : Text) (observationId : Option Text)
  | page (cursor : Text)

structure ObserveReply where
  status : Text
  errorCode : Option Text
  output : Option Observation

structure Gesture where
  verb : Text
  ref : Text
  deltaY : Option ℚ
  operationId : Text
  observationId : Text

structure GestureReply where
  status : Option Text
  cleanupComplete : Option Bool

structure ServerCopy where
  bytesVerified : Option Bool
  uploadCompletionVerified : Option Bool
  destination : Option Text
  bytes : Option Nat
  sha256 : Option Text
  verificationId : Option Text

structure ReceiptOutput where
  uploadSubmitted : Option Bool
  conflictRejected : Option Bool
  bytesVerified : Option Bool
  serverCopyVerification : Option ServerCopy

-- The result of an upload or of a verification.
structure Receipt where
  operationId : Option Text
  status : Option Text
  errorCode : Option Text
  effectPossible : Option Bool
  cleanupComplete : Option Bool
  output : Option ReceiptOutput

structure InspectOutput where
  operationId : Option Text
  state : Option Text
  cleanupConfirmed : Option Bool
  outcome : Option Receipt

structure Inspection where
  output : Option InspectOutput

structure UploadGrant where
  grantId : Text
  directory : Text
  destination : Text
  overwrite : Text
deriving DecidableEq

structure Artifact where
  artifactId : Text
  bytes : Nat
  sha256 : Text
  upload : UploadGrant
deriving DecidableEq

structure DeliverRequest where
  operationId : Text
  artifactId : Text
  uploadGrantId : Text
  budgetMs : Int

structure ResumeRequest where
  operationId : Text
  resumeId : Text
  budgetMs : Int

structure UploadRequest where
  artifactId : Text
  grantId : Text
  observationId : Text
  operationId : Text

structure VerifyRequest where
  operationId : Text
  verificationId : Text
  observationId : Text

inductive Outcome where
  | succeeded (uploadOperationId : Text) (destination : Option Text) (bytes : Option Nat)
      (sha256 verificationId : Option Text)
  | notApplied (uploadOperationId code : Text)
  | rejected (destination uploadOperationId : Text)
  | incomplete (effectPossible submittedOrUnknown : Bool) (uploadOperationId : Text) (inspectionRequired : Bool)

-- The entries of the record, by their phases.
inductive Details where
  | resumeStarted (resumeId uploadOperationId : Text) (verificationStarted : Bool) (deadlineAt : Int)
  | resumeInspected (resumeId : Text) (inspection : Inspection)
  | prepared (artifact : Artifact) (deadlineAt : Int)
  | uploadReceipt (upload : Receipt)
  | uploadReconciled (inspection : Inspection)
  | verificationReconciled (inspection : Inspection)
  | result (result : Outcome)
  | checkpoint (document : Text) (navigationStep : Nat)

structure Entry where
  phase : Text
  operationId : Text
  internalProvenance : Text := "artifact_delivery_v1"
  details : Details

structure Saved where
  phase : Option Text
  operationId : Option Text

inductive Ask where
  | getUploadGrant (artifactId grantId : Text)
  | admitOperation (operationId signature : Text)
  | admitResume (uploadId resumeId signature : Text) (preUpload : Bool) (deliveryId : Text)
  | now
  | throwIfAborted
  | sleep (milliseconds : Nat)
  | record (entry : Entry)
  | observe (options : ObserveOptions)
  | uiAct (gesture : Gesture)
  | inspect (operationId : Text)
  | uploadDeliveredArtifact (request : UploadRequest)
  | verifyDeliveredArtifact (request : VerifyRequest)

abbrev Ask.Answer : Ask → Type
  | .getUploadGrant _ _ => Except JsError Artifact
  | .admitOperation _ _ | .admitResume _ _ _ _ _ | .throwIfAborted => Except JsError Unit
  | .now => Int
  | .sleep _ => Unit
  | .record _ => Except JsError Saved
  | .observe _ => Except JsError ObserveReply
  | .uiAct _ => Except JsError GestureReply
  | .inspect _ => Except JsError Inspection
  | .uploadDeliveredArtifact _ | .verifyDeliveredArtifact _ => Except JsError Receipt

-- A question with the answer that it got.
structure Event where
  ask : Ask
  answer : ask.Answer

abbrev Environment := List Event → (ask : Ask) → ask.Answer

end LoginomDock.Delivery
