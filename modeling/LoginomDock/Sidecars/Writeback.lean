import LoginomDock.Library.Stateful
import LoginomDock.Sidecars.Okf
import Mathlib.Data.Rat.Defs
import Mathlib.Algebra.Order.Field.Rat

/-! The two sidecars of a directory are read and written under one lease. Every access to the storage may raise, also
between the two writes. -/

namespace LoginomDock.Sidecars

open Access (strip names)

-- The files by the parts of their URI, and what the next accesses raise and the next tests for staleness say
structure Disk where
  files : List Text → Option Text
  faults : Nat → Option Failure
  stale : Nat → Bool

abbrev Section (α : Type) := ExceptT Failure (StateM Disk) α

variable {α : Type}

def Disk.later (disk : Disk) : Disk := { disk with faults := fun turn => disk.faults (turn + 1) }

-- One access to the storage. One that raises has changed nothing.
def access (use : (List Text → Option Text) → α × (List Text → Option Text)) : Section α :=
  ExceptT.mk fun disk =>
    match disk.faults 0 with
    | some failed => (.error failed, disk.later)
    | none => (.ok (use disk.files).1, { disk.later with files := (use disk.files).2 })

def rawIfExists (uri : Text) : Section (Option Text) := access fun files => (files (names uri), files)

def writeFile (uri content : Text) : Section Unit := access fun files => ((), Function.update files (names uri) (some content))

def pathlockAcquire : Section Unit := access fun files => ((), files)

def isStale : Section Bool := ExceptT.mk fun disk => (.ok (disk.stale 0), { disk with stale := fun turn => disk.stale (turn + 1) })

def attempt (result : Except Failure α) : Section α := ExceptT.mk fun disk => (result, disk)

inductive FreshnessAction where
  | noop
  | markPending
  | refreshNow
  deriving DecidableEq

structure FreshnessDecision where
  action : FreshnessAction
  pendingAfter : Nat
  totalEntries : Nat

structure RefreshPolicy where
  overviewSampleLimit : Nat
  refreshRatio : ℚ
  forceRefresh : Bool

def decideParentRefresh (l0BodyChanged hasFreshnessBaseline : Bool) (totalEntries pendingBefore currentChangeCount : Nat)
    (policy : RefreshPolicy) : FreshnessDecision :=
  if !l0BodyChanged ∨ currentChangeCount = 0 then ⟨.noop, pendingBefore, totalEntries⟩
  else
    let pendingAfter := pendingBefore + currentChangeCount
    if !hasFreshnessBaseline then ⟨.refreshNow, pendingAfter, totalEntries⟩
    else if policy.forceRefresh ∨ totalEntries ≤ policy.overviewSampleLimit then ⟨.refreshNow, pendingAfter, totalEntries⟩
    else
      let changeRatio := (pendingAfter : ℚ) / (max totalEntries 1 : Nat)
      ⟨if policy.refreshRatio ≤ changeRatio then .refreshNow else .markPending, pendingAfter, totalEntries⟩

section

variable (yaml : PyYaml)

def readExistingDocument (uri : Text) : Section (Option Document) := do
  match ← rawIfExists uri with
  | none => pure none
  | some raw => attempt ((parseAbstractOverview yaml raw).map some)

def baseline (document : Option Document) : Option (Document × Freshness) :=
  match document with
  | none => none
  | some document => if document.legacy then none else document.metadata.freshness.map fun freshness => (document, freshness)

def trimmedUri (dirUri : Text) : Text := dirUri.rdropWhile (· = '/')

def overviewUri (dirUri : Text) : Text := dirUri ++ "/.overview.md"

def abstractUri (dirUri : Text) : Text := dirUri ++ "/.abstract.md"

-- Without a lease of its own, the caller's is used.
def readPendingSnapshot (dirUri : Text) (locked : Bool) : Section Nat := do
  (if locked then pure () else pathlockAcquire)
  let overview ← readExistingDocument yaml (overviewUri (trimmedUri dirUri))
  let abstract ← readExistingDocument yaml (abstractUri (trimmedUri dirUri))
  pure (max ((baseline overview).elim 0 fun known => known.2.pending) ((baseline abstract).elim 0 fun known => known.2.pending))

structure PlanRequest where
  changedEntries : Int
  l0BodyChanged : Bool
  policy : RefreshPolicy

def unknownBaseline (request : PlanRequest) : FreshnessDecision :=
  decideParentRefresh true false 0 0 request.changedEntries.toNat request.policy

def writePending (dirUri uri : Text) (known : Document × Freshness) (pending : Nat) : Section Unit := do
  let metadata := { known.1.metadata with freshness := some { known.2 with pending := pending } }
  let rendered ← attempt (renderAbstractOverview yaml dirUri known.1.body metadata.fields)
  let raw ← rawIfExists uri
  if raw = some rendered then pure () else writeFile uri rendered

/-- What `plan_abstract_overview_refresh` does under its lease -/
def recordChanges (dirUri : Text) (request : PlanRequest) : Section FreshnessDecision := do
  pathlockAcquire
  let overview ← readExistingDocument yaml (overviewUri (trimmedUri dirUri))
  let abstract ← readExistingDocument yaml (abstractUri (trimmedUri dirUri))
  match baseline overview, baseline abstract with
  | some overview, some abstract =>
    let decision := decideParentRefresh true true overview.2.total (max overview.2.pending abstract.2.pending)
      request.changedEntries.toNat request.policy
    writePending yaml dirUri (overviewUri (trimmedUri dirUri)) overview decision.pendingAfter
    writePending yaml dirUri (abstractUri (trimmedUri dirUri)) abstract decision.pendingAfter
    pure decision
  | _, _ => pure (unknownBaseline request)

structure WriteResult where
  wrote : Bool
  overviewBodyChanged : Bool := false
  abstractBodyChanged : Bool := false

/-- The text with every line break that Python writes as `\r\n` or `\r` made a line feed -/
def normalizeNewlines : Text → Text
  | [] => []
  | '\r' :: '\n' :: rest => '\n' :: normalizeNewlines rest
  | '\r' :: rest => '\n' :: normalizeNewlines rest
  | char :: rest => char :: normalizeNewlines rest

def semanticBodyDigest (body : Text) : Text := hexdigest (strip (normalizeNewlines body))

def bodyChanged (existing : Option Document) (body : Text) : Bool :=
  match existing with
  | none => true
  | some document => semanticBodyDigest document.body ≠ semanticBodyDigest body

def inheritSource (metadata : Fields) (existing : List (Option Document)) : Fields :=
  if (metadata.get? "source").isSome then metadata
  else match existing.findSome? fun document => document.bind fun document => document.metadata.source with
    | some source => metadata.set "source" (.mapping (labelFields "kind" "uri" source))
    | none => metadata

def pendingOf (document : Option Document) : Nat :=
  (document.bind fun document => document.metadata.freshness).elim 0 Freshness.pending

def carryPending (metadata : Fields) (current : Nat) (consumePending : Option Int) : Fields :=
  match metadata.get? "freshness" with
  | some (.mapping requested) =>
    let consumed := match consumePending with
      | none => (current : Int)
      | some consumed => max consumed 0
    metadata.set "freshness" (.mapping (Fields.set requested "pending_child_changes" (.integer (max (current - consumed) 0))))
  | _ => metadata

structure WriteRequest where
  overview : Text
  abstract : Text
  metadata : Fields
  consumePending : Option Int
  locked : Bool

/-- What `write_abstract_overview` does under its lease -/
def writeSidecars (dirUri : Text) (request : WriteRequest) : Section WriteResult := do
  if ← isStale then pure { wrote := false }
  else do
    let existingOverview ← readExistingDocument yaml (overviewUri dirUri)
    let existingAbstract ← readExistingDocument yaml (abstractUri dirUri)
    let inherited := inheritSource request.metadata [existingOverview, existingAbstract]
    let merged := carryPending inherited (max (pendingOf existingOverview) (pendingOf existingAbstract)) request.consumePending
    let renderedOverview ← attempt (renderAbstractOverview yaml dirUri request.overview merged)
    let renderedAbstract ← attempt (renderAbstractOverview yaml dirUri request.abstract merged)
    let currentOverview ← rawIfExists (overviewUri dirUri)
    let currentAbstract ← rawIfExists (abstractUri dirUri)
    (if currentOverview = some renderedOverview then pure () else writeFile (overviewUri dirUri) renderedOverview)
    (if currentAbstract = some renderedAbstract then pure () else writeFile (abstractUri dirUri) renderedAbstract)
    pure {
      wrote := true
      overviewBodyChanged := bodyChanged existingOverview request.overview
      abstractBodyChanged := bodyChanged existingAbstract request.abstract }

def writeAbstractOverview (dirUri : Text) (request : WriteRequest) : Section WriteResult := do
  if ← isStale then pure { wrote := false }
  else do
    (if request.locked then pure () else pathlockAcquire)
    writeSidecars yaml dirUri request

/-- `freshness_metadata` -/
def freshnessMetadata (totalEntries sampledEntries pending : Int) : Except Failure Fields := do
  let freshness ← counters [("total_entries", .integer totalEntries), ("sampled_entries", .integer sampledEntries),
    ("unsampled_entries", .integer (totalEntries - sampledEntries)), ("pending_child_changes", .integer pending)]
  pure freshness.fields

structure DirectorySemantics where
  overview : Text
  abstract : Text
  totalEntries : Int
  sampledEntries : Int
  generationTrigger : Text
  source : Option Fields
  locked : Bool

/-- `SemanticDagExecutor._write_directory_semantics` -/
def writeDirectorySemantics (dirUri : Text) (semantics : DirectorySemantics) (consumePending : Int) : Section WriteResult := do
  let freshness ← attempt (freshnessMetadata semantics.totalEntries semantics.sampledEntries 0)
  let generatedBy : Fields := [("component".toList, .text "SemanticProcessor".toList), ("trigger".toList, .text semantics.generationTrigger)]
  let metadata : Fields := [("generated_by".toList, .mapping generatedBy), ("freshness".toList, .mapping freshness)] ++
    (semantics.source.map fun source => ("source".toList, Yaml.mapping source)).toList
  writeAbstractOverview yaml dirUri {
    overview := semantics.overview
    abstract := semantics.abstract
    metadata
    consumePending := some consumePending
    locked := semantics.locked }

inductive WriteMode where
  | replace
  | append

/-- `is_abstract_overview_uri` -/
def isAbstractOverviewUri (uri : Text) : Bool :=
  (trimmedUri uri).rtakeWhile (· ≠ '/') ∈ [".abstract.md".toList, ".overview.md".toList]

def prepareAbstractOverviewWrite (uri currentRaw requestedRaw : Text) (mode : WriteMode) : Except Failure Text := do
  if !isAbstractOverviewUri uri then throw (.value ("not an abstract overview URI: " ++ uri))
  let current ← parseAbstractOverview yaml currentRaw
  let requested ← parseAbstractOverview yaml requestedRaw
  if !requested.legacy ∧ requested.metadata ≠ current.metadata then
    throw (.metadata "cannot modify protected abstract overview metadata")
  else
    let body := match mode with
      | .append => current.body ++ requested.body
      | .replace => requested.body
    let dirUri := match current.metadata.directory with
      | some (char :: rest) => char :: rest
      | _ => ((trimmedUri uri).rdropWhile (· ≠ '/')).dropLast
    renderAbstractOverview yaml dirUri body current.metadata.fields

/-- `_write_in_place` of a sidecar -/
def writeInPlace (uri requestedRaw : Text) (mode : WriteMode) : Section Unit := do
  pathlockAcquire
  match ← rawIfExists uri with
  | none => throw (.storage "file not found")
  | some currentRaw =>
    let rendered ← attempt (prepareAbstractOverviewWrite yaml uri currentRaw requestedRaw mode)
    writeFile uri rendered

end

end LoginomDock.Sidecars
