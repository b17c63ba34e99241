import LoginomDock.Library.Checked
import LoginomDock.Library.Cuts
import LoginomDock.Library.Js

/-! `upload-lineage.mjs`: when the history of the writes shows that a path held the bytes of an upload, and holds them
yet. -/

namespace LoginomDock.Client

open Json List

inductive LineageError where
  | refused (message : Text)
  | typeError

namespace UploadLineage

def need (condition : Bool) (message : String) : Except LineageError Unit :=
  if condition then .ok () else .error (.refused ("Upload lineage: " ++ message).toList)

def isFalse : Option Json → Bool
  | some (.bool value) => !value
  | _ => false

/-- `typeof value === 'string' && value.length > 0` -/
def isFilledText : Option Json → Bool
  | some (.string value) => value ≠ []
  | _ => false

def isNullish : Option Json → Bool
  | none | some .null => true
  | _ => false

/-- `Number.isSafeInteger`, with the integer -/
def safeInteger : Option Json → Option Int
  | some (.integer value) => if value.natAbs < 2 ^ 53 then some value else none
  | some (.double value) => if value.den = 1 ∧ value.num.natAbs < 2 ^ 53 then some value.num else none
  | _ => none

/-- `===`, where values that were made apart are never one object -/
def strictEquals : Option Json → Option Json → Bool
  | none, none | some .null, some .null => true
  | some (.bool first), some (.bool second) => first = second
  | some (.integer first), some (.integer second) => first = second
  | some (.double first), some (.double second) => first = second
  | some (.string first), some (.string second) => first = second
  | _, _ => false

-- A proven refusal
def noEffect (record : Json) : Bool :=
  let outcome := get? record "outcome"
  let output := get? outcome "output"
  isTrue (get? record "cleanup_confirmed") && !truthy (get? record "transport_uncertain") &&
    (isText (get? outcome "status") "NOT_APPLIED" && isFalse (get? outcome "effect_possible") ||
      isText (get? outcome "status") "FAILED" && isTrue (get? output "conflict_rejected") && isFalse (get? output "upload_submitted"))

section Lineage

-- What `===` says of two objects is not known from their values, so it is any relation here.
variable (identical : Option Json → Option Json → Bool) (source : Option Json)

-- Where one of the three is missing the source may throw, which ends the call as well as a record that is not verified.
def holdsBytes (value : Option Json) : Bool :=
  !isNullish value && identical (get? value "bytes") (get? source "bytes") && identical (get? value "sha256") (get? source "sha256")

def sameBytes (record : Json) : Bool :=
  let outcome := get? record "outcome"
  let output := get? outcome "output"
  let copy := get? output "server_copy_verification"
  let artifact := get? record "artifact"
  isTrue (get? record "cleanup_confirmed") && !truthy (get? record "transport_uncertain") && isText (get? outcome "status") "SUCCEEDED" &&
    isTrue (get? outcome "cleanup_complete") && identical (get? outcome "operation_id") (get? record "operation_id") &&
    isText (get? outcome "action_key") "artifact.upload" && isText (get? copy "status") "SUCCEEDED" &&
    isTrue (get? copy "bytes_verified") && isTrue (get? copy "upload_completion_verified") &&
    isFilledText (get? copy "verification_id") && identical (get? artifact "artifact_id") (get? output "artifact_id") &&
    [artifact, output, copy].all (holdsBytes identical source) &&
    identical (get? output "destination") (get? source "destination") && identical (get? copy "destination") (get? source "destination")

def checkOrder : List Json → Int → List (Option Json) → Except LineageError Unit
  | [], _, _ => .ok ()
  | record :: rest, last, ids =>
    if isNullish record then .error .typeError
    else match safeInteger (get? record "sequence") with
    | none => need false "ordered unique writes required"
    | some sequence => do
      need (decide (last < sequence) && !ids.any (identical (get? record "operation_id"))) "ordered unique writes required"
      checkOrder rest sequence (get? record "operation_id" :: ids)

/-- `record.sequence < executionSequence`, which is infinite where it is not given -/
def precedes (executionSequence : Option Json) (record : Json) : Bool :=
  match executionSequence, safeInteger (get? record "sequence") with
  | none, _ => true
  | some execution, some sequence => (safeInteger (some execution)).any fun limit => sequence < limit
  | some _, none => false

def isExecutionOrder (executionSequence : Option Json) : Bool :=
  executionSequence.all fun execution => (safeInteger (some execution)).any fun limit => 0 ≤ limit

def isRelevant (record : Json) : Bool := identical (get? record "destination") (get? source "destination")

def readSource (records : List Json) : Except LineageError Unit :=
  if isNullish source && !records.isEmpty then .error .typeError else .ok ()

structure Lineage where
  basis : Text := "private_ordered_upload_history"
  selectedUpload : Option Json
  verifiedCurrentUpload : Option Json
  executionSequence : Option Json
  sha256 : Option Json
  bytes : Option Json
  externalWritersExcluded : Bool := false

def recordsOf (history : Option Json) : List Json := listOf (get? history "records")

def isComplete (history : Option Json) : Bool :=
  isTrue (get? history "complete") && (match get? history "records" with
    | some (.array records) => records.length ≤ 4096
    | _ => false)

def verifyUploadLineage (history executionSequence : Option Json) : Except LineageError Lineage := do
  need (isComplete history) "complete private write history required"
  let records := recordsOf history
  checkOrder identical records (-1) []
  need (isExecutionOrder executionSequence) "execution order required"
  readSource source records
  let relevant := records.filter (isRelevant identical source)
  let chosen := relevant.filter fun (record : Json) => identical (get? record "operation_id") (get? source "upload_operation_id")
  need (chosen.length = 1 && chosen.head?.any (precedes executionSequence)) "upload must precede execution"
  need (chosen.head?.any (sameBytes identical source)) "selected upload is not byte verified"
  let writes := relevant.filter fun record => !noEffect record
  let prior := (writes.filter (precedes executionSequence)).getLast?
  need (prior.any (sameBytes identical source)) "source path was superseded or its latest write is uncertain"
  need ((writes.filter fun record => !precedes executionSequence record).all (sameBytes identical source))
    "source path changed or became uncertain after execution"
  return {
    selectedUpload := get? source "upload_operation_id"
    verifiedCurrentUpload := writes.getLast?.bind fun record => get? record "operation_id"
    executionSequence, sha256 := get? source "sha256", bytes := get? source "bytes" }

end Lineage

section Soundness

variable {identical : Option Json → Option Json → Bool} {source : Option Json} {Content : Type}

-- What a record may make of the content of the source's path. A record of another path leaves it as it is.
def Allows (identical : Option Json → Option Json → Bool) (source : Option Json) (sourceBytes : Content) (record : Json)
    (before after : Content) : Prop :=
  if isRelevant identical source record = true then
    (noEffect record = true → after = before) ∧ (sameBytes identical source record = true → after = sourceBytes)
  else after = before

def Outcomes (identical : Option Json → Option Json → Bool) (source : Option Json) (sourceBytes : Content) :
    List Json → Content → Content → Prop
  | [], before, after => after = before
  | record :: rest, before, after =>
    ∃ between, Allows identical source sourceBytes record before between ∧ Outcomes identical source sourceBytes rest between after

def isWrite (identical : Option Json → Option Json → Bool) (source : Option Json) (record : Json) : Bool :=
  isRelevant identical source record && !noEffect record

theorem need_ok {condition : Bool} {message : String} {done : Unit} : need condition message = .ok done ↔ condition = true := by
  cases condition <;> simp [need]

variable {sourceBytes before after : Content}

section

variable {record : Json} (allows : Allows identical source sourceBytes record before after)

include allows

theorem Allows.unchanged (quiet : isWrite identical source record = false) : after = before := by
  rw [Allows] at allows
  split at allows
  next relevant =>
    apply allows.1
    simpa [isWrite, relevant] using quiet
  next => exact allows

theorem Allows.sets
    (write : isWrite identical source record = true) (verified : sameBytes identical source record = true) : after = sourceBytes := by
  have relevant : isRelevant identical source record = true := (Bool.and_eq_true_iff.mp write).1
  rw [Allows, if_pos relevant] at allows
  exact allows.2 verified

end

section

variable {records : List Json} (outcomes : Outcomes identical source sourceBytes records before after)

include outcomes

theorem outcomes_last :
    ((records.filter (isWrite identical source)).getLast? = none → after = before) ∧
      ∀ record, (records.filter (isWrite identical source)).getLast? = some record → sameBytes identical source record = true →
        after = sourceBytes := by
  induction records generalizing before with
  | nil => exact ⟨fun _ => outcomes, nofun⟩
  | cons first rest ih =>
    obtain ⟨between, allows, later⟩ := outcomes
    obtain ⟨quiet, last⟩ := ih later
    cases write : isWrite identical source first with
    | false =>
      rw [filter_cons_of_neg (by rw [write]; nofun), ← allows.unchanged write]
      exact ⟨quiet, last⟩
    | true =>
      rw [filter_cons_of_pos write]
      constructor
      · intro none
        simp at none
      · intro record isLast verified
        rw [getLast?_cons] at isLast
        cases others : (rest.filter (isWrite identical source)).getLast? with
        | none =>
          rw [others, Option.getD_none, Option.some_inj] at isLast
          subst isLast
          rw [quiet others]
          exact allows.sets write verified
        | some other =>
          rw [others, Option.getD_some, Option.some_inj] at isLast
          exact last record (others.trans (congrArg some isLast)) verified

theorem outcomes_same (verified : ∀ record ∈ records.filter (isWrite identical source), sameBytes identical source record = true)
    (held : before = sourceBytes) : after = sourceBytes := by
  obtain ⟨quiet, last⟩ := outcomes_last outcomes
  cases isLast : (records.filter (isWrite identical source)).getLast? with
  | none => exact (quiet isLast).trans held
  | some record => exact last record isLast (verified record (mem_of_getLast? isLast))

end

theorem checkOrder_ok {records : List Json} {last : Int} {ids : List (Option Json)} (ordered : checkOrder identical records last ids = .ok ()) :
    (∀ record ∈ records, ∃ sequence, safeInteger (get? record "sequence") = some sequence ∧ last < sequence) ∧
      ∀ execution, Cuts.Ordered (precedes execution) records := by
  induction records generalizing last ids with
  | nil => exact ⟨nofun, fun _ => List.Pairwise.nil⟩
  | cons record rest ih =>
    rw [checkOrder] at ordered
    split at ordered
    · cases ordered
    · split at ordered
      · cases ordered
      next sequence found =>
        obtain ⟨⟨⟩, checked, later⟩ := bind_ok_iff.mp ordered
        obtain ⟨above, cut⟩ := ih later
        have greater : last < sequence := by simpa using (Bool.and_eq_true_iff.mp (need_ok.mp checked)).1
        constructor
        · intro other member
          rcases mem_cons.mp member with rfl | inside
          · exact ⟨sequence, found, greater⟩
          · obtain ⟨value, read, more⟩ := above other inside
            exact ⟨value, read, greater.trans more⟩
        · intro execution
          refine pairwise_cons.mpr ⟨fun other inside => ?_, cut execution⟩
          obtain ⟨value, read, more⟩ := above other inside
          cases execution with
          | none => exact fun _ => rfl
          | some execution =>
            simp only [precedes, found, read]
            cases safeInteger execution with
            | none => exact id
            | some execution =>
              simp only [Option.any_some, decide_eq_true_eq]
              exact more.trans

theorem writes_of_relevant (records : List Json) :
    (records.filter (isRelevant identical source)).filter (fun record => !noEffect record) = records.filter (isWrite identical source) := by
  rw [filter_filter]
  exact filter_congr fun record _ => Bool.and_comm _ _

section Halves

variable {passes : Json → Bool} {earlier later : List Json} (front : ∀ record ∈ earlier, passes record = true)
  (back : ∀ record ∈ later, passes record = false) (fits : Json → Bool)

include front back

theorem filter_earlier : ((earlier ++ later).filter fits).filter passes = earlier.filter fits := by
  have kept : (earlier.filter fits).filter passes = earlier.filter fits :=
    filter_eq_self.mpr fun record inside => front record (mem_of_mem_filter inside)
  have dropped : (later.filter fits).filter passes = [] :=
    filter_eq_nil_iff.mpr fun record inside => by simp [back record (mem_of_mem_filter inside)]
  rw [filter_append, filter_append, kept, dropped, append_nil]

theorem filter_later : ((earlier ++ later).filter fits).filter (fun record => !passes record) = later.filter fits := by
  have dropped : (earlier.filter fits).filter (fun record => !passes record) = [] :=
    filter_eq_nil_iff.mpr fun record inside => by simp [front record (mem_of_mem_filter inside)]
  have kept : (later.filter fits).filter (fun record => !passes record) = later.filter fits :=
    filter_eq_self.mpr fun record inside => by simp [back record (mem_of_mem_filter inside)]
  rw [filter_append, filter_append, dropped, kept, nil_append]

end Halves

-- The records before the execution and those from it on, and what any outcome of them all leaves at the path.
def HeldAround (identical : Option Json → Option Json → Bool) (source history executionSequence : Option Json) : Prop :=
  ∃ earlier later, recordsOf history = earlier ++ later ∧
    (∀ record ∈ earlier, precedes executionSequence record = true) ∧
    (∀ record ∈ later, precedes executionSequence record = false) ∧
    ∀ {Content : Type} (sourceBytes before atExecution after : Content),
      Outcomes identical source sourceBytes earlier before atExecution →
      Outcomes identical source sourceBytes later atExecution after →
      atExecution = sourceBytes ∧ after = sourceBytes

theorem verified_lineage_holds {identical : Option Json → Option Json → Bool} {source history executionSequence : Option Json} {lineage : Lineage}
    (returned : verifyUploadLineage identical source history executionSequence = .ok lineage) :
    HeldAround identical source history executionSequence := by
  simp only [verifyUploadLineage, bind_ok_iff, need_ok] at returned
  obtain ⟨-, -, ⟨⟩, order, -, -, -, -, -, -, -, -, -, prior, -, following, -⟩ := returned
  have cut := (checkOrder_ok order).2 executionSequence
  let records := recordsOf history
  let place := Cuts.place (precedes executionSequence) records
  have whole : records.take place ++ records.drop place = records := take_append_drop _ _
  have front : ∀ record ∈ records.take place, precedes executionSequence record = true := fun _ => Cuts.passes_of_mem_take
  have back : ∀ record ∈ records.drop place, precedes executionSequence record = false := fun _ => Cuts.fails_of_mem_drop cut
  rw [writes_of_relevant, show recordsOf history = _ from whole.symm] at prior following
  rw [filter_earlier front back, Option.any_eq_true] at prior
  rw [filter_later front back, all_eq_true] at following
  obtain ⟨last, isLast, verified⟩ := prior
  refine ⟨records.take place, records.drop place, whole.symm, front, back, fun sourceBytes before atExecution after first second => ?_⟩
  have held : atExecution = sourceBytes := (outcomes_last first).2 last isLast verified
  exact ⟨held, outcomes_same second following held⟩

section Example

def uploadRecord (operation : String) (sequence : Int) : Json :=
  let bytes : List (Text × Json) := [("bytes", .integer 3), ("sha256", .string "ab")]
  let destination : Text × Json := ("destination", .string "/user/in.txt")
  let copy : Json := .object (destination :: bytes ++ [("status".toList, .string "SUCCEEDED".toList), ("bytes_verified".toList, .bool true),
    ("upload_completion_verified".toList, .bool true), ("verification_id".toList, .string "v".toList)])
  let output : Json := .object (destination :: bytes ++ [("artifact_id".toList, .string "a".toList), ("server_copy_verification".toList, copy)])
  let outcome : Json := .object [("status", .string "SUCCEEDED"), ("cleanup_complete", .bool true),
    ("operation_id", .string operation.toList), ("action_key", .string "artifact.upload"), ("output", output)]
  .object [destination, ("sequence", .integer sequence), ("operation_id", .string operation.toList),
    ("cleanup_confirmed", .bool true), ("outcome", outcome),
    ("artifact", .object (("artifact_id", .string "a") :: bytes))]

def uploadSource : Json := .object [("destination", .string "/user/in.txt"), ("upload_operation_id", .string "A"),
  ("bytes", .integer 3), ("sha256", .string "ab")]

def uploadHistory : Json := .object [("complete", .bool true), ("records", .array [uploadRecord "A" 0, uploadRecord "A2" 3])]

def uploadLineage : Lineage := {
  selectedUpload := some (.string "A")
  verifiedCurrentUpload := some (.string "A2")
  executionSequence := some (.integer 2), sha256 := some (.string "ab".toList), bytes := some (.integer 3) }

theorem replaced_upload_holds : HeldAround strictEquals (some uploadSource) (some uploadHistory) (some (.integer 2)) :=
  @verified_lineage_holds strictEquals (some uploadSource) (some uploadHistory) (some (.integer 2)) uploadLineage rfl

end Example

end Soundness

end UploadLineage

end LoginomDock.Client
