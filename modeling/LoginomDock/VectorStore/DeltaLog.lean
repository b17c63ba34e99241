import LoginomDock.Library.Interleave
import LoginomDock.VectorStore.StoreManager

namespace LoginomDock.VectorStore

open List

-- A change of the candidate table, as a batch or as a delta record describes it.
structure Change where
  type : DeltaType
  key : Text
  vector : List UInt32 := []
  sparseRawTerms : List Text := []
  sparseValues : List UInt32 := []
  fields : Text := []
  deriving DecidableEq, Repr

def candChange : StorageOp → Option Change
  | .cand (.put key data) => some ⟨.upsert, key, data.vector, data.sparseRawTerms, data.sparseValues, data.fields⟩
  | .cand (.del key) => some { type := .delete, key := key }
  | .delta _ | .ttl _ => none

def DeltaRecord.change (record : DeltaRecord) : Change :=
  ⟨record.type, str record.label, record.vector, record.sparseRawTerms, record.sparseValues, record.fields⟩

def deltaPut : StorageOp → Option (Text × DeltaRecord)
  | .delta (.put key record) => some (key, record)
  | .delta (.del _) | .cand _ | .ttl _ => none

def writes (ops : List StorageOp) : List (Text × DeltaRecord) := ops.filterMap deltaPut

def recordedChanges (ops : List StorageOp) : List Change := if writes ops = [] then [] else ops.filterMap candChange

structure Recording (ops : List StorageOp) : Prop where
  puts : ∀ key, StorageOp.delta (.del key) ∉ ops
  distinct : ((writes ops).map fun put => put.1).Nodup
  mirrors : recordedChanges ops = (writes ops).map fun put => put.2.change

theorem deltaKeys_nodup (baseTs count : Nat) : (deltaKeys baseTs count).Nodup := by
  refine List.Nodup.map ?_ nodup_range
  intro first second same
  have := str_injective same
  omega

theorem length_deltaKeys (baseTs count : Nat) : (deltaKeys baseTs count).length = count := by
  simp [deltaKeys]

theorem writes_putDeltas (baseTs : Nat) (deltas : List DeltaRecord) :
    writes (putDeltas baseTs deltas) = List.zip (deltaKeys baseTs deltas.length) deltas := by
  simp [writes, putDeltas, filterMap_map, deltaPut, Function.comp_def]

-- A batch part that leaves the delta table alone.
def Apart (ops : List StorageOp) : Prop := ∀ op ∈ ops, ∀ other, op ≠ .delta other

variable {ops : List StorageOp}

theorem Apart.writes_eq (apart : Apart ops) : writes ops = [] := by
  refine filterMap_eq_nil_iff.mpr fun op member => ?_
  cases op with
  | delta op => exact absurd rfl (apart _ member op)
  | cand op => rfl
  | ttl op => rfl

theorem Apart.append {first second : List StorageOp} (apart : Apart first) (more : Apart second) :
    Apart (first ++ second) := by
  intro op member
  rcases mem_append.mp member with inside | inside
  · exact apart op inside
  · exact more op inside

theorem apart_nil : Apart [] := by simp [Apart]

theorem apart_putCands (cands : List CandidateData) : Apart (putCands cands) := by
  simp [Apart, putCands]

theorem apart_delCands (labels : List Nat) : Apart (delCands labels) := by
  simp [Apart, delCands]

theorem apart_putTtl (cands : List CandidateData) : Apart (putTtl cands) := by
  simp [Apart, putTtl]

theorem apart_delTtl {V : Type} (entries : List (Text × V)) :
    Apart (entries.map fun entry => StorageOp.ttl (.del entry.1)) := by
  rintro op member other rfl
  simp at member

theorem Apart.recording (apart : Apart ops) : Recording ops where
  puts key member := apart _ member _ rfl
  distinct := by simp [apart.writes_eq]
  mirrors := by simp [recordedChanges, apart.writes_eq]

theorem recording_of {baseTs : Nat} {deltas : List DeltaRecord} {before after : List StorageOp}
    (apartBefore : Apart before) (apartAfter : Apart after)
    (same : (before ++ after).filterMap candChange = deltas.map DeltaRecord.change) :
    Recording (before ++ putDeltas baseTs deltas ++ after) := by
  have length := length_deltaKeys baseTs deltas.length
  have written : writes (before ++ putDeltas baseTs deltas ++ after) =
      List.zip (deltaKeys baseTs deltas.length) deltas := by
    have split : writes (before ++ putDeltas baseTs deltas ++ after) =
        writes before ++ writes (putDeltas baseTs deltas) ++ writes after := by simp [writes]
    rw [split, apartBefore.writes_eq, apartAfter.writes_eq, writes_putDeltas]
    simp
  have changes : (putDeltas baseTs deltas).filterMap candChange = [] := by
    simp [putDeltas, candChange]
  have zipped : ((List.zip (deltaKeys baseTs deltas.length) deltas).map fun put => put.2.change) =
      deltas.map DeltaRecord.change := by
    have seconds := @map_snd_zip _ _ (deltaKeys baseTs deltas.length) deltas (by omega)
    conv_rhs => rw [← seconds]
    simp
  constructor
  · intro key member
    rcases mem_append.mp member with inside | inside
    · rcases mem_append.mp inside with inside | inside
      · exact apartBefore _ inside _ rfl
      · obtain ⟨item, -, equal⟩ := mem_map.mp inside
        simp at equal
    · exact apartAfter _ inside _ rfl
  · rw [written, map_fst_zip (by omega)]
    exact deltaKeys_nodup _ _
  · rw [recordedChanges, written, zipped]
    split
    case isTrue none =>
      have empty : deltas.length = 0 := by simpa [length] using congrArg List.length none
      simp [length_eq_zero_iff.mp empty]
    case isFalse =>
      rw [← same]
      simp [filterMap_append, changes]

def Answers : (op : StoreOp) → op.Res → Prop
  | .readCands keys, rows => rows.length = keys.length
  | _, _ => True

def Issued : StoreOp → Prop
  | .exec ops => Recording ops
  | .clear => False
  | _ => True

-- The calls whose changes the log is about.
def Request.Writes : Request → Prop
  | .addCandsData _ _ _ | .deleteData _ _ | .expireData => True
  | .deleteDeltaDataBeforeTs _ | .clear => False

abbrev Issues {α : Type} (post : α → Prop) (program : StoreM α) : Prop :=
  Prog.Does Answers Issued post (fun _ => True) program

theorem Issues.call {op : StoreOp} (issued : Issued op) : Issues (Answers op) (call op) := .perform op issued

theorem issues_require (fits : Bool) : Issues (fun _ => True) (requireSerializable fits) := by
  cases fits <;> exact trivial

theorem issues_recordDeltas (deltaList : List DeltaRecord) :
    Issues (fun puts => ∃ baseTs, puts = putDeltas baseTs deltaList) (recordDeltas deltaList) :=
  .bind (Issues.call trivial) fun baseTs _ => .bind (issues_require _) fun _ _ => .pure ⟨baseTs, rfl⟩

theorem issues_deltasFor {ι : Type} (items : List ι) (label : ι → Nat) (delta : ι → Text → DeltaRecord)
    (change : ι → Change) (needDelta : Bool) (describes : ∀ item oldFields, (delta item oldFields).change = change item) :
    Issues (fun result => result.2 = [] ∨
        ∃ baseTs, result.2 = putDeltas baseTs result.1 ∧ result.1.map DeltaRecord.change = items.map change)
      (deltasFor items label delta needDelta) := by
  rw [deltasFor]
  split
  · refine .bind (Issues.call trivial) fun rows answered => ?_
    refine .bind (issues_recordDeltas _) fun puts ⟨baseTs, made⟩ => .pure (.inr ⟨baseTs, made, ?_⟩)
    have length : rows.length = items.length := by simpa [Answers] using answered
    refine ext_getElem (by simp [oldFieldsOf, length]) fun i _ _ => ?_
    simp [describes]
  · exact .pure (.inl rfl)

theorem issues_expiring (candsList : List CandidateData) (ttl : Int) :
    Issues (fun cands => (putCands cands).filterMap candChange = (putCands candsList).filterMap candChange)
      (expiring candsList ttl) := by
  rw [expiring]
  split
  · refine .bind (Issues.call trivial) fun now _ => .pure ?_
    simp [putCands, filterMap_map, candChange, Function.comp_def]
  · exact .pure rfl

def upsertChange (data : CandidateData) : Change :=
  ⟨.upsert, str data.label, data.vector, data.sparseRawTerms, data.sparseValues, data.fields⟩

theorem candChange_putCands (cands : List CandidateData) :
    (putCands cands).filterMap candChange = cands.map upsertChange := by
  simp [putCands, filterMap_map, candChange, Function.comp_def, upsertChange]

theorem candChange_delCands (labels : List Nat) :
    (delCands labels).filterMap candChange = labels.map fun label => { type := .delete, key := str label } := by
  simp [delCands, filterMap_map, candChange, Function.comp_def]

theorem candChange_putTtl (cands : List CandidateData) : (putTtl cands).filterMap candChange = [] := by
  simp [putTtl, candChange]

theorem issues_addCandsData (candsList : List CandidateData) (ttl : Int) (needDelta : Bool) :
    Issues (fun _ => True) (addCandsData candsList ttl needDelta) := by
  refine .bind (issues_deltasFor candsList CandidateData.label upsertDelta upsertChange needDelta fun _ _ => rfl) ?_
  rintro ⟨deltaList, puts⟩ described
  refine .bind (issues_expiring candsList ttl) fun cands sameChanges => ?_
  refine .bind (issues_require _) fun _ _ => .bind (Issues.call ?_) fun _ _ => .pure trivial
  have apart : Apart (putCands cands ++ if 0 < ttl then putTtl cands else []) := by
    refine (apart_putCands cands).append ?_
    split
    · exact apart_putTtl cands
    · exact apart_nil
  have changes : (putCands cands ++ if 0 < ttl then putTtl cands else []).filterMap candChange =
      candsList.map upsertChange := by
    rw [filterMap_append, sameChanges, candChange_putCands]
    split <;> simp [candChange_putTtl]
  rw [append_assoc]
  rcases described with none | ⟨baseTs, made, sameDeltas⟩
  · simp only at none
    rw [none, nil_append]
    exact apart.recording
  · simp only at made sameDeltas
    rw [made, ← nil_append (putDeltas _ _)]
    exact recording_of apart_nil apart (by rw [nil_append, changes, sameDeltas])

theorem issues_deleteData (labelList : List Nat) (needRecordDelta : Bool) :
    Issues (fun _ => True) (deleteData labelList needRecordDelta) := by
  refine .bind (issues_deltasFor labelList id deleteDelta (fun label => { type := .delete, key := str label })
    needRecordDelta fun _ _ => rfl) ?_
  rintro ⟨deltaList, puts⟩ described
  refine .bind (Issues.call ?_) fun _ _ => .pure trivial
  rcases described with none | ⟨baseTs, made, sameDeltas⟩
  · simp only at none
    rw [none, nil_append]
    exact (apart_delCands labelList).recording
  · simp only at made sameDeltas
    rw [made, ← nil_append (putDeltas _ _)]
    exact recording_of apart_nil (apart_delCands _) (by rw [nil_append, candChange_delCands, sameDeltas])

theorem issues_expireData : Issues (fun _ => True) expireData := by
  refine .bind (Issues.call trivial) fun nowTime _ => .bind (Issues.call trivial) fun ttlKvList _ => ?_
  refine .bind (Issues.call trivial) fun rows _ => ?_
  set expired := expiredCands nowTime rows
  have changes : (delCands (expired.map CandidateData.label) ++
      ttlKvList.map fun entry => StorageOp.ttl (.del entry.1)).filterMap candChange =
        (expired.map fun data => deleteDelta data.label data.fields).map DeltaRecord.change := by
    have ttl : (ttlKvList.map fun entry => StorageOp.ttl (.del entry.1)).filterMap candChange = [] := by
      simp [filterMap_map, candChange, Function.comp_def]
    rw [filterMap_append, candChange_delCands, ttl]
    simp [deleteDelta, DeltaRecord.change]
  have recorded : Issues (fun puts => puts = [] ∨
      ∃ baseTs, puts = putDeltas baseTs (expired.map fun data => deleteDelta data.label data.fields))
      (recordExpired expired (expired.map fun data => deleteDelta data.label data.fields)) := by
    rw [recordExpired]
    split
    · exact .pure (.inl rfl)
    · exact .weaken (issues_recordDeltas _) (fun _ issued => issued) (fun _ made => .inr made) fun _ _ => trivial
  refine .bind recorded fun puts made => .bind (Issues.call ?_) fun _ _ => .pure trivial
  rcases made with rfl | ⟨baseTs, rfl⟩
  · rw [append_nil]
    exact ((apart_delCands _).append (apart_delTtl _)).recording
  · exact recording_of (apart_delCands _) (apart_delTtl _) changes

theorem issues_program {request : Request} (isWrite : request.Writes) : Issues (fun _ => True) request.program := by
  cases request with
  | addCandsData candsList ttl needDelta => exact issues_addCandsData candsList ttl needDelta
  | deleteData labelList needRecordDelta => exact issues_deleteData labelList needRecordDelta
  | expireData => exact issues_expireData
  | deleteDeltaDataBeforeTs nsTs => exact isWrite.elim
  | clear => exact isWrite.elim

section Log

variable {ι : Type}

section

variable (log : List (ι × StoreOp))

-- The batches executed so far, oldest first.
def executed : List (List StorageOp) :=
  log.reverse.filterMap fun entry => match entry.2 with
    | .exec ops => some ops
    | _ => none

def written : List (Text × DeltaRecord) := (executed log).flatMap writes

def applied : List Change := (executed log).flatMap recordedChanges

end

structure LosesNothing (world : World ι StoreOp StoreState) : Prop where
  distinct : ((written world.log).map fun put => put.1).Nodup
  kept : ∀ put ∈ written world.log, world.state.storage.deltas.lookup put.1 = some put.2
  ordered : ∀ label, (world.state.storage.deltas.inOrder.map fun entry => entry.2.change).filter
      (fun change => change.key = str label) = (applied world.log).filter fun change => change.key = str label

-- The keys of a batch are new and, as strings, above the keys of the records of the same label that are in the table or
-- come earlier in the batch.
structure Appends (deltas : Table Text DeltaRecord) (ops : List StorageOp) : Prop where
  fresh : ∀ put ∈ writes ops, put.1 ∉ deltas
  later : ∀ put ∈ writes ops, ∀ entry ∈ deltas.inOrder, entry.2.label = put.2.label → entry.1 < put.1
  inside : (writes ops).Pairwise fun first second => first.2.label = second.2.label → first.1 < second.1

instance (deltas : Table Text DeltaRecord) (ops : List StorageOp) : Decidable (Appends deltas ops) :=
  decidable_of_iff ((∀ put ∈ writes ops, put.1 ∉ deltas) ∧
      (∀ put ∈ writes ops, ∀ entry ∈ deltas.inOrder, entry.2.label = put.2.label → entry.1 < put.1) ∧
      (writes ops).Pairwise fun first second => first.2.label = second.2.label → first.1 < second.1)
    ⟨fun ⟨fresh, later, inside⟩ => ⟨fresh, later, inside⟩, fun appends => ⟨appends.fresh, appends.later, appends.inside⟩⟩

def storeMachine (clock : Nat → Nat) : Machine StoreOp StoreOp.Res StoreState where
  handle := handle clock
  enabled _ _ := True

def appendingMachine (clock : Nat → Nat) : Machine StoreOp StoreOp.Res StoreState where
  handle := handle clock
  enabled op state := match op with
    | .exec ops => Appends state.storage.deltas ops
    | _ => True

-- A writer makes its calls one after the other.
def performAll : List Request → Prog StoreOp StoreOp.Res Unit
  | [] => .done ()
  | request :: rest => request.program.run >>= fun _ => performAll rest

def writers (requests : ι → List Request) : Pool ι StoreOp StoreOp.Res Unit StoreState where
  state := ⟨.empty, 0⟩
  log := []
  threads thread := performAll (requests thread)

structure Kept (world : World ι StoreOp StoreState) : Prop where
  perm : (world.state.storage.deltas.entries.map fun entry => (entry.1, entry.2)).Perm (written world.log)
  ascending : ∀ label, ((written world.log).filter fun put => put.2.label = label).Pairwise
    fun first second => first.1 < second.1
  mirrors : applied world.log = (written world.log).map fun put => put.2.change

theorem execOps_deltas (puts : ∀ key, StorageOp.delta (.del key) ∉ ops) (storage : Storage) :
    (storage.execOps ops).deltas =
      (writes ops).foldl (fun table put => table.insert put.1 put.2) storage.deltas := by
  induction ops generalizing storage with
  | nil => rfl
  | cons op rest ih =>
    refine (ih (fun key member => puts key (by simp [member])) (storage.execOp op)).trans ?_
    cases op with
    | cand op => rfl
    | ttl op => rfl
    | delta op =>
      cases op with
      | put key record => rfl
      | del key => exact absurd (by simp) (puts key)

@[simp] theorem executed_exec (thread : ι) (ops : List StorageOp) (log : List (ι × StoreOp)) :
    executed ((thread, .exec ops) :: log) = executed log ++ [ops] := by
  simp [executed]

variable {world : World ι StoreOp StoreState}

theorem Kept.exec (kept : Kept world) {clock : Nat → Nat} {thread : ι} (recording : Recording ops) (appends : Appends world.state.storage.deltas ops) :
    Kept (world.after (appendingMachine clock) thread (.exec ops)) := by
  have log : (world.after (appendingMachine clock) thread (.exec ops)).log = (thread, .exec ops) :: world.log := rfl
  have wrote : written ((thread, .exec ops) :: world.log) = written world.log ++ writes ops := by
    simp [written]
  constructor
  · rw [log, wrote]
    have stored := execOps_deltas recording.puts world.state.storage
    have added := Table.perm_foldl_insert (writes ops) world.state.storage.deltas appends.fresh recording.distinct
    rw [← stored] at added
    exact added.trans (kept.perm.append_right _)
  · intro label
    rw [log, wrote, filter_append, pairwise_append]
    refine ⟨kept.ascending label, ?_, ?_⟩
    · refine List.Pairwise.imp_of_mem ?_ (appends.inside.filter _)
      intro first second inFirst inSecond below
      have named := (mem_filter.mp inFirst).2
      have same := (mem_filter.mp inSecond).2
      simp only [decide_eq_true_eq] at named same
      exact below (named.trans same.symm)
    · intro first inFirst second inSecond
      obtain ⟨old, named⟩ := mem_filter.mp inFirst
      obtain ⟨new, same⟩ := mem_filter.mp inSecond
      simp only [decide_eq_true_eq] at named same
      have stored : first ∈ world.state.storage.deltas.inOrder :=
        (Table.perm_inOrder _).mem_iff.mpr (kept.perm.mem_iff.mpr old)
      exact appends.later second new first stored (named.trans same.symm)
  · rw [log, wrote, map_append, ← kept.mirrors, ← recording.mirrors]
    simp [applied]

theorem Kept.frame {world later : World ι StoreOp StoreState} (kept : Kept world)
    (deltas : later.state.storage.deltas = world.state.storage.deltas) (log : executed later.log = executed world.log) :
    Kept later := by
  have wrote : written later.log = written world.log := congrArg (List.flatMap writes) log
  have changed : applied later.log = applied world.log := congrArg (List.flatMap recordedChanges) log
  exact ⟨by rw [deltas, wrote]; exact kept.perm, by rw [wrote]; exact kept.ascending,
    by rw [wrote, changed]; exact kept.mirrors⟩

theorem Kept.losesNothing (kept : Kept world) : LosesNothing world := by
  constructor
  · have keys := (kept.perm.map fun put => put.1).nodup_iff
    rw [← keys, map_map]
    exact world.state.storage.deltas.nodupKeys
  · intro put member
    exact Table.mem_pairs_iff.mp (kept.perm.mem_iff.mpr member)
  · intro label
    rw [kept.mirrors, filter_map, filter_map]
    have sameKey : ((fun change : Change => decide (change.key = str label)) ∘
        fun put : Text × DeltaRecord => put.2.change) = fun put => decide (put.2.label = label) := by
      funext put
      simp [DeltaRecord.change]
    rw [sameKey, Table.filter_inOrder _ kept.perm (kept.ascending label)]

theorem within_performAll {requests : List Request} (write : ∀ request ∈ requests, request.Writes) :
    Prog.Within Answers Issued (fun _ => True) (performAll requests) := by
  induction requests with
  | nil => exact trivial
  | cons request rest ih =>
    refine Prog.Within.bind (issues_program (write request (by simp))) fun _ _ => ?_
    exact ih fun other member => write other (by simp [member])

variable [DecidableEq ι]

end Log

instance (clock : Nat → Nat) (op : StoreOp) (state : StoreState) :
    Decidable ((appendingMachine clock).enabled op state) :=
  match op with
  | .exec ops => inferInstanceAs (Decidable (Appends state.storage.deltas ops))
  | .timeNs | .readCands _ | .seekTtl _ | .seekDeltas _ | .clear => Decidable.isTrue trivial

instance (clock : Nat → Nat) (op : StoreOp) (state : StoreState) : Decidable ((storeMachine clock).enabled op state) :=
  inferInstanceAs (Decidable True)

-- One writer upserts a label and the other deletes it; both read before either has written.
def rivals : Bool → List Request
  | false => [.addCandsData [⟨1, [], [], [], ['a'], 0⟩] 0 true]
  | true => [.deleteData [1] true]

def rivalsEnd : Pool Bool StoreOp StoreOp.Res Unit StoreState :=
  Pool.follow (appendingMachine fun reading => 100 + reading) [false, true, false, true, false, true] (writers rivals)

def batches : Unit → List Request := fun _ =>
  [.addCandsData [⟨1, [], [], [], ['a'], 0⟩, ⟨2, [], [], [], ['b'], 0⟩] 0 true,
    .addCandsData [⟨3, [], [], [], ['c'], 0⟩] 0 true]

def batchesEnd : Pool Unit StoreOp StoreOp.Res Unit StoreState :=
  Pool.follow (storeMachine fun reading => 100 + reading) [(), (), (), (), (), ()] (writers batches)

end LoginomDock.VectorStore
