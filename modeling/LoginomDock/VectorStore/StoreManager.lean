import Mathlib.Data.Char
import LoginomDock.Library.Batch
import LoginomDock.Library.Prog
import LoginomDock.Library.Text

/-! Candidates, delta records and expiry times live in three tables of one key-value store. Keys are decimal numerals
and are compared as strings. -/

namespace LoginomDock.VectorStore

open List

/-- Python's `str` of a non-negative integer. -/
def str (number : Nat) : Text := Nat.toDigits 10 number

theorem str_injective {first second : Nat} (same : str first = str second) : first = second := by
  rw [← Nat.ofDigitChars_ten_toDigits (n := first), ← Nat.ofDigitChars_ten_toDigits (n := second)]
  exact congrArg (Nat.ofDigitChars 10 · 0) same

@[simp] theorem str_inj {first second : Nat} : str first = str second ↔ first = second :=
  ⟨str_injective, fun same => same ▸ rfl⟩

-- Floats are kept as their bits.
structure CandidateData where
  label : Nat
  vector : List UInt32
  sparseRawTerms : List Text
  sparseValues : List UInt32
  fields : Text
  expireNsTs : Nat
  deriving DecidableEq, Repr

inductive DeltaType where
  | upsert
  | delete
  deriving DecidableEq, Repr

structure DeltaRecord where
  type : DeltaType
  label : Nat
  vector : List UInt32 := []
  sparseRawTerms : List Text := []
  sparseValues : List UInt32 := []
  fields : Text := []
  oldFields : Text := []
  deriving DecidableEq, Repr

/-- `BytesRow` raises for an integer that is no `uint64` and for a string of more than 65535 bytes. -/
def fitsUint64 (number : Nat) : Bool := number < 2 ^ 64

def fitsString (text : Text) : Bool := (text.map Char.utf8Size).sum ≤ 65535

def CandidateData.serializable (data : CandidateData) : Bool :=
  fitsUint64 data.label && fitsString data.fields && fitsUint64 data.expireNsTs

def DeltaRecord.serializable (record : DeltaRecord) : Bool :=
  fitsUint64 record.label && fitsString record.fields && fitsString record.oldFields

/-- The tables `C`, `D` and `T`. -/
structure Storage where
  cands : Table Text CandidateData
  deltas : Table Text DeltaRecord
  ttl : Table Text Text

def Storage.empty : Storage := ⟨∅, ∅, ∅⟩

inductive StorageOp where
  | cand (op : TableOp Text CandidateData)
  | delta (op : TableOp Text DeltaRecord)
  | ttl (op : TableOp Text Text)

def Storage.execOp (storage : Storage) : StorageOp → Storage
  | .cand op => { storage with cands := storage.cands.applyOp op }
  | .delta op => { storage with deltas := storage.deltas.applyOp op }
  | .ttl op => { storage with ttl := storage.ttl.applyOp op }

def Storage.execOps (storage : Storage) (ops : List StorageOp) : Storage := ops.foldl Storage.execOp storage

def beginToSeek {V : Type} (table : Table Text V) (endKey : Text) : List (Text × V) :=
  table.inOrder.filter fun entry => entry.1 < endKey

inductive StoreOp where
  | timeNs
  | readCands (keys : List Text)
  | seekTtl (endKey : Text)
  | seekDeltas (endKey : Text)
  | exec (ops : List StorageOp)
  | clear

@[reducible] def StoreOp.Res : StoreOp → Type
  | .timeNs => Nat
  | .readCands _ => List (Option CandidateData)
  | .seekTtl _ => List (Text × Text)
  | .seekDeltas _ => List (Text × DeltaRecord)
  | .exec _ => Unit
  | .clear => Unit

structure StoreState where
  storage : Storage
  /-- How often the clock has been read. -/
  ticks : Nat

/-- `clock` gives the successive readings of `time.time_ns()`. -/
def handle (clock : Nat → Nat) : (op : StoreOp) → StoreState → op.Res × StoreState
  | .timeNs, state => (clock state.ticks, { state with ticks := state.ticks + 1 })
  | .readCands keys, state => (keys.map fun key => state.storage.cands.lookup key, state)
  | .seekTtl endKey, state => (beginToSeek state.storage.ttl endKey, state)
  | .seekDeltas endKey, state => (beginToSeek state.storage.deltas endKey, state)
  | .exec ops, state => ((), { state with storage := state.storage.execOps ops })
  | .clear, state => ((), { state with storage := .empty })

inductive StoreError where
  | notSerializable
  deriving DecidableEq, Repr

abbrev StoreM (α : Type) := ExceptT StoreError (Prog StoreOp StoreOp.Res) α

def call (op : StoreOp) : StoreM op.Res := ExceptT.lift (Prog.perform op)

def deltaKeys (baseTs count : Nat) : List Text := (List.range count).map fun i => str (baseTs + i)

def putDeltas (baseTs : Nat) (deltas : List DeltaRecord) : List StorageOp :=
  (List.zip (deltaKeys baseTs deltas.length) deltas).map fun item => .delta (.put item.1 item.2)

def putCands (cands : List CandidateData) : List StorageOp :=
  cands.map fun data => .cand (.put (str data.label) data)

def delCands (labels : List Nat) : List StorageOp := labels.map fun label => .cand (.del (str label))

def putTtl (cands : List CandidateData) : List StorageOp :=
  cands.map fun data => .ttl (.put (str data.expireNsTs) (str data.label))

def requireSerializable (fits : Bool) : StoreM Unit := if fits then pure () else throw .notSerializable

def oldFieldsOf (rows : List (Option CandidateData)) : List Text :=
  rows.map fun row => (row.map CandidateData.fields).getD []

def upsertDelta (data : CandidateData) (oldFields : Text) : DeltaRecord where
  type := .upsert
  label := data.label
  vector := data.vector
  sparseRawTerms := data.sparseRawTerms
  sparseValues := data.sparseValues
  fields := data.fields
  oldFields := oldFields

def deleteDelta (label : Nat) (oldFields : Text) : DeltaRecord where
  type := .delete
  label := label
  oldFields := oldFields

def recordDeltas (deltaList : List DeltaRecord) : StoreM (List StorageOp) := do
  let baseTs ← call .timeNs
  requireSerializable (deltaList.all DeltaRecord.serializable)
  return putDeltas baseTs deltaList

def deltasFor {ι : Type} (items : List ι) (label : ι → Nat) (delta : ι → Text → DeltaRecord) (needDelta : Bool) :
    StoreM (List DeltaRecord × List StorageOp) :=
  if needDelta then do
    let rows ← call (.readCands (items.map fun item => str (label item)))
    let deltaList := List.zipWith delta items (oldFieldsOf rows)
    let puts ← recordDeltas deltaList
    return (deltaList, puts)
  else pure ([], [])

def expiring (candsList : List CandidateData) (ttl : Int) : StoreM (List CandidateData) :=
  if 0 < ttl then do
    let now ← call .timeNs
    return candsList.map fun data => { data with expireNsTs := now + ttl.toNat * 1000000000 }
  else pure candsList

def addCandsData (candsList : List CandidateData) (ttl : Int) (needDelta : Bool) : StoreM (List DeltaRecord) := do
  let (deltaList, puts) ← deltasFor candsList CandidateData.label upsertDelta needDelta
  let cands ← expiring candsList ttl
  requireSerializable (cands.all CandidateData.serializable)
  call (.exec (puts ++ putCands cands ++ if 0 < ttl then putTtl cands else []))
  return deltaList

def deleteData (labelList : List Nat) (needRecordDelta : Bool) : StoreM (List DeltaRecord) := do
  let (deltaList, puts) ← deltasFor labelList id deleteDelta needRecordDelta
  call (.exec (puts ++ delCands labelList))
  return deltaList

-- The rows read for the due keys that are due themselves.
def expiredCands (now : Nat) (rows : List (Option CandidateData)) : List CandidateData :=
  rows.filterMap fun row => row.filter fun data => data.expireNsTs ≤ now

def recordExpired (expired : List CandidateData) (deltaList : List DeltaRecord) : StoreM (List StorageOp) :=
  if expired = [] then pure [] else recordDeltas deltaList

def removeExpired (expired : List CandidateData) (ttlKvList : List (Text × Text)) : StoreM (List DeltaRecord) := do
  let deltaList := expired.map fun data => deleteDelta data.label data.fields
  let puts ← recordExpired expired deltaList
  call (.exec (delCands (expired.map CandidateData.label) ++ puts ++ ttlKvList.map fun entry => .ttl (.del entry.1)))
  return deltaList

def expireData : StoreM (List DeltaRecord) := do
  let nowTime ← call .timeNs
  let ttlKvList ← call (.seekTtl (str nowTime))
  let rows ← call (.readCands (ttlKvList.map fun entry => entry.2))
  removeExpired (expiredCands nowTime rows) ttlKvList

def deleteDeltaDataBeforeTs (nsTs : Nat) : StoreM (List DeltaRecord) := do
  let deltaKvList ← call (.seekDeltas (str nsTs))
  call (.exec (deltaKvList.map fun entry => .delta (.del entry.1)))
  return deltaKvList.map fun entry => entry.2

def clear : StoreM (List DeltaRecord) := do
  call .clear
  return []

inductive Request where
  | addCandsData (candsList : List CandidateData) (ttl : Int) (needDelta : Bool)
  | deleteData (labelList : List Nat) (needRecordDelta : Bool)
  | expireData
  | deleteDeltaDataBeforeTs (nsTs : Nat)
  | clear

def Request.program : Request → StoreM (List DeltaRecord)
  | .addCandsData candsList ttl needDelta => VectorStore.addCandsData candsList ttl needDelta
  | .deleteData labelList needRecordDelta => VectorStore.deleteData labelList needRecordDelta
  | .expireData => VectorStore.expireData
  | .deleteDeltaDataBeforeTs nsTs => VectorStore.deleteDeltaDataBeforeTs nsTs
  | .clear => VectorStore.clear

def perform (clock : Nat → Nat) (request : Request) (state : StoreState) :
    Except StoreError (List DeltaRecord) × StoreState :=
  Prog.exec (handle clock) request.program state

def StorageOp.onCands : StorageOp → Option (TableOp Text CandidateData)
  | .cand op => some op
  | .delta _ | .ttl _ => none

theorem execOps_cands (ops : List StorageOp) (storage : Storage) :
    (storage.execOps ops).cands = storage.cands.applyOps (ops.filterMap StorageOp.onCands) := by
  induction ops generalizing storage with
  | nil => rfl
  | cons op rest ih =>
    refine (ih (storage.execOp op)).trans ?_
    cases op <;> rfl

@[simp] theorem onCands_putDeltas (baseTs : Nat) (deltas : List DeltaRecord) :
    (putDeltas baseTs deltas).filterMap StorageOp.onCands = [] := by
  simp [putDeltas, filterMap_map, StorageOp.onCands, Function.comp_def]

@[simp] theorem onCands_putCands (cands : List CandidateData) :
    (putCands cands).filterMap StorageOp.onCands = cands.map fun data => .put (str data.label) data := by
  simp [putCands, filterMap_map, StorageOp.onCands, Function.comp_def]

@[simp] theorem onCands_delCands (labels : List Nat) :
    (delCands labels).filterMap StorageOp.onCands = labels.map fun label => .del (str label) := by
  simp [delCands, filterMap_map, StorageOp.onCands, Function.comp_def]

@[simp] theorem onCands_putTtl (cands : List CandidateData) : (putTtl cands).filterMap StorageOp.onCands = [] := by
  simp [putTtl, filterMap_map, StorageOp.onCands, Function.comp_def]

@[simp] theorem onCands_delTtl {V : Type} (entries : List (Text × V)) :
    (entries.map fun entry => StorageOp.ttl (.del entry.1)).filterMap StorageOp.onCands = [] := by
  simp [filterMap_map, StorageOp.onCands, Function.comp_def]

@[simp] theorem onCands_delDeltas {V : Type} (entries : List (Text × V)) :
    (entries.map fun entry => StorageOp.delta (.del entry.1)).filterMap StorageOp.onCands = [] := by
  simp [filterMap_map, StorageOp.onCands, Function.comp_def]

end LoginomDock.VectorStore
