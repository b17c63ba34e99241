import LoginomDock.Library.Interleave
import LoginomDock.VectorStore.StoreManager

namespace LoginomDock.VectorStore

structure Barrier where
  activeMutations : Nat
  publisher : Bool
  waitingPublishers : Nat
  generation : Nat
  deriving DecidableEq, Repr

def Barrier.new : Barrier := ⟨0, false, 0, 0⟩

-- An index object, with the rows it was built from.
structure Index where
  id : Nat
  source : List CandidateData
  deriving DecidableEq

-- An index that was put into the map, and the candidates at that moment.
structure Publication where
  indexName : Text
  source : List CandidateData
  cands : Table Text CandidateData

structure CollectionState where
  barrier : Barrier
  store : StoreState
  indexes : Table Text Index
  /-- How many index objects were built, and how often a call into an index was made. -/
  built : Nat
  applied : Nat
  published : List Publication

inductive CollectionOp where
  | enterMutation
  | leaveMutation (changed : Bool)
  | snapshotGeneration
  | isCurrent (expectedGeneration : Nat)
  | awaitExclusive
  | acquireExclusive
  | readGeneration
  | advanceGeneration
  | releaseExclusive
  | store (op : StoreOp)
  | seekCandsPage (cursor : Option Text)
  | countIndexes
  | getIndex (indexName : Text)
  | newIndex (cands : List CandidateData)
  | setIndex (indexName : Text) (index : Index)
  | removeIndex (indexName : Text)
  | applyDeltas (deltas : List DeltaRecord)

@[reducible] def CollectionOp.Res : CollectionOp → Type
  | .snapshotGeneration => Nat
  | .isCurrent _ => Bool
  | .readGeneration => Nat
  | .store op => op.Res
  | .seekCandsPage _ => List (Text × CandidateData)
  | .countIndexes => Nat
  | .getIndex _ => Option Index
  | .newIndex _ => Index
  | .applyDeltas _ => Bool
  | _ => Unit

-- What the collection cannot choose: the clock, the bytes a row takes, and which calls into an index raise.
structure Surroundings where
  clock : Nat → Nat
  rowBytes : Text × CandidateData → Nat
  raises : Nat → Bool

-- The rows that still fit into a page: the first row always does, every other one only within the byte budget.
def pageRest (rowBytes : Text × CandidateData → Nat) (maxBytes : Nat) :
    Nat → Nat → List (Text × CandidateData) → List (Text × CandidateData)
  | 0, _, _ => []
  | _, _, [] => []
  | limit + 1, pageBytes, row :: rest =>
    if maxBytes ≤ pageBytes ∨ maxBytes - pageBytes < rowBytes row then []
    else row :: pageRest rowBytes maxBytes limit (pageBytes + rowBytes row) rest

def pageOf (rowBytes : Text × CandidateData → Nat) (limit maxBytes : Nat) :
    List (Text × CandidateData) → List (Text × CandidateData)
  | [] => []
  | row :: rest => row :: pageRest rowBytes maxBytes (limit - 1) (rowBytes row) rest

def storeScanPageSize : Nat := 1024

def storeScanPageBytes : Nat := 32 * 1024 * 1024

/-- `seek_range_page` over the candidate table, from the start or after a cursor. -/
def seekCandsPage (rowBytes : Text × CandidateData → Nat) (cands : Table Text CandidateData) (cursor : Option Text) :
    List (Text × CandidateData) :=
  pageOf rowBytes storeScanPageSize storeScanPageBytes <| match cursor with
    | none => cands.inOrder
    | some key => cands.inOrder.filter fun row => key < row.1

def CollectionState.onBarrier (state : CollectionState) (change : Barrier → Barrier) : CollectionState :=
  { state with barrier := change state.barrier }

def collectionHandle (around : Surroundings) : (op : CollectionOp) → CollectionState → op.Res × CollectionState
  | .enterMutation, state =>
    ((), state.onBarrier fun barrier => { barrier with activeMutations := barrier.activeMutations + 1 })
  | .leaveMutation changed, state =>
    ((), state.onBarrier fun barrier => { barrier with
      generation := if changed then barrier.generation + 1 else barrier.generation
      activeMutations := barrier.activeMutations - 1 })
  | .snapshotGeneration, state => (state.barrier.generation, state)
  | .isCurrent expectedGeneration, state =>
    (!state.barrier.publisher && state.barrier.activeMutations == 0 &&
      state.barrier.generation == expectedGeneration, state)
  | .awaitExclusive, state =>
    ((), state.onBarrier fun barrier => { barrier with waitingPublishers := barrier.waitingPublishers + 1 })
  | .acquireExclusive, state =>
    ((), state.onBarrier fun barrier => { barrier with
      publisher := true, waitingPublishers := barrier.waitingPublishers - 1 })
  | .readGeneration, state => (state.barrier.generation, state)
  | .advanceGeneration, state =>
    ((), state.onBarrier fun barrier => { barrier with generation := barrier.generation + 1 })
  | .releaseExclusive, state => ((), state.onBarrier fun barrier => { barrier with publisher := false })
  | .store op, state =>
    ((handle around.clock op state.store).1, { state with store := (handle around.clock op state.store).2 })
  | .seekCandsPage cursor, state => (seekCandsPage around.rowBytes state.store.storage.cands cursor, state)
  | .countIndexes, state => (state.indexes.keys.length, state)
  | .getIndex indexName, state => (state.indexes.lookup indexName, state)
  | .newIndex cands, state => (⟨state.built, cands⟩, { state with built := state.built + 1 })
  | .setIndex indexName index, state =>
    ((), { state with
      indexes := state.indexes.insert indexName index
      published := ⟨indexName, index.source, state.store.storage.cands⟩ :: state.published })
  | .removeIndex indexName, state => ((), { state with indexes := state.indexes.erase indexName })
  | .applyDeltas _, state => (around.raises state.applied, { state with applied := state.applied + 1 })

def collectionMachine (around : Surroundings) : Machine CollectionOp CollectionOp.Res CollectionState where
  handle := collectionHandle around
  enabled op state := match op with
    | .enterMutation | .snapshotGeneration =>
      state.barrier.publisher = false ∧ state.barrier.waitingPublishers = 0
    | .acquireExclusive => state.barrier.publisher = false ∧ state.barrier.activeMutations = 0
    | _ => True

abbrev CollectionM (α : Type) := Prog CollectionOp CollectionOp.Res α

abbrev ask (op : CollectionOp) : CollectionM op.Res := Prog.perform op

def onStore {α : Type} : Prog StoreOp StoreOp.Res α → CollectionM α
  | .done value => .done value
  | .call op rest => .call (.store op) fun answer => onStore (rest answer)

-- What upserts and deletes do inside the barrier. The marker is set when the store manager returned and when anything
-- raised.
def changeStore (change : StoreM (List DeltaRecord)) : CollectionM Unit := do
  let changed ← onStore change.run
  match changed with
  | .error _ => ask (.leaveMutation true)
  | .ok deltaList =>
    let _ ← ask (.applyDeltas deltaList)
    ask (.leaveMutation true)

def writeDataList (cands : List CandidateData) (ttl : Int) : CollectionM Unit := do
  ask .enterMutation
  let count ← ask .countIndexes
  changeStore (addCandsData cands ttl (0 < count))

def deleteFromCollection (labels : List Nat) : CollectionM Unit := do
  ask .enterMutation
  let count ← ask .countIndexes
  changeStore (deleteData labels (0 < count))

/-- `_expire_timeout_data`. Without expired rows the marker stays unset unless an index raises. -/
def expireTimeoutData : CollectionM Unit := do
  ask .enterMutation
  let expired ← onStore expireData.run
  match expired with
  | .error _ => ask (.leaveMutation true)
  | .ok deltaList =>
    let raised ← ask (.applyDeltas deltaList)
    ask (.leaveMutation (raised || !deltaList.isEmpty))

def updateIndex (indexName : Text) : CollectionM Unit := do
  ask .enterMutation
  let index ← ask (.getIndex indexName)
  match index with
  | none => ask (.leaveMutation false)
  | some _ =>
    let _ ← ask (.applyDeltas [])
    ask (.leaveMutation true)

/-- `exclusive_mutation`. The generation advances however the body ends. -/
def exclusiveMutation (body : CollectionM Unit) : CollectionM Unit := do
  ask .awaitExclusive
  ask .acquireExclusive
  body
  ask .advanceGeneration
  ask .releaseExclusive

/-- `get_all_cands_data` page by page. A page that does not advance raises, and so does, in this
model, a scan that takes more than `fuel` pages. -/
def scanCands : Nat → Option Text → List CandidateData → CollectionM (Option (List CandidateData))
  | 0, _, _ => pure none
  | fuel + 1, cursor, rows => do
      let page ← ask (.seekCandsPage cursor)
      match page.getLast? with
      | none => pure (some rows)
      | some last =>
        if cursor.any fun key => decide (last.1 ≤ key) then pure none
        else scanCands fuel (some last.1) (rows ++ page.map fun row => row.2)

def removeIndexes : List Text → CollectionM Unit
  | [] => pure ()
  | indexName :: rest => do
      ask (.removeIndex indexName)
      removeIndexes rest

def rebuildEmpty : List Text → CollectionM Unit
  | [] => pure ()
  | indexName :: rest => do
      let index ← ask (.newIndex [])
      ask (.setIndex indexName index)
      rebuildEmpty rest

/-- `delete_all_data`, for the index names it finds. -/
def deleteAllData (indexNames : List Text) : CollectionM Unit :=
  exclusiveMutation do
    removeIndexes indexNames
    ask (.store .clear)
    rebuildEmpty indexNames

/-- `create_index`: the snapshot and the publication in one exclusive scope. -/
def createIndex (fuel : Nat) (indexName : Text) (oldestVersion : Nat) : CollectionM Unit :=
  exclusiveMutation do
    let scanned ← scanCands fuel none []
    match scanned with
    | none => pure ()
    | some cands =>
      let index ← ask (.newIndex cands)
      ask (.setIndex indexName index)
      let _ ← onStore (deleteDeltaDataBeforeTs oldestVersion).run

def dropIndex (indexName : Text) : CollectionM Unit := exclusiveMutation (ask (.removeIndex indexName))

/-- `_install_index`: publish only if the snapshot is still current. -/
def installIndex (indexName : Text) (index : Index) (expectedGeneration : Nat) (expectedReplaced : Index) :
    CollectionM Bool := do
  ask .awaitExclusive
  ask .acquireExclusive
  let generation ← ask .readGeneration
  let replaced ← ask (.getIndex indexName)
  if generation ≠ expectedGeneration ∨ replaced ≠ some expectedReplaced then
    ask .releaseExclusive
    pure false
  else
    ask (.setIndex indexName index)
    ask .releaseExclusive
    pure true

/-- `_rebuild_index` of a volatile index. -/
def rebuildIndex (fuel : Nat) (indexName : Text) (oldIndex : Index) : CollectionM Unit := do
  let expectedGeneration ← ask .snapshotGeneration
  let scanned ← scanCands fuel none []
  match scanned with
  | none => pure ()
  | some cands =>
    let current ← ask (.isCurrent expectedGeneration)
    if current then
      let index ← ask (.newIndex cands)
      let _ ← installIndex indexName index expectedGeneration oldIndex
    else pure ()

inductive CollectionCall where
  | writeDataList (cands : List CandidateData) (ttl : Int)
  | deleteData (labels : List Nat)
  | expireTimeoutData
  | updateIndex (indexName : Text)
  | deleteAllData (indexNames : List Text)
  | createIndex (fuel : Nat) (indexName : Text) (oldestVersion : Nat)
  | dropIndex (indexName : Text)
  | rebuildIndex (fuel : Nat) (indexName : Text) (oldIndex : Index)

def CollectionCall.program : CollectionCall → CollectionM Unit
  | .writeDataList cands ttl => VectorStore.writeDataList cands ttl
  | .deleteData labels => deleteFromCollection labels
  | .expireTimeoutData => VectorStore.expireTimeoutData
  | .updateIndex indexName => VectorStore.updateIndex indexName
  | .deleteAllData indexNames => VectorStore.deleteAllData indexNames
  | .createIndex fuel indexName oldestVersion => VectorStore.createIndex fuel indexName oldestVersion
  | .dropIndex indexName => VectorStore.dropIndex indexName
  | .rebuildIndex fuel indexName oldIndex => VectorStore.rebuildIndex fuel indexName oldIndex

def callAll : List CollectionCall → CollectionM Unit
  | [] => pure ()
  | call :: rest => do
      call.program
      callAll rest

def collectionPool {ι : Type} (store : StoreState) (indexes : Table Text Index) (built : Nat)
    (calls : ι → List CollectionCall) : Pool ι CollectionOp CollectionOp.Res Unit CollectionState where
  state := ⟨.new, store, indexes, built, 0, []⟩
  log := []
  threads thread := callAll (calls thread)

end LoginomDock.VectorStore
