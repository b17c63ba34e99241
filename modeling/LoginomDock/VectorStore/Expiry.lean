import LoginomDock.Library.Runs
import LoginomDock.VectorStore.StoreManager

namespace LoginomDock.VectorStore

open List

variable {clock : Nat → Nat} {state : StoreState}

theorem exec_call_bind {α : Type} (op : StoreOp) (next : op.Res → StoreM α) (state : StoreState) :
    Prog.exec (handle clock) (call op >>= next) state =
      Prog.exec (handle clock) (next (handle clock op state).1) (handle clock op state).2 :=
  Prog.exec_bind_ok _ (Prog.exec_lift _ _ _)

theorem exec_require_bind {α : Type} (fits : Bool) (next : Unit → StoreM α) (state : StoreState) :
    Prog.exec (handle clock) (requireSerializable fits >>= next) state =
      if fits then Prog.exec (handle clock) (next ()) state else (.error .notSerializable, state) := by
  cases fits <;> rfl

theorem recordDeltas_exec (deltaList : List DeltaRecord) (state : StoreState) :
    Prog.exec (handle clock) (recordDeltas deltaList) state =
      (if deltaList.all DeltaRecord.serializable then .ok (putDeltas (clock state.ticks) deltaList)
        else .error .notSerializable, { state with ticks := state.ticks + 1 }) := by
  rw [recordDeltas, exec_call_bind, exec_require_bind]
  split <;> rfl

def deltaTicks (needDelta : Bool) : Nat := if needDelta then 1 else 0

theorem deltasFor_exec {ι : Type} (clock : Nat → Nat) (items : List ι) (label : ι → Nat) (delta : ι → Text → DeltaRecord)
    (needDelta : Bool) (state : StoreState) :
    let after := { state with ticks := state.ticks + deltaTicks needDelta }
    Prog.exec (handle clock) (deltasFor items label delta needDelta) state = (.error .notSerializable, after) ∨
      ∃ baseTs deltaList puts, puts.filterMap StorageOp.onCands = [] ∧ (puts = [] ∨ puts = putDeltas baseTs deltaList) ∧
        Prog.exec (handle clock) (deltasFor items label delta needDelta) state = (.ok (deltaList, puts), after) := by
  intro after
  cases needDelta with
  | false => exact .inr ⟨0, [], [], rfl, .inl rfl, rfl⟩
  | true =>
    rw [deltasFor, if_pos rfl, exec_call_bind]
    simp only [handle, Prog.exec_bind, recordDeltas_exec]
    set deltaList := List.zipWith delta items
      (oldFieldsOf ((items.map fun item => str (label item)).map fun key => state.storage.cands.lookup key))
    by_cases fits : deltaList.all DeltaRecord.serializable
    · refine .inr ⟨clock state.ticks, deltaList, putDeltas (clock state.ticks) deltaList, by simp, .inr rfl, ?_⟩
      rw [if_pos fits]
      rfl
    · refine .inl ?_
      rw [if_neg fits]
      rfl

def expiryOf (clock : Nat → Nat) (state : StoreState) (ttl : Int) (needDelta : Bool) : Nat :=
  clock (state.ticks + deltaTicks needDelta) + ttl.toNat * 1000000000

def storedCands (clock : Nat → Nat) (state : StoreState) (candsList : List CandidateData) (ttl : Int)
    (needDelta : Bool) : List CandidateData :=
  if 0 < ttl then candsList.map fun data => { data with expireNsTs := expiryOf clock state ttl needDelta }
  else candsList

theorem expiring_exec (clock : Nat → Nat) (candsList : List CandidateData) (ttl : Int) (needDelta : Bool) (state : StoreState) :
    ∃ ticks, Prog.exec (handle clock) (expiring candsList ttl)
        { state with ticks := state.ticks + deltaTicks needDelta } =
      (.ok (storedCands clock state candsList ttl needDelta), { state with ticks := ticks }) := by
  rw [expiring, storedCands]
  split
  · exact ⟨_, exec_call_bind _ _ _⟩
  · exact ⟨_, rfl⟩

structure Changes (ops : List (TableOp Text CandidateData)) (state : StoreState)
    (result : Except StoreError (List DeltaRecord) × StoreState) : Prop where
  raised : ∀ error, result.1 = .error error → result.2.storage = state.storage
  returned : ∀ deltas, result.1 = .ok deltas → result.2.storage.cands = state.storage.cands.applyOps ops

theorem addCandsData_changes (clock : Nat → Nat) (candsList : List CandidateData) (ttl : Int) (needDelta : Bool) (state : StoreState) :
    Changes ((storedCands clock state candsList ttl needDelta).map fun data => .put (str data.label) data) state
        (perform clock (.addCandsData candsList ttl needDelta) state) ∧
      ∀ deltas, (perform clock (.addCandsData candsList ttl needDelta) state).1 = .ok deltas →
        (storedCands clock state candsList ttl needDelta).all CandidateData.serializable := by
  obtain ⟨ticks, expires⟩ := expiring_exec clock candsList ttl needDelta state
  simp only [perform, Request.program, addCandsData]
  rcases deltasFor_exec clock candsList CandidateData.label upsertDelta needDelta state with
    failed | ⟨baseTs, deltaList, puts, unrelated, -, succeeded⟩
  · rw [Prog.exec_bind_error _ failed]
    exact ⟨⟨fun _ _ => rfl, by simp⟩, by simp⟩
  · rw [Prog.exec_bind_ok _ succeeded]
    simp only
    rw [Prog.exec_bind_ok _ expires, exec_require_bind]
    split
    case isTrue fits =>
      rw [exec_call_bind]
      refine ⟨⟨by simp, fun _ _ => ?_⟩, fun _ _ => fits⟩
      simp only [handle, Prog.exec_pure, execOps_cands, filterMap_append, unrelated, onCands_putCands]
      split <;> simp
    case isFalse => exact ⟨⟨fun _ _ => rfl, by simp⟩, by simp⟩

theorem deleteData_changes (clock : Nat → Nat) (labelList : List Nat) (needRecordDelta : Bool) (state : StoreState) :
    Changes (labelList.map fun label => .del (str label)) state
      (perform clock (.deleteData labelList needRecordDelta) state) := by
  simp only [perform, Request.program, deleteData]
  rcases deltasFor_exec clock labelList id deleteDelta needRecordDelta state with
    failed | ⟨baseTs, deltaList, puts, unrelated, -, succeeded⟩
  · rw [Prog.exec_bind_error _ failed]
    exact ⟨fun _ _ => rfl, by simp⟩
  · rw [Prog.exec_bind_ok _ succeeded]
    simp only
    rw [exec_call_bind]
    refine ⟨by simp, fun _ _ => ?_⟩
    simp [handle, execOps_cands, unrelated]

theorem deleteDeltaDataBeforeTs_cands (nsTs : Nat) (state : StoreState) :
    (perform clock (.deleteDeltaDataBeforeTs nsTs) state).2.storage.cands = state.storage.cands := by
  simp only [perform, Request.program, deleteDeltaDataBeforeTs]
  rw [exec_call_bind, exec_call_bind]
  simp only [handle, Prog.exec_pure, execOps_cands, onCands_delDeltas, Table.applyOps_nil]

theorem clear_storage (state : StoreState) : (perform clock .clear state).2.storage = .empty := rfl

section

variable (now : Nat) (storage : Storage)

-- The keys of the expiry table that a call at this time looks at.
def due : List (Text × Text) := beginToSeek storage.ttl (str now)

def dueCount (label : Nat) : Nat :=
  (due now storage).countP fun entry => entry.2 = str label

def expiredAt : List CandidateData :=
  expiredCands now (((due now storage).map fun entry => entry.2).map fun key => storage.cands.lookup key)

end

theorem expireData_exec (clock : Nat → Nat) (state : StoreState)
    (fits : ∀ key row, state.storage.cands.lookup key = some row → row.serializable) :
    let now := clock state.ticks
    let expired := expiredAt now state.storage
    (perform clock .expireData state).1 = .ok (expired.map fun data => deleteDelta data.label data.fields) ∧
      (perform clock .expireData state).2.storage.cands =
        state.storage.cands.applyOps ((expired.map CandidateData.label).map fun label => .del (str label)) := by
  intro now expired
  have encodes : (expired.map fun data => deleteDelta data.label data.fields).all DeltaRecord.serializable := by
    rw [all_map, all_eq_true]
    intro data member
    obtain ⟨row, read, kept⟩ := mem_filterMap.mp member
    obtain ⟨key, -, rfl⟩ := mem_map.mp read
    have stored := fits key data (Option.filter_eq_some_iff.mp kept).1
    simp only [CandidateData.serializable, Bool.and_eq_true] at stored
    have short : fitsString [] = true := rfl
    simp [DeltaRecord.serializable, deleteDelta, stored.1.1, stored.1.2, short]
  have recorded : ∃ ticks puts, puts.filterMap StorageOp.onCands = [] ∧
      Prog.exec (handle clock) (recordExpired expired (expired.map fun data => deleteDelta data.label data.fields))
        { state with ticks := state.ticks + 1 } = (.ok puts, { state with ticks := ticks }) := by
    rw [recordExpired]
    split
    · exact ⟨_, [], rfl, rfl⟩
    · exact ⟨_, _, onCands_putDeltas _ _, by rw [recordDeltas_exec, if_pos encodes]⟩
  obtain ⟨ticks, puts, unrelated, done⟩ := recorded
  have ran : perform clock .expireData state =
      (.ok (expired.map fun data => deleteDelta data.label data.fields),
        { storage := state.storage.execOps (delCands (expired.map CandidateData.label) ++ puts ++
            (due now state.storage).map fun entry => .ttl (.del entry.1)), ticks := ticks }) := by
    simp only [perform, Request.program, expireData]
    rw [exec_call_bind, exec_call_bind, exec_call_bind]
    exact (Prog.exec_bind_ok _ done).trans (exec_call_bind _ _ _)
  rw [ran]
  refine ⟨rfl, ?_⟩
  simp only [execOps_cands, filterMap_append, unrelated, onCands_delCands, onCands_delTtl, append_nil]

inductive Upsert where
  | lasting
  | expiring (expiry : Nat)
  deriving DecidableEq, Repr

structure History where
  state : StoreState
  upserts : Nat → Option Upsert

def History.start : History := ⟨⟨.empty, 0⟩, fun _ => none⟩

-- What a call that returned has asked for.
def Request.record (clock : Nat → Nat) (state : StoreState) (upserts : Nat → Option Upsert) :
    Request → Nat → Option Upsert
  | .addCandsData candsList ttl needDelta => fun label =>
    if label ∈ candsList.map CandidateData.label then
      some (if 0 < ttl then .expiring (expiryOf clock state ttl needDelta) else .lasting)
    else upserts label
  | .deleteData labelList _ => fun label => if label ∈ labelList then none else upserts label
  | .clear => fun _ => none
  | .expireData | .deleteDeltaDataBeforeTs _ => upserts

def History.step (clock : Nat → Nat) (history : History) (request : Request) : History where
  state := (perform clock request history.state).2
  upserts := match (perform clock request history.state).1 with
    | .ok _ => request.record clock history.state history.upserts
    | .error _ => history.upserts

def History.run (clock : Nat → Nat) (requests : List Request) : History := requests.foldl (History.step clock) .start

structure RowSound (upserts : Nat → Option Upsert) (key : Text) (row : CandidateData) : Prop where
  keyed : key = str row.label
  fits : row.serializable
  upserted : (upserts row.label).isSome
  expiry : ∀ expiry, upserts row.label = some (.expiring expiry) → row.expireNsTs = expiry

def History.Sound (history : History) : Prop :=
  ∀ key row, history.state.storage.cands.lookup key = some row → RowSound history.upserts key row

theorem RowSound.congr {upserts others : Nat → Option Upsert} {key : Text} {row : CandidateData}
    (sound : RowSound upserts key row) (same : others row.label = upserts row.label) : RowSound others key row :=
  ⟨sound.keyed, sound.fits, same ▸ sound.upserted, fun expiry upserted => sound.expiry expiry (same ▸ upserted)⟩

theorem label_of_mem_storedCands {candsList : List CandidateData} {ttl : Int} {needDelta : Bool}
    {data : CandidateData} (member : data ∈ storedCands clock state candsList ttl needDelta) :
    data.label ∈ candsList.map CandidateData.label := by
  rw [storedCands] at member
  split at member
  · obtain ⟨given, inside, rfl⟩ := mem_map.mp member
    exact mem_map.mpr ⟨given, inside, rfl⟩
  · exact mem_map.mpr ⟨data, member, rfl⟩

theorem map_label_storedCands (clock : Nat → Nat) (state : StoreState) (candsList : List CandidateData) (ttl : Int) (needDelta : Bool) :
    (storedCands clock state candsList ttl needDelta).map CandidateData.label = candsList.map CandidateData.label := by
  rw [storedCands]
  split
  · simp [map_map, Function.comp_def]
  · rfl

variable {history : History}

theorem sound_addCandsData (sound : history.Sound) (candsList : List CandidateData) (ttl : Int)
    (needDelta : Bool) {deltas : List DeltaRecord}
    (returned : (perform clock (.addCandsData candsList ttl needDelta) history.state).1 = .ok deltas) :
    (history.step clock (.addCandsData candsList ttl needDelta)).Sound := by
  obtain ⟨changes, fits⟩ := addCandsData_changes clock candsList ttl needDelta history.state
  have stored := changes.returned deltas returned
  intro key row found
  simp only [History.step, returned, stored] at found ⊢
  rcases Table.lookup_applyOps_put (storedCands clock history.state candsList ttl needDelta)
      (fun data => str data.label) id history.state.storage.cands key with ⟨data, member, rfl, put⟩ | ⟨absent, same⟩
  · obtain rfl : data = row := Option.some.inj (put.symm.trans found)
    have named := label_of_mem_storedCands member
    refine ⟨rfl, all_eq_true.mp (fits deltas returned) data member, by simp [Request.record, named], ?_⟩
    intro expiry upserted
    simp only [Request.record, if_pos named, Option.some_inj] at upserted
    by_cases expires : 0 < ttl
    · rw [if_pos expires, Upsert.expiring.injEq] at upserted
      rw [storedCands, if_pos expires] at member
      obtain ⟨given, -, rfl⟩ := mem_map.mp member
      exact upserted
    · simp [expires] at upserted
  · have before := sound key row (same.symm.trans found)
    refine before.congr ?_
    -- a row under none of the batch's keys has none of its labels
    have other : row.label ∉ candsList.map CandidateData.label := by
      intro inside
      rw [← map_label_storedCands clock history.state candsList ttl needDelta] at inside
      obtain ⟨data, member, named⟩ := mem_map.mp inside
      exact absent (mem_map.mpr ⟨data, member, by rw [before.keyed, named]⟩)
    simp [Request.record, other]

theorem sound_deleteData (sound : history.Sound) (labelList : List Nat) (needRecordDelta : Bool)
    {deltas : List DeltaRecord}
    (returned : (perform clock (.deleteData labelList needRecordDelta) history.state).1 = .ok deltas) :
    (history.step clock (.deleteData labelList needRecordDelta)).Sound := by
  have stored := (deleteData_changes clock labelList needRecordDelta history.state).returned deltas returned
  intro key row found
  simp only [History.step, returned, stored] at found ⊢
  have looked : _ = some row := (Table.lookup_applyOps_del labelList str history.state.storage.cands key).symm.trans found
  by_cases gone : key ∈ labelList.map str
  · simp [gone] at looked
  · rw [if_neg gone] at looked
    have before := sound key row looked
    refine before.congr ?_
    have other : row.label ∉ labelList := fun inside => gone (before.keyed ▸ mem_map.mpr ⟨_, inside, rfl⟩)
    simp [Request.record, other]

theorem Sound.of_subset {history later : History} (sound : history.Sound) (same : later.upserts = history.upserts)
    (kept : ∀ key row, later.state.storage.cands.lookup key = some row →
      history.state.storage.cands.lookup key = some row) : later.Sound := by
  intro key row found
  exact (sound key row (kept key row found)).congr (by rw [same])

theorem sound_step (sound : history.Sound) (request : Request) :
    (history.step clock request).Sound := by
  -- a call that raises changes neither the candidates nor the record
  have raises : ∀ {error : StoreError}, (perform clock request history.state).1 = .error error →
      (perform clock request history.state).2.storage = history.state.storage → (history.step clock request).Sound := by
    intro error raised same
    exact Sound.of_subset sound (by simp [History.step, raised]) (by simp [History.step, same])
  cases request with
  | addCandsData candsList ttl needDelta =>
    cases outcome : (perform clock (.addCandsData candsList ttl needDelta) history.state).1 with
    | ok deltas => exact sound_addCandsData sound candsList ttl needDelta outcome
    | error error => exact raises outcome ((addCandsData_changes clock candsList ttl needDelta _).1.raised error outcome)
  | deleteData labelList needRecordDelta =>
    cases outcome : (perform clock (.deleteData labelList needRecordDelta) history.state).1 with
    | ok deltas => exact sound_deleteData sound labelList needRecordDelta outcome
    | error error => exact raises outcome ((deleteData_changes clock labelList needRecordDelta _).raised error outcome)
  | expireData =>
    obtain ⟨returned, stored⟩ := expireData_exec clock history.state fun key row found =>
      (sound key row found).fits
    refine Sound.of_subset sound (by simp [History.step, returned, Request.record]) ?_
    intro key row found
    simp only [History.step, stored, map_map] at found
    have looked := (Table.lookup_applyOps_del _ _ history.state.storage.cands key).symm.trans found
    split at looked
    · simp at looked
    · exact looked
  | deleteDeltaDataBeforeTs nsTs =>
    refine Sound.of_subset sound ?_ ?_
    · simp only [History.step]
      split <;> rfl
    · intro key row found
      simpa only [History.step, deleteDeltaDataBeforeTs_cands] using found
  | clear =>
    intro key row found
    simp only [History.step, clear_storage] at found
    simp [Storage.empty] at found

theorem sound_run (clock : Nat → Nat) (requests : List Request) : (History.run clock requests).Sound := by
  induction requests using List.reverseRecOn with
  | nil =>
    intro key row found
    simp [History.run, History.start, Storage.empty] at found
  | append_singleton requests request ih =>
    rw [History.run, foldl_append]
    exact sound_step ih request

theorem countP_expiredAt (sound : history.Sound) {label : Nat} {row : CandidateData}
    (held : history.state.storage.cands.lookup (str label) = some row) (now : Nat) :
    (expiredAt now history.state.storage).countP (fun data => data.label = label) =
      if row.expireNsTs ≤ now then dueCount now history.state.storage label else 0 := by
  have counted : (expiredAt now history.state.storage).countP (fun data => data.label = label) =
      (due now history.state.storage).countP fun entry => decide (entry.2 = str label ∧ row.expireNsTs ≤ now) := by
    rw [expiredAt, expiredCands, filterMap_map, filterMap_map, countP_filterMap]
    refine countP_congr fun entry _ => ?_
    simp only [Function.comp_apply]
    cases found : history.state.storage.cands.lookup entry.2 with
    | none =>
      have other : entry.2 ≠ str label := by
        intro same
        rw [same, held] at found
        simp at found
      simp [other]
    | some other =>
      have keyed := (sound _ _ found).keyed
      by_cases same : entry.2 = str label
      · rw [same, held, Option.some_inj] at found
        subst found
        have named : row.label = label := str_injective (keyed.symm.trans same)
        by_cases late : row.expireNsTs ≤ now <;> simp [Option.filter, late, same, named]
      · have named : other.label ≠ label := by
          rintro rfl
          exact same keyed
        by_cases late : other.expireNsTs ≤ now <;> simp [Option.filter, late, same, named]
  rw [counted, dueCount]
  by_cases late : row.expireNsTs ≤ now <;> simp [late]

theorem lookup_after_expireData (sound : history.Sound) (label : Nat) :
    (perform clock .expireData history.state).2.storage.cands.lookup (str label) =
      if (expiredAt (clock history.state.ticks) history.state.storage).countP (fun data => data.label = label) = 0 then
        history.state.storage.cands.lookup (str label)
      else none := by
  have stored := (expireData_exec clock history.state fun key row found => (sound key row found).fits).2
  rw [stored]
  refine (Table.lookup_applyOps_del _ _ _ _).trans ?_
  by_cases some : ∃ data ∈ expiredAt (clock history.state.ticks) history.state.storage, data.label = label
  · rw [if_pos, if_neg]
    · simpa [countP_eq_zero] using some
    · obtain ⟨data, member, rfl⟩ := some
      simp only [map_map, mem_map]
      exact ⟨data, member, rfl⟩
  · rw [if_neg, if_pos]
    · simpa [countP_eq_zero] using some
    · intro inside
      simp only [map_map, mem_map] at inside
      obtain ⟨data, member, same⟩ := inside
      exact some ⟨data, member, str_injective same⟩

def deletesOf (label : Nat) (outcome : Except StoreError (List DeltaRecord)) : Nat :=
  match outcome with
  | .ok deltas => deltas.countP fun delta => delta.type = .delete ∧ delta.label = label
  | .error _ => 0

theorem deletesOf_expireData (sound : history.Sound) (label : Nat) :
    deletesOf label (perform clock .expireData history.state).1 =
      (expiredAt (clock history.state.ticks) history.state.storage).countP fun data => data.label = label := by
  have returned := (expireData_exec clock history.state fun key row found => (sound key row found).fits).1
  rw [returned, deletesOf, countP_map]
  refine countP_congr fun data _ => ?_
  simp [deleteDelta]

def ExpiresAll (clock : Nat → Nat) (history : History) : Request → Prop
  | .expireData => ∀ label row expiry, history.state.storage.cands.lookup (str label) = some row →
      history.upserts label = some (.expiring expiry) → expiry ≤ clock history.state.ticks →
        (perform clock .expireData history.state).2.storage.cands.lookup (str label) = none ∧
          deletesOf label (perform clock .expireData history.state).1 = 1
  | _ => True

def DueOnce (clock : Nat → Nat) (history : History) : Request → Prop
  | .expireData => ∀ label row expiry, history.state.storage.cands.lookup (str label) = some row →
      history.upserts label = some (.expiring expiry) → expiry ≤ clock history.state.ticks →
        dueCount (clock history.state.ticks) history.state.storage label = 1
  | _ => True

theorem expires_all_iff_due_once (clock : Nat → Nat) (requests : List Request) :
    AtEach requests (fun before request => ExpiresAll clock (History.run clock before) request) ↔
      AtEach requests (fun before request => DueOnce clock (History.run clock before) request) := by
  have step : ∀ before request, ExpiresAll clock (History.run clock before) request ↔
      DueOnce clock (History.run clock before) request := by
    intro before request
    have sound := sound_run clock before
    cases request with
    | expireData =>
      simp only [ExpiresAll, DueOnce]
      refine forall_congr' fun label => forall_congr' fun row => forall_congr' fun expiry => ?_
      refine forall_congr' fun held => forall_congr' fun upserted => forall_congr' fun late => ?_
      -- the last upsert's expiry is the row's own
      have rowSound := sound _ _ held
      have named : row.label = label := str_injective rowSound.keyed.symm
      have expires : row.expireNsTs ≤ clock (History.run clock before).state.ticks := by
        rw [rowSound.expiry expiry (named ▸ upserted)]
        exact late
      have count := countP_expiredAt sound held (clock (History.run clock before).state.ticks)
      rw [if_pos expires] at count
      rw [lookup_after_expireData sound, deletesOf_expireData sound, count]
      constructor
      · exact fun removed => removed.2
      · intro once
        exact ⟨by simp [once], once⟩
    | _ => exact Iff.rfl
  exact forall_congr' fun before => forall_congr' fun request => forall_congr' fun _ => forall_congr' fun _ =>
    step before request

def twoCandidates : List CandidateData :=
  [⟨1, [], [], [], ['a'], 0⟩, ⟨2, [], [], [], ['b'], 0⟩]

def slowClock (reading : Nat) : Nat := reading * 2000000000

/-- The candidates of a batch share one key of the expiry table, so only the last one expires. -/
theorem first_of_two_never_expires :
    Monotone slowClock ∧
      ¬ AtEach [.addCandsData twoCandidates 1 true, .expireData]
        (fun before request => ExpiresAll slowClock (History.run slowClock before) request) := by
  refine ⟨fun _ _ later => Nat.mul_le_mul_right _ later, ?_⟩
  intro each
  have removed := (each [.addCandsData twoCandidates 1 true] .expireData [] rfl 1
    ⟨1, [], [], [], ['a'], 3000000000⟩ 3000000000 (by rfl) (by rfl) (by decide)).1
  exact nomatch (show (some _ : Option CandidateData) = none from removed)

def SparesLive (clock : Nat → Nat) (history : History) : Request → Prop
  | .expireData => ∀ label row, history.state.storage.cands.lookup (str label) = some row →
      (history.upserts label = some .lasting ∨
        ∃ expiry, history.upserts label = some (.expiring expiry) ∧ clock history.state.ticks < expiry) →
        (perform clock .expireData history.state).2.storage.cands.lookup (str label) = some row
  | _ => True

/-- At an expiry call, no due key of the expiry table names a row without expiry. The row's own
`expire_ns_ts`, 0 unless the caller gave another, is then not after the current time. -/
def NoneLeftover (clock : Nat → Nat) (history : History) : Request → Prop
  | .expireData => ∀ label row, history.state.storage.cands.lookup (str label) = some row →
      history.upserts label = some .lasting → row.expireNsTs ≤ clock history.state.ticks →
        dueCount (clock history.state.ticks) history.state.storage label = 0
  | _ => True

theorem spares_live_iff_none_leftover (clock : Nat → Nat) (requests : List Request) :
    AtEach requests (fun before request => SparesLive clock (History.run clock before) request) ↔
      AtEach requests (fun before request => NoneLeftover clock (History.run clock before) request) := by
  have step : ∀ before request, SparesLive clock (History.run clock before) request ↔
      NoneLeftover clock (History.run clock before) request := by
    intro before request
    have sound := sound_run clock before
    cases request with
    | expireData =>
      simp only [SparesLive, NoneLeftover]
      refine forall_congr' fun label => forall_congr' fun row => forall_congr' fun held => ?_
      have count := countP_expiredAt sound held (clock (History.run clock before).state.ticks)
      rw [lookup_after_expireData sound, count, held]
      have rowSound := sound _ _ held
      have named : row.label = label := str_injective rowSound.keyed.symm
      constructor
      · intro spared lasting late
        by_contra named
        have stays := spared (.inl lasting)
        simp [late, named] at stays
      · rintro none (lasting | ⟨expiry, upserted, later⟩)
        · by_cases late : row.expireNsTs ≤ clock (History.run clock before).state.ticks
          · simp [none lasting late]
          · simp [late]
        · rw [← rowSound.expiry expiry (named ▸ upserted)] at later
          simp [Nat.not_le.mpr later]
    | _ => exact Iff.rfl
  exact forall_congr' fun before => forall_congr' fun request => forall_congr' fun _ => forall_congr' fun _ =>
    step before request

/-- A row is upserted with an expiry and then again without one. The key that the first upsert left
takes the second one's row away. -/
theorem lasting_row_expires :
    Monotone slowClock ∧
      ¬ AtEach [.addCandsData [⟨1, [], [], [], ['a'], 0⟩] 1 true, .addCandsData [⟨1, [], [], [], ['b'], 0⟩] 0 true,
          .expireData]
        (fun before request => SparesLive slowClock (History.run slowClock before) request) := by
  refine ⟨fun _ _ later => Nat.mul_le_mul_right _ later, ?_⟩
  intro each
  have stays := each [.addCandsData [⟨1, [], [], [], ['a'], 0⟩] 1 true, .addCandsData [⟨1, [], [], [], ['b'], 0⟩] 0 true]
    .expireData [] rfl 1 ⟨1, [], [], [], ['b'], 0⟩ (by rfl) (.inl (by rfl))
  exact nomatch (show (none : Option CandidateData) = some _ from stays)

end LoginomDock.VectorStore
