import LoginomDock.QueueFs.RedisRemoval

/-! As long as no name is taken for another one, the same calls give the same replies in memory, in SQLite and in Redis,
and a removal takes one path with it. -/

namespace LoginomDock.QueueFs

open Redis SQLiteBackend

section Choices

variable {names : List Text}

theorem memory_fits (names : List Text) (call : BackendCall) :
    Fits (fun name queue => decide (queue = name)) (fun lead queue => decide (lead <+: queue)) names call ↔
      match call with
      | .removeQueue name => ∀ queue ∈ names, queue ≠ name → ¬ name ++ ['/'] <+: queue
      | .listQueues lead => lead = [] ∨ ∀ queue ∈ names, lead <+: queue → Under lead queue
      | _ => True := by
  cases call with
  | removeQueue name =>
    refine forall₂_congr fun queue _ => ?_
    rw [decide_eq_true_iff, Under]
    tauto
  | listQueues lead =>
    refine or_congr Iff.rfl (forall₂_congr fun queue _ => ?_)
    rw [decide_eq_true_iff]
    exact ⟨Iff.mp, fun fits => ⟨fits, Under.is_prefix⟩⟩
  | _ => exact Iff.rfl

theorem sqlite_fits (names : List Text) (call : BackendCall) :
    Fits selected selected names call ↔
      match call with
      | .removeQueue name => ∀ queue ∈ names, like queue (name ++ ['/', '%']) = true → Under name queue
      | .listQueues lead => lead = [] ∨ ∀ queue ∈ names, like queue (lead ++ ['/', '%']) = true → Under lead queue
      | _ => True := by
  have chosen : ∀ lead queue : Text, (selected lead queue = true ↔ Under lead queue) ↔
      (like queue (lead ++ ['/', '%']) = true → Under lead queue) := by
    intro lead queue
    refine ⟨fun fits liked => fits.mp (by simp [selected, liked]), fun fits => ⟨fun taken => ?_, Under.selected⟩⟩
    rw [selected, Bool.or_eq_true, decide_eq_true_iff] at taken
    exact taken.elim .inl fits
  cases call with
  | removeQueue name => exact forall₂_congr fun queue _ => chosen name queue
  | listQueues lead => exact or_congr Iff.rfl (forall₂_congr fun queue _ => chosen lead queue)
  | _ => exact Iff.rfl

theorem separates_iff (names : List Text) (call : BackendCall) :
    Separates names call ↔
      Fits (fun name queue => decide (queue = name)) (fun lead queue => decide (lead <+: queue)) names call ∧
      Fits selected selected names call ∧
      Fits (fun name queue => decide (Below name queue)) (fun lead queue => decide (lead <+: queue)) names call := by
  rw [memory_fits, sqlite_fits]
  cases call with
  | removeQueue name =>
    constructor
    · intro separates
      refine ⟨fun queue member apart below => ?_, fun queue member liked => ?_, fun queue _ => ?_⟩
      · have unlike := separates queue member apart
        rw [like_of_below below] at unlike
        cases unlike
      · by_contra other
        have unlike := separates queue member fun same => other (.inl same)
        rw [liked] at unlike
        cases unlike
      · rw [decide_eq_true_iff, below_iff]
    · rintro ⟨memory, sqlite, _⟩ queue member apart
      by_contra liked
      rcases sqlite queue member (Bool.eq_true_of_not_eq_false liked) with same | below
      · exact apart same
      · exact memory queue member apart below
  | listQueues lead =>
    constructor
    · rintro (all | separates)
      · exact ⟨.inl all, .inl all, .inl all⟩
      · refine ⟨.inr fun queue member starts => separates queue member (.inl starts),
          .inr fun queue member liked => separates queue member (.inr liked), .inr fun queue member => ?_⟩
        rw [decide_eq_true_iff]
        exact ⟨fun starts => separates queue member (.inl starts), Under.is_prefix⟩
    · rintro ⟨memory, sqlite, _⟩
      rcases memory with all | memory
      · exact .inl all
      rcases sqlite with all | sqlite
      · exact .inl all
      exact .inr fun queue member => Or.rec (memory queue member) (sqlite queue member)
  | _ => exact iff_of_true trivial ⟨trivial, trivial, trivial⟩

end Choices

def ExactAlike (storage : CacheQueueStorage) (call : BackendCall) (memory : MemoryBackend) (sqlite : SQLiteBackend)
    (keyspace : Keyspace) : Prop :=
  memoryBackend.Exact call memory ∧ sqliteBackend.Exact call sqlite ∧ (redisBackend storage).Exact call keyspace ∧
    (call.aboutNames = true →
      (memoryBackend.serve call memory).1.Agrees (sqliteBackend.serve call sqlite).1 ∧
      (sqliteBackend.serve call sqlite).1.Agrees ((redisBackend storage).serve call keyspace).1)

section Runs

variable {storage : CacheQueueStorage} {memory : MemoryBackend} {sqlite : SQLiteBackend} {keyspace : Keyspace} {names : List Text}

def HaveAll (storage : CacheQueueStorage) (names : List Text) (memory : MemoryBackend) (sqlite : SQLiteBackend) (keyspace : Keyspace) : Prop :=
  Has memoryBackend (fun _ => True) names memory ∧ Has sqliteBackend SQLiteBackend.Sound names sqlite ∧
    Has (redisBackend storage) (fun keyspace => ∃ view, storage.Holds keyspace view) names keyspace

theorem exactAlike_iff (have' : HaveAll storage names memory sqlite keyspace) (call : BackendCall) :
    ExactAlike storage call memory sqlite keyspace ↔ Separates names call := by
  obtain ⟨inMemory, inSQLite, inRedis⟩ := have'
  have redis := CacheQueueStorage.redis_chooses storage
  rw [ExactAlike, memory_chooses.exact_iff inMemory, sqlite_chooses.exact_iff inSQLite, redis.exact_iff inRedis, separates_iff]
  constructor
  · rintro ⟨memoryFits, sqliteFits, redisFits, _⟩
    exact ⟨memoryFits, sqliteFits, redisFits⟩
  · rintro ⟨memoryFits, sqliteFits, redisFits⟩
    refine ⟨memoryFits, sqliteFits, redisFits, fun about => ⟨?_, ?_⟩⟩
    · exact (memory_chooses.meets inMemory memoryFits).agrees about (sqlite_chooses.meets inSQLite sqliteFits)
    · exact (sqlite_chooses.meets inSQLite sqliteFits).agrees about (redis.meets inRedis redisFits)

theorem HaveAll.step (have' : HaveAll storage names memory sqlite keyspace) {call : BackendCall} (separates : Separates names call) :
    HaveAll storage (namesAfterCall names call) (memoryBackend.serve call memory).2 (sqliteBackend.serve call sqlite).2
      ((redisBackend storage).serve call keyspace).2 := by
  obtain ⟨inMemory, inSQLite, inRedis⟩ := have'
  obtain ⟨memoryFits, sqliteFits, redisFits⟩ := (separates_iff names call).mp separates
  exact ⟨memory_chooses.step inMemory memoryFits, sqlite_chooses.step inSQLite sqliteFits,
    (CacheQueueStorage.redis_chooses storage).step inRedis redisFits⟩

theorem HaveAll.run (have' : HaveAll storage names memory sqlite keyspace) (calls : List BackendCall) :
    (AtEach calls fun before call => ExactAlike storage call (memoryBackend.after memory before) (sqliteBackend.after sqlite before)
        ((redisBackend storage).after keyspace before)) ↔
      AtEach calls fun before call => Separates (before.foldl namesAfterCall names) call := by
  induction calls generalizing names memory sqlite keyspace with
  | nil => simp
  | cons call rest ih =>
    rw [atEach_cons, atEach_cons]
    have here := exactAlike_iff have' call
    constructor
    · rintro ⟨exact', later⟩
      exact ⟨here.mp exact', (ih (have'.step (here.mp exact'))).mp later⟩
    · rintro ⟨separates, later⟩
      exact ⟨here.mpr separates, (ih (have'.step separates)).mpr later⟩

theorem backends_exact_alike (storage : CacheQueueStorage) {start : Keyspace} (blank : Blank storage.keyPrefix start)
    (calls : List BackendCall) :
    (AtEach calls fun before call => ExactAlike storage call (memoryBackend.after .new before) (sqliteBackend.after .new before)
        ((redisBackend storage).after start before)) ↔
      AtEach calls fun before call => Separates (namesAfter before) call := by
  have holds : storage.Holds start .empty := ⟨blank.shows, QueueView.tidy_empty⟩
  have all : HaveAll storage [] .new .new start := by
    refine ⟨⟨trivial, fun queue => Iff.rfl⟩, ⟨⟨.nil, nofun⟩, fun queue => Iff.rfl⟩, ⟨_, holds⟩, fun queue => ?_⟩
    rw [holds.names]
    exact Iff.rfl
  exact all.run calls

def storageOne : CacheQueueStorage where
  keyPrefix := ['o', 'v']
  instanceId := ⟨"00000000-0000-0000-0000-000000000001", Uuid.shape_of_all (by decide)⟩

def removalRun : List BackendCall :=
  [.createQueue "logs" 1, .createQueue "tasks" 2, .removeQueue "logs", .listQueues "tasks"]

theorem removal_run_exact :
    (AtEach removalRun fun before call => ExactAlike storageOne call (memoryBackend.after .new before) (sqliteBackend.after .new before)
        ((redisBackend storageOne).after (fun _ => none) before)) ↔
      AtEach removalRun fun before call => Separates (namesAfter before) call :=
  backends_exact_alike storageOne (fun _ _ => rfl) removalRun

theorem underscore_removes_other :
    ¬ AtEach [.createQueue "a_b" 1, .createQueue "axb/c" 2, .removeQueue "a_b"]
      fun before call => ExactAlike storageOne call (memoryBackend.after .new before) (sqliteBackend.after .new before)
        ((redisBackend storageOne).after (fun _ => none) before) := by
  intro each
  have removal := each [.createQueue "a_b" 1, .createQueue "axb/c" 2] (.removeQueue "a_b") [] rfl
  have other := removal.2.1.2 "axb/c"
  rw [if_neg (by decide)] at other
  have kept : "axb/c".toList ∈ (sqliteBackend.serve (.removeQueue "a_b".toList)
      (sqliteBackend.after .new [.createQueue "a_b" 1, .createQueue "axb/c" 2])).2.metadata := other.1.mpr (by decide)
  revert kept
  decide

end Runs

end LoginomDock.QueueFs
