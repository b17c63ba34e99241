import LoginomDock.QueueFs.Removal

namespace LoginomDock.QueueFs

open Redis List AList

section Memory

variable {backend : MemoryBackend} {name : Text}

theorem mem_memory_names (queue : Text) : queue ∈ memoryBackend.names backend ↔ queue ∈ backend.queues := mem_keys.symm

theorem mem_queues_insert {found : MemoryQueue} (present : backend.queues.lookup name = some found) (other : MemoryQueue) (queue : Text) :
    queue ∈ backend.queues.insert name other ↔ queue ∈ backend.queues := by
  rw [mem_insert]
  refine or_iff_right_of_imp fun same => ?_
  rw [same, ← lookup_isSome, present]
  rfl

theorem memory_others (call : BackendCall) (backend : MemoryBackend) (notCreate : ∀ name now, call ≠ .createQueue name now)
    (notRemove : ∀ name, call ≠ .removeQueue name) (queue : Text) :
    queue ∈ (MemoryBackend.serve call backend).2.queues ↔ queue ∈ backend.queues := by
  cases call with
  | createQueue name now => exact absurd rfl (notCreate name now)
  | removeQueue name => exact absurd rfl (notRemove name)
  | queueExists name => exact Iff.rfl
  | listQueues lead => exact Iff.rfl
  | enqueue name message now | dequeue name now | clear name | ack name messageId =>
    simp only [MemoryBackend.serve, MemoryBackend.enqueue, MemoryBackend.dequeue, MemoryBackend.clear, MemoryBackend.ack]
    cases present : backend.queues.lookup name with
    | none => exact Iff.rfl
    | some found => exact mem_queues_insert present _ queue

-- In memory a removal takes the name itself, and a listing whatever starts with the prefix.
theorem memory_chooses :
    Chooses memoryBackend (fun name queue => decide (queue = name)) (fun lead queue => decide (lead <+: queue)) fun _ => True where
  keeps _ _ _ := trivial
  absent backend _ queue missing := lookup_eq_none.mpr fun present => missing ((mem_memory_names queue).mpr present)
  removal name backend _ := by
    have after : (memoryBackend.serve (.removeQueue name) backend).2.queues =
        if name ∈ backend.queues then backend.queues.erase name else backend.queues := by
      simp only [memoryBackend, MemoryBackend.serve, MemoryBackend.removeQueue]
      split <;> rfl
    have lookup : ∀ queue, (memoryBackend.serve (.removeQueue name) backend).2.queues.lookup queue =
        if queue = name then none else backend.queues.lookup queue := by
      intro queue
      rw [after]
      by_cases present : name ∈ backend.queues
      · rw [if_pos present, Table.lookup_erase_if]
      · rw [if_neg present]
        by_cases same : queue = name
        · rw [if_pos same, same]
          exact lookup_eq_none.mpr present
        · rw [if_neg same]
    have members : ∀ queue, queue ∈ memoryBackend.names (memoryBackend.serve (.removeQueue name) backend).2 ↔
        queue ≠ name ∧ queue ∈ memoryBackend.names backend := by
      intro queue
      rw [mem_memory_names, mem_memory_names, ← lookup_isSome, lookup]
      by_cases same : queue = name <;> simp [same, lookup_isSome]
    refine ⟨?_, fun queue taken => ?_, fun queue spared => ?_⟩
    · have named : (∃ queue ∈ memoryBackend.names backend, decide (queue = name) = true) ↔ name ∈ backend.queues := by
        simp [mem_memory_names]
      rw [if_congr named rfl rfl]
      simp only [memoryBackend, MemoryBackend.serve, MemoryBackend.removeQueue]
      split <;> rfl
    · have same := of_decide_eq_true taken
      exact ⟨fun member => ((members queue).mp member).1 same, (lookup queue).trans (if_pos same)⟩
    · have other := of_decide_eq_false spared
      exact ⟨(members queue).trans (and_iff_right other), (lookup queue).trans (if_neg other)⟩
  listing lead backend _ := by
    refine ⟨backend.listQueues lead, rfl, ?_, fun queue => ?_⟩
    · rw [MemoryBackend.listQueues]
      split
      · exact backend.queues.keys_nodup
      · exact backend.queues.keys_nodup.filter _
    · rw [MemoryBackend.listQueues]
      by_cases all : lead = []
      · simp [all, memoryBackend]
      · simp [all, memoryBackend]
  creation name now backend _ := by
    have after : (memoryBackend.serve (.createQueue name now) backend).2.queues =
        if name ∈ backend.queues then backend.queues else backend.queues.insert name .new := by
      simp only [memoryBackend, MemoryBackend.serve, MemoryBackend.createQueue]
      split <;> rfl
    constructor
    · rw [if_congr (mem_memory_names name) rfl rfl]
      simp only [memoryBackend, MemoryBackend.serve, MemoryBackend.createQueue]
      split <;> rfl
    · intro queue
      rw [mem_memory_names, mem_memory_names, after]
      by_cases present : name ∈ backend.queues
      · rw [if_pos present]
        exact (or_iff_left_of_imp fun same => same ▸ present).symm
      · rw [if_neg present, mem_insert]
        exact or_comm
  existence name backend _ :=
    congrArg (fun known => BackendReply.known (.ok known)) (decide_eq_decide.mpr (mem_memory_names name).symm)
  others call backend _ notCreate notRemove queue :=
    (mem_memory_names queue).trans ((memory_others call backend notCreate notRemove queue).trans (mem_memory_names queue).symm)

end Memory

theorem mem_sortedNames (names : List Text) (queue : Text) : queue ∈ sortedNames names ↔ queue ∈ names := mem_mergeSort

theorem sortedNames_nodup {names : List Text} (once : names.Nodup) : (sortedNames names).Nodup :=
  (mergeSort_perm names _).nodup_iff.mpr once

section SQLite

structure SQLiteBackend.Sound (backend : SQLiteBackend) : Prop where
  once : backend.metadata.Nodup
  owned : ∀ row ∈ backend.messages, row.queueName ∈ backend.metadata

variable {backend : SQLiteBackend} {name : Text}

theorem SQLiteBackend.Sound.queueKnown (sound : backend.Sound) (name : Text) :
    backend.queueKnown name = decide (name ∈ backend.metadata) := by
  rw [SQLiteBackend.queueKnown]
  by_cases known : name ∈ backend.metadata
  · rw [decide_eq_true known, Bool.true_or]
  · rw [decide_eq_false known, Bool.false_or, any_eq_false]
    intro row member same
    exact known (of_decide_eq_true same ▸ sound.owned row member)

theorem SQLiteBackend.Sound.messages (sound : backend.Sound) {rows : List MessageRow}
    (owned : ∀ row ∈ rows, ∃ old ∈ backend.messages, old.queueName = row.queueName) :
    ({ backend with messages := rows } : SQLiteBackend).Sound where
  once := sound.once
  owned row member := by
    obtain ⟨old, isOld, same⟩ := owned row member
    exact same ▸ sound.owned old isOld

theorem takePending_names {now : Nat} {rows after : List MessageRow} {data : Text}
    (taken : SQLiteBackend.takePending name now rows = some (data, after)) :
    ∀ row ∈ after, ∃ old ∈ rows, old.queueName = row.queueName := by
  induction rows generalizing after with
  | nil => cases taken
  | cons first rest ih =>
    rw [SQLiteBackend.takePending] at taken
    split at taken
    · cases taken
      intro row member
      rcases mem_cons.mp member with rfl | later
      · exact ⟨first, mem_cons_self, rfl⟩
      · exact ⟨row, mem_cons_of_mem _ later, rfl⟩
    · obtain ⟨⟨found, others⟩, fromRest, same⟩ := Option.map_eq_some_iff.mp taken
      cases same
      intro row member
      rcases mem_cons.mp member with rfl | later
      · exact ⟨row, mem_cons_self, rfl⟩
      · obtain ⟨old, isOld, sameName⟩ := ih fromRest row later
        exact ⟨old, mem_cons_of_mem _ isOld, sameName⟩

theorem removeQueue_after (name : Text) (backend : SQLiteBackend) :
    (SQLiteBackend.serve (.removeQueue name) backend).2 =
      { messages := backend.messages.filter fun row => !SQLiteBackend.selected name row.queueName
        metadata := backend.metadata.filter fun queueName => !SQLiteBackend.selected name queueName } := by
  simp only [SQLiteBackend.serve, SQLiteBackend.removeQueue]
  split <;> rfl

theorem SQLiteBackend.Sound.serve (sound : backend.Sound) (call : BackendCall) : (SQLiteBackend.serve call backend).2.Sound := by
  have filtered : ∀ keep : MessageRow → Bool, ({ backend with messages := backend.messages.filter keep } : SQLiteBackend).Sound :=
    fun keep => sound.messages fun row member => ⟨row, (mem_filter.mp member).1, rfl⟩
  cases call with
  | createQueue name now =>
    simp only [SQLiteBackend.serve, SQLiteBackend.createQueue]
    by_cases known : name ∈ backend.metadata
    · rwa [if_pos known]
    · rw [if_neg known]
      refine ⟨?_, fun row member => mem_append_left _ (sound.owned row member)⟩
      rw [nodup_append_comm]
      exact nodup_cons.mpr ⟨known, sound.once⟩
  | removeQueue name =>
    rw [removeQueue_after]
    refine ⟨sound.once.filter _, fun row member => ?_⟩
    obtain ⟨old, spared⟩ := mem_filter.mp member
    exact mem_filter.mpr ⟨sound.owned row old, spared⟩
  | queueExists name => exact sound
  | listQueues lead => exact sound
  | enqueue name message now =>
    simp only [SQLiteBackend.serve, SQLiteBackend.enqueue]
    cases known : backend.queueKnown name with
    | false => exact sound
    | true =>
      rw [sound.queueKnown] at known
      refine ⟨sound.once, fun row member => ?_⟩
      rcases mem_append.mp member with old | new
      · exact sound.owned row old
      · rw [mem_singleton.mp new]
        exact of_decide_eq_true known
  | dequeue name now =>
    simp only [SQLiteBackend.serve, SQLiteBackend.dequeue]
    cases known : backend.queueKnown name with
    | false => exact sound
    | true =>
      simp only [if_true]
      cases taken : SQLiteBackend.takePending name now backend.messages with
      | none => exact sound
      | some found => exact sound.messages (takePending_names taken)
  | clear name =>
    simp only [SQLiteBackend.serve, SQLiteBackend.clear]
    cases known : backend.queueKnown name with
    | false => exact sound
    | true => exact filtered _
  | ack name messageId =>
    simp only [SQLiteBackend.serve, SQLiteBackend.ack]
    cases known : backend.queueKnown name with
    | false => exact sound
    | true => exact filtered _

theorem sqlite_others (call : BackendCall) (backend : SQLiteBackend) (notCreate : ∀ name now, call ≠ .createQueue name now)
    (notRemove : ∀ name, call ≠ .removeQueue name) : (SQLiteBackend.serve call backend).2.metadata = backend.metadata := by
  cases call with
  | createQueue name now => exact absurd rfl (notCreate name now)
  | removeQueue name => exact absurd rfl (notRemove name)
  | queueExists name => rfl
  | listQueues lead => rfl
  | dequeue name now =>
    simp only [SQLiteBackend.serve, SQLiteBackend.dequeue]
    split
    · split <;> rfl
    · rfl
  | enqueue name message now =>
    simp only [SQLiteBackend.serve, SQLiteBackend.enqueue]
    split <;> rfl
  | clear name =>
    simp only [SQLiteBackend.serve, SQLiteBackend.clear]
    split <;> rfl
  | ack name messageId =>
    simp only [SQLiteBackend.serve, SQLiteBackend.ack]
    split <;> rfl

theorem sqlite_chooses : Chooses sqliteBackend SQLiteBackend.selected SQLiteBackend.selected SQLiteBackend.Sound where
  keeps call _ sound := sound.serve call
  absent backend sound queue missing := by
    refine Prod.ext (decide_eq_false missing) (filter_eq_nil_iff.mpr fun row member same => missing ?_)
    exact of_decide_eq_true same ▸ sound.owned row member
  removal name backend sound := by
    have after := removeQueue_after name backend
    refine ⟨?_, fun queue taken => ?_, fun queue spared => ?_⟩
    · have nothing : (backend.messages.countP (fun row => SQLiteBackend.selected name row.queueName) = 0 ∧
          backend.metadata.countP (SQLiteBackend.selected name) = 0) ↔
          ¬ ∃ queue ∈ sqliteBackend.names backend, SQLiteBackend.selected name queue = true := by
        rw [countP_eq_zero, countP_eq_zero]
        constructor
        · rintro ⟨_, none⟩ ⟨queue, member, taken⟩
          exact none queue member taken
        · intro none
          exact ⟨fun row member taken => none ⟨row.queueName, sound.owned row member, taken⟩,
            fun queue member taken => none ⟨queue, member, taken⟩⟩
      simp only [sqliteBackend, SQLiteBackend.serve, SQLiteBackend.removeQueue]
      by_cases some : ∃ queue ∈ sqliteBackend.names backend, SQLiteBackend.selected name queue = true
      · rw [if_neg fun none => nothing.mp none some]
        exact (congrArg BackendReply.done (if_pos some)).symm
      · rw [if_pos (nothing.mpr some)]
        exact (congrArg BackendReply.done (if_neg some)).symm
    · have absent : queue ∉ (SQLiteBackend.serve (.removeQueue name) backend).2.metadata := by
        rw [after]
        simp [taken]
      refine ⟨absent, Prod.ext (decide_eq_false absent) (filter_eq_nil_iff.mpr fun row member same => ?_)⟩
      exact absent (of_decide_eq_true same ▸ (sound.serve (.removeQueue name)).owned row member)
    · have members : queue ∈ (SQLiteBackend.serve (.removeQueue name) backend).2.metadata ↔ queue ∈ backend.metadata := by
        rw [after]
        simp [spared]
      refine ⟨members, Prod.ext (decide_eq_decide.mpr members) ?_⟩
      change (SQLiteBackend.serve (.removeQueue name) backend).2.messages.filter _ = backend.messages.filter _
      rw [after, filter_filter]
      refine filter_congr fun row _ => ?_
      by_cases same : row.queueName = queue <;> simp [same, spared]
  listing lead backend sound := by
    refine ⟨backend.listQueues lead, rfl, ?_, fun queue => ?_⟩
    · rw [SQLiteBackend.listQueues]
      split
      · exact sortedNames_nodup sound.once
      · exact sortedNames_nodup (sound.once.filter _)
    · rw [SQLiteBackend.listQueues]
      by_cases all : lead = [] <;> simp [all, mem_sortedNames, sqliteBackend]
  creation name now backend _ := by
    simp only [sqliteBackend, SQLiteBackend.serve, SQLiteBackend.createQueue]
    by_cases known : name ∈ backend.metadata
    · simp [known]
    · simp [known]
  existence name backend sound := congrArg (fun known => BackendReply.known (.ok known)) (sound.queueKnown name)
  others call backend _ notCreate notRemove queue := by
    change queue ∈ (SQLiteBackend.serve call backend).2.metadata ↔ _
    rw [sqlite_others call backend notCreate notRemove]
    rfl

end SQLite

end LoginomDock.QueueFs
