import LoginomDock.QueueFs.ExactRemoval

namespace LoginomDock.QueueFs

open Redis List QueueFs

namespace QueueView

-- What the record says of one queue
def At (view : QueueView) (queue : Text) (fields : List (Text × Text)) (pending : List Uuid) (claims : List Claim)
    (payloads : Uuid → Option Text) : Prop :=
  view.info queue = fields ∧ view.pending queue = pending ∧ view.processing queue = claims ∧ view.payload queue = payloads

def BlankAt (view : QueueView) (queue : Text) : Prop := view.At queue [] [] [] fun _ => none

def SameAt (view after : QueueView) (queue : Text) : Prop :=
  after.At queue (view.info queue) (view.pending queue) (view.processing queue) (view.payload queue)

theorem SameAt.blank {view after : QueueView} {queue : Text} (same : view.SameAt after queue) (blank : view.BlankAt queue) :
    after.BlankAt queue :=
  ⟨same.1.trans blank.1, same.2.1.trans blank.2.1, same.2.2.1.trans blank.2.2.1, same.2.2.2.trans blank.2.2.2⟩

theorem SameAt.trans {view middle after : QueueView} {queue : Text} (first : view.SameAt middle queue)
    (second : middle.SameAt after queue) : view.SameAt after queue :=
  ⟨second.1.trans first.1, second.2.1.trans first.2.1, second.2.2.1.trans first.2.2.1, second.2.2.2.trans first.2.2.2⟩

-- Only queues that there are have something stored, and a payload is of a message that waits or is being processed.
structure Tidy (view : QueueView) : Prop where
  once : view.names.Nodup
  blank : ∀ queue, queue ∉ view.names → view.BlankAt queue
  stored : ∀ queue id, view.payload queue id ≠ none → id ∈ view.ids queue

variable {view : QueueView}

theorem tidy_empty : QueueView.empty.Tidy where
  once := .nil
  blank _ _ := ⟨rfl, rfl, rfl, rfl⟩
  stored _ _ some := absurd rfl some

theorem Tidy.forget_all (tidy : view.Tidy) (queue : Text) : (view.forget queue (view.ids queue)).payload queue = fun _ => none := by
  funext id
  rw [forget_payload]
  by_cases waits : id ∈ view.ids queue
  · exact if_pos ⟨rfl, waits⟩
  · rw [if_neg fun both => waits both.2]
    by_contra some
    exact waits (tidy.stored queue id some)

theorem Tidy.dropQueue (tidy : view.Tidy) (queue : Text) :
    (view.dropQueue queue).BlankAt queue ∧ ∀ other, other ≠ queue → view.SameAt (view.dropQueue queue) other := by
  constructor
  · refine ⟨?_, ?_, ?_, tidy.forget_all queue⟩ <;>
      simp [QueueView.dropQueue, withInfo, withPending, withProcessing, withNames]
  · intro other apart
    have frame := view.forget_frame queue (view.ids queue)
    refine ⟨?_, ?_, ?_, forget_payload_ne apart _⟩
    · simp [QueueView.dropQueue, withInfo, withPending, withProcessing, withNames, apart, frame.2.1]
    · simp [QueueView.dropQueue, withInfo, withPending, withProcessing, withNames, apart]
    · simp [QueueView.dropQueue, withInfo, withPending, withProcessing, withNames, apart]

theorem SameAt.ids {after : QueueView} {queue : Text} (same : view.SameAt after queue) : after.ids queue = view.ids queue := by
  rw [QueueView.ids, QueueView.ids, same.2.1, same.2.2.1]

-- A record that is the old one at some queues and blank at the others
theorem Tidy.of_parts {after : QueueView} (tidy : view.Tidy) (once : after.names.Nodup)
    (parts : ∀ queue, after.BlankAt queue ∨ view.SameAt after queue ∧ (queue ∈ view.names → queue ∈ after.names)) : after.Tidy where
  once := once
  blank queue missing := by
    rcases parts queue with blank | ⟨same, kept⟩
    · exact blank
    · exact same.blank (tidy.blank queue fun member => missing (kept member))
  stored queue id some := by
    rcases parts queue with blank | ⟨same, _⟩
    · exact absurd (congrFun blank.2.2.2 id) some
    · rw [same.ids]
      exact tidy.stored queue id (congrFun same.2.2.2 id ▸ some)

theorem Tidy.dropped (tidy : view.Tidy) (queue : Text) : (view.dropQueue queue).Tidy := by
  obtain ⟨blank, same⟩ := tidy.dropQueue queue
  refine tidy.of_parts (tidy.once.filter _) fun other => ?_
  by_cases apart : other = queue
  · exact .inl (apart ▸ blank)
  · exact .inr ⟨same other apart, fun member => mem_filter.mpr ⟨member, decide_eq_true apart⟩⟩

theorem Tidy.dropQueues (tidy : view.Tidy) (queues : List Text) :
    (queues.foldl QueueView.dropQueue view).Tidy ∧
      (∀ queue, queue ∈ (queues.foldl QueueView.dropQueue view).names ↔ queue ∈ view.names ∧ queue ∉ queues) ∧
      (∀ queue ∈ queues, (queues.foldl QueueView.dropQueue view).BlankAt queue) ∧
      ∀ queue, queue ∉ queues → view.SameAt (queues.foldl QueueView.dropQueue view) queue := by
  induction queues generalizing view with
  | nil => exact ⟨tidy, by simp, nofun, fun queue _ => ⟨rfl, rfl, rfl, rfl⟩⟩
  | cons first rest ih =>
    obtain ⟨blank, same⟩ := tidy.dropQueue first
    obtain ⟨after, names, gone, spared⟩ := ih (tidy.dropped first)
    have remaining : ∀ queue, queue ∈ (view.dropQueue first).names ↔ queue ∈ view.names ∧ queue ≠ first := by
      simp [QueueView.dropQueue, withNames]
    refine ⟨after, fun queue => ?_, fun queue member => ?_, fun queue missing => ?_⟩
    · rw [foldl_cons, names, remaining, mem_cons, not_or, and_assoc]
    · by_cases later : queue ∈ rest
      · exact gone queue later
      · obtain rfl : queue = first := (mem_cons.mp member).resolve_right later
        exact (spared queue later).blank blank
    · obtain ⟨apart, later⟩ := not_or.mp (mt mem_cons.mpr missing)
      exact (same queue apart).trans (spared queue later)

theorem mem_insertClaim_ids (claim : Claim) (claims : List Claim) (id : Uuid) :
    id ∈ (insertClaim claim claims).map Claim.id ↔ id = claim.id ∨ id ∈ claims.map Claim.id := by
  rw [insertClaim, ((perm_orderedInsert _ _ _).map Claim.id).mem_iff, map_cons, mem_cons]
  constructor
  · rintro (here | later)
    · exact .inl here
    · obtain ⟨other, member, rfl⟩ := mem_map.mp later
      exact .inr (mem_map_of_mem (mem_filter.mp member).1)
  · rintro (here | later)
    · exact .inl here
    · obtain ⟨other, member, rfl⟩ := mem_map.mp later
      by_cases same : other.member = claim.member
      · exact .inl (Claim.member_inj.mp same).1
      · exact .inr (mem_map_of_mem (mem_filter.mpr ⟨member, decide_eq_true same⟩))

theorem Tidy.inside {after : QueueView} (tidy : view.Tidy) {queue : Text} (known : queue ∈ view.names)
    (names : after.names = view.names) (others : ∀ other, other ≠ queue → view.SameAt after other)
    (stored : ∀ id, after.payload queue id ≠ none → id ∈ after.ids queue) : after.Tidy where
  once := names ▸ tidy.once
  blank other missing := by
    rw [names] at missing
    exact (others other fun same => missing (same ▸ known)).blank (tidy.blank other missing)
  stored other id some := by
    by_cases same : other = queue
    · exact same ▸ stored id (same ▸ some)
    · rw [(others other same).ids]
      exact tidy.stored other id (congrFun (others other same).2.2.2 id ▸ some)

-- The steps that leave the names of the queues alone
def Quiet : QueueOp → Prop
  | .sismember _ => True
  | .smembers => True
  | .enqueue _ _ _ _ => True
  | .dequeue _ _ _ => True
  | .ack _ _ => True
  | .clear _ => True
  | _ => False

theorem Tidy.quiet (tidy : view.Tidy) {op : QueueOp} (quiet : Quiet op) :
    (view.step op).2.Tidy ∧ (view.step op).2.names = view.names := by
  cases op with
  | sismember queue => exact ⟨tidy, rfl⟩
  | smembers => exact ⟨tidy, rfl⟩
  | enqueue queue id payload now =>
    rw [step]
    by_cases known : queue ∈ view.names
    · rw [if_pos known]
      refine ⟨tidy.inside known rfl (fun other apart => ?_) fun other some => ?_, rfl⟩
      · simp [SameAt, At, withInfo, withPending, withPayload, apart]
      · by_cases same : other = id
        · simp [QueueView.ids, withInfo, withPending, withPayload, same]
        · have old := tidy.stored queue other (by simpa [withInfo, withPending, withPayload, same] using some)
          rw [QueueView.ids, mem_append] at old ⊢
          exact old.imp_left fun waits => by simp [withInfo, withPending, withPayload, waits]
    · rw [if_neg known]
      exact ⟨tidy, rfl⟩
  | dequeue queue instanceId now =>
    rw [step]
    cases waiting : view.pending queue with
    | nil => exact ⟨tidy, rfl⟩
    | cons id rest =>
      have known : queue ∈ view.names := by
        by_contra missing
        rw [(tidy.blank queue missing).2.1] at waiting
        cases waiting
      cases isPayload : view.payload queue id with
      | none =>
        simp only [isPayload]
        exact ⟨tidy, trivial⟩
      | some payload =>
        simp only [isPayload]
        refine ⟨tidy.inside known rfl (fun other apart => ?_) fun other some => ?_, rfl⟩
        · simp [SameAt, At, withPending, withProcessing, apart]
        · have old := tidy.stored queue other some
          simp only [QueueView.ids, withPending, withProcessing, Function.update_self, waiting, mem_append,
            mem_cons, mem_insertClaim_ids] at old ⊢
          tauto
  | ack queue messageId =>
    rw [step]
    cases found : (view.processing queue).find? fun claim => claim.id.text = messageId with
    | none => exact ⟨tidy, rfl⟩
    | some claim =>
      have known : queue ∈ view.names := by
        by_contra missing
        rw [(tidy.blank queue missing).2.2.1] at found
        cases found
      refine ⟨tidy.inside known rfl (fun other apart => ?_) fun other some => ?_, rfl⟩
      · simp [SameAt, At, withoutClaim, withPayload, withProcessing, apart]
      · by_cases same : other = claim.id
        · exact absurd (by simp [withoutClaim, withPayload, same]) some
        · have old := tidy.stored queue other (by simpa [withoutClaim, withPayload, withProcessing, same] using some)
          rw [QueueView.ids, mem_append] at old ⊢
          refine old.imp_right fun claimed => ?_
          obtain ⟨kept, member, rfl⟩ := mem_map.mp claimed
          refine mem_map_of_mem ?_
          simp only [withoutClaim, withPayload, withProcessing, Function.update_self, mem_filter, decide_eq_true_eq]
          exact ⟨member, fun equal => same (Claim.member_inj.mp equal).1⟩
  | clear queue =>
    have names : (view.emptied queue).names = view.names := (view.forget_frame queue (view.ids queue)).1
    have none : (view.emptied queue).payload queue = fun _ => none := tidy.forget_all queue
    have others : ∀ other, other ≠ queue → view.SameAt (view.emptied queue) other := by
      intro other apart
      refine ⟨?_, ?_, ?_, forget_payload_ne apart _⟩
      · exact congrFun (view.forget_frame queue (view.ids queue)).2.1 other
      · simp [emptied, withPending, withProcessing, apart]
      · simp [emptied, withPending, withProcessing, apart]
    refine ⟨?_, names⟩
    by_cases known : queue ∈ view.names
    · exact tidy.inside known names others fun id some => absurd (congrFun none id) some
    · -- nothing is stored of a queue that there is not
      have blank : (view.emptied queue).BlankAt queue := by
        refine ⟨?_, by simp [emptied, withPending, withProcessing], by simp [emptied, withPending, withProcessing], none⟩
        exact (congrFun (view.forget_frame queue (view.ids queue)).2.1 queue).trans (tidy.blank queue known).1
      refine tidy.of_parts (names ▸ tidy.once) fun other => ?_
      by_cases same : other = queue
      · subst same
        exact .inl blank
      · exact .inr ⟨others other same, fun member => names ▸ member⟩
  | _ => cases quiet

end QueueView

namespace CacheQueueStorage

open QueueView

variable {storage : CacheQueueStorage} {keyspace : Keyspace} {view : QueueView}

def Holds (storage : CacheQueueStorage) (keyspace : Keyspace) (view : QueueView) : Prop :=
  Shows storage.keyPrefix keyspace view ∧ view.Tidy

theorem Holds.names (holds : storage.Holds keyspace view) : (redisBackend storage).names keyspace = view.names := by
  have shown := holds.1 .names
  simp only [redisBackend]
  rw [show keyspace (queueNamesKey storage.keyPrefix) = setValue view.names from shown, setContent_setValue]
  rfl

theorem Holds.contents (holds : storage.Holds keyspace view) {queue : Text} {fields : List (Text × Text)} {pending : List Uuid}
    {claims : List Claim} {payloads : Uuid → Option Text} (here : view.At queue fields pending claims payloads) :
    (redisBackend storage).contents keyspace queue =
      ⟨hashValue fields, listValue (pending.map Uuid.text), sortedSetValue (claims.map Claim.entry),
        fun id => (payloads id).map .string⟩ := by
  obtain ⟨rfl, rfl, rfl, rfl⟩ := here
  have shows := holds.1
  simp only [redisBackend, QueueKeyspace.mk.injEq]
  exact ⟨shows (.info queue), shows (.pending queue), shows (.processing queue), funext fun id => shows (.message queue id)⟩

theorem run_execute (op : QueueOp) (keyspace : Keyspace) :
    storage.run (execute op) keyspace =
      ((exec (op.script storage.keyPrefix) keyspace).1.mapError .cache, (exec (op.script storage.keyPrefix) keyspace).2) := rfl

section

variable (holds : storage.Holds keyspace view)

include holds

theorem Holds.execute (op : QueueOp) (tidy : (view.step op).2.Tidy) {value : ScriptValue}
    (reply : (view.step op).1 = .ok value) :
    ∃ after, storage.run (execute op) keyspace = (.ok value, after) ∧ storage.Holds after (view.step op).2 := by
  obtain ⟨answer, shows⟩ := simulates op keyspace view holds.1
  refine ⟨_, ?_, shows, tidy⟩
  rw [run_execute, answer, reply]
  rfl

theorem Holds.createQueue (name now : Text) :
    ∃ after, storage.run (createQueue name now) keyspace =
        (if name ∈ view.names then .error (.alreadyExists name) else .ok (), after) ∧
      storage.Holds after (view.step (.createQueue name now)).2 := by
  by_cases old : name ∈ view.names
  · have reply : (view.step (.createQueue name now)).1 = .ok (.integer 0) := by rw [step, if_pos old]
    have same : (view.step (.createQueue name now)).2 = view := by rw [step, if_pos old]
    obtain ⟨after, runs, held⟩ := holds.execute _ (by rw [same]; exact holds.2) reply
    exact ⟨after, by rw [if_pos old]; exact Prog.exec_bind_ok _ runs, held⟩
  · have reply : (view.step (.createQueue name now)).1 = .ok (.integer 1) := by rw [step, if_neg old]
    have tidy : (view.step (.createQueue name now)).2.Tidy := by
      rw [step, if_neg old]
      refine ⟨?_, fun queue missing => ?_, holds.2.stored⟩
      · rw [QueueView.withInfo, QueueView.withNames, nodup_append_comm]
        exact nodup_cons.mpr ⟨old, holds.2.once⟩
      · obtain ⟨other, apart⟩ : queue ∉ view.names ∧ queue ≠ name := by
          simpa [QueueView.withInfo, QueueView.withNames] using missing
        have blank := holds.2.blank queue other
        refine ⟨?_, blank.2⟩
        simpa [QueueView.withInfo, QueueView.withNames, apart] using blank.1
    obtain ⟨after, runs, held⟩ := holds.execute _ tidy reply
    exact ⟨after, by rw [if_neg old]; exact Prog.exec_bind_ok _ runs, held⟩

theorem Holds.removeQueue (name : Text) :
    ∃ after, storage.run (removeQueue name) keyspace =
        (if ∃ queue ∈ view.names, Below name queue then .ok () else .error (.notFound name), after) ∧
      storage.Holds after ((view.names.filter (Below name)).foldl QueueView.dropQueue view) := by
  obtain ⟨after, runs, held⟩ := holds.execute (.removeQueue name) (holds.2.dropQueues _).1 rfl
  refine ⟨after, ?_, held⟩
  refine (Prog.exec_bind_ok _ runs).trans ?_
  have counted : view.names.countP (fun queue => decide (Below name queue)) = 0 ↔ ¬ ∃ queue ∈ view.names, Below name queue := by
    simp [countP_eq_zero]
  by_cases found : ∃ queue ∈ view.names, Below name queue
  · rw [if_pos found]
    exact (Prog.exec_bind_ok _ rfl).trans (by rw [if_neg fun none => counted.mp none found]; rfl)
  · rw [if_neg found]
    exact (Prog.exec_bind_ok _ rfl).trans (by rw [if_pos (counted.mpr found)]; rfl)

theorem Holds.queueExists (name : Text) :
    ∃ after, storage.run (queueExists name) keyspace = (.ok (decide (name ∈ view.names)), after) ∧
      storage.Holds after view := by
  obtain ⟨after, runs, held⟩ := holds.execute (.sismember name) holds.2 rfl
  refine ⟨after, (Prog.exec_bind_ok _ runs).trans ?_, held⟩
  by_cases known : name ∈ view.names
  · rw [decide_eq_true known, if_pos known]
    rfl
  · rw [decide_eq_false known, if_neg known]
    rfl

theorem Holds.listQueues (lead : Text) :
    ∃ after, storage.run (listQueues lead) keyspace =
        (.ok (sortedNames (view.names.filter fun queue => decide (lead <+: queue))), after) ∧ storage.Holds after view := by
  obtain ⟨after, runs, held⟩ := holds.execute .smembers holds.2 rfl
  exact ⟨after, Prog.exec_bind_ok _ runs, held⟩

end

-- A program that leaves the names alone
abbrev Quietly {α : Type} (program : QueueM α) : Prop := Prog.Does (fun _ _ => True) Quiet (fun _ => True) (fun _ => True) program

theorem does_execute {op : QueueOp} (quiet : Quiet op) : Quietly (execute op) := by
  refine ⟨quiet, fun answer _ => ?_⟩
  cases answer <;> trivial

theorem does_integer (value : ScriptValue) : Quietly (integer value) := by
  cases value <;> trivial

theorem does_requireQueue (queue : Text) : Quietly (requireQueue queue) := by
  refine .bind (does_execute trivial) fun _ _ => .bind (does_integer _) fun found _ => ?_
  by_cases none : found = 0
  · rw [if_pos none]
    trivial
  · rw [if_neg none]
    trivial

theorem Holds.quietly {α : Type} (holds : storage.Holds keyspace view) {program : QueueM α}
    (does : Quietly program) :
    ∃ after, storage.Holds (storage.run program keyspace).2 after ∧ after.names = view.names := by
  have step : ∀ op state, (∃ after, storage.Holds state after ∧ after.names = view.names) → Quiet op →
      True ∧ ∃ after, storage.Holds ((queueMachine storage.keyPrefix).handle op state).2 after ∧ after.names = view.names := by
    rintro op state ⟨before, held, names⟩ quiet
    obtain ⟨tidy, same⟩ := held.2.quiet quiet
    exact ⟨trivial, _, ⟨(simulates op state before held.1).2, tidy⟩, same.trans names⟩
  exact (Prog.Within.run step does ⟨view, holds, rfl⟩).2

theorem quiet_enqueue (queue : Text) (id : Uuid) (payload now : Text) : Quietly (enqueue queue id payload now) := by
  refine .bind (does_execute trivial) fun _ _ => .bind (does_integer _) fun enqueued _ => ?_
  by_cases none : enqueued = 0
  · rw [if_pos none]
    trivial
  · rw [if_neg none]
    trivial

theorem quiet_dequeue (queue : Text) (instanceId : Uuid) (now : Nat) : Quietly (dequeue queue instanceId now) := by
  refine .bind (does_requireQueue queue) fun _ _ => .bind (does_execute trivial) fun value _ => ?_
  split <;> trivial

theorem quiet_clear (queue : Text) : Quietly (clear queue) :=
  .bind (does_requireQueue queue) fun _ _ => .bind (does_execute trivial) fun _ _ => .pure trivial

theorem quiet_ack (queue messageId : Text) : Quietly (ack queue messageId) :=
  .bind (does_requireQueue queue) fun _ _ => .bind (does_execute trivial) fun _ _ => .bind (does_integer _) fun _ _ => .pure trivial

-- In Redis a removal takes the path, and a listing whatever starts with the prefix.
theorem redis_chooses (storage : CacheQueueStorage) :
    Chooses (redisBackend storage) (fun name queue => decide (Below name queue)) (fun lead queue => decide (lead <+: queue))
      fun keyspace => ∃ view, storage.Holds keyspace view where
  keeps call keyspace := by
    rintro ⟨view, holds⟩
    have quietly : ∀ {α : Type} {program : QueueM α},
        Quietly program →
          ∃ view, storage.Holds (storage.run program keyspace).2 view := by
      intro α program does
      obtain ⟨after, held, _⟩ := holds.quietly does
      exact ⟨after, held⟩
    have ran : ∀ {α : Type} {program : QueueM α} {answer : Except QueueError α} {after : Keyspace} {later : QueueView},
        storage.run program keyspace = (answer, after) → storage.Holds after later →
          ∃ view, storage.Holds (storage.run program keyspace).2 view := by
      intro α program answer after later runs held
      rw [runs]
      exact ⟨later, held⟩
    cases call with
    | createQueue name now =>
      obtain ⟨after, runs, held⟩ := holds.createQueue name (secondsText now)
      exact ran runs held
    | removeQueue name =>
      obtain ⟨after, runs, held⟩ := holds.removeQueue name
      exact ran runs held
    | queueExists name =>
      obtain ⟨after, runs, held⟩ := holds.queueExists name
      exact ran runs held
    | listQueues lead =>
      obtain ⟨after, runs, held⟩ := holds.listQueues lead
      exact ran runs held
    | enqueue name message now => exact quietly (quiet_enqueue name message.id message.payload (secondsText now))
    | dequeue name now => exact quietly (quiet_dequeue name storage.instanceId now)
    | clear name => exact quietly (quiet_clear name)
    | ack name messageId => exact quietly (quiet_ack name messageId)
  absent keyspace := by
    rintro ⟨view, holds⟩ queue missing
    rw [holds.names] at missing
    exact holds.contents (holds.2.blank queue missing)
  removal name keyspace := by
    rintro ⟨view, holds⟩
    obtain ⟨after, runs, held⟩ := holds.removeQueue name
    have state : ((redisBackend storage).serve (.removeQueue name) keyspace).2 = after := congrArg Prod.snd runs
    obtain ⟨_, names, gone, spared⟩ := holds.2.dropQueues (view.names.filter (Below name))
    rw [state, held.names, holds.names]
    refine ⟨?_, fun queue taken => ?_, fun queue left => ?_⟩
    · refine (congrArg (fun outcome => BackendReply.done (Prod.fst outcome)) runs).trans ?_
      simp only [decide_eq_true_eq]
    · have missing : queue ∉ ((view.names.filter (Below name)).foldl QueueView.dropQueue view).names := by
        rw [names, mem_filter]
        exact fun both => both.2 ⟨both.1, taken⟩
      exact ⟨missing, held.contents (held.2.blank queue missing)⟩
    · have other : queue ∉ view.names.filter (Below name) := fun member => by
        rw [(mem_filter.mp member).2] at left
        cases left
      refine ⟨(names queue).trans (and_iff_left other), ?_⟩
      rw [held.contents (spared queue other), holds.contents ⟨rfl, rfl, rfl, rfl⟩]
  listing lead keyspace := by
    rintro ⟨view, holds⟩
    obtain ⟨after, runs, held⟩ := holds.listQueues lead
    refine ⟨_, congrArg (fun outcome => BackendReply.listed (Prod.fst outcome)) runs, sortedNames_nodup (holds.2.once.filter _),
      fun queue => ?_⟩
    rw [mem_sortedNames, mem_filter, holds.names]
    refine and_congr_right fun _ => (or_iff_right_of_imp ?_).symm
    rintro rfl
    exact decide_eq_true List.nil_prefix
  creation name now keyspace := by
    rintro ⟨view, holds⟩
    obtain ⟨after, runs, held⟩ := holds.createQueue name (secondsText now)
    have state : ((redisBackend storage).serve (.createQueue name now) keyspace).2 = after := congrArg Prod.snd runs
    rw [state, held.names, holds.names]
    refine ⟨congrArg (fun outcome => BackendReply.done (Prod.fst outcome)) runs, fun queue => ?_⟩
    rw [step]
    by_cases old : name ∈ view.names
    · rw [if_pos old]
      exact (or_iff_left_of_imp fun same => same ▸ old).symm
    · rw [if_neg old]
      simp [withInfo, withNames]
  existence name keyspace := by
    rintro ⟨view, holds⟩
    obtain ⟨after, runs, held⟩ := holds.queueExists name
    rw [holds.names]
    exact congrArg (fun outcome => BackendReply.known (Prod.fst outcome)) runs
  others call keyspace := by
    rintro ⟨view, holds⟩ notCreate notRemove queue
    have same : ∀ {after : Keyspace} {later : QueueView}, storage.Holds after later → later.names = view.names →
        (queue ∈ (redisBackend storage).names after ↔ queue ∈ (redisBackend storage).names keyspace) := by
      intro after later held names
      rw [held.names, holds.names, names]
    cases call with
    | createQueue name now => exact absurd rfl (notCreate name now)
    | removeQueue name => exact absurd rfl (notRemove name)
    | queueExists name =>
      obtain ⟨after, runs, held⟩ := holds.queueExists name
      exact same ((congrArg Prod.snd runs) ▸ held) rfl
    | listQueues lead =>
      obtain ⟨after, runs, held⟩ := holds.listQueues lead
      exact same ((congrArg Prod.snd runs) ▸ held) rfl
    | enqueue name message now =>
      obtain ⟨later, held, names⟩ := holds.quietly (quiet_enqueue name message.id message.payload (secondsText now))
      exact same held names
    | dequeue name now =>
      obtain ⟨later, held, names⟩ := holds.quietly (quiet_dequeue name storage.instanceId now)
      exact same held names
    | clear name =>
      obtain ⟨later, held, names⟩ := holds.quietly (quiet_clear name)
      exact same held names
    | ack name messageId =>
      obtain ⟨later, held, names⟩ := holds.quietly (quiet_ack name messageId)
      exact same held names

end CacheQueueStorage

end LoginomDock.QueueFs
