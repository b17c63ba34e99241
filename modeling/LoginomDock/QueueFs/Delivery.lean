import Mathlib.Data.List.Count
import LoginomDock.QueueFs.QueueView

namespace LoginomDock.QueueFs

open Redis List QueueView

structure Message where
  queue : Text
  id : Uuid
  payload : Text
  deriving DecidableEq

def account (ledger : List Message) : QueueOp → Except Error ScriptValue → List Message
  | .enqueue queue id payload _, .ok (.integer 1) => ledger ++ [⟨queue, id, payload⟩]
  | .ack queue messageId, .ok (.integer 1) =>
    ledger.filter fun message => ¬ (message.queue = queue ∧ message.id.text = messageId)
  | .clear queue, .ok _ => ledger.filter fun message => message.queue ≠ queue
  | .removeQueue name, .ok _ => ledger.filter fun message => ¬ Below name message.queue
  | _, _ => ledger

-- The messages that were enqueued and since then neither acknowledged nor cleared nor removed.
def outstanding {ι : Type} (keyPrefix : Text) (start : Keyspace) : List (ι × QueueOp) → List Message
  | [] => []
  | (_, op) :: earlier =>
    account (outstanding keyPrefix start earlier) op
      ((queueMachine keyPrefix).handle op ((queueMachine keyPrefix).replay start earlier)).1

def enqueuedIds {ι : Type} : List (ι × QueueOp) → List Uuid
  | [] => []
  | (_, .enqueue _ id _ _) :: earlier => id :: enqueuedIds earlier
  | _ :: earlier => enqueuedIds earlier

section Places

variable (keyPrefix : Text) (keyspace : Keyspace) (queue id : Text)

def timesPending : Nat :=
  match listContent (keyspace (QueueKeys.new keyPrefix queue).pending) with
  | some ids => ids.count id
  | none => 0

def timesProcessing : Nat :=
  match sortedSetContent (keyspace (QueueKeys.new keyPrefix queue).processing) with
  | some members => members.countP fun entry => (id ++ ['|']).isPrefixOf entry.1
  | none => 0

end Places

structure InOnePlace (keyPrefix : Text) (keyspace : Keyspace) (message : Message) : Prop where
  place : timesPending keyPrefix keyspace message.queue message.id.text = 1 ∧
      timesProcessing keyPrefix keyspace message.queue message.id.text = 0 ∨
    timesPending keyPrefix keyspace message.queue message.id.text = 0 ∧
      timesProcessing keyPrefix keyspace message.queue message.id.text = 1
  stored : keyspace ((QueueKeys.new keyPrefix message.queue).message message.id.text) = some (.string message.payload)

-- What a client finds: no payload is missing, and an acknowledgement succeeds exactly when the message is being
-- processed.
structure Serves (keyPrefix : Text) (keyspace : Keyspace) (queue : Text) : Prop where
  dequeue : ∀ instanceId now, ∃ value, (exec ((QueueOp.dequeue queue instanceId now).script keyPrefix) keyspace).1 = .ok value
  peek : ∃ value, (exec ((QueueOp.peek queue).script keyPrefix) keyspace).1 = .ok value
  listUnacked : ∃ value, (exec ((QueueOp.listUnacked queue).script keyPrefix) keyspace).1 = .ok value
  ack : ∀ messageId, (exec ((QueueOp.ack queue messageId).script keyPrefix) keyspace).1 =
    .ok (.integer (if 0 < timesProcessing keyPrefix keyspace queue messageId then 1 else 0))

def idsIn (ledger : List Message) (queue : Text) : List Uuid :=
  (ledger.filter fun message => message.queue = queue).map Message.id

structure Sound (ledger : List Message) (view : QueueView) : Prop where
  known : ∀ message ∈ ledger, message.queue ∈ view.names
  placed : ∀ queue, (view.ids queue).Perm (idsIn ledger queue)
  once : ∀ queue, (view.ids queue).Nodup
  stored : ∀ message ∈ ledger, view.payload message.queue message.id = some message.payload

section Steps

variable {ledger : List Message} {view : QueueView}

theorem mem_idsIn {queue : Text} {id : Uuid} :
    id ∈ idsIn ledger queue ↔ ∃ message ∈ ledger, message.queue = queue ∧ message.id = id := by
  simp [idsIn, and_assoc]

theorem idsIn_append_same (message : Message) :
    idsIn (ledger ++ [message]) message.queue = idsIn ledger message.queue ++ [message.id] := by
  simp [idsIn]

theorem idsIn_append_ne {message : Message} {queue : Text} (apart : message.queue ≠ queue) :
    idsIn (ledger ++ [message]) queue = idsIn ledger queue := by
  simp [idsIn, apart]

theorem Sound.payload_of_mem (sound : Sound ledger view) {queue : Text} {id : Uuid} (member : id ∈ view.ids queue) :
    ∃ payload, view.payload queue id = some payload := by
  obtain ⟨message, isOut, rfl, rfl⟩ := mem_idsIn.mp ((sound.placed queue).mem_iff.mp member)
  exact ⟨message.payload, sound.stored message isOut⟩

theorem Sound.frame (sound : Sound ledger view) {after : QueueView} (names : ∀ queue ∈ view.names, queue ∈ after.names)
    (ids : ∀ queue, (after.ids queue).Perm (view.ids queue)) (payload : after.payload = view.payload) :
    Sound ledger after where
  known message member := names _ (sound.known message member)
  placed queue := (ids queue).trans (sound.placed queue)
  once queue := (ids queue).nodup_iff.mpr (sound.once queue)
  stored message member := by rw [payload]; exact sound.stored message member

theorem Sound.enqueue (sound : Sound ledger view) {queue : Text} {id : Uuid} {payload : Text}
    (known : queue ∈ view.names) (fresh : ∀ message ∈ ledger, message.id ≠ id) :
    Sound (ledger ++ [⟨queue, id, payload⟩])
      ((view.withPayload queue id (some payload)).withPending queue (view.pending queue ++ [id])) := by
  have placed : ∀ other, (((view.withPayload queue id (some payload)).withPending queue
      (view.pending queue ++ [id])).ids other).Perm (idsIn (ledger ++ [⟨queue, id, payload⟩]) other) := by
    intro other
    by_cases same : queue = other
    · subst same
      have moved : (view.pending queue ++ [id] ++ (view.processing queue).map Claim.id).Perm (view.ids queue ++ [id]) := by
        rw [QueueView.ids, append_assoc, append_assoc]
        exact (perm_append_comm).append_left _
      have joined : (view.ids queue ++ [id]).Perm (idsIn ledger queue ++ [id]) := (sound.placed queue).append_right _
      rw [idsIn_append_same]
      simpa [QueueView.ids, withPayload, QueueView.withPending] using moved.trans joined
    · have apart : other ≠ queue := fun equal => same equal.symm
      rw [idsIn_append_ne same]
      simpa [QueueView.ids, withPayload, QueueView.withPending, apart] using sound.placed other
  refine ⟨?_, placed, ?_, ?_⟩
  · intro message member
    rcases mem_append.mp member with old | new
    · exact sound.known message old
    · rw [mem_singleton.mp new]
      exact known
  · intro other
    refine (placed other).nodup_iff.mpr ?_
    have old : (idsIn ledger other).Nodup := (sound.placed other).nodup_iff.mp (sound.once other)
    have notOld : id ∉ idsIn ledger other := by
      intro member
      obtain ⟨message, isOut, -, same⟩ := mem_idsIn.mp member
      exact fresh message isOut same
    by_cases same : queue = other
    · subst same
      rw [idsIn_append_same, nodup_append_comm]
      exact nodup_cons.mpr ⟨notOld, old⟩
    · rwa [idsIn_append_ne same]
  · intro message member
    rcases mem_append.mp member with old | new
    · have apart := fresh message old
      have before := sound.stored message old
      by_cases same : message.queue = queue
      · simpa [withPayload, QueueView.withPending, same, apart] using same ▸ before
      · simpa [withPayload, QueueView.withPending, same] using before
    · rw [mem_singleton.mp new]
      simp [withPayload, QueueView.withPending]

variable {claim : Claim}

theorem perm_insertClaim {claims : List Claim} (new : claim.id ∉ claims.map Claim.id) :
    (insertClaim claim claims).Perm (claim :: claims) := by
  have none : (claims.filter fun other => other.member ≠ claim.member) = claims := by
    refine filter_eq_self.mpr fun other member => ?_
    refine decide_eq_true fun same => new ?_
    rw [← (Claim.member_inj.mp same).1]
    exact mem_map_of_mem member
  rw [insertClaim, none]
  exact perm_orderedInsert _ _ _

theorem Sound.dequeue (sound : Sound ledger view) {queue : Text} {id : Uuid} {rest : List Uuid} (instanceId : Uuid)
    (now : Nat) (waiting : view.pending queue = id :: rest) :
    Sound ledger ((view.withPending queue rest).withProcessing queue
      (insertClaim ⟨id, instanceId, now⟩ (view.processing queue))) := by
  refine sound.frame (fun _ known => known) ?_ rfl
  intro other
  by_cases same : other = queue
  · subst same
    have once := sound.once other
    rw [QueueView.ids, waiting, cons_append, nodup_cons] at once
    have new : id ∉ (view.processing other).map Claim.id := fun member => once.1 (mem_append_right _ member)
    have inserted : ((insertClaim ⟨id, instanceId, now⟩ (view.processing other)).map Claim.id).Perm
        (id :: (view.processing other).map Claim.id) := (perm_insertClaim new).map Claim.id
    have moved : (rest ++ (insertClaim ⟨id, instanceId, now⟩ (view.processing other)).map Claim.id).Perm
        (id :: rest ++ (view.processing other).map Claim.id) :=
      (inserted.append_left rest).trans perm_middle
    simpa [QueueView.ids, QueueView.withPending, QueueView.withProcessing, waiting] using moved
  · simp [QueueView.ids, QueueView.withPending, QueueView.withProcessing, same]

theorem perm_withoutClaim {queue : Text} (once : (view.ids queue).Nodup)
    (claimed : claim ∈ view.processing queue) :
    (view.ids queue).Perm (claim.id :: (view.withoutClaim queue claim).ids queue) := by
  have distinct : ((view.processing queue).map Claim.id).Nodup := (nodup_append.mp once).2.1
  have others : (view.processing queue).erase claim =
      (view.processing queue).filter fun other => other.member ≠ claim.member := by
    rw [distinct.of_map.erase_eq_filter]
    refine filter_congr fun other member => ?_
    by_cases same : other = claim
    · simp [same]
    · have apart : other.member ≠ claim.member := by
        intro equal
        exact same (inj_on_of_nodup_map distinct member claimed (Claim.member_inj.mp equal).1)
      simp [same, apart]
  have split : ((view.processing queue).map Claim.id).Perm
      (claim.id :: (((view.processing queue).filter fun other => other.member ≠ claim.member).map Claim.id)) := by
    rw [← others]
    exact (perm_cons_erase claimed).map Claim.id
  have moved := (split.append_left (view.pending queue)).trans perm_middle
  simpa [QueueView.ids, withoutClaim, QueueView.withProcessing] using moved

theorem ids_withoutClaim_ne {queue other : Text} (apart : other ≠ queue) (claim : Claim) :
    (view.withoutClaim queue claim).ids other = view.ids other := by
  simp [QueueView.ids, withoutClaim, QueueView.withProcessing, apart]

theorem Sound.recoverClaim (sound : Sound ledger view) {queue : Text}
    (claimed : claim ∈ view.processing queue) : Sound ledger (QueueView.recoverClaim queue view claim) := by
  rw [QueueView.recoverClaim]
  split
  · exact sound
  · refine sound.frame (fun _ known => known) ?_ rfl
    intro other
    by_cases same : other = queue
    · subst same
      refine Perm.trans ?_ (perm_withoutClaim (sound.once other) claimed).symm
      have after : ((view.withoutClaim other claim).withPending other (view.pending other ++ [claim.id])).ids other =
          view.pending other ++ [claim.id] ++ ((view.withoutClaim other claim).processing other).map Claim.id := by
        simp [QueueView.ids, QueueView.withPending]
      rw [after, append_assoc]
      exact perm_middle
    · simp [QueueView.ids, QueueView.withPending, withoutClaim, QueueView.withProcessing, same]

theorem Sound.recoverClaims (sound : Sound ledger view) {queue : Text} {claims : List Claim}
    (claimed : ∀ claim ∈ claims, claim ∈ view.processing queue) (distinct : (claims.map Claim.id).Nodup) :
    Sound ledger (claims.foldl (QueueView.recoverClaim queue) view) := by
  induction claims generalizing view with
  | nil => exact sound
  | cons claim rest ih =>
    rw [map_cons, nodup_cons] at distinct
    rw [foldl_cons]
    refine ih (sound.recoverClaim (claimed claim (by simp))) ?_ distinct.2
    intro other member
    have before := claimed other (by simp [member])
    rw [QueueView.recoverClaim]
    split
    · exact before
    · have apart : other.member ≠ claim.member := by
        intro equal
        exact distinct.1 ((Claim.member_inj.mp equal).1 ▸ mem_map_of_mem member)
      simp [QueueView.withPending, withoutClaim, QueueView.withProcessing, before, apart]

theorem Sound.drop (sound : Sound ledger view) (keep : Message → Bool) {after : QueueView}
    (names : ∀ message ∈ ledger, keep message → message.queue ∈ after.names)
    (placed : ∀ queue, (after.ids queue).Perm (idsIn (ledger.filter keep) queue))
    (payload : ∀ message ∈ ledger, keep message →
      after.payload message.queue message.id = view.payload message.queue message.id) :
    Sound (ledger.filter keep) after where
  known message member := names message (mem_filter.mp member).1 (mem_filter.mp member).2
  placed := placed
  once queue := by
    refine (placed queue).nodup_iff.mpr (((sound.placed queue).nodup_iff.mp (sound.once queue)).sublist ?_)
    exact ((filter_sublist).filter _).map _
  stored message member := by
    obtain ⟨isOut, kept⟩ := mem_filter.mp member
    rw [payload message isOut kept]
    exact sound.stored message isOut

theorem idsIn_filter_id (ledger : List Message) (queue : Text) (id : Uuid) :
    idsIn (ledger.filter fun message => ¬ (message.queue = queue ∧ message.id.text = id.text)) queue =
      (idsIn ledger queue).filter (· ≠ id) := by
  rw [idsIn, idsIn, filter_map, filter_filter, filter_filter]
  congr 1
  refine filter_congr fun message _ => ?_
  by_cases here : message.queue = queue <;> simp [here]

theorem idsIn_filter_ne {ledger : List Message} {keep : Message → Bool} {queue : Text}
    (all : ∀ message ∈ ledger, message.queue = queue → keep message) :
    idsIn (ledger.filter keep) queue = idsIn ledger queue := by
  rw [idsIn, idsIn, filter_filter]
  congr 1
  refine filter_congr fun message member => ?_
  by_cases here : message.queue = queue
  · simp [here, all message member here]
  · simp [here]

theorem Sound.ack (sound : Sound ledger view) {queue : Text}
    (claimed : claim ∈ view.processing queue) :
    Sound (ledger.filter fun message => ¬ (message.queue = queue ∧ message.id.text = claim.id.text))
      ((view.withoutClaim queue claim).withPayload queue claim.id none) := by
  have split := perm_withoutClaim (sound.once queue) claimed
  have once := split.nodup_iff.mp (sound.once queue)
  refine sound.drop _ (fun message isOut _ => sound.known message isOut) ?_ ?_
  · intro other
    by_cases same : other = queue
    · subst same
      rw [idsIn_filter_id]
      refine Perm.trans ?_ ((sound.placed other).symm.trans split |>.filter (· ≠ claim.id)).symm
      have stay : ((view.withoutClaim other claim).ids other).filter (· ≠ claim.id) =
          (view.withoutClaim other claim).ids other := by
        refine filter_eq_self.mpr fun id member => decide_eq_true ?_
        rintro rfl
        exact (nodup_cons.mp once).1 member
      rw [filter_cons_of_neg (by simp), stay]
      exact .refl _
    · rw [idsIn_filter_ne (fun message _ here => by simp [here, same])]
      exact (Perm.of_eq (ids_withoutClaim_ne same claim)).trans (sound.placed other)
  · intro message isOut kept
    by_cases same : message.queue = queue
    · have apart : message.id ≠ claim.id := fun equal => by simp [same, equal] at kept
      simp [withPayload, withoutClaim, QueueView.withProcessing, same, apart]
    · simp [withPayload, withoutClaim, QueueView.withProcessing, same]

theorem idsIn_filter_queue (ledger : List Message) (queue : Text) :
    idsIn (ledger.filter fun message => message.queue ≠ queue) queue = [] := by
  simp [idsIn, filter_filter]

theorem Sound.empty (sound : Sound ledger view) {queue : Text} {after : QueueView}
    (names : ∀ other ∈ view.names, other ≠ queue → other ∈ after.names) (empty : after.ids queue = [])
    (others : ∀ other, other ≠ queue → after.ids other = view.ids other)
    (payload : ∀ other, other ≠ queue → after.payload other = view.payload other) :
    Sound (ledger.filter fun message => message.queue ≠ queue) after := by
  refine sound.drop _ ?_ ?_ ?_
  · exact fun message isOut kept => names _ (sound.known message isOut) (by simpa using kept)
  · intro other
    by_cases same : other = queue
    · subst same
      rw [idsIn_filter_queue, empty]
    · rw [idsIn_filter_ne (fun message _ here => by simpa [here] using same), others other same]
      exact sound.placed other
  · exact fun message _ kept => by rw [payload _ (by simpa using kept)]

theorem forget_payload_ne {queue other : Text} (apart : other ≠ queue) (ids : List Uuid) :
    (view.forget queue ids).payload other = view.payload other := by
  funext id
  simp [forget_payload, apart]

section

variable (sound : Sound ledger view)

include sound

theorem Sound.clear (queue : Text) :
    Sound (ledger.filter fun message => message.queue ≠ queue) (view.emptied queue) := by
  refine sound.empty ?_ ?_ ?_ ?_
  · intro other known _
    exact (view.forget_frame queue (view.ids queue)).1.symm ▸ known
  · simp [QueueView.ids, emptied, QueueView.withPending, QueueView.withProcessing]
  · intro other apart
    simp [QueueView.ids, emptied, QueueView.withPending, QueueView.withProcessing, apart]
  · intro other apart
    exact forget_payload_ne apart _

theorem Sound.dropQueue (queue : Text) :
    Sound (ledger.filter fun message => message.queue ≠ queue) (view.dropQueue queue) := by
  refine sound.empty ?_ ?_ ?_ ?_
  · intro other known apart
    exact mem_filter.mpr ⟨known, decide_eq_true apart⟩
  · simp [QueueView.ids, QueueView.dropQueue, QueueView.withPending, QueueView.withProcessing, QueueView.withNames]
  · intro other apart
    simp [QueueView.ids, QueueView.dropQueue, QueueView.withPending, QueueView.withProcessing, QueueView.withInfo,
      QueueView.withNames, apart]
  · intro other apart
    exact forget_payload_ne apart _

theorem Sound.dropQueues (queues : List Text) :
    Sound (ledger.filter fun message => message.queue ∉ queues) (queues.foldl QueueView.dropQueue view) := by
  induction queues generalizing ledger view with
  | nil => simpa using sound
  | cons queue rest ih =>
    have dropped := ih (sound.dropQueue queue)
    rw [filter_filter] at dropped
    have same : (ledger.filter fun message => message.queue ∉ queue :: rest) =
        ledger.filter fun message => decide (message.queue ∉ rest) && decide (message.queue ≠ queue) := by
      refine filter_congr fun message _ => ?_
      simp [Bool.and_comm]
    rw [same]
    exact dropped

theorem Sound.remove (name : Text) :
    Sound (ledger.filter fun message => ¬ Below name message.queue)
      ((view.names.filter (Below name)).foldl QueueView.dropQueue view) := by
  have dropped := sound.dropQueues (view.names.filter (Below name))
  -- every message that is out is in a queue that the set of names has
  have same : (ledger.filter fun message => ¬ Below name message.queue) =
      ledger.filter fun message => message.queue ∉ view.names.filter (Below name) := by
    refine filter_congr fun message member => ?_
    simp [sound.known message member]
  rw [same]
  exact dropped

end

def Fresh (ledger : List Message) : QueueOp → Prop
  | .enqueue _ id _ _ => ∀ message ∈ ledger, message.id ≠ id
  | _ => True

theorem Sound.step (sound : Sound ledger view) (op : QueueOp) (fresh : Fresh ledger op) :
    Sound (account ledger op (view.step op).1) (view.step op).2 := by
  cases op with
  | sismember queue => exact sound
  | smembers => exact sound
  | createQueue queue now =>
    rw [QueueView.step]
    split
    · exact sound
    · exact sound.frame (fun _ known => mem_append_left _ known) (fun _ => .refl _) rfl
  | removeQueue name => exact sound.remove name
  | enqueue queue id payload now =>
    rw [QueueView.step]
    split
    next known => exact (sound.enqueue known fresh).frame (fun _ known => known) (fun _ => .refl _) rfl
    next => exact sound
  | dequeue queue instanceId now =>
    rw [QueueView.step]
    split
    · exact sound
    next id rest waiting =>
      split
      · exact sound
      · exact sound.dequeue instanceId now waiting
  | peek queue =>
    rw [QueueView.step]
    split
    · exact sound
    · split <;> exact sound
  | listUnacked queue => exact sound
  | ack queue messageId =>
    rw [QueueView.step]
    split
    · exact sound
    next claim found =>
      obtain rfl : claim.id.text = messageId := by simpa using find?_some found
      exact sound.ack (mem_of_find?_eq_some found)
  | clear queue => exact sound.clear queue
  | recoverStale queue =>
    exact sound.recoverClaims (fun _ claimed => claimed) (nodup_append.mp (sound.once queue)).2.1
  | heartbeat instanceId => exact sound.frame (fun _ known => known) (fun _ => .refl _) rfl
  | heartbeatGone instanceId => exact sound.frame (fun _ known => known) (fun _ => .refl _) rfl

end Steps

section Runs

variable {ι : Type} {keyPrefix : Text} {start : Keyspace}

-- Nothing of the queues is there yet.
def Blank (keyPrefix : Text) (keyspace : Keyspace) : Prop :=
  ∀ key, queueKeyPrefix keyPrefix <+: key → keyspace key = none

theorem Blank.shows (blank : Blank keyPrefix start) : Shows keyPrefix start .empty := by
  intro key
  rw [blank _ (by rw [Key.text_eq]; exact prefix_append _ _)]
  cases key <;> rfl

variable {message : Message}

theorem mem_account {ledger : List Message} {op : QueueOp} {answer : Except Error ScriptValue}
    (member : message ∈ account ledger op answer) :
    message ∈ ledger ∨ ∃ queue id payload now, op = .enqueue queue id payload now ∧ message = ⟨queue, id, payload⟩ := by
  unfold account at member
  split at member
  next queue id payload now =>
    rcases mem_append.mp member with old | new
    · exact .inl old
    · exact .inr ⟨queue, id, payload, now, rfl, mem_singleton.mp new⟩
  all_goals first
    | exact .inl (mem_filter.mp member).1
    | exact .inl member

variable {log : List (ι × QueueOp)}

theorem id_mem_enqueuedIds
    (member : message ∈ outstanding keyPrefix start log) : message.id ∈ enqueuedIds log := by
  induction log with
  | nil => simp [outstanding] at member
  | cons call earlier ih =>
    obtain ⟨thread, op⟩ := call
    rcases mem_account member with old | ⟨queue, id, payload, now, rfl, rfl⟩
    · have before := ih old
      cases op <;> first
        | exact before
        | exact mem_cons_of_mem _ before
    · simp [enqueuedIds]

theorem sound_replay (blank : Blank keyPrefix start) (distinct : (enqueuedIds log).Nodup) :
    ∃ view, Shows keyPrefix ((queueMachine keyPrefix).replay start log) view ∧
      Sound (outstanding keyPrefix start log) view := by
  induction log with
  | nil =>
    refine ⟨.empty, blank.shows, ?_⟩
    constructor <;> simp [outstanding, QueueView.empty, QueueView.ids, idsIn]
  | cons call earlier ih =>
    obtain ⟨thread, op⟩ := call
    have distinctEarlier : (enqueuedIds earlier).Nodup := by
      cases op <;> first
        | exact distinct
        | exact (nodup_cons.mp distinct).2
    obtain ⟨view, shown, sound⟩ := ih distinctEarlier
    have fresh : Fresh (outstanding keyPrefix start earlier) op := by
      cases op with
      | enqueue queue id payload now =>
        intro message member same
        exact (nodup_cons.mp distinct).1 (same ▸ id_mem_enqueuedIds member)
      | _ => trivial
    obtain ⟨sameAnswer, shownAfter⟩ := simulates op _ view shown
    refine ⟨_, shownAfter, ?_⟩
    have accounted := sound.step op fresh
    rw [← sameAnswer] at accounted
    exact accounted

section Reading

variable {keyspace : Keyspace} {view : QueueView}

theorem timesPending_eq (shows : Shows keyPrefix keyspace view) (queue : Text) (id : Uuid) :
    timesPending keyPrefix keyspace queue id.text = (view.pending queue).count id := by
  have held := shows (.pending queue)
  rw [Key.text] at held
  rw [timesPending, held, QueueView.value, listContent_listValue]
  exact count_map_of_injective _ _ (fun _ _ => Uuid.text_injective) _

theorem isPrefix_member (claim : Claim) (messageId : Text) :
    (messageId ++ ['|']).isPrefixOf claim.member = decide (claim.id.text = messageId) := by
  rw [Bool.eq_iff_iff, List.isPrefixOf_iff_prefix, decide_eq_true_iff, ← take_member, prefix_iff_eq_take, eq_comm]
  simp

theorem timesProcessing_eq (shows : Shows keyPrefix keyspace view) (queue messageId : Text) :
    timesProcessing keyPrefix keyspace queue messageId =
      (view.processing queue).countP fun claim => claim.id.text = messageId := by
  have held := shows (.processing queue)
  rw [Key.text] at held
  rw [timesProcessing, held, QueueView.value, sortedSetContent_sortedSetValue]
  simp only [countP_map, Function.comp_def, Claim.entry, isPrefix_member]

section

variable {ledger : List Message} (sound : Sound ledger view)

include sound

theorem Sound.inOnePlace (shows : Shows keyPrefix keyspace view) (isOut : message ∈ ledger) : InOnePlace keyPrefix keyspace message := by
  have member : message.id ∈ view.ids message.queue :=
    (sound.placed message.queue).mem_iff.mpr (mem_idsIn.mpr ⟨message, isOut, rfl, rfl⟩)
  have once : (view.ids message.queue).count message.id = 1 :=
    count_eq_one_of_mem (sound.once message.queue) member
  have processing : ((view.processing message.queue).map Claim.id).count message.id =
      (view.processing message.queue).countP fun claim => claim.id.text = message.id.text := by
    rw [List.count, countP_map]
    refine countP_congr fun claim _ => ?_
    simp
  constructor
  · rw [timesPending_eq shows, timesProcessing_eq shows, ← processing]
    rw [QueueView.ids, count_append] at once
    omega
  · have held := shows (.message message.queue message.id)
    rw [QueueView.value, sound.stored message isOut] at held
    exact held

theorem Sound.payloads_eq {queue : Text} {ids : List Uuid}
    (members : ∀ id ∈ ids, id ∈ view.ids queue) : view.payloads queue ids = .ok (ids.map fun id => (view.payload queue id).getD []) := by
  induction ids with
  | nil => rfl
  | cons id rest ih =>
    obtain ⟨payload, stored⟩ := sound.payload_of_mem (members id mem_cons_self)
    rw [QueueView.payloads, stored, ih fun other member => members other (mem_cons_of_mem _ member), map_cons, stored]
    rfl

theorem Sound.serves (shows : Shows keyPrefix keyspace view)
    (queue : Text) : Serves keyPrefix keyspace queue := by
  have waits : ∀ {id rest}, view.pending queue = id :: rest → ∃ payload, view.payload queue id = some payload := by
    intro id rest waiting
    exact sound.payload_of_mem (by simp [QueueView.ids, waiting])
  constructor
  · intro instanceId now
    rw [(simulates (.dequeue queue instanceId now) _ view shows).1]
    cases waiting : view.pending queue with
    | nil => exact ⟨.null, by simp [QueueView.step, waiting]⟩
    | cons id rest =>
      obtain ⟨payload, stored⟩ := waits waiting
      exact ⟨.array [id.text, payload], by simp [QueueView.step, waiting, stored]⟩
  · rw [(simulates (.peek queue) _ view shows).1]
    cases waiting : view.pending queue with
    | nil => exact ⟨.null, by simp [QueueView.step, waiting]⟩
    | cons id rest =>
      obtain ⟨payload, stored⟩ := waits waiting
      exact ⟨.bytes payload, by simp [QueueView.step, waiting, stored]⟩
  · rw [(simulates (.listUnacked queue) _ view shows).1]
    obtain ⟨payloads, read⟩ : ∃ payloads, view.payloads queue (view.ids queue) = .ok payloads :=
      ⟨_, sound.payloads_eq fun _ member => member⟩
    exact ⟨.array payloads, by simp [QueueView.step, read, Except.map]⟩
  · intro messageId
    rw [(simulates (.ack queue messageId) _ view shows).1, timesProcessing_eq shows, QueueView.step]
    split
    next absent =>
      rw [if_neg]
      simpa [countP_pos_iff] using absent
    next claim found =>
      rw [if_pos]
      have matching := find?_some found
      exact countP_pos_iff.mpr ⟨claim, mem_of_find?_eq_some found, matching⟩

end

end Reading

theorem delivered_exactly_once {α : Type} [DecidableEq ι] (blank : Blank keyPrefix start)
    {clients : ι → Prog QueueOp QueueOp.Res α} {pool : Pool ι QueueOp QueueOp.Res α Keyspace}
    (reached : Pool.Reaches (queueMachine keyPrefix) ⟨⟨start, []⟩, clients⟩ pool)
    (distinct : (enqueuedIds pool.log).Nodup) :
    (∀ message ∈ outstanding keyPrefix start pool.log, InOnePlace keyPrefix pool.state message) ∧
      ∀ queue, Serves keyPrefix pool.state queue := by
  rw [Pool.state_eq_replay rfl reached]
  obtain ⟨view, shown, sound⟩ := sound_replay blank distinct
  exact ⟨fun message isOut => sound.inOnePlace shown isOut, fun queue => sound.serves shown queue⟩

theorem reports_outstanding {α : Type} [DecidableEq ι] (blank : Blank keyPrefix start)
    {clients : ι → Prog QueueOp QueueOp.Res α} {pool : Pool ι QueueOp QueueOp.Res α Keyspace}
    (reached : Pool.Reaches (queueMachine keyPrefix) ⟨⟨start, []⟩, clients⟩ pool)
    (distinct : (enqueuedIds pool.log).Nodup) (queue : Text) :
    let waiting := (outstanding keyPrefix start pool.log).filter fun message => message.queue = queue
    (∃ payloads, (exec ((QueueOp.listUnacked queue).script keyPrefix) pool.state).1 = .ok (.array payloads) ∧
      payloads.Perm (waiting.map Message.payload)) ∧
    (exec ((QueueOp.clear queue).script keyPrefix) pool.state).1 = .ok (.integer waiting.length) := by
  intro waiting
  rw [Pool.state_eq_replay rfl reached]
  obtain ⟨view, shown, sound⟩ := sound_replay blank distinct
  have placed : (view.ids queue).Perm (waiting.map Message.id) := sound.placed queue
  rw [(simulates (.listUnacked queue) _ view shown).1, (simulates (.clear queue) _ view shown).1]
  refine ⟨⟨_, by rw [QueueView.step, sound.payloads_eq fun _ member => member]; rfl, ?_⟩, ?_⟩
  · refine (placed.map _).trans (.of_eq ?_)
    rw [map_map]
    refine map_congr_left fun message inside => ?_
    obtain ⟨isOut, rfl⟩ : message ∈ outstanding keyPrefix start pool.log ∧ message.queue = queue := by simpa [waiting] using inside
    rw [Function.comp_apply, sound.stored message isOut]
    rfl
  · rw [QueueView.step, placed.length_eq, length_map]

end Runs

instance (keyPrefix : Text) (op : QueueOp) (keyspace : Keyspace) : Decidable ((queueMachine keyPrefix).enabled op keyspace) :=
  inferInstanceAs (Decidable True)

def someMessage : Message := ⟨['q'], ⟨"00000000-0000-4000-8000-000000000001", Uuid.shape_of_all (by decide)⟩, "payload"⟩

def someInstance : Uuid := ⟨"00000000-0000-4000-8000-00000000000a", Uuid.shape_of_all (by decide)⟩

def lateAck : Bool → Prog QueueOp QueueOp.Res (Except QueueError Unit)
  | false => ExceptT.run do
      createQueue someMessage.queue ['1']
      enqueue someMessage.queue someMessage.id someMessage.payload ['2']
  | true => ExceptT.run do
      let _ ← dequeue someMessage.queue someInstance 3
      let _ ← execute (.heartbeatGone someInstance)
      let _ ← recoverStale
      let _ ← ack someMessage.queue someMessage.id.text

def lateAckEnd : Pool Bool QueueOp QueueOp.Res (Except QueueError Unit) Keyspace :=
  Pool.follow (queueMachine ['k']) [false, false, true, true, true, true, true, true, true] ⟨⟨fun _ => none, []⟩, lateAck⟩

theorem lateAck_delivered :
    outstanding ['k'] (fun _ => none) lateAckEnd.log = [someMessage] ∧
      timesPending ['k'] lateAckEnd.state ['q'] someMessage.id.text = 1 ∧
      (∀ message ∈ outstanding ['k'] (fun _ => none) lateAckEnd.log, InOnePlace ['k'] lateAckEnd.state message) ∧
      ∀ queue, Serves ['k'] lateAckEnd.state queue := by
  refine ⟨by rfl, by rfl, ?_⟩
  exact delivered_exactly_once (fun _ _ => rfl) (Pool.reaches_follow _ _ _) (by decide)

theorem lateAck_reported : (exec ((QueueOp.clear ['q']).script ['k']) lateAckEnd.state).1 = .ok (.integer 1) :=
  (reports_outstanding (fun _ _ => rfl) (Pool.reaches_follow _ _ _) (by decide) ['q']).2

end LoginomDock.QueueFs
