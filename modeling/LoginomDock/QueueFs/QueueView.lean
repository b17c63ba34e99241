import LoginomDock.QueueFs.Scripts

namespace LoginomDock.QueueFs

open Redis List

namespace Uuid

theorem not_mem (id : Uuid) {char : Char} (other : char ≠ '-' ∧ ¬ char.isDigit ∧ ¬ ('a' ≤ char ∧ char ≤ 'f')) :
    char ∉ id.text := by
  intro member
  rcases id.shape.2 char member with dash | digit | letter
  · exact other.1 dash
  · exact other.2.1 digit
  · exact other.2.2 letter

theorem colon_not_mem (id : Uuid) : ':' ∉ id.text := id.not_mem (by decide)

theorem bar_not_mem (id : Uuid) : '|' ∉ id.text := id.not_mem (by decide)

theorem text_injective {first second : Uuid} (same : first.text = second.text) : first = second := by
  cases first
  cases second
  cases same
  rfl

@[simp] theorem text_inj {first second : Uuid} : first.text = second.text ↔ first = second :=
  ⟨text_injective, fun same => same ▸ rfl⟩

end Uuid

inductive Key where
  | names
  | info (queue : Text)
  | pending (queue : Text)
  | processing (queue : Text)
  | message (queue : Text) (id : Uuid)
  | alive (instanceId : Uuid)
  deriving DecidableEq

def Key.text (keyPrefix : Text) : Key → Text
  | .names => queueNamesKey keyPrefix
  | .info queue => (QueueKeys.new keyPrefix queue).info
  | .pending queue => (QueueKeys.new keyPrefix queue).pending
  | .processing queue => (QueueKeys.new keyPrefix queue).processing
  | .message queue id => (QueueKeys.new keyPrefix queue).message id.text
  | .alive instanceId => heartbeatKey keyPrefix instanceId.text

def Key.parts : Key → Option (Text × Text)
  | .names => none
  | .info queue => some (queue, "meta")
  | .pending queue => some (queue, "pending")
  | .processing queue => some (queue, "processing")
  | .message queue id => some (queue ++ ":msg", id.text)
  | .alive instanceId => some ("instance:" ++ instanceId.text, "alive")

theorem Key.parts_injective {first second : Key} (same : first.parts = second.parts) : first = second := by
  have short : ∀ (id : Uuid) (word : Text), word.length < 36 → word ≠ id.text := by
    rintro id word less rfl
    exact absurd id.shape.1 (Nat.ne_of_lt less)
  cases first <;> cases second <;> simp_all [Key.parts, Ne.symm]

theorem Key.colon_not_mem {key : Key} {stem tail : Text} (parts : key.parts = some (stem, tail)) : ':' ∉ tail := by
  cases key with
  | names => simp [Key.parts] at parts
  | message queue id =>
    obtain ⟨-, rfl⟩ : queue ++ ":msg" = stem ∧ id.text = tail := by simpa [Key.parts] using parts
    exact id.colon_not_mem
  | _ =>
    simp only [Key.parts, Option.some.injEq, Prod.mk.injEq] at parts
    rw [← parts.2]
    decide

theorem Key.text_eq (keyPrefix : Text) (key : Key) : key.text keyPrefix = queueKeyPrefix keyPrefix ++
    match key.parts with
    | none => "names"
    | some (stem, tail) => stem ++ ':' :: tail := by
  cases key <;>
    simp [Key.text, Key.parts, queueNamesKey, QueueKeys.new, QueueKeys.at, QueueKeys.message, heartbeatKey, aliveKey,
      instanceKeyPrefix]

theorem Key.text_injective (keyPrefix : Text) {first second : Key}
    (same : first.text keyPrefix = second.text keyPrefix) : first = second := by
  rw [Key.text_eq, Key.text_eq, append_cancel_left_eq] at same
  refine Key.parts_injective ?_
  rcases partsFirst : first.parts with _ | ⟨stem, tail⟩ <;> rcases partsSecond : second.parts with _ | ⟨stem', tail'⟩ <;>
    simp only [partsFirst, partsSecond] at same
  · rfl
  · exact absurd (show ':' ∈ "names".toList by rw [same]; simp) (by decide)
  · exact absurd (show ':' ∈ "names".toList by rw [← same]; simp) (by decide)
  · obtain ⟨rfl, rfl⟩ := Text.cut_last (Key.colon_not_mem partsFirst) (Key.colon_not_mem partsSecond) same
    rfl

-- A member of a processing set.
structure Claim where
  id : Uuid
  instanceId : Uuid
  since : Nat
  deriving DecidableEq

def Claim.member (claim : Claim) : Text := claim.id.text ++ '|' :: claim.instanceId.text

def Claim.entry (claim : Claim) : Text × Nat := (claim.member, claim.since)

structure QueueView where
  names : List Text
  info : Text → List (Text × Text)
  pending : Text → List Uuid
  processing : Text → List Claim
  payload : Text → Uuid → Option Text
  alive : Uuid → Bool

theorem splitMember_member (claim : Claim) :
    splitMember claim.member = some (claim.id.text, claim.instanceId.text) := by
  have plain : ∀ char ∈ claim.id.text, decide (char ≠ '|') = true := by
    intro char member
    exact decide_eq_true fun bar => claim.id.bar_not_mem (bar ▸ member)
  rw [splitMember, if_pos (by simp [Claim.member]), Claim.member, takeWhile_append_of_pos plain,
    dropWhile_append_of_pos plain]
  simp

theorem take_member (claim : Claim) (messageId : Text) :
    claim.member.take (messageId.length + 1) = messageId ++ ['|'] ↔ claim.id.text = messageId := by
  constructor
  · intro starts
    have whole : messageId ++ '|' :: claim.member.drop (messageId.length + 1) = claim.member := by
      conv_rhs => rw [← take_append_drop (messageId.length + 1) claim.member, starts]
      simp
    have cut := (append_cons_inj_of_notMem claim.id.bar_not_mem claim.instanceId.bar_not_mem).mp whole.symm
    exact cut.1
  · rintro rfl
    simp [Claim.member, take_append, take_of_length_le]

theorem Claim.member_inj {first second : Claim} :
    first.member = second.member ↔ first.id = second.id ∧ first.instanceId = second.instanceId := by
  constructor
  · intro same
    have split := congrArg splitMember same
    simpa [splitMember_member] using split
  · rintro ⟨sameId, sameInstance⟩
    rw [Claim.member, Claim.member, sameId, sameInstance]

namespace QueueView

def value (view : QueueView) : Key → Option Value
  | .names => setValue view.names
  | .info queue => hashValue (view.info queue)
  | .pending queue => listValue ((view.pending queue).map Uuid.text)
  | .processing queue => sortedSetValue ((view.processing queue).map Claim.entry)
  | .message queue id => (view.payload queue id).map .string
  | .alive instanceId => if view.alive instanceId then some (.string ['1']) else none

def empty : QueueView := ⟨[], fun _ => [], fun _ => [], fun _ => [], fun _ _ => none, fun _ => false⟩

section

variable (view : QueueView)

def withNames (names : List Text) : QueueView := { view with names := names }

def withInfo (queue : Text) (fields : List (Text × Text)) : QueueView :=
  { view with info := Function.update view.info queue fields }

def withPending (queue : Text) (ids : List Uuid) : QueueView :=
  { view with pending := Function.update view.pending queue ids }

def withProcessing (queue : Text) (claims : List Claim) : QueueView :=
  { view with processing := Function.update view.processing queue claims }

def withPayload (queue : Text) (id : Uuid) (payload : Option Text) : QueueView :=
  { view with payload := Function.update view.payload queue (Function.update (view.payload queue) id payload) }

def withAlive (instanceId : Uuid) (alive : Bool) : QueueView :=
  { view with alive := Function.update view.alive instanceId alive }

def ids (queue : Text) : List Uuid :=
  view.pending queue ++ (view.processing queue).map Claim.id

def forget (queue : Text) (ids : List Uuid) : QueueView :=
  ids.foldl (fun view id => view.withPayload queue id none) view

end

section

variable (view : QueueView) (queue : Text) (ids : List Uuid)

include view queue ids

theorem forget_frame :
    (view.forget queue ids).names = view.names ∧ (view.forget queue ids).info = view.info ∧
      (view.forget queue ids).pending = view.pending ∧ (view.forget queue ids).processing = view.processing := by
  induction ids generalizing view with
  | nil => exact ⟨rfl, rfl, rfl, rfl⟩
  | cons id rest ih => exact ih _

@[simp] theorem forget_pending :
    (view.forget queue ids).pending = view.pending := (view.forget_frame queue ids).2.2.1

@[simp] theorem forget_processing :
    (view.forget queue ids).processing = view.processing := (view.forget_frame queue ids).2.2.2

theorem forget_payload (other : Text) (id : Uuid) :
    (view.forget queue ids).payload other id = if other = queue ∧ id ∈ ids then none else view.payload other id := by
  induction ids generalizing view with
  | nil => simp [forget]
  | cons first rest ih =>
    have next : (view.forget queue (first :: rest)).payload other id =
        ((view.withPayload queue first none).forget queue rest).payload other id := rfl
    rw [next, ih, withPayload]
    by_cases same : other = queue
    · subst same
      by_cases here : id = first <;> by_cases later : id ∈ rest <;> simp [here, later]
    · simp [same]

end

def emptied (view : QueueView) (queue : Text) : QueueView :=
  ((view.forget queue (view.ids queue)).withPending queue []).withProcessing queue []

def dropQueue (view : QueueView) (queue : Text) : QueueView :=
  ((((view.forget queue (view.ids queue)).withInfo queue []).withPending queue []).withProcessing queue []).withNames
    (view.names.filter (· ≠ queue))

def insertClaim (claim : Claim) (claims : List Claim) : List Claim :=
  (claims.filter fun other => other.member ≠ claim.member).orderedInsert
    (fun first second => Precedes first.entry second.entry) claim

def withoutClaim (view : QueueView) (queue : Text) (claim : Claim) : QueueView :=
  view.withProcessing queue ((view.processing queue).filter fun other => other.member ≠ claim.member)

def recoverClaim (queue : Text) (view : QueueView) (claim : Claim) : QueueView :=
  if view.alive claim.instanceId then view
  else (view.withoutClaim queue claim).withPending queue (view.pending queue ++ [claim.id])

def payloads (view : QueueView) (queue : Text) : List Uuid → Except Error (List Text)
  | [] => .ok []
  | id :: rest =>
    match view.payload queue id with
    | none => .error (payloadMissing id.text)
    | some payload => (view.payloads queue rest).map (payload :: ·)

def step : QueueOp → QueueView → Except Error ScriptValue × QueueView
  | .sismember queue, view => (.ok (.integer (if queue ∈ view.names then 1 else 0)), view)
  | .smembers, view => (.ok (.array view.names), view)
  | .createQueue queue now, view =>
    if queue ∈ view.names then (.ok (.integer 0), view)
    else (.ok (.integer 1), (view.withNames (view.names ++ [queue])).withInfo queue
      (mergeFields (view.info queue) [("created_at", now), ("last_updated", now)]))
  | .removeQueue name, view =>
    (.ok (.integer (view.names.countP (Below name))), (view.names.filter (Below name)).foldl dropQueue view)
  | .enqueue queue id payload now, view =>
    if queue ∈ view.names then
      (.ok (.integer 1), ((view.withPayload queue id (some payload)).withPending queue (view.pending queue ++ [id])).withInfo
        queue (mergeFields (view.info queue) [("last_updated", now)]))
    else (.ok (.integer 0), view)
  | .dequeue queue instanceId now, view =>
    match view.pending queue with
    | [] => (.ok .null, view)
    | id :: rest =>
      match view.payload queue id with
      | none => (.error (payloadMissing id.text), view)
      | some payload => (.ok (.array [id.text, payload]),
          (view.withPending queue rest).withProcessing queue (insertClaim ⟨id, instanceId, now⟩ (view.processing queue)))
  | .peek queue, view =>
    match view.pending queue with
    | [] => (.ok .null, view)
    | id :: _ =>
      match view.payload queue id with
      | none => (.error (payloadMissing id.text), view)
      | some payload => (.ok (.bytes payload), view)
  | .listUnacked queue, view => ((view.payloads queue (view.ids queue)).map .array, view)
  | .ack queue messageId, view =>
    match (view.processing queue).find? fun claim => claim.id.text = messageId with
    | none => (.ok (.integer 0), view)
    | some claim => (.ok (.integer 1), (view.withoutClaim queue claim).withPayload queue claim.id none)
  | .clear queue, view => (.ok (.integer (view.ids queue).length), view.emptied queue)
  | .recoverStale queue, view =>
    (.ok (.integer ((view.processing queue).countP fun claim => !view.alive claim.instanceId)),
      (view.processing queue).foldl (recoverClaim queue) view)
  | .heartbeat instanceId, view => (.ok .null, view.withAlive instanceId true)
  | .heartbeatGone instanceId, view => (.ok .null, view.withAlive instanceId false)

end QueueView

-- The keyspace holds what the record says.
def Shows (keyPrefix : Text) (keyspace : Keyspace) (view : QueueView) : Prop :=
  ∀ key : Key, keyspace (key.text keyPrefix) = view.value key

section Writes

variable {keyPrefix : Text} {keyspace : Keyspace} {view : QueueView}

theorem Shows.write (shows : Shows keyPrefix keyspace view) (after : QueueView) (key : Key) {value : Option Value}
    (here : after.value key = value) (others : ∀ other, other ≠ key → after.value other = view.value other) :
    Shows keyPrefix (Function.update keyspace (key.text keyPrefix) value) after := by
  intro other
  by_cases same : other = key
  · rw [same, Function.update_self, here]
  · rw [Function.update_of_ne (fun text => same (Key.text_injective keyPrefix text)), others other same]
    exact shows other

section

variable (shows : Shows keyPrefix keyspace view)

include shows

theorem Shows.withNames (names : List Text) :
    Shows keyPrefix (Function.update keyspace (Key.names.text keyPrefix) (setValue names)) (view.withNames names) := by
  refine shows.write _ .names rfl fun other different => ?_
  cases other <;> first | rfl | exact absurd rfl different

theorem Shows.withInfo (queue : Text) (fields : List (Text × Text)) :
    Shows keyPrefix (Function.update keyspace ((Key.info queue).text keyPrefix) (hashValue fields))
      (view.withInfo queue fields) := by
  refine shows.write _ (.info queue) (by simp [QueueView.value, QueueView.withInfo]) fun other different => ?_
  cases other with
  | info other =>
    have apart : other ≠ queue := fun same => different (by rw [same])
    simp [QueueView.value, QueueView.withInfo, apart]
  | _ => rfl

theorem Shows.withPending (queue : Text) (ids : List Uuid) :
    Shows keyPrefix (Function.update keyspace ((Key.pending queue).text keyPrefix) (listValue (ids.map Uuid.text)))
      (view.withPending queue ids) := by
  refine shows.write _ (.pending queue) (by simp [QueueView.value, QueueView.withPending]) fun other different => ?_
  cases other with
  | pending other =>
    have apart : other ≠ queue := fun same => different (by rw [same])
    simp [QueueView.value, QueueView.withPending, apart]
  | _ => rfl

theorem Shows.withProcessing (queue : Text) (claims : List Claim) :
    Shows keyPrefix
      (Function.update keyspace ((Key.processing queue).text keyPrefix) (sortedSetValue (claims.map Claim.entry)))
      (view.withProcessing queue claims) := by
  refine shows.write _ (.processing queue) (by simp [QueueView.value, QueueView.withProcessing]) fun other different => ?_
  cases other with
  | processing other =>
    have apart : other ≠ queue := fun same => different (by rw [same])
    simp [QueueView.value, QueueView.withProcessing, apart]
  | _ => rfl

theorem Shows.withPayload (queue : Text) (id : Uuid) (payload : Option Text) :
    Shows keyPrefix (Function.update keyspace ((Key.message queue id).text keyPrefix) (payload.map .string))
      (view.withPayload queue id payload) := by
  refine shows.write _ (.message queue id) (by simp [QueueView.value, QueueView.withPayload]) fun other different => ?_
  cases other with
  | message other otherId =>
    by_cases sameQueue : other = queue
    · subst sameQueue
      have apart : otherId ≠ id := fun same => different (by rw [same])
      simp [QueueView.value, QueueView.withPayload, apart]
    · simp [QueueView.value, QueueView.withPayload, sameQueue]
  | _ => rfl

theorem Shows.withAlive (instanceId : Uuid) (alive : Bool) :
    Shows keyPrefix (Function.update keyspace ((Key.alive instanceId).text keyPrefix)
      (if alive then some (.string ['1']) else none)) (view.withAlive instanceId alive) := by
  refine shows.write _ (.alive instanceId) (by simp [QueueView.value, QueueView.withAlive]) fun other different => ?_
  cases other with
  | alive other =>
    have apart : other ≠ instanceId := fun same => different (by rw [same])
    simp [QueueView.value, QueueView.withAlive, apart]
  | _ => rfl

end

end Writes

def RunsTo {α : Type} (keyPrefix : Text) (script : Script α) (before : Keyspace) (value : α) (view : QueueView) : Prop :=
  ∃ after, Runs script before value after ∧ Shows keyPrefix after view

section Simulation

variable {α β : Type} {keyPrefix : Text} {keyspace : Keyspace} {view : QueueView}

theorem RunsTo.bind {script : Script α} {value : α} {next : α → Script β} {result : β} {middle : QueueView}
    (runs : RunsTo keyPrefix script keyspace value middle)
    (rest : ∀ between, Shows keyPrefix between middle → RunsTo keyPrefix (next value) between result view) :
    RunsTo keyPrefix (script >>= next) keyspace result view := by
  obtain ⟨between, first, shown⟩ := runs
  obtain ⟨after, second, shownAfter⟩ := rest between shown
  exact ⟨after, first.bind second, shownAfter⟩

theorem RunsTo.pure (shows : Shows keyPrefix keyspace view) (value : α) :
    RunsTo keyPrefix (pure value) keyspace value view :=
  ⟨keyspace, .pure value, shows⟩

theorem RunsTo.reads {script : Script α} {value : α} (runs : Runs script keyspace value keyspace)
    (shows : Shows keyPrefix keyspace view) : RunsTo keyPrefix script keyspace value view :=
  ⟨keyspace, runs, shows⟩

theorem RunsTo.deletePayloads (shows : Shows keyPrefix keyspace view) (queue : Text) (ids : List Uuid) :
    RunsTo keyPrefix (deletePayloads (QueueKeys.new keyPrefix queue).messagePrefix (ids.map Uuid.text)) keyspace ()
      (view.forget queue ids) := by
  induction ids generalizing keyspace view with
  | nil => exact .pure shows ()
  | cons id rest ih =>
    refine RunsTo.bind ⟨_, runs_write none, shows.withPayload queue id none⟩ fun between shown => ?_
    exact ih shown

theorem filterMap_members (claims : List Claim) :
    ((claims.map Claim.member).filterMap splitMember).map Prod.fst = (claims.map Claim.id).map Uuid.text := by
  simp [filterMap_map, Function.comp_def, splitMember_member]

section

variable (shows : Shows keyPrefix keyspace view) (queue : Text)

include shows queue

theorem Shows.runs_zrange :
    Runs (zrange (QueueKeys.new keyPrefix queue).processing) keyspace ((view.processing queue).map Claim.member)
      keyspace := by
  have runs := Redis.runs_zrange (shows (.processing queue))
  rw [map_map] at runs
  exact runs

theorem RunsTo.deleteMessages :
    RunsTo keyPrefix (deleteMessages (.new keyPrefix queue)) keyspace (view.ids queue).length
      (view.forget queue (view.ids queue)) := by
  refine .bind (.reads (runs_lrange (shows (.pending queue))) shows) fun _ shown => ?_
  refine .bind (.deletePayloads shown queue (view.pending queue)) fun _ shown => ?_
  refine .bind (.reads (shown.runs_zrange queue) shown) fun _ shown => ?_
  rw [filterMap_members, QueueView.forget_processing]
  refine .bind (.deletePayloads shown queue _) fun _ shown => ?_
  have both : (view.forget queue (view.pending queue)).forget queue ((view.processing queue).map Claim.id) =
      view.forget queue (view.ids queue) := by
    simp [QueueView.forget, QueueView.ids]
  rw [both] at shown
  have count : (view.ids queue).length =
      ((view.pending queue).map Uuid.text).length + ((view.processing queue).map Claim.member).length := by
    simp [QueueView.ids]
  rw [count]
  exact .pure shown _

theorem RunsTo.rpush (id : Uuid) :
    RunsTo keyPrefix (rpush (QueueKeys.new keyPrefix queue).pending id.text) keyspace ()
      (view.withPending queue (view.pending queue ++ [id])) := by
  refine ⟨_, runs_rpush (shows (.pending queue)) id.text, ?_⟩
  simpa using shows.withPending queue (view.pending queue ++ [id])

theorem RunsTo.zrem (claim : Claim) :
    RunsTo keyPrefix (zrem (QueueKeys.new keyPrefix queue).processing claim.member) keyspace ()
      (view.withoutClaim queue claim) := by
  refine ⟨_, runs_zrem (shows (.processing queue)) claim.member, ?_⟩
  rw [filter_map]
  exact shows.withProcessing queue _

end

theorem zinsert_entry (claim : Claim) (claims : List Claim) :
    zinsert claim.entry (claims.map Claim.entry) = (QueueView.insertClaim claim claims).map Claim.entry := by
  rw [QueueView.insertClaim, map_orderedInsert (fun first second => Precedes (Claim.entry first) (Claim.entry second))
    Precedes _ _ _ (fun _ _ => Iff.rfl) (fun _ _ => Iff.rfl), zinsert, filter_map]
  rfl

theorem RunsTo.zadd (shows : Shows keyPrefix keyspace view) (queue : Text) (claim : Claim) :
    RunsTo keyPrefix (zadd (QueueKeys.new keyPrefix queue).processing claim.since claim.member) keyspace ()
      (view.withProcessing queue (QueueView.insertClaim claim (view.processing queue))) := by
  refine ⟨_, runs_zadd (shows (.processing queue)) claim.since claim.member, ?_⟩
  have inserted := zinsert_entry claim (view.processing queue)
  rw [Claim.entry] at inserted
  rw [inserted]
  exact shows.withProcessing queue _

def Simulates (keyPrefix : Text) (op : QueueOp) : Prop :=
  ∀ keyspace view, Shows keyPrefix keyspace view →
    (exec (op.script keyPrefix) keyspace).1 = (view.step op).1 ∧
      Shows keyPrefix (exec (op.script keyPrefix) keyspace).2 (view.step op).2

theorem RunsTo.simulates {script : Script ScriptValue} {value : ScriptValue}
    (runs : RunsTo keyPrefix script keyspace value view) :
    (exec script keyspace).1 = .ok value ∧ Shows keyPrefix (exec script keyspace).2 view := by
  obtain ⟨after, run, shown⟩ := runs
  have same : exec script keyspace = (.ok value, after) := run
  rw [same]
  exact ⟨rfl, shown⟩

variable (queue : Text)

theorem simulates_clear : Simulates keyPrefix (.clear queue) := by
  intro keyspace view shows
  refine RunsTo.simulates (.bind (.deleteMessages shows queue) fun _ shown => ?_)
  refine .bind ⟨_, runs_write none, shown.withPending queue []⟩ fun _ shown => ?_
  exact .bind ⟨_, runs_write none, shown.withProcessing queue []⟩ fun _ shown => .pure shown _

theorem simulates_sismember : Simulates keyPrefix (.sismember queue) := by
  intro keyspace view shows
  have runs : RunsTo keyPrefix (QueueOp.script keyPrefix (.sismember queue)) keyspace
      (.integer (if decide (queue ∈ view.names) then 1 else 0)) view :=
    .bind (.reads (runs_sismember (shows .names) queue) shows) fun _ shown => .pure shown _
  simpa [QueueView.step] using runs.simulates

theorem simulates_smembers : Simulates keyPrefix .smembers := by
  intro keyspace view shows
  have runs : RunsTo keyPrefix (QueueOp.script keyPrefix .smembers) keyspace (.array view.names) view :=
    .bind (.reads (runs_smembers (shows .names)) shows) fun _ shown => .pure shown _
  exact runs.simulates

theorem simulates_heartbeat (instanceId : Uuid) : Simulates keyPrefix (.heartbeat instanceId) := by
  intro keyspace view shows
  have runs : RunsTo keyPrefix (QueueOp.script keyPrefix (.heartbeat instanceId)) keyspace .null
      (view.withAlive instanceId true) :=
    .bind ⟨_, runs_write _, shows.withAlive instanceId true⟩ fun _ shown => .pure shown _
  exact runs.simulates

theorem simulates_heartbeatGone (instanceId : Uuid) : Simulates keyPrefix (.heartbeatGone instanceId) := by
  intro keyspace view shows
  have runs : RunsTo keyPrefix (QueueOp.script keyPrefix (.heartbeatGone instanceId)) keyspace .null
      (view.withAlive instanceId false) :=
    .bind ⟨_, runs_write _, shows.withAlive instanceId false⟩ fun _ shown => .pure shown _
  exact runs.simulates

theorem simulates_createQueue (queue now : Text) : Simulates keyPrefix (.createQueue queue now) := by
  intro keyspace view shows
  by_cases old : queue ∈ view.names
  · rw [QueueView.step, if_pos old]
    have runs : RunsTo keyPrefix (QueueOp.script keyPrefix (.createQueue queue now)) keyspace (.integer 0) view :=
      .bind (.reads (runs_sadd_old (shows .names) old) shows) fun _ shown => .pure shown _
    exact runs.simulates
  · rw [QueueView.step, if_neg old]
    refine RunsTo.simulates (.bind ⟨_, runs_sadd_new (shows .names) old, shows.withNames _⟩ fun _ shown => ?_)
    exact .bind ⟨_, runs_hset (shown (.info queue)) _, shown.withInfo queue _⟩ fun _ shown => .pure shown _

theorem simulates_enqueue (id : Uuid) (payload now : Text) :
    Simulates keyPrefix (.enqueue queue id payload now) := by
  intro keyspace view shows
  by_cases known : queue ∈ view.names
  · rw [QueueView.step, if_pos known]
    have found := runs_sismember (shows .names) queue
    rw [decide_eq_true known] at found
    refine RunsTo.simulates (.bind (.reads found shows) fun _ shown => ?_)
    refine .bind ⟨_, runs_write _, shown.withPayload queue id (some payload)⟩ fun _ shown => ?_
    refine .bind (.rpush shown queue id) fun _ shown => ?_
    exact .bind ⟨_, runs_hset (shown (.info queue)) _, shown.withInfo queue _⟩ fun _ shown => .pure shown _
  · rw [QueueView.step, if_neg known]
    have found := runs_sismember (shows .names) queue
    rw [decide_eq_false known] at found
    exact RunsTo.simulates (.bind (.reads found shows) fun _ shown => .pure shown _)

theorem Shows.runs_get (shows : Shows keyPrefix keyspace view) (queue : Text) (id : Uuid) :
    Runs (Redis.get ((QueueKeys.new keyPrefix queue).message id.text)) keyspace (view.payload queue id) keyspace :=
  Redis.runs_get (shows (.message queue id))

theorem withPending_back {queue : Text} {ids : List Uuid} (isPending : view.pending queue = ids) (other : List Uuid) :
    (view.withPending queue other).withPending queue ids = view := by
  simp [QueueView.withPending, ← isPending]

theorem simulates_dequeue (instanceId : Uuid) (now : Nat) :
    Simulates keyPrefix (.dequeue queue instanceId now) := by
  intro keyspace view shows
  have waiting := shows (.pending queue)
  cases isPending : view.pending queue with
  | nil =>
    rw [QueueView.value, isPending] at waiting
    simp only [QueueView.step, isPending]
    exact RunsTo.simulates (.bind (.reads (runs_lpop_nil waiting) shows) fun _ shown => .pure shown _)
  | cons id rest =>
    rw [QueueView.value, isPending] at waiting
    have popped := runs_lpop_cons waiting
    have shown := shows.withPending queue rest
    cases isPayload : view.payload queue id with
    | some payload =>
      simp only [QueueView.step, isPending, isPayload]
      refine RunsTo.simulates (.bind ⟨_, popped, shown⟩ fun _ shown => ?_)
      have read := shown.runs_get queue id
      rw [show (view.withPending queue rest).payload queue id = some payload from isPayload] at read
      exact .bind (.reads read shown) fun _ shown =>
        .bind (.zadd shown queue ⟨id, instanceId, now⟩) fun _ shown => .pure shown _
    | none =>
      -- the id goes back to where it was
      simp only [QueueView.step, isPending, isPayload]
      have read := shown.runs_get queue id
      rw [show (view.withPending queue rest).payload queue id = none from isPayload] at read
      have waitingRest := shown (.pending queue)
      rw [show (view.withPending queue rest).value (.pending queue) = listValue (rest.map Uuid.text) by
        simp [QueueView.value, QueueView.withPending]] at waitingRest
      have back := shown.withPending queue (id :: rest)
      rw [withPending_back isPending] at back
      have runs : exec (QueueOp.script keyPrefix (.dequeue queue instanceId now)) keyspace =
          (.error (payloadMissing id.text), _) :=
        (exec_bind popped _).trans ((exec_bind read _).trans (exec_bind (runs_lpush waitingRest id.text) _))
      rw [runs]
      exact ⟨rfl, back⟩

theorem simulates_peek : Simulates keyPrefix (.peek queue) := by
  intro keyspace view shows
  have first := runs_lindexFirst (shows (.pending queue))
  cases isPending : view.pending queue with
  | nil =>
    rw [isPending] at first
    simp only [QueueView.step, isPending]
    exact RunsTo.simulates (.bind (.reads first shows) fun _ shown => .pure shown _)
  | cons id rest =>
    rw [isPending] at first
    have read := shows.runs_get queue id
    cases isPayload : view.payload queue id with
    | some payload =>
      rw [isPayload] at read
      simp only [QueueView.step, isPending, isPayload]
      have runs : RunsTo keyPrefix (QueueOp.script keyPrefix (.peek queue)) keyspace (.bytes payload) view :=
        ⟨keyspace, first.bind (read.bind (.pure _)), shows⟩
      exact runs.simulates
    | none =>
      rw [isPayload] at read
      simp only [QueueView.step, isPending, isPayload]
      have runs : exec (QueueOp.script keyPrefix (.peek queue)) keyspace = (.error (payloadMissing id.text), keyspace) :=
        (exec_bind first _).trans (exec_bind read _)
      rw [runs]
      exact ⟨rfl, shows⟩

theorem exec_readPayloads (shows : Shows keyPrefix keyspace view) (queue : Text) (ids : List Uuid) :
    exec (readPayloads (.new keyPrefix queue) (ids.map Uuid.text)) keyspace = (view.payloads queue ids, keyspace) := by
  induction ids with
  | nil => rfl
  | cons id rest ih =>
    have read := shows.runs_get queue id
    rw [map_cons, readPayloads, QueueView.payloads, exec_bind read]
    cases view.payload queue id with
    | none => rfl
    | some payload =>
      cases others : view.payloads queue rest with
      | error error =>
        rw [others] at ih
        exact exec_bind_error ih _
      | ok payloads =>
        rw [others] at ih
        exact exec_bind ih _

theorem payloads_append (first second : List Uuid) :
    view.payloads queue (first ++ second) =
      (view.payloads queue first).bind fun left => (view.payloads queue second).map (left ++ ·) := by
  induction first with
  | nil => cases h : view.payloads queue second <;> simp [QueueView.payloads, Except.bind, Except.map, h]
  | cons id rest ih =>
    rw [cons_append, QueueView.payloads, QueueView.payloads, ih]
    cases view.payload queue id with
    | none => rfl
    | some payload =>
      cases view.payloads queue rest with
      | error error => rfl
      | ok left => cases view.payloads queue second <;> rfl

theorem simulates_listUnacked : Simulates keyPrefix (.listUnacked queue) := by
  intro keyspace view shows
  have readPending := exec_readPayloads shows queue (view.pending queue)
  have readProcessing := exec_readPayloads shows queue ((view.processing queue).map Claim.id)
  have claimed := shows.runs_zrange queue
  rw [← filterMap_members] at readProcessing
  have runs : exec (QueueOp.script keyPrefix (.listUnacked queue)) keyspace =
      ((view.payloads queue (view.ids queue)).map .array, keyspace) := by
    rw [QueueView.ids, payloads_append]
    refine (exec_bind (runs_lrange (shows (.pending queue))) _).trans ?_
    cases isPending : view.payloads queue (view.pending queue) with
    | error error =>
      rw [isPending] at readPending
      exact exec_bind_error readPending _
    | ok left =>
      rw [isPending] at readPending
      refine (exec_bind readPending _).trans ((exec_bind claimed _).trans ?_)
      cases isProcessing : view.payloads queue ((view.processing queue).map Claim.id) with
      | error error =>
        rw [isProcessing] at readProcessing
        exact exec_bind_error readProcessing _
      | ok right =>
        rw [isProcessing] at readProcessing
        exact exec_bind readProcessing _
  rw [runs]
  exact ⟨rfl, shows⟩

theorem find_member (claims : List Claim) (messageId : Text) :
    (claims.map Claim.member).find? (fun member => decide (member.take (messageId.length + 1) = messageId ++ ['|'])) =
      (claims.find? fun claim => claim.id.text = messageId).map Claim.member := by
  rw [find?_map]
  simp only [Function.comp_def, take_member]

theorem simulates_ack (queue messageId : Text) : Simulates keyPrefix (.ack queue messageId) := by
  intro keyspace view shows
  have same : exec (QueueOp.script keyPrefix (.ack queue messageId)) keyspace =
      exec (ackMember (.new keyPrefix queue) messageId
        (((view.processing queue).find? fun claim => claim.id.text = messageId).map Claim.member)) keyspace := by
    rw [← find_member]
    exact exec_bind (shows.runs_zrange queue) _
  rw [same]
  cases found : (view.processing queue).find? fun claim => claim.id.text = messageId with
  | none =>
    simp only [QueueView.step, found, Option.map_none]
    exact ⟨rfl, shows⟩
  | some claim =>
    obtain rfl : claim.id.text = messageId := by simpa using find?_some found
    simp only [QueueView.step, found, Option.map_some]
    refine RunsTo.simulates (.bind (.zrem shows queue claim) fun _ shown => ?_)
    exact .bind ⟨_, runs_write none, shown.withPayload queue claim.id none⟩ fun _ shown => .pure shown _

theorem Shows.runs_alive (shows : Shows keyPrefix keyspace view) (instanceId : Uuid) :
    Runs (existsKey (aliveKey (instanceKeyPrefix keyPrefix) instanceId.text)) keyspace (view.alive instanceId) keyspace := by
  have runs : Runs (existsKey ((Key.alive instanceId).text keyPrefix)) keyspace _ keyspace := runs_existsKey
  rw [shows (.alive instanceId)] at runs
  have same : (view.value (.alive instanceId)).isSome = view.alive instanceId := by
    cases isAlive : view.alive instanceId <;> simp [QueueView.value, isAlive]
  rwa [same] at runs

theorem RunsTo.recoverMembers (shows : Shows keyPrefix keyspace view) (queue : Text) (claims : List Claim)
    (recovered : Nat) :
    RunsTo keyPrefix (recoverMembers (.new keyPrefix queue) (instanceKeyPrefix keyPrefix) (claims.map Claim.member) recovered)
      keyspace (recovered + claims.countP fun claim => !view.alive claim.instanceId)
      (claims.foldl (QueueView.recoverClaim queue) view) := by
  induction claims generalizing keyspace view recovered with
  | nil => exact .pure shows _
  | cons claim rest ih =>
    have alive := shows.runs_alive claim.instanceId
    rw [map_cons, QueueFs.recoverMembers, splitMember_member, foldl_cons, QueueView.recoverClaim, countP_cons]
    cases isAlive : view.alive claim.instanceId with
    | true =>
      rw [isAlive] at alive
      exact .bind (.reads alive shows) fun _ shown => ih shown recovered
    | false =>
      rw [isAlive] at alive
      refine .bind (.reads alive shows) fun _ shown => .bind (.zrem shown queue claim) fun _ shown => ?_
      refine .bind (.rpush shown queue claim.id) fun _ shown => ?_
      have total : recovered + (rest.countP (fun claim => !view.alive claim.instanceId) + 1) =
          recovered + 1 + rest.countP fun claim => !view.alive claim.instanceId := by
        omega
      simp only [Bool.not_false, if_true, Bool.false_eq_true, if_false, total]
      exact ih shown (recovered + 1)

theorem simulates_recoverStale : Simulates keyPrefix (.recoverStale queue) := by
  intro keyspace view shows
  refine RunsTo.simulates (.bind (.reads (shows.runs_zrange queue) shows) fun _ shown => ?_)
  have runs := RunsTo.recoverMembers shown queue (view.processing queue) 0
  rw [Nat.zero_add] at runs
  exact .bind runs fun _ shown => .pure shown _

theorem RunsTo.removeQueues (shows : Shows keyPrefix keyspace view) (name : Text) (queues : List Text) (removed : Nat) :
    RunsTo keyPrefix (removeQueues (queueNamesKey keyPrefix) name (queueKeyPrefix keyPrefix) queues removed) keyspace
      (removed + queues.countP (Below name)) ((queues.filter (Below name)).foldl QueueView.dropQueue view) := by
  induction queues generalizing keyspace view removed with
  | nil => exact .pure shows _
  | cons queue rest ih =>
    rw [QueueFs.removeQueues, countP_cons]
    by_cases below : Below name queue
    · rw [if_pos below, filter_cons_of_pos (by simpa using below), foldl_cons, if_pos (by simpa using below),
        ← Nat.add_assoc, Nat.add_right_comm]
      refine .bind (.deleteMessages shows queue) fun _ shown => ?_
      refine .bind ⟨_, runs_write none, shown.withInfo queue []⟩ fun _ shown => ?_
      refine .bind ⟨_, runs_write none, shown.withPending queue []⟩ fun _ shown => ?_
      refine .bind ⟨_, runs_write none, shown.withProcessing queue []⟩ fun _ shown => ?_
      refine .bind ⟨_, runs_srem (shown .names) queue, shown.withNames _⟩ fun _ shown => ?_
      rw [QueueView.dropQueue, ← (view.forget_frame queue (view.ids queue)).1]
      exact ih shown (removed + 1)
    · rw [if_neg below, filter_cons_of_neg (by simpa using below), if_neg (by simpa using below)]
      exact ih shows removed

theorem simulates_removeQueue : Simulates keyPrefix (.removeQueue queue) := by
  intro keyspace view shows
  refine RunsTo.simulates (.bind (.reads (runs_smembers (shows .names)) shows) fun _ shown => ?_)
  have runs := RunsTo.removeQueues shown queue view.names 0
  rw [Nat.zero_add] at runs
  exact .bind runs fun _ shown => .pure shown _

theorem simulates (op : QueueOp) : Simulates keyPrefix op := by
  cases op with
  | sismember queue => exact simulates_sismember queue
  | smembers => exact simulates_smembers
  | createQueue queue now => exact simulates_createQueue queue now
  | removeQueue queue => exact simulates_removeQueue queue
  | enqueue queue id payload now => exact simulates_enqueue queue id payload now
  | dequeue queue instanceId now => exact simulates_dequeue queue instanceId now
  | peek queue => exact simulates_peek queue
  | listUnacked queue => exact simulates_listUnacked queue
  | ack queue messageId => exact simulates_ack queue messageId
  | clear queue => exact simulates_clear queue
  | recoverStale queue => exact simulates_recoverStale queue
  | heartbeat instanceId => exact simulates_heartbeat instanceId
  | heartbeatGone instanceId => exact simulates_heartbeatGone instanceId

end Simulation

end LoginomDock.QueueFs
