import LoginomDock.Library.Interleave
import LoginomDock.Library.Redis

/-! The Lua scripts of the queue file system and the methods that call them. A script is executed as one step. -/

namespace LoginomDock.QueueFs

open Redis

/-- What `Uuid::new_v4().to_string()` returns. -/
structure Uuid where
  text : Text
  shape : text.length = 36 ∧ ∀ char ∈ text, char = '-' ∨ char.isDigit ∨ ('a' ≤ char ∧ char ≤ 'f')
  deriving DecidableEq

theorem Uuid.shape_of_all {text : Text}
    (all : (text.length = 36 && text.all fun char => char = '-' ∨ char.isDigit ∨ ('a' ≤ char ∧ char ≤ 'f')) = true) :
    text.length = 36 ∧ ∀ char ∈ text, char = '-' ∨ char.isDigit ∨ ('a' ≤ char ∧ char ≤ 'f') := by
  rw [Bool.and_eq_true, decide_eq_true_iff, List.all_eq_true] at all
  exact ⟨all.1, fun char member => of_decide_eq_true (all.2 char member)⟩

def queueKeyPrefix (keyPrefix : Text) : Text := '\x7b' :: keyPrefix ++ "\x7d:ov:queue:"

def queueNamesKey (keyPrefix : Text) : Text := queueKeyPrefix keyPrefix ++ "names"

def instanceKeyPrefix (keyPrefix : Text) : Text := queueKeyPrefix keyPrefix ++ "instance:"

def aliveKey (instances instanceId : Text) : Text := instances ++ instanceId ++ ":alive"

def heartbeatKey (keyPrefix instanceId : Text) : Text := aliveKey (instanceKeyPrefix keyPrefix) instanceId

structure QueueKeys where
  info : Text
  pending : Text
  processing : Text
  messagePrefix : Text

def QueueKeys.at (queuePrefix : Text) : QueueKeys where
  info := queuePrefix ++ ":meta"
  pending := queuePrefix ++ ":pending"
  processing := queuePrefix ++ ":processing"
  messagePrefix := queuePrefix ++ ":msg:"

def QueueKeys.new (keyPrefix queue : Text) : QueueKeys := .at (queueKeyPrefix keyPrefix ++ queue)

def QueueKeys.message (keys : QueueKeys) (messageId : Text) : Text := keys.messagePrefix ++ messageId

inductive ScriptValue where
  | null
  | integer (value : Nat)
  | bytes (value : Text)
  | array (values : List Text)
  deriving DecidableEq

def payloadMissing (id : Text) : Error := .reply ("queuefs payload missing for message " ++ id)

-- What stands before and after the first bar of a member of the processing set.
def splitMember (member : Text) : Option (Text × Text) :=
  if '|' ∈ member then some (member.takeWhile (· ≠ '|'), (member.dropWhile (· ≠ '|')).tail) else none

def createQueueScript (names info name now : Text) : Script ScriptValue := do
  if ← sadd names name then
    hset info [("created_at", now), ("last_updated", now)]
    pure (.integer 1)
  else pure (.integer 0)

def deletePayloads (messagePrefix : Text) : List Text → Script Unit
  | [] => pure ()
  | id :: rest => do
      del (messagePrefix ++ id)
      deletePayloads messagePrefix rest

def deleteMessages (keys : QueueKeys) : Script Nat := do
  let pending ← lrange keys.pending
  deletePayloads keys.messagePrefix pending
  let processing ← zrange keys.processing
  deletePayloads keys.messagePrefix ((processing.filterMap splitMember).map Prod.fst)
  pure (pending.length + processing.length)

/-- Whether a queue goes when `name` is removed. -/
def Below (name queue : Text) : Prop := queue = name ∨ queue.take (name.length + 1) = name ++ ['/']

instance (name queue : Text) : Decidable (Below name queue) := inferInstanceAs (Decidable (_ ∨ _))

def removeQueues (names name keyPrefix : Text) : List Text → Nat → Script Nat
  | [], removed => pure removed
  | queue :: rest, removed => do
      if Below name queue then
        let keys := QueueKeys.at (keyPrefix ++ queue)
        let _ ← deleteMessages keys
        del keys.info
        del keys.pending
        del keys.processing
        srem names queue
        removeQueues names name keyPrefix rest (removed + 1)
      else removeQueues names name keyPrefix rest removed

def removeQueueScript (names name keyPrefix : Text) : Script ScriptValue := do
  let queues ← smembers names
  return .integer (← removeQueues names name keyPrefix queues 0)

def enqueueScript (names : Text) (keys : QueueKeys) (name id payload now : Text) : Script ScriptValue := do
  if ← sismember names name then
    set (keys.message id) payload
    rpush keys.pending id
    hset keys.info [("last_updated", now)]
    pure (.integer 1)
  else pure (.integer 0)

def dequeueScript (keys : QueueKeys) (instanceId : Text) (now : Nat) : Script ScriptValue := do
  match ← lpop keys.pending with
  | none => pure .null
  | some id =>
    match ← get (keys.message id) with
    | none =>
      lpush keys.pending id
      throw (payloadMissing id)
    | some payload =>
      zadd keys.processing now (id ++ '|' :: instanceId)
      pure (.array [id, payload])

def peekScript (keys : QueueKeys) : Script ScriptValue := do
  match ← lindexFirst keys.pending with
  | none => pure .null
  | some id =>
    match ← get (keys.message id) with
    | none => throw (payloadMissing id)
    | some payload => pure (.bytes payload)

def readPayloads (keys : QueueKeys) : List Text → Script (List Text)
  | [] => pure []
  | id :: rest => do
      match ← get (keys.message id) with
      | none => throw (payloadMissing id)
      | some payload => return payload :: (← readPayloads keys rest)

def listUnackedScript (keys : QueueKeys) : Script ScriptValue := do
  let pending ← readPayloads keys (← lrange keys.pending)
  let processing ← readPayloads keys (((← zrange keys.processing).filterMap splitMember).map Prod.fst)
  return .array (pending ++ processing)

def ackMember (keys : QueueKeys) (id : Text) : Option Text → Script ScriptValue
  | none => pure (.integer 0)
  | some member => do
      zrem keys.processing member
      del (keys.message id)
      pure (.integer 1)

def ackScript (keys : QueueKeys) (id : Text) : Script ScriptValue := do
  let members ← zrange keys.processing
  ackMember keys id (members.find? fun member => decide (member.take (id.length + 1) = id ++ ['|']))

def clearScript (keys : QueueKeys) : Script ScriptValue := do
  let count ← deleteMessages keys
  del keys.pending
  del keys.processing
  pure (.integer count)

def recoverMembers (keys : QueueKeys) (instances : Text) : List Text → Nat → Script Nat
  | [], recovered => pure recovered
  | member :: rest, recovered => do
      match splitMember member with
      | none => recoverMembers keys instances rest recovered
      | some (id, instanceId) =>
        if ← existsKey (aliveKey instances instanceId) then recoverMembers keys instances rest recovered
        else
          zrem keys.processing member
          rpush keys.pending id
          recoverMembers keys instances rest (recovered + 1)

def recoverStaleScript (keys : QueueKeys) (instances : Text) : Script ScriptValue := do
  let members ← zrange keys.processing
  return .integer (← recoverMembers keys instances members 0)

-- A heartbeat key is set by its instance, and it goes with a shutdown or when its time is over.
inductive QueueOp where
  | sismember (queue : Text)
  | smembers
  | createQueue (queue now : Text)
  | removeQueue (queue : Text)
  | enqueue (queue : Text) (id : Uuid) (payload now : Text)
  | dequeue (queue : Text) (instanceId : Uuid) (now : Nat)
  | peek (queue : Text)
  | listUnacked (queue : Text)
  | ack (queue messageId : Text)
  | clear (queue : Text)
  | recoverStale (queue : Text)
  | heartbeat (instanceId : Uuid)
  | heartbeatGone (instanceId : Uuid)

@[reducible] def QueueOp.Res (_ : QueueOp) : Type := Except Error ScriptValue

def QueueOp.script (keyPrefix : Text) : QueueOp → Script ScriptValue
  | .sismember queue => return .integer (if ← Redis.sismember (queueNamesKey keyPrefix) queue then 1 else 0)
  | .smembers => return .array (← Redis.smembers (queueNamesKey keyPrefix))
  | .createQueue queue now =>
    createQueueScript (queueNamesKey keyPrefix) (QueueKeys.new keyPrefix queue).info queue now
  | .removeQueue queue => removeQueueScript (queueNamesKey keyPrefix) queue (queueKeyPrefix keyPrefix)
  | .enqueue queue id payload now =>
    enqueueScript (queueNamesKey keyPrefix) (.new keyPrefix queue) queue id.text payload now
  | .dequeue queue instanceId now => dequeueScript (.new keyPrefix queue) instanceId.text now
  | .peek queue => peekScript (.new keyPrefix queue)
  | .listUnacked queue => listUnackedScript (.new keyPrefix queue)
  | .ack queue messageId => ackScript (.new keyPrefix queue) messageId
  | .clear queue => clearScript (.new keyPrefix queue)
  | .recoverStale queue => recoverStaleScript (.new keyPrefix queue) (instanceKeyPrefix keyPrefix)
  | .heartbeat instanceId => do
      Redis.set (heartbeatKey keyPrefix instanceId.text) ['1']
      pure .null
  | .heartbeatGone instanceId => do
      del (heartbeatKey keyPrefix instanceId.text)
      pure .null

def queueMachine (keyPrefix : Text) : Machine QueueOp QueueOp.Res Keyspace where
  handle op := exec (op.script keyPrefix)
  enabled _ _ := True

inductive QueueError where
  | alreadyExists (queue : Text)
  | notFound (queue : Text)
  | cache (error : Error)
  | invalidResult
  deriving DecidableEq

abbrev QueueM (α : Type) := ExceptT QueueError (Prog QueueOp QueueOp.Res) α

def execute (op : QueueOp) : QueueM ScriptValue :=
  ExceptT.mk (Prog.perform op >>= fun answer => pure (answer.mapError .cache))

def integer : ScriptValue → QueueM Nat
  | .integer value => pure value
  | _ => throw .invalidResult

def createQueue (queue now : Text) : QueueM Unit := do
  let created ← integer (← execute (.createQueue queue now))
  if created = 0 then throw (.alreadyExists queue)

section

variable (queue : Text)

def removeQueue : QueueM Unit := do
  let removed ← integer (← execute (.removeQueue queue))
  if removed = 0 then throw (.notFound queue)

def requireQueue : QueueM Unit := do
  let found ← integer (← execute (.sismember queue))
  if found = 0 then throw (.notFound queue)

def enqueue (id : Uuid) (payload now : Text) : QueueM Unit := do
  let enqueued ← integer (← execute (.enqueue queue id payload now))
  if enqueued = 0 then throw (.notFound queue)

def dequeue (instanceId : Uuid) (now : Nat) : QueueM (Option Text) := do
  requireQueue queue
  match ← execute (.dequeue queue instanceId now) with
  | .null => pure none
  | .array [_, payload] => pure (some payload)
  | _ => throw .invalidResult

def peek : QueueM (Option Text) := do
  requireQueue queue
  match ← execute (.peek queue) with
  | .null => pure none
  | .bytes payload => pure (some payload)
  | _ => throw .invalidResult

def listUnacked : QueueM (List Text) := do
  requireQueue queue
  match ← execute (.listUnacked queue) with
  | .array payloads => pure payloads
  | _ => throw .invalidResult

def clear : QueueM Unit := do
  requireQueue queue
  let _ ← execute (.clear queue)

end

def ack (queue messageId : Text) : QueueM Bool := do
  requireQueue queue
  return (← integer (← execute (.ack queue messageId))) ≠ 0

def recoverQueues : List Text → Nat → QueueM Nat
  | [], recovered => pure recovered
  | queue :: rest, recovered => do
      recoverQueues rest (recovered + (← integer (← execute (.recoverStale queue))))

def recoverStale : QueueM Nat := do
  match ← execute .smembers with
  | .array queues => recoverQueues queues 0
  | _ => throw .invalidResult

end LoginomDock.QueueFs
