import LoginomDock.Library.Table
import LoginomDock.QueueFs.Delivery

namespace LoginomDock.QueueFs

open Redis

structure QueuedMessage where
  id : Uuid
  payload : Text
  deriving DecidableEq

inductive BackendCall where
  | createQueue (queue : Text) (now : Nat)
  | removeQueue (queue : Text)
  | queueExists (queue : Text)
  | listQueues (lead : Text)
  | enqueue (queue : Text) (message : QueuedMessage) (now : Nat)
  | dequeue (queue : Text) (now : Nat)
  | clear (queue : Text)
  | ack (queue messageId : Text)

inductive BackendReply where
  | done (result : Except QueueError Unit)
  | known (result : Except QueueError Bool)
  | listed (result : Except QueueError (List Text))
  | taken (result : Except QueueError (Option Text))
  | acked (result : Except QueueError Bool)

def sortedNames (names : List Text) : List Text := names.mergeSort fun first second => decide (first ≤ second)

structure MemoryQueue where
  messages : List QueuedMessage
  lastEnqueueTime : Nat
  deriving DecidableEq

def MemoryQueue.new : MemoryQueue where
  messages := []
  lastEnqueueTime := 0

structure MemoryBackend where
  queues : Table Text MemoryQueue

namespace MemoryBackend

def new : MemoryBackend where
  queues := ∅

variable (backend : MemoryBackend)

def createQueue (name : Text) : Except QueueError Unit × MemoryBackend :=
  if name ∈ backend.queues then (.error (.alreadyExists name), backend)
  else (.ok (), ⟨backend.queues.insert name .new⟩)

def removeQueue (name : Text) : Except QueueError Unit × MemoryBackend :=
  if name ∈ backend.queues then (.ok (), ⟨backend.queues.erase name⟩)
  else (.error (.notFound name), backend)

def queueExists (name : Text) : Bool := decide (name ∈ backend.queues)

-- The order of the keys of a hash map is unspecified; here it is that of the table.
def listQueues (lead : Text) : List Text :=
  if lead = [] then backend.queues.keys else backend.queues.keys.filter fun name => decide (lead <+: name)

def enqueue (queueName : Text) (message : QueuedMessage) (now : Nat) : Except QueueError Unit × MemoryBackend :=
  match backend.queues.lookup queueName with
  | none => (.error (.notFound queueName), backend)
  | some queue => (.ok (), ⟨backend.queues.insert queueName ⟨queue.messages ++ [message], now⟩⟩)

def dequeue (queueName : Text) : Except QueueError (Option Text) × MemoryBackend :=
  match backend.queues.lookup queueName with
  | none => (.error (.notFound queueName), backend)
  | some queue =>
    (.ok (queue.messages.head?.map QueuedMessage.payload),
      ⟨backend.queues.insert queueName { queue with messages := queue.messages.tail }⟩)

def clear (queueName : Text) : Except QueueError Unit × MemoryBackend :=
  match backend.queues.lookup queueName with
  | none => (.error (.notFound queueName), backend)
  | some queue => (.ok (), ⟨backend.queues.insert queueName { queue with messages := [] }⟩)

def ack (queueName messageId : Text) : Except QueueError Bool × MemoryBackend :=
  match backend.queues.lookup queueName with
  | none => (.error (.notFound queueName), backend)
  | some queue =>
    let kept := queue.messages.filter fun message => message.id.text ≠ messageId
    (.ok (kept.length ≠ queue.messages.length), ⟨backend.queues.insert queueName { queue with messages := kept }⟩)

def serve : BackendCall → MemoryBackend → BackendReply × MemoryBackend
  | .createQueue name _, backend => ((.done (backend.createQueue name).1), (backend.createQueue name).2)
  | .removeQueue name, backend => ((.done (backend.removeQueue name).1), (backend.removeQueue name).2)
  | .queueExists name, backend => (.known (.ok (backend.queueExists name)), backend)
  | .listQueues lead, backend => (.listed (.ok (backend.listQueues lead)), backend)
  | .enqueue name message now, backend => ((.done (backend.enqueue name message now).1), (backend.enqueue name message now).2)
  | .dequeue name _, backend => ((.taken (backend.dequeue name).1), (backend.dequeue name).2)
  | .clear name, backend => ((.done (backend.clear name).1), (backend.clear name).2)
  | .ack name messageId, backend => ((.acked (backend.ack name messageId).1), (backend.ack name messageId).2)

end MemoryBackend

-- What a comparison by `LIKE` takes for the same letter: case is ignored within ASCII.
def sameLetter (first second : Char) : Bool := first.toLower = second.toLower

def likeChars : Text → Text → Bool
  | [], text => text.isEmpty
  | '%' :: pattern, text => text.tails.any (likeChars pattern)
  | '_' :: _, [] => false
  | '_' :: pattern, _ :: rest => likeChars pattern rest
  | _ :: _, [] => false
  | char :: pattern, first :: rest => sameLetter char first && likeChars pattern rest

def untilZero (text : Text) : Text := text.takeWhile (· ≠ '\x00')

def like (text pattern : Text) : Bool := likeChars (untilZero pattern) (untilZero text)

structure MessageRow where
  queueName : Text
  messageId : Uuid
  data : Text
  timestamp : Nat
  processingStartedAt : Option Nat
  processing : Bool
  deriving DecidableEq

-- The names of `queue_metadata`, and the rows of `queue_messages` in the order of their ids
structure SQLiteBackend where
  metadata : List Text
  messages : List MessageRow

namespace SQLiteBackend

def new : SQLiteBackend where
  metadata := []
  messages := []

variable (backend : SQLiteBackend)

def queueKnown (queueName : Text) : Bool :=
  decide (queueName ∈ backend.metadata) || backend.messages.any fun row => decide (row.queueName = queueName)

def createQueue (name : Text) : Except QueueError Unit × SQLiteBackend :=
  if name ∈ backend.metadata then (.error (.alreadyExists name), backend)
  else (.ok (), { backend with metadata := backend.metadata ++ [name] })

def selected (name queueName : Text) : Bool := decide (queueName = name) || like queueName (name ++ ['/', '%'])

def removeQueue (name : Text) : Except QueueError Unit × SQLiteBackend :=
  let after : SQLiteBackend :=
    { messages := backend.messages.filter fun row => !selected name row.queueName
      metadata := backend.metadata.filter fun queueName => !selected name queueName }
  let deletedMessages := backend.messages.countP fun row => selected name row.queueName
  let deletedMeta := backend.metadata.countP (selected name)
  if deletedMessages = 0 ∧ deletedMeta = 0 then (.error (.notFound name), after) else (.ok (), after)

def listQueues (lead : Text) : List Text :=
  if lead = [] then sortedNames backend.metadata else sortedNames (backend.metadata.filter (selected lead))

def enqueue (queueName : Text) (message : QueuedMessage) (now : Nat) : Except QueueError Unit × SQLiteBackend :=
  if backend.queueKnown queueName then
    let row : MessageRow := ⟨queueName, message.id, message.payload, now, none, false⟩
    (.ok (), { backend with messages := backend.messages ++ [row] })
  else (.error (.notFound queueName), backend)

def takePending (queueName : Text) (now : Nat) : List MessageRow → Option (Text × List MessageRow)
  | [] => none
  | row :: rest =>
    if row.queueName = queueName ∧ row.processing = false then
      some (row.data, { row with processing := true, processingStartedAt := some now } :: rest)
    else (takePending queueName now rest).map fun found => (found.1, row :: found.2)

def dequeue (queueName : Text) (now : Nat) : Except QueueError (Option Text) × SQLiteBackend :=
  if backend.queueKnown queueName then
    match takePending queueName now backend.messages with
    | none => (.ok none, backend)
    | some (data, rows) => (.ok (some data), { backend with messages := rows })
  else (.error (.notFound queueName), backend)

def clear (queueName : Text) : Except QueueError Unit × SQLiteBackend :=
  if backend.queueKnown queueName then
    (.ok (), { backend with messages := backend.messages.filter fun row => row.queueName ≠ queueName })
  else (.error (.notFound queueName), backend)

def ack (queueName messageId : Text) : Except QueueError Bool × SQLiteBackend :=
  if backend.queueKnown queueName then
    let acked : MessageRow → Bool := fun row =>
      decide (row.queueName = queueName ∧ row.messageId.text = messageId ∧ row.processing = true)
    (.ok (decide (0 < backend.messages.countP acked)),
      { backend with messages := backend.messages.filter fun row => !acked row })
  else (.error (.notFound queueName), backend)

def serve : BackendCall → SQLiteBackend → BackendReply × SQLiteBackend
  | .createQueue name _, backend => ((.done (backend.createQueue name).1), (backend.createQueue name).2)
  | .removeQueue name, backend => ((.done (backend.removeQueue name).1), (backend.removeQueue name).2)
  | .queueExists name, backend => (.known (.ok (backend.queueKnown name)), backend)
  | .listQueues lead, backend => (.listed (.ok (backend.listQueues lead)), backend)
  | .enqueue name message now, backend => ((.done (backend.enqueue name message now).1), (backend.enqueue name message now).2)
  | .dequeue name now, backend => ((.taken (backend.dequeue name now).1), (backend.dequeue name now).2)
  | .clear name, backend => ((.done (backend.clear name).1), (backend.clear name).2)
  | .ack name messageId, backend => ((.acked (backend.ack name messageId).1), (backend.ack name messageId).2)

end SQLiteBackend

def queueExists (queue : Text) : QueueM Bool := do
  return (← integer (← execute (.sismember queue))) ≠ 0

def listQueues (lead : Text) : QueueM (List Text) := do
  match ← execute .smembers with
  | .array queues => pure (sortedNames (queues.filter fun queue => decide (lead <+: queue)))
  | _ => throw .invalidResult

structure CacheQueueStorage where
  keyPrefix : Text
  instanceId : Uuid

namespace CacheQueueStorage

open Redis

variable (storage : CacheQueueStorage)

def run {α : Type} (program : QueueM α) (keyspace : Keyspace) : Except QueueError α × Keyspace :=
  Prog.exec (queueMachine storage.keyPrefix).handle program keyspace

def secondsText (now : Nat) : Text := now.repr.toList

def serve : BackendCall → Keyspace → BackendReply × Keyspace
  | .createQueue name now, keyspace =>
    let outcome := storage.run (createQueue name (secondsText now)) keyspace
    (.done outcome.1, outcome.2)
  | .removeQueue name, keyspace =>
    let outcome := storage.run (removeQueue name) keyspace
    (.done outcome.1, outcome.2)
  | .queueExists name, keyspace =>
    let outcome := storage.run (queueExists name) keyspace
    (.known outcome.1, outcome.2)
  | .listQueues lead, keyspace =>
    let outcome := storage.run (listQueues lead) keyspace
    (.listed outcome.1, outcome.2)
  | .enqueue name message now, keyspace =>
    let outcome := storage.run (enqueue name message.id message.payload (secondsText now)) keyspace
    (.done outcome.1, outcome.2)
  | .dequeue name now, keyspace =>
    let outcome := storage.run (dequeue name storage.instanceId now) keyspace
    (.taken outcome.1, outcome.2)
  | .clear name, keyspace =>
    let outcome := storage.run (clear name) keyspace
    (.done outcome.1, outcome.2)
  | .ack name messageId, keyspace =>
    let outcome := storage.run (ack name messageId) keyspace
    (.acked outcome.1, outcome.2)

end CacheQueueStorage

def Under (lead name : Text) : Prop := name = lead ∨ lead ++ ['/'] <+: name

instance (lead name : Text) : Decidable (Under lead name) := inferInstanceAs (Decidable (_ ∨ _))

structure Backend (σ γ : Type) where
  serve : BackendCall → σ → BackendReply × σ
  names : σ → List Text
  -- what is stored of a queue
  contents : σ → Text → γ
  blank : γ

namespace Backend

variable {σ γ : Type} (backend : Backend σ γ)

def after (state : σ) (calls : List BackendCall) : σ := calls.foldl (fun state call => (backend.serve call state).2) state

def Exact : BackendCall → σ → Prop
  | .removeQueue name, state =>
    (backend.serve (.removeQueue name) state).1 =
        .done (if ∃ queue ∈ backend.names state, Under name queue then .ok () else .error (.notFound name)) ∧
      ∀ queue,
        if Under name queue then
          queue ∉ backend.names (backend.serve (.removeQueue name) state).2 ∧
            backend.contents (backend.serve (.removeQueue name) state).2 queue = backend.blank
        else
          (queue ∈ backend.names (backend.serve (.removeQueue name) state).2 ↔ queue ∈ backend.names state) ∧
            backend.contents (backend.serve (.removeQueue name) state).2 queue = backend.contents state queue
  | .listQueues lead, state =>
    ∃ listed, (backend.serve (.listQueues lead) state).1 = .listed (.ok listed) ∧ listed.Nodup ∧
      ∀ queue, queue ∈ listed ↔ queue ∈ backend.names state ∧ (lead = [] ∨ Under lead queue)
  | _, _ => True

end Backend

def memoryBackend : Backend MemoryBackend (Option MemoryQueue) where
  serve := MemoryBackend.serve
  names backend := backend.queues.keys
  contents backend queue := backend.queues.lookup queue
  blank := none

def sqliteBackend : Backend SQLiteBackend (Bool × List MessageRow) where
  serve := SQLiteBackend.serve
  names backend := backend.metadata
  contents backend queue :=
    (decide (queue ∈ backend.metadata), backend.messages.filter fun row => row.queueName = queue)
  blank := (false, [])

structure QueueKeyspace where
  info : Option Value
  pending : Option Value
  processing : Option Value
  message : Uuid → Option Value

def redisBackend (storage : CacheQueueStorage) : Backend Keyspace QueueKeyspace where
  serve := storage.serve
  names keyspace := (setContent (keyspace (queueNamesKey storage.keyPrefix))).getD []
  contents keyspace queue :=
    { info := keyspace (QueueKeys.new storage.keyPrefix queue).info
      pending := keyspace (QueueKeys.new storage.keyPrefix queue).pending
      processing := keyspace (QueueKeys.new storage.keyPrefix queue).processing
      message := fun id => keyspace ((QueueKeys.new storage.keyPrefix queue).message id.text) }
  blank := ⟨none, none, none, fun _ => none⟩

def BackendCall.aboutNames : BackendCall → Bool
  | .createQueue _ _ => true
  | .removeQueue _ => true
  | .queueExists _ => true
  | .listQueues _ => true
  | _ => false

def BackendReply.Agrees : BackendReply → BackendReply → Prop
  | .listed (.ok first), .listed (.ok second) => first.Perm second
  | first, second => first = second

def namesAfterCall (names : List Text) : BackendCall → List Text
  | .createQueue name _ => if name ∈ names then names else names ++ [name]
  | .removeQueue name => names.filter fun queue => decide (¬ Under name queue)
  | _ => names

def namesAfter (calls : List BackendCall) : List Text := calls.foldl namesAfterCall []

def Separates (names : List Text) : BackendCall → Prop
  | .removeQueue name => ∀ queue ∈ names, queue ≠ name → like queue (name ++ ['/', '%']) = false
  | .listQueues lead =>
    lead = [] ∨ ∀ queue ∈ names, lead <+: queue ∨ like queue (lead ++ ['/', '%']) = true → Under lead queue
  | _ => True

end LoginomDock.QueueFs
