import Mathlib.Algebra.GroupWithZero.Nat
import Mathlib.Data.List.Basic
import Mathlib.Logic.Function.Basic

/-! Submissions are buffered until there are enough of them or the oldest has waited long enough. -/

namespace LoginomDock.Batching

variable {T R E : Type}

-- A submission; its future goes by the ticket.
structure Item (T : Type) where
  ticket : Nat
  payload : T
  deriving DecidableEq

abbrev Outcome (R E : Type) := Except E R

/-- Who runs `flush`: a task of its own, or the `close` call itself -/
inductive Caller where
  | task (id : Nat)
  | close
  deriving DecidableEq

inductive TimerTask where
  | absent
  | sleeping
  | waiting (task : Nat)
  | cancelled
  | cancelledWaiting (task : Nat)
  | ended
  deriving DecidableEq

/-- The call of `close` that closes the batcher -/
inductive Closing where
  | notCalled
  | stoppingTimer
  | flushing
  | returned
  deriving DecidableEq

structure Config (T : Type) where
  maxItemsPerBatch : Nat
  /-- `_item_size`, which is not negative -/
  itemSize : T → Nat

structure Batcher (T R E : Type) where
  buffer : List (Item T) := []
  /-- What the futures of the submissions are set to -/
  futures : Nat → Option (Outcome R E) := fun _ => none
  closed : Bool := false
  flushLocked : Bool := false
  flushWaiters : List Caller := []
  timer : TimerTask := .absent
  /-- The tasks that run `flush` and have not started yet -/
  created : List Nat := []
  /-- The calls of `process_batch` that are under way -/
  running : List (Caller × List (Item T)) := []
  closing : Closing := .notCalled
  nextTask : Nat := 0
  /-- Everything submitted, in order -/
  submitted : List (Item T) := []
  /-- The calls of `process_batch` in the order of their starts -/
  started : List (List (Item T)) := []
  /-- The calls that have ended, in the order of their ends -/
  finished : List (List (Item T) × Outcome R E) := []
  /-- How many calls of `close` have returned -/
  closeReturns : Nat := 0

namespace Batcher

def size (config : Config T) (batcher : Batcher T R E) : Nat := (batcher.buffer.map fun item => config.itemSize item.payload).sum

section

variable (batcher : Batcher T R E)

def isLive (task : Nat) : Bool :=
  task ∈ batcher.created || .task task ∈ batcher.flushWaiters || (batcher.running.any fun call => call.1 = .task task)

def createTask : Batcher T R E :=
  { batcher with created := batcher.created ++ [batcher.nextTask], nextTask := batcher.nextTask + 1 }

/-- The caller of `flush` has its answer: a `close` returns it. -/
def flushReturns : Caller → Batcher T R E
  | .task _ => batcher
  | .close => { batcher with closing := .returned, closeReturns := batcher.closeReturns + 1 }

/-- The body of `flush` after it has the lock, up to the call of `process_batch` -/
def flushBody (caller : Caller) : Batcher T R E :=
  if batcher.buffer = [] then { batcher with flushLocked := false }.flushReturns caller
  else
    { batcher with
      flushLocked := true
      buffer := []
      running := batcher.running ++ [(caller, batcher.buffer)]
      started := batcher.started ++ [batcher.buffer] }

/-- `flush`, up to the first `await` that suspends: the lock is fair. -/
def flush (caller : Caller) : Batcher T R E :=
  if !batcher.flushLocked && batcher.flushWaiters = [] then batcher.flushBody caller
  else { batcher with flushWaiters := batcher.flushWaiters ++ [caller] }

end

/-- `set_result` or `set_exception` on the futures that are not done -/
def resolve (futures : Nat → Option (Outcome R E)) (items : List (Item T)) (outcome : Outcome R E) : Nat → Option (Outcome R E) :=
  fun ticket => if ticket ∈ items.map Item.ticket ∧ futures ticket = none then some outcome else futures ticket

/-- The rest of `flush` after `process_batch` -/
def flushEnds (batcher : Batcher T R E) (caller : Caller) (items : List (Item T)) (outcome : Outcome R E) : Batcher T R E :=
  { batcher with
    futures := resolve batcher.futures items outcome
    flushLocked := false
    running := batcher.running.filter fun call => call.1 ≠ caller
    finished := batcher.finished ++ [(items, outcome)] }.flushReturns caller

def ensureTimerTask (batcher : Batcher T R E) : Batcher T R E :=
  if batcher.timer = .absent ∨ batcher.timer = .ended then { batcher with timer := .sleeping } else batcher

/-- `submit` of an open batcher, up to the `await` on its future -/
def submit (config : Config T) (batcher : Batcher T R E) (payload : T) : Batcher T R E :=
  let item : Item T := ⟨batcher.submitted.length, payload⟩
  let batcher := batcher.ensureTimerTask
  let batcher := { batcher with buffer := batcher.buffer ++ [item], submitted := batcher.submitted ++ [item] }
  if config.maxItemsPerBatch ≤ batcher.size config then batcher.createTask else batcher

/-- `close`: a batcher that is closed already answers at once. -/
def close (batcher : Batcher T R E) : Batcher T R E :=
  if batcher.closed then { batcher with closeReturns := batcher.closeReturns + 1 }
  else
    let batcher := { batcher with closed := true }
    match batcher.timer with
    | .absent | .ended => { batcher with closing := .flushing }.flush .close
    | .waiting task => { batcher with timer := .cancelledWaiting task, closing := .stoppingTimer }
    | .cancelledWaiting task => { batcher with timer := .cancelledWaiting task, closing := .stoppingTimer }
    | .sleeping | .cancelled => { batcher with timer := .cancelled, closing := .stoppingTimer }

end Batcher

inductive Event (T R E : Type) where
  /-- A call of `submit`; it raises when the batcher is closed. -/
  | submit (payload : T)
  | close
  /-- A call of `flush` from outside -/
  | flush
  /-- A created flush task runs for the first time. -/
  | taskStarts (task : Nat)
  /-- The first waiter for the flush lock goes on. -/
  | waiterResumes
  | batchEnds (caller : Caller) (outcome : Outcome R E)
  /-- The timer has slept; `due` says whether the oldest submission has waited for long. -/
  | timerWakes (due : Bool)
  /-- The timer goes on after the flush that it waits for, or to end when it is cancelled. -/
  | timerResumes
  /-- `close` goes on after the end of the timer. -/
  | closeResumes

namespace Batcher

-- What an event leads to; nothing where it cannot happen.
def step (config : Config T) (batcher : Batcher T R E) : Event T R E → Option (Batcher T R E)
  | .submit payload => some (if batcher.closed then batcher else batcher.submit config payload)
  | .close => some batcher.close
  | .flush => some ({ batcher with nextTask := batcher.nextTask + 1 }.flush (.task batcher.nextTask))
  | .taskStarts task =>
    if task ∈ batcher.created then some ({ batcher with created := batcher.created.filter (· ≠ task) }.flush (.task task)) else none
  | .waiterResumes =>
    match batcher.flushLocked, batcher.flushWaiters with
    | false, caller :: rest => some ({ batcher with flushWaiters := rest }.flushBody caller)
    | _, _ => none
  | .batchEnds caller outcome =>
    (batcher.running.find? fun call => call.1 = caller).map fun call => batcher.flushEnds caller call.2 outcome
  | .timerWakes due =>
    if batcher.timer = .sleeping then
      if batcher.buffer ≠ [] ∧ (config.maxItemsPerBatch ≤ batcher.size config ∨ due) then
        some { batcher.createTask with timer := .waiting batcher.nextTask }
      else some batcher
    else none
  | .timerResumes =>
    match batcher.timer with
    | .waiting task => if batcher.isLive task then none else some { batcher with timer := .sleeping }
    | .cancelledWaiting task => if batcher.isLive task then none else some { batcher with timer := .ended }
    | .cancelled => some { batcher with timer := .ended }
    | _ => none
  | .closeResumes =>
    if batcher.closing = .stoppingTimer ∧ batcher.timer = .ended then some ({ batcher with closing := .flushing }.flush .close) else none

def run (config : Config T) : Batcher T R E → List (Event T R E) → Option (Batcher T R E)
  | batcher, [] => some batcher
  | batcher, event :: rest => (batcher.step config event).bind fun next => next.run config rest

end Batcher

end LoginomDock.Batching
