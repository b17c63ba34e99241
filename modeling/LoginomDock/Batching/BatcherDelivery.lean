import LoginomDock.Batching.BatcherRuns

/-! No run of the batcher is stuck: events that nobody has to call for lead to the answer of every submission. -/

namespace LoginomDock.Batching

open List Option

variable {T R E : Type} {config : Config T} {batcher after later : Batcher T R E}

def Event.isInternal : Event T R E → Bool
  | .submit _ | .close | .flush => false
  | _ => true

def Event.isClose : Event T R E → Bool
  | .close => true
  | _ => false

def Event.submission : Event T R E → Option T
  | .submit payload => some payload
  | _ => none

/-- The payloads whose `submit` does not raise -/
def accepted (events : List (Event T R E)) : List T := (events.takeWhile fun event => !event.isClose).filterMap Event.submission

namespace Batcher

def SameSubmissions (batcher after : Batcher T R E) : Prop := after.submitted = batcher.submitted ∧ after.closed = batcher.closed

theorem flushReturns_same (caller : Caller) : batcher.SameSubmissions (batcher.flushReturns caller) := by
  cases caller <;> exact ⟨rfl, rfl⟩

theorem flushBody_same (caller : Caller) : batcher.SameSubmissions (batcher.flushBody caller) := by
  rw [flushBody]
  split
  · exact flushReturns_same caller
  · exact ⟨rfl, rfl⟩

theorem flush_same (caller : Caller) : batcher.SameSubmissions (batcher.flush caller) := by
  rw [flush]
  split
  · exact flushBody_same caller
  · exact ⟨rfl, rfl⟩

theorem step_same {event : Event T R E} (quiet : event.isClose = false ∧ event.submission = none) (steps : batcher.step config event = some after) :
    batcher.SameSubmissions after := by
  cases event with
  | submit payload => cases quiet.2
  | close => cases quiet.1
  | flush =>
    cases steps
    exact flush_same _
  | taskStarts task =>
    obtain ⟨-, same⟩ := ite_none_right_eq_some.mp steps
    cases same
    exact flush_same _
  | waiterResumes =>
    rw [step] at steps
    split at steps
    · cases steps
      exact flushBody_same _
    · cases steps
  | batchEnds caller outcome =>
    obtain ⟨call, -, rfl⟩ := map_eq_some_iff.mp steps
    exact flushReturns_same caller
  | timerWakes due =>
    obtain ⟨-, same⟩ := ite_none_right_eq_some.mp steps
    split at same <;> cases same <;> exact ⟨rfl, rfl⟩
  | timerResumes =>
    rw [step] at steps
    split at steps
    · cases (ite_none_left_eq_some.mp steps).2
      exact ⟨rfl, rfl⟩
    · cases (ite_none_left_eq_some.mp steps).2
      exact ⟨rfl, rfl⟩
    · cases steps
      exact ⟨rfl, rfl⟩
    · cases steps
  | closeResumes =>
    obtain ⟨-, same⟩ := ite_none_right_eq_some.mp steps
    cases same
    exact flush_same _

theorem close_same : batcher.close.submitted = batcher.submitted ∧ batcher.close.closed = true := by
  rw [close]
  split
  · rename_i closed
    exact ⟨rfl, closed⟩
  · cases batcher.timer with
    | absent => exact flush_same Caller.close
    | ended => exact flush_same Caller.close
    | sleeping => exact ⟨rfl, rfl⟩
    | waiting task => exact ⟨rfl, rfl⟩
    | cancelled => exact ⟨rfl, rfl⟩
    | cancelledWaiting task => exact ⟨rfl, rfl⟩

theorem submit_same (payload : T) : (batcher.submit config payload).submitted = batcher.submitted ++ [⟨batcher.submitted.length, payload⟩] ∧
    (batcher.submit config payload).closed = batcher.closed := by
  have timer : batcher.ensureTimerTask.submitted = batcher.submitted ∧ batcher.ensureTimerTask.closed = batcher.closed := by
    rw [ensureTimerTask]
    split <;> exact ⟨rfl, rfl⟩
  rw [submit]
  split <;> exact ⟨by simp [createTask, timer.1], timer.2⟩

theorem run_closed {events : List (Event T R E)} (closed : batcher.closed = true) (runs : batcher.run config events = some after) :
    after.submitted = batcher.submitted := by
  induction events generalizing batcher with
  | nil =>
    cases runs
    rfl
  | cons event rest ih =>
    obtain ⟨next, steps, later⟩ := bind_eq_some_iff.mp runs
    have same : batcher.SameSubmissions next := by
      cases event with
      | submit payload =>
        rw [step, if_pos closed] at steps
        cases steps
        exact ⟨rfl, rfl⟩
      | close =>
        cases steps
        exact ⟨close_same.1, close_same.2.trans closed.symm⟩
      | _ => exact step_same ⟨rfl, rfl⟩ steps
    exact (ih (same.2.trans closed) later).trans same.1

theorem run_submitted {events : List (Event T R E)} (isOpen : batcher.closed = false) (runs : batcher.run config events = some after) :
    after.submitted.map Item.payload = batcher.submitted.map Item.payload ++ accepted events := by
  induction events generalizing batcher with
  | nil =>
    cases runs
    exact (append_nil _).symm
  | cons event rest ih =>
    obtain ⟨next, steps, later⟩ := bind_eq_some_iff.mp runs
    cases event with
    | submit payload =>
      rw [step, isOpen] at steps
      cases steps
      rw [ih ((submit_same payload).2.trans isOpen) later]
      simp [submit_same, accepted, Event.isClose, Event.submission]
    | close =>
      cases steps
      rw [run_closed close_same.2 later, close_same.1]
      exact (append_nil _).symm
    | _ =>
      have same := step_same ⟨rfl, rfl⟩ steps
      rw [ih (same.2.trans isOpen) later, same.1]
      rfl

inductive Leads (config : Config T) : Batcher T R E → Batcher T R E → Prop where
  | stays (batcher : Batcher T R E) : Leads config batcher batcher
  | goes {batcher next after : Batcher T R E} (event : Event T R E) (quiet : event.isInternal = true)
      (steps : batcher.step config event = some next) (leads : Leads config next after) : Leads config batcher after

theorem Leads.then (first : Leads config batcher after) (second : Leads config after later) : Leads config batcher later := by
  induction first with
  | stays => exact second
  | goes event quiet steps leads ih => exact .goes event quiet steps (ih second)

section

variable (leads : Leads config batcher after)

include leads

theorem Leads.run :
    ∃ events, (∀ event ∈ events, event.isInternal = true) ∧ batcher.run config events = some after := by
  induction leads with
  | stays => exact ⟨[], nofun, rfl⟩
  | goes event quiet steps leads ih =>
    obtain ⟨events, all, runs⟩ := ih
    exact ⟨event :: events, forall_mem_cons.mpr ⟨quiet, all⟩, bind_eq_some_iff.mpr ⟨_, steps, runs⟩⟩

theorem Leads.sound (sound : Sound none batcher) : Sound none after := by
  induction leads with
  | stays => exact sound
  | goes event quiet steps leads ih => exact ih (sound.step event steps)

theorem Leads.same : after.submitted = batcher.submitted := by
  induction leads with
  | stays => rfl
  | goes event quiet steps leads ih =>
    refine ih.trans (step_same ?_ steps).1
    cases event <;> first | exact ⟨rfl, rfl⟩ | cases quiet

end

theorem Flows.free (flows : Flows batcher) (idle : batcher.running = []) : batcher.flushLocked = false := by
  rw [← Bool.not_eq_true, flows.locked]
  exact not_not_intro idle

theorem Flows.ends (flows : Flows batcher) (config : Config T) (answer : Outcome R E) :
    ∃ after, Leads config batcher after ∧ after.running = [] ∧ after.buffer = batcher.buffer ∧ after.flushWaiters = batcher.flushWaiters := by
  cases calls : batcher.running with
  | nil => exact ⟨batcher, .stays batcher, calls, rfl, rfl⟩
  | cons call others =>
    have alone := flows.running_eq (calls ▸ mem_cons_self : call ∈ batcher.running)
    have steps : batcher.step config (.batchEnds call.1 answer) = some (batcher.flushEnds call.1 call.2 answer) := by
      simp [Batcher.step, alone]
    refine ⟨_, .goes _ rfl steps (.stays _), ?_⟩
    have idle : (batcher.running.filter fun other => other.1 ≠ call.1) = [] := by simp [alone]
    rw [Batcher.flushEnds, idle]
    cases call.1 <;> exact ⟨rfl, rfl, rfl⟩

theorem Sound.drains (sound : Sound none batcher) (config : Config T) (answer : Outcome R E) (count : Nat) (waiting : batcher.flushWaiters.length = count) :
    ∃ after, Leads config batcher after ∧ after.running = [] ∧ after.flushWaiters = [] := by
  induction count generalizing batcher with
  | zero =>
    obtain ⟨after, leads, idle, -, waiters⟩ := sound.toFlows.ends config answer
    exact ⟨after, leads, idle, waiters.trans (length_eq_zero_iff.mp waiting)⟩
  | succ count ih =>
    obtain ⟨ended, leads, idle, -, waiters⟩ := sound.toFlows.ends config answer
    obtain ⟨caller, rest, queue⟩ := exists_cons_of_length_eq_add_one waiting
    have steps : ended.step config .waiterResumes = some ({ ended with flushWaiters := rest }.flushBody caller) := by
      rw [Batcher.step, (leads.sound sound).free idle, waiters, queue]
    have kept : ({ ended with flushWaiters := rest }.flushBody caller).flushWaiters = rest := by
      rw [Batcher.flushBody]
      split
      · cases caller <;> rfl
      · rfl
    have resumed : Leads config batcher _ := leads.then (.goes _ rfl steps (.stays _))
    have shorter : rest.length = count := by
      rw [queue, length_cons] at waiting
      omega
    obtain ⟨after, more, rest⟩ := ih (resumed.sound sound) ((congrArg List.length kept).trans shorter)
    exact ⟨after, resumed.then more, rest⟩

theorem flush_takes (free : batcher.flushLocked = false) (alone : batcher.flushWaiters = []) (caller : Caller) :
    (batcher.flush caller).buffer = [] := by
  have now : batcher.flush caller = batcher.flushBody caller := if_pos (by simp [free, alone])
  rw [now, Batcher.flushBody]
  split
  · rename_i empty
    cases caller <;> exact empty
  · rfl

theorem live_created {task : Nat} (idle : batcher.running = []) (alone : batcher.flushWaiters = []) (live : batcher.isLive task = true) :
    task ∈ batcher.created := by
  simpa [isLive, idle, alone] using live

section Idle

variable (free : batcher.flushLocked = false) (alone : batcher.flushWaiters = [])

include free alone

theorem created_takes {task : Nat} (created : task ∈ batcher.created) : ∃ after, Leads config batcher after ∧ after.buffer = [] :=
  ⟨_, .goes (.taskStarts task) rfl (if_pos created) (.stays _), flush_takes (by exact free) (by exact alone) (.task task)⟩

theorem sleeping_takes (sleeping : batcher.timer = .sleeping) : ∃ after, Leads config batcher after ∧ after.buffer = [] := by
  by_cases empty : batcher.buffer = []
  · exact ⟨batcher, .stays batcher, empty⟩
  · have steps : batcher.step config (.timerWakes true) = some { batcher.createTask with timer := .waiting batcher.nextTask } := by
      simp [Batcher.step, sleeping, empty]
    obtain ⟨after, leads, taken⟩ := @created_takes _ _ _ config { batcher.createTask with timer := .waiting batcher.nextTask }
      free alone batcher.nextTask (mem_append_right _ mem_cons_self)
    exact ⟨after, .goes _ rfl steps leads, taken⟩

theorem ended_takes (phase : batcher.closing = .stoppingTimer) (ended : batcher.timer = .ended) :
    ∃ after, Leads config batcher after ∧ after.buffer = [] :=
  ⟨_, .goes .closeResumes rfl (if_pos ⟨phase, ended⟩) (.stays _), flush_takes (by exact free) (by exact alone) .close⟩

theorem Sound.takes (sound : Sound none batcher) (config : Config T) (idle : batcher.running = []) :
    ∃ after, Leads config batcher after ∧ after.buffer = [] := by
  by_cases empty : batcher.buffer = []
  · exact ⟨batcher, .stays batcher, empty⟩
  cases isOpen : batcher.closed with
  | false =>
    rcases sound.openTimer isOpen with absent | sleeping | ⟨task, waiting⟩
    · exact absurd absent (sound.watched isOpen empty)
    · exact sleeping_takes free alone sleeping
    · by_cases live : batcher.isLive task = true
      · exact created_takes free alone (live_created idle alone live)
      · have steps : batcher.step config .timerResumes = some { batcher with timer := .sleeping } := by
          simp [Batcher.step, waiting, live]
        obtain ⟨after, leads, taken⟩ := @sleeping_takes _ _ _ config { batcher with timer := .sleeping } free alone rfl
        exact ⟨after, .goes _ rfl steps leads, taken⟩
  | true =>
    cases phase : batcher.closing with
    | notCalled =>
      rw [sound.notCalled.mpr phase] at isOpen
      cases isOpen
    | returned => exact absurd (sound.returned phase).1 empty
    | flushing =>
      have found := sound.flushing phase
      simp [alone, idle] at found
    | stoppingTimer =>
      have ends (steps : batcher.step config .timerResumes = some { batcher with timer := .ended }) :
          ∃ after, Leads config batcher after ∧ after.buffer = [] := by
        obtain ⟨after, leads, taken⟩ := @ended_takes _ _ _ config { batcher with timer := .ended } free alone phase rfl
        exact ⟨after, .goes _ rfl steps leads, taken⟩
      rcases sound.stopping phase with cancelled | ended | ⟨task, waiting⟩
      · exact ends (by simp [Batcher.step, cancelled])
      · exact ended_takes free alone phase ended
      · by_cases live : batcher.isLive task = true
        · exact created_takes free alone (live_created idle alone live)
        · exact ends (by simp [Batcher.step, waiting, live])

end Idle

theorem Flows.answered (flows : Flows batcher) (empty : batcher.buffer = []) (idle : batcher.running = []) :
    ∀ item ∈ batcher.submitted, batcher.futures item.ticket ≠ none := by
  intro item member
  rw [← flows.order, empty, append_nil, flows.calls, idle, map_nil, append_nil] at member
  obtain ⟨items, isCall, inside⟩ := mem_flatten.mp member
  obtain ⟨call, done, rfl⟩ := mem_map.mp isCall
  have value := (flows.resolved item.ticket call.2).mpr ⟨call, done, mem_map_of_mem inside, rfl⟩
  rw [value]
  exact nofun

theorem Sound.answers (sound : Sound none batcher) (config : Config T) (answer : Outcome R E) :
    ∃ after, Leads config batcher after ∧ ∀ item ∈ batcher.submitted, after.futures item.ticket ≠ none := by
  obtain ⟨drained, first, idle, alone⟩ := sound.drains config answer _ rfl
  have sound₁ := first.sound sound
  obtain ⟨taken, second, empty⟩ := sound₁.takes (sound₁.free idle) alone config idle
  obtain ⟨after, third, idle, kept, -⟩ := (second.sound sound₁).toFlows.ends config answer
  have leads := first.then (second.then third)
  refine ⟨after, leads, ?_⟩
  rw [← leads.same]
  exact (leads.sound sound).answered (kept.trans empty) idle

-- What is promised of every state that a run reaches
structure Delivers (config : Config T) (events : List (Event T R E)) (batcher : Batcher T R E) : Prop where
  /-- Who submits without an error is recorded under a ticket of its own. -/
  payloads : batcher.submitted.map Item.payload = accepted events
  tickets : (batcher.submitted.map Item.ticket).Nodup
  /-- The calls of `process_batch` and the buffer split the submissions in order. -/
  order : batcher.started.flatten ++ batcher.buffer = batcher.submitted
  /-- Every call but the last has ended. -/
  apart : batcher.started = batcher.finished.map Prod.fst ++ batcher.running.map Prod.snd ∧ batcher.running.length ≤ 1
  /-- An answer is the outcome of the call with the ticket. -/
  answers : ∀ ticket outcome, batcher.futures ticket = some outcome ↔
    ∃ call ∈ batcher.finished, ticket ∈ call.1.map Item.ticket ∧ call.2 = outcome
  /-- The call of `close` that closes the batcher leaves nobody waiting. -/
  closed : batcher.closing = .returned → ∀ item ∈ batcher.submitted, batcher.futures item.ticket ≠ none
  /-- Nobody waits for ever. -/
  answerable : Outcome R E → ∃ more later, (∀ event ∈ more, event.isInternal = true) ∧
    batcher.run config more = some later ∧ ∀ item ∈ batcher.submitted, later.futures item.ticket ≠ none

theorem batcher_delivers (config : Config T) (events : List (Event T R E)) (runs : ({} : Batcher T R E).run config events = some after) :
    after.Delivers config events := by
  have sound := sound_start.run runs
  exact {
    payloads := by simpa using run_submitted rfl runs
    tickets := by
      rw [sound.tickets]
      exact nodup_range
    order := sound.order
    apart := ⟨sound.calls, sound.single⟩
    answers := sound.resolved
    closed := fun phase => sound.answered (sound.returned phase).1 (sound.returned phase).2
    answerable := by
      intro answer
      obtain ⟨later, leads, all⟩ := sound.answers config answer
      obtain ⟨more, quiet, runs⟩ := leads.run
      exact ⟨more, later, quiet, runs, all⟩ }

section Example

def pairs : Config Nat := ⟨2, fun _ => 1⟩

/-- Two submissions fill a batch; a third one comes while it is processed, and is left for `close`. -/
def closingRun : List (Event Nat Nat String) :=
  [.submit 5, .submit 6, .taskStarts 0, .submit 7, .close, .batchEnds (.task 0) (.ok 11), .timerResumes, .closeResumes, .batchEnds .close (.ok 7)]

theorem closing_run_delivers : ∃ after : Batcher Nat Nat String, ({} : Batcher Nat Nat String).run pairs closingRun = some after ∧
    after.closing = .returned ∧ after.Delivers pairs closingRun :=
  ⟨_, rfl, rfl, batcher_delivers pairs closingRun rfl⟩

/-- A second `close` returns while the first one stops the timer; the submission has no answer yet. -/
theorem second_close_returns_early : ¬ ∀ (events : List (Event Nat Nat String)) (after : Batcher Nat Nat String),
    ({} : Batcher Nat Nat String).run pairs events = some after → 0 < after.closeReturns →
      ∀ item ∈ after.submitted, after.futures item.ticket ≠ none := by
  intro promised
  exact promised [.submit 5, .close, .close] _ rfl (by decide) ⟨0, 5⟩ (by decide) rfl

end Example

end Batcher

end LoginomDock.Batching
