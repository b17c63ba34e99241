import LoginomDock.Batching.StreamingBatcher

namespace LoginomDock.Batching

open List Batcher

variable {T R E : Type} {config : Config T} {batcher after : Batcher T R E}

namespace Batcher

structure Flows (batcher : Batcher T R E) : Prop where
  order : batcher.started.flatten ++ batcher.buffer = batcher.submitted
  tickets : batcher.submitted.map Item.ticket = List.range batcher.submitted.length
  calls : batcher.started = batcher.finished.map Prod.fst ++ batcher.running.map Prod.snd
  single : batcher.running.length ≤ 1
  locked : batcher.flushLocked = true ↔ batcher.running ≠ []
  resolved : ∀ ticket outcome, batcher.futures ticket = some outcome ↔
    ∃ call ∈ batcher.finished, ticket ∈ call.1.map Item.ticket ∧ call.2 = outcome

/-- How far the closing is, while `current` may have called `flush` and not come to the lock yet -/
structure Closes (current : Option Caller) (batcher : Batcher T R E) : Prop where
  notCalled : batcher.closed = false ↔ batcher.closing = .notCalled
  openTimer : batcher.closed = false → batcher.timer = .absent ∨ batcher.timer = .sleeping ∨ ∃ task, batcher.timer = .waiting task
  watched : batcher.closed = false → batcher.buffer ≠ [] → batcher.timer ≠ .absent
  caller : (current = some .close ∨ .close ∈ batcher.flushWaiters ∨ ∃ items, (.close, items) ∈ batcher.running) → batcher.closed = true
  stopping : batcher.closing = .stoppingTimer →
    batcher.timer = .cancelled ∨ batcher.timer = .ended ∨ ∃ task, batcher.timer = .cancelledWaiting task
  flushing : batcher.closing = .flushing →
    current = some .close ∨ .close ∈ batcher.flushWaiters ∨ ∃ items, (.close, items) ∈ batcher.running
  taken : (∃ items, (.close, items) ∈ batcher.running) → batcher.buffer = []
  returned : batcher.closing = .returned → batcher.buffer = [] ∧ batcher.running = []

structure Sound (current : Option Caller) (batcher : Batcher T R E) : Prop extends Flows batcher, Closes current batcher

theorem sound_start : Sound none ({} : Batcher T R E) where
  order := rfl
  tickets := rfl
  calls := rfl
  single := Nat.zero_le 1
  locked := by simp
  resolved := by simp
  notCalled := by simp
  openTimer := by simp
  watched := by simp
  caller := by simp
  stopping := by simp
  flushing := by simp
  taken := by simp
  returned := by simp

theorem Flows.running_nil (flows : Flows batcher) (free : batcher.flushLocked = false) : batcher.running = [] := by
  by_contra busy
  rw [flows.locked.mpr busy] at free
  cases free

theorem Closes.task (closes : Closes none batcher) (id : Nat) : Closes (some (.task id)) batcher :=
  { closes with
    caller := fun found => closes.caller (found.imp_left nofun)
    flushing := fun phase => .inr ((closes.flushing phase).resolve_left nofun) }

variable {caller : Caller}

theorem Sound.flushBody (sound : Sound (some caller) batcher) (free : batcher.flushLocked = false) :
    Sound none (batcher.flushBody caller) := by
  have idle := sound.running_nil free
  rw [Batcher.flushBody]
  split
  · rename_i empty
    have flows : Flows { batcher with flushLocked := false } := { sound.toFlows with locked := by simp [idle] }
    cases caller with
    | task id =>
      exact { flows, sound.toCloses with
        caller := fun found => sound.caller (found.imp_left nofun)
        flushing := fun phase => .inr ((sound.flushing phase).resolve_left nofun) }
    | close =>
      have closed := sound.caller (.inl rfl)
      exact { flows, sound.toCloses with
        notCalled := by simp [flushReturns, closed]
        caller := fun _ => closed
        stopping := nofun
        flushing := nofun
        returned := fun _ => ⟨empty, idle⟩ }
  · rename_i filled
    exact { sound.toFlows, sound.toCloses with
      order := by simpa using sound.order
      calls := by simp [sound.calls]
      single := by simp [idle]
      locked := by simp
      watched := fun _ some' => absurd rfl some'
      caller := by
        rintro (none | waits | ⟨items, runs⟩)
        · cases none
        · exact sound.caller (.inr (.inl waits))
        · rw [idle, nil_append, mem_singleton] at runs
          exact sound.caller (.inl (congrArg some (Prod.mk.inj runs).1.symm))
      flushing := by
        intro phase
        rcases sound.flushing phase with here | waits | ⟨items, runs⟩
        · exact .inr (.inr ⟨batcher.buffer, by simp [Option.some.inj here]⟩)
        · exact .inr (.inl waits)
        · rw [idle] at runs
          cases runs
      taken := fun _ => rfl
      returned := fun phase => absurd (sound.returned phase).1 filled }

theorem Sound.flush (sound : Sound (some caller) batcher) : Sound none (batcher.flush caller) := by
  rw [Batcher.flush]
  split
  · rename_i free
    exact sound.flushBody (by simpa using (Bool.and_eq_true_iff.mp free).1)
  · -- The caller waits; nothing else changes.
    exact { sound.toFlows, sound.toCloses with
      caller := by
        rintro (none | waits | runs)
        · cases none
        · rcases mem_append.mp waits with waits | here
          · exact sound.caller (.inr (.inl waits))
          · exact sound.caller (.inl (congrArg some (mem_singleton.mp here).symm))
        · exact sound.caller (.inr (.inr runs))
      flushing := by
        intro phase
        rcases sound.flushing phase with here | waits | runs
        · exact .inr (.inl (by simp [Option.some.inj here]))
        · exact .inr (.inl (mem_append_left _ waits))
        · exact .inr (.inr runs) }

theorem Flows.running_eq (flows : Flows batcher) {call : Caller × List (Item T)} (runs : call ∈ batcher.running) : batcher.running = [call] := by
  obtain ⟨only, alone⟩ : ∃ only, batcher.running = [only] := by
    apply length_eq_one_iff.mp
    have some' := length_pos_of_mem runs
    have single := flows.single
    omega
  rw [alone, mem_singleton] at runs
  rw [alone, runs]

theorem Flows.nodup (flows : Flows batcher) :
    ((batcher.finished.map Prod.fst).flatten.map Item.ticket ++
      ((batcher.running.map Prod.snd).flatten.map Item.ticket ++ batcher.buffer.map Item.ticket)).Nodup := by
  have whole : (batcher.submitted.map Item.ticket).Nodup := by
    rw [flows.tickets]
    exact nodup_range
  rw [← flows.order, flows.calls] at whole
  simpa using whole

theorem Flows.unresolved (flows : Flows batcher) {call : Caller × List (Item T)} (runs : call ∈ batcher.running)
    {ticket : Nat} (inside : ticket ∈ call.2.map Item.ticket) : batcher.futures ticket = none := by
  cases value : batcher.futures ticket with
  | none => rfl
  | some outcome =>
    exfalso
    obtain ⟨done, member, found, -⟩ := (flows.resolved ticket outcome).mp value
    have early : ticket ∈ (batcher.finished.map Prod.fst).flatten.map Item.ticket := by
      obtain ⟨item, isItem, rfl⟩ := mem_map.mp found
      exact mem_map_of_mem (mem_flatten.mpr ⟨done.1, mem_map_of_mem member, isItem⟩)
    have late : ticket ∈ (batcher.running.map Prod.snd).flatten.map Item.ticket := by
      obtain ⟨item, isItem, rfl⟩ := mem_map.mp inside
      exact mem_map_of_mem (mem_flatten.mpr ⟨call.2, mem_map_of_mem runs, isItem⟩)
    exact (nodup_append.mp flows.nodup).2.2 ticket early ticket (mem_append_left _ late) rfl

theorem Flows.flushEnds {items : List (Item T)} (flows : Flows batcher) (runs : (caller, items) ∈ batcher.running)
    (outcome : Outcome R E) : Flows { batcher with
      futures := resolve batcher.futures items outcome
      flushLocked := false
      running := batcher.running.filter fun call => call.1 ≠ caller
      finished := batcher.finished ++ [(items, outcome)] } := by
  have alone := flows.running_eq runs
  have idle : (batcher.running.filter fun call => call.1 ≠ caller) = [] := by simp [alone]
  rw [idle]
  exact { flows with
    calls := by simp [flows.calls, alone]
    single := Nat.zero_le 1
    locked := by simp
    resolved := by
      intro ticket other
      show resolve batcher.futures items outcome ticket = some other ↔
        ∃ call ∈ batcher.finished ++ [(items, outcome)], ticket ∈ call.1.map Item.ticket ∧ call.2 = other
      have unresolved (inside : ticket ∈ items.map Item.ticket) := flows.unresolved runs inside
      by_cases inside : ticket ∈ items.map Item.ticket
      · have before : ¬ ∃ call ∈ batcher.finished, ticket ∈ call.1.map Item.ticket ∧ call.2 = other := by
          rw [← flows.resolved, unresolved inside]
          exact nofun
        have set : resolve batcher.futures items outcome ticket = some outcome := if_pos ⟨inside, unresolved inside⟩
        simp only [set, Option.some.injEq, mem_append, mem_singleton]
        constructor
        · rintro rfl
          exact ⟨(items, outcome), .inr rfl, inside, rfl⟩
        · rintro ⟨call, member | rfl, found, rfl⟩
          · exact absurd ⟨call, member, found, rfl⟩ before
          · rfl
      · have kept : resolve batcher.futures items outcome ticket = batcher.futures ticket := if_neg fun both => inside both.1
        rw [kept, flows.resolved]
        constructor
        · rintro ⟨call, member, rest⟩
          exact ⟨call, mem_append_left _ member, rest⟩
        · rintro ⟨call, member, found, same⟩
          rcases mem_append.mp member with member | here
          · exact ⟨call, member, found, same⟩
          · rw [mem_singleton.mp here] at found
            exact absurd found inside }

section

variable (sound : Sound none batcher)

include sound

theorem Sound.flushEnds {items : List (Item T)} (runs : (caller, items) ∈ batcher.running)
    (outcome : Outcome R E) : Sound none (batcher.flushEnds caller items outcome) := by
  have flows := sound.toFlows.flushEnds runs outcome
  have alone := sound.running_eq runs
  have none' : (batcher.running.filter fun call => call.1 ≠ caller) = [] := by simp [alone]
  rw [Batcher.flushEnds]
  cases caller with
  | task id =>
    exact { flows, sound.toCloses with
      caller := by
        rintro (none | waits | ⟨other, later⟩)
        · cases none
        · exact sound.caller (.inr (.inl waits))
        · exact sound.caller (.inr (.inr ⟨other, mem_of_mem_filter later⟩))
      flushing := by
        intro phase
        rcases sound.flushing phase with none | waits | ⟨other, later⟩
        · cases none
        · exact .inr (.inl waits)
        · rw [alone, mem_singleton] at later
          cases later
      taken := fun ⟨other, later⟩ => sound.taken ⟨other, mem_of_mem_filter later⟩
      returned := fun phase => ⟨(sound.returned phase).1, none'⟩ }
  | close =>
    have closed := sound.caller (.inr (.inr ⟨items, runs⟩))
    exact { flows, sound.toCloses with
      notCalled := by simp [flushReturns, closed]
      caller := fun _ => closed
      stopping := nofun
      flushing := nofun
      taken := fun _ => sound.taken ⟨items, runs⟩
      returned := fun _ => ⟨sound.taken ⟨items, runs⟩, none'⟩ }

theorem Sound.submit (isOpen : batcher.closed = false) (payload : T) :
    Sound none (batcher.submit config payload) := by
  obtain ⟨timer, ensured, active⟩ : ∃ timer, batcher.ensureTimerTask = { batcher with timer := timer } ∧ (timer = .sleeping ∨ ∃ task, timer = .waiting task) := by
    rcases sound.openTimer isOpen with absent | sleeping | ⟨task, waiting⟩
    · exact ⟨.sleeping, by simp [ensureTimerTask, absent], .inl rfl⟩
    · exact ⟨.sleeping, by simp [ensureTimerTask, ← sleeping], .inl rfl⟩
    · exact ⟨.waiting task, by rw [← waiting, ensureTimerTask, if_neg (by simp [waiting])], .inr ⟨task, rfl⟩⟩
  have appended : Sound none { batcher with
      timer := timer
      buffer := batcher.buffer ++ [⟨batcher.submitted.length, payload⟩]
      submitted := batcher.submitted ++ [⟨batcher.submitted.length, payload⟩] } := by
    have closing := sound.notCalled.mp isOpen
    have noCloser : ¬ ∃ items, (Caller.close, items) ∈ batcher.running := by
      intro runs
      rw [sound.caller (.inr (.inr runs))] at isOpen
      cases isOpen
    exact { sound.toFlows, sound.toCloses with
      order := by simp [← sound.order]
      tickets := by simp [sound.tickets, range_succ]
      openTimer := fun _ => .inr active
      watched := by
        intro _ _ absent
        rcases active with sleeping | ⟨task, waiting⟩
        · exact TimerTask.noConfusion (sleeping.symm.trans absent)
        · exact TimerTask.noConfusion (waiting.symm.trans absent)
      stopping := fun phase => Closing.noConfusion (closing.symm.trans phase)
      taken := fun runs => absurd runs noCloser
      returned := fun phase => Closing.noConfusion (closing.symm.trans phase) }
  rw [Batcher.submit, ensured]
  split
  · exact { appended.toFlows, appended.toCloses with }
  · exact appended

theorem Sound.close : Sound none batcher.close := by
  rw [Batcher.close]
  split
  · exact { sound.toFlows, sound.toCloses with }
  · rename_i isOpen
    have isOpen : batcher.closed = false := by simpa using isOpen
    have noCloser : ¬ (Caller.close ∈ batcher.flushWaiters ∨ ∃ items, (Caller.close, items) ∈ batcher.running) := by
      intro found
      rw [sound.caller (.inr found)] at isOpen
      cases isOpen
    -- Only the timer and the phase depend on the state of the timer.
    have closes {timer : TimerTask} {closing : Closing} {current : Option Caller} (called : closing ≠ .notCalled) (waits : closing ≠ .returned)
        (stopping : closing = .stoppingTimer → timer = .cancelled ∨ timer = .ended ∨ ∃ task, timer = .cancelledWaiting task)
        (flushing : closing = .flushing → current = some .close) :
        Sound current { batcher with closed := true, timer := timer, closing := closing } :=
      { sound.toFlows, sound.toCloses with
        notCalled := by simp [called]
        openTimer := nofun
        watched := nofun
        caller := fun _ => rfl
        stopping := stopping
        flushing := fun phase => .inl (flushing phase)
        returned := fun phase => absurd phase waits }
    rcases sound.openTimer isOpen with timer | timer | ⟨task, timer⟩
    · simp only [timer]
      apply Sound.flush
      simpa only [timer] using @closes .absent .flushing (some .close) nofun nofun nofun (fun _ => rfl)
    · simp only [timer]
      exact closes nofun nofun (fun _ => .inl rfl) nofun
    · simp only [timer]
      exact closes nofun nofun (fun _ => .inr (.inr ⟨task, rfl⟩)) nofun

theorem Sound.timerEnds (stopped : batcher.closed = false → False) :
    Sound none { batcher with timer := .ended } :=
  { sound.toFlows, sound.toCloses with
    openTimer := fun isOpen => (stopped isOpen).elim
    watched := fun isOpen => (stopped isOpen).elim
    stopping := fun _ => .inr (.inl rfl) }

theorem Sound.step (event : Event T R E) (steps : batcher.step config event = some after) :
    Sound none after := by
  cases event with
  | submit payload =>
    cases steps
    split
    · exact sound
    · rename_i isOpen
      exact sound.submit (by simpa using isOpen) payload
  | close =>
    cases steps
    exact sound.close
  | flush =>
    cases steps
    apply Sound.flush
    exact { sound.toFlows, sound.toCloses.task batcher.nextTask with }
  | taskStarts task =>
    rw [Batcher.step] at steps
    split at steps
    · cases steps
      apply Sound.flush
      exact { sound.toFlows, sound.toCloses.task task with }
    · cases steps
  | waiterResumes =>
    rw [Batcher.step] at steps
    split at steps
    · rename_i caller rest free waiters
      cases steps
      have waits {other : Caller} (member : other ∈ rest) : other ∈ batcher.flushWaiters := by
        rw [waiters]
        exact mem_cons_of_mem caller member
      apply Sound.flushBody
      · exact { sound.toFlows, sound.toCloses with
          caller := by
            rintro (here | member | runs)
            · apply sound.caller (.inr (.inl _))
              rw [waiters, Option.some.inj here]
              exact mem_cons_self
            · exact sound.caller (.inr (.inl (waits member)))
            · exact sound.caller (.inr (.inr runs))
          flushing := by
            intro phase
            rcases sound.flushing phase with none | member | runs
            · cases none
            · rw [waiters, mem_cons] at member
              exact member.imp (fun here => congrArg some here.symm) .inl
            · exact .inr (.inr runs) }
      · exact free
    · cases steps
  | batchEnds caller outcome =>
    obtain ⟨⟨other, items⟩, found, rfl⟩ := Option.map_eq_some_iff.mp steps
    have runs := mem_of_find?_eq_some found
    have same : other = caller := by simpa using find?_some found
    subst same
    exact sound.flushEnds runs outcome
  | timerWakes due =>
    rw [Batcher.step] at steps
    split at steps
    · rename_i sleeping
      split at steps
      · cases steps
        exact { sound.toFlows, sound.toCloses with
          openTimer := fun _ => .inr (.inr ⟨_, rfl⟩)
          watched := fun _ _ => nofun
          stopping := by
            intro phase
            have stopped := sound.stopping phase
            rw [sleeping] at stopped
            rcases stopped with none | none | ⟨task, none⟩ <;> cases none }
      · cases steps
        exact sound
    · cases steps
  | timerResumes =>
    rw [Batcher.step] at steps
    split at steps
    · rename_i task waiting
      split at steps
      · cases steps
      · cases steps
        exact { sound.toFlows, sound.toCloses with
          openTimer := fun _ => .inr (.inl rfl)
          watched := fun _ _ => nofun
          stopping := by
            intro phase
            have stopped := sound.stopping phase
            rw [waiting] at stopped
            rcases stopped with none | none | ⟨task, none⟩ <;> cases none }
    · rename_i task waiting
      split at steps
      · cases steps
      · cases steps
        exact sound.timerEnds fun isOpen => by simpa [waiting] using sound.openTimer isOpen
    · rename_i cancelled
      cases steps
      exact sound.timerEnds fun isOpen => by simpa [cancelled] using sound.openTimer isOpen
    · cases steps
  | closeResumes =>
    rw [Batcher.step] at steps
    split at steps
    · rename_i phase
      cases steps
      have closed : batcher.closed ≠ false := by
        intro isOpen
        exact Closing.noConfusion ((sound.notCalled.mp isOpen).symm.trans phase.1)
      apply Sound.flush
      exact { sound.toFlows, sound.toCloses with
        notCalled := by simp [closed]
        caller := fun _ => by simpa using closed
        stopping := nofun
        flushing := fun _ => .inl rfl
        returned := nofun }
    · cases steps

theorem Sound.run {events : List (Event T R E)} (runs : batcher.run config events = some after) :
    Sound none after := by
  induction events generalizing batcher with
  | nil =>
    cases runs
    exact sound
  | cons event rest ih =>
    obtain ⟨next, steps, later⟩ := Option.bind_eq_some_iff.mp runs
    exact ih (sound.step event steps) later

end

end Batcher

end LoginomDock.Batching
