import LoginomDock.Semantic.Processor
import Mathlib.Data.List.Nodup

namespace LoginomDock.Semantic

open List Contract Prog Semantics

variable {ι : Type}

-- The calls made so far, newest first
abbrev Log (ι : Type) := List (ι × SemanticCall ι)

def Entry.isOpen (entry : Entry ι) : Bool :=
  match entry.phase with
  | .handled _ => false
  | _ => true

def stateAfter (start : Semantics ι) (log : Log ι) : Semantics ι := (machine fun _ _ => True).replay start log

def holdsAgain (state : Semantics ι) (worker : ι) (delivery : Delivery) : Prop :=
  ⟨delivery.place, delivery.msg, .processing worker⟩ ∈ state.entries ∧
    ∃ again ∈ state.entries, again.place ≠ delivery.place ∧ again.msg.SameWork delivery.msg

section

variable (start : Semantics ι) (log : Log ι)

def HeldAgain (worker : ι) (delivery : Delivery) : Prop :=
  ∃ earlier, earlier <:+ log ∧ holdsAgain (stateAfter start earlier) worker delivery

def NeverLost : Prop :=
  ∀ worker delivery earlier, (worker, SemanticCall.report delivery .requeue) :: earlier <:+ log →
    HeldAgain start earlier worker delivery

-- A message is dropped as a duplicate only where an earlier one that has not been handled stands for it.
def DropsCovered : Prop :=
  ∀ thread retryOf msg earlier, (thread, SemanticCall.claimWindow retryOf msg) :: earlier <:+ log →
    ((stateAfter start earlier).handle (.claimWindow retryOf msg)).1 = true →
      ∃ entry ∈ (stateAfter start earlier).entries, entry.isOpen ∧ entry.msg.Covers msg

end

def StoodFor : SemanticCall ι → Semantics ι → Prop
  | .claimWindow retryOf msg, state =>
    state.last.shut msg.memoryParentSemanticKey (state.times 0) = true →
      ∃ entry ∈ state.entries, entry.isOpen ∧ entry.msg.Covers msg ∧
        ∀ delivery ∈ retryOf, entry.place ≠ delivery.place ∧ entry.msg.SameWork delivery.msg
  | .store (some delivery) msg, _ => msg.SameWork delivery.msg
  | _, _ => True

def Entry.heldBy (thread : ι) (entry : Entry ι) : Prop := entry.phase = .processing thread ∨ entry.phase = .handled thread

variable {entry : Entry ι}

theorem Entry.heldBy.unique {first second : ι} (one : entry.heldBy first) (other : entry.heldBy second) : first = second := by
  rcases one with one | one <;> rcases other with other | other <;> rw [one] at other <;> cases other <;> rfl

structure Placed (state : Semantics ι) : Prop where
  nodup : (state.entries.map Entry.place).Nodup
  below : ∀ entry ∈ state.entries, entry.place < state.nextPlace

-- What the others' calls leave alone
def LeavesHeld (thread : ι) (before after : Semantics ι) : Prop :=
  ∀ entry ∈ before.entries, entry.heldBy thread → entry ∈ after.entries

section

variable (thread : ι) (delivery : Delivery) (state : Semantics ι)

def Owns : Prop :=
  ∃ entry ∈ state.entries, entry.place = delivery.place ∧ entry.heldBy thread

def Handles : Prop :=
  ⟨delivery.place, delivery.msg, .processing thread⟩ ∈ state.entries

end

theorem Handles.owns {thread : ι} {delivery : Delivery} {state : Semantics ι} (handles : Handles thread delivery state) :
    Owns thread delivery state := ⟨_, handles, rfl, .inl rfl⟩

theorem Placed.unique {state : Semantics ι} (placed : Placed state) {first second : Entry ι}
    (one : first ∈ state.entries) (other : second ∈ state.entries) (same : first.place = second.place) : first = second :=
  inj_on_of_nodup_map placed.nodup one other same

-- The queue grows by a pending message at most.
def Extends (before after : Semantics ι) : Prop :=
  (after.entries = before.entries ∧ after.nextPlace = before.nextPlace) ∨
    ∃ msg, after.entries = before.entries ++ [⟨before.nextPlace, msg, .pending⟩] ∧ after.nextPlace = before.nextPlace + 1

theorem Extends.mem {before after : Semantics ι} (extends' : Extends before after) (member : entry ∈ before.entries) :
    entry ∈ after.entries := by
  rcases extends' with ⟨same, -⟩ | ⟨msg, more, -⟩
  · rwa [same]
  · rw [more]
    exact mem_append_left _ member

theorem Extends.placed {before after : Semantics ι} (extends' : Extends before after) (placed : Placed before) : Placed after := by
  rcases extends' with ⟨same, next⟩ | ⟨msg, more, next⟩
  · exact ⟨by rw [same]; exact placed.nodup, by rw [same, next]; exact placed.below⟩
  · constructor
    · rw [more, map_append, nodup_append]
      refine ⟨placed.nodup, nodup_singleton _, ?_⟩
      intro place old other new
      obtain ⟨entry, member, rfl⟩ := mem_map.mp old
      rw [map_singleton, mem_singleton] at new
      have below := placed.below entry member
      simp only at new
      omega
    · intro entry member
      rw [more, mem_append, mem_singleton] at member
      rcases member with old | rfl
      · have below := placed.below entry old
        omega
      · simp only
        omega

def IsQuiet : SemanticCall ι → Prop
  | .take _ | .ack .. | .report _ .success | .report _ (.error _) => False
  | _ => True

section Calls

variable {thread : ι} {delivery : Delivery} {state : Semantics ι}

theorem attempt_extends {α : Type} (value : α) {effect : Semantics ι → Semantics ι} (done : Extends state (effect state.faulted)) :
    Extends state (state.attempt value effect).2 := by
  have same : Extends state state.faulted := .inl ⟨rfl, rfl⟩
  rw [attempt]
  split
  next => exact done
  next fault raised =>
    split
    next => exact done
    next => exact same

theorem quiet_extends {call : SemanticCall ι} (quiet : IsQuiet call) : Extends state (state.handle call).2 := by
  cases call with
  | store retryOf msg => exact attempt_extends () (.inr ⟨msg, rfl, rfl⟩)
  | work stage => exact attempt_extends () (.inl ⟨rfl, rfl⟩)
  | writeSidecars delivery msg =>
    by_cases stale : state.isMsgStale msg = true
    · rw [show state.handle (.writeSidecars delivery msg) = _ from if_pos stale]
      exact .inl ⟨rfl, rfl⟩
    · rw [show state.handle (.writeSidecars delivery msg) = _ from if_neg stale]
      exact attempt_extends true (.inl ⟨rfl, rfl⟩)
  | report delivery outcome =>
    cases outcome with
    | requeue => exact .inl ⟨rfl, rfl⟩
    | success => exact quiet.elim
    | error message => exact quiet.elim
  | take worker => exact quiet.elim
  | ack delivery ending => exact quiet.elim
  | _ => exact .inl ⟨rfl, rfl⟩

-- A change of phase at one place, which another thread holds, if any does
theorem setPhase_placed (placed : Placed state) (place : Nat) (phase : Phase ι → Phase ι) : Placed (state.setPhase place phase) := by
  have places : ((state.setPhase place phase).entries.map Entry.place) = state.entries.map Entry.place := by
    rw [setPhase, map_map]
    apply map_congr_left
    intro entry _
    simp only [Function.comp]
    split <;> rfl
  refine ⟨by rw [places]; exact placed.nodup, fun entry member => ?_⟩
  have inside : entry.place ∈ state.entries.map Entry.place := places ▸ mem_map_of_mem member
  obtain ⟨old, there, same⟩ := mem_map.mp inside
  rw [← same]
  exact placed.below old there

theorem setPhase_leaves {other : ι} {place : Nat} {phase : Phase ι → Phase ι}
    (apart : ∀ entry ∈ state.entries, entry.place = place → ¬ entry.heldBy other) :
    LeavesHeld other state (state.setPhase place phase) := by
  intro entry member held
  refine mem_map.mpr ⟨entry, member, if_neg fun same => ?_⟩
  exact apart entry member same held

theorem mem_firstPending (found : state.firstPending = some entry) :
    entry ∈ state.entries ∧ entry.phase = .pending := by
  refine ⟨mem_of_find?_eq_some found, ?_⟩
  have pending := find?_some found
  revert pending
  cases entry.phase <;> simp

-- Only a pending message is taken, so no other worker loses one.
theorem take_spec (placed : Placed state) (other : ι) :
    Placed (state.handle (.take thread)).2 ∧ LeavesHeld other state (state.handle (.take thread)).2 ∧
      ∀ delivery, (state.handle (.take thread)).1 = some delivery → Handles thread delivery (state.handle (.take thread)).2 := by
  cases found : state.firstPending with
  | none =>
    have same : state.handle (.take thread) = (none, state) := by
      simp only [Semantics.handle, found]
      rfl
    rw [same]
    exact ⟨placed, fun _ member _ => member, fun _ given => by cases given⟩
  | some entry =>
    obtain ⟨member, pending⟩ := mem_firstPending found
    have taken : Placed (state.setPhase entry.place fun _ => .processing thread) := setPhase_placed placed _ _
    have leaves : LeavesHeld other state (state.setPhase entry.place fun _ => .processing thread) := by
      apply setPhase_leaves
      intro one inside same held
      rw [placed.unique inside member same, Entry.heldBy, pending] at held
      simp at held
    have mine : Handles thread ⟨entry.place, entry.msg⟩ (state.setPhase entry.place fun _ => .processing thread) :=
      mem_map.mpr ⟨entry, member, if_pos rfl⟩
    cases raised : state.faults 0 with
    | none =>
      have same : state.handle (.take thread) =
          (some ⟨entry.place, entry.msg⟩, (state.setPhase entry.place fun _ => .processing thread).faulted.started) := by
        simp only [Semantics.handle, found, raised]
        rfl
      rw [same]
      exact ⟨⟨taken.nodup, taken.below⟩, leaves, fun _ given => Option.some.inj given ▸ mine⟩
    | some fault =>
      have same : state.handle (.take thread) =
          (none, if fault.done then (state.setPhase entry.place fun _ => .processing thread).faulted else state.faulted) := by
        simp only [Semantics.handle, found, raised]
        rfl
      rw [same]
      refine ⟨?_, ?_, fun _ given => by cases given⟩
      · split
        next => exact ⟨taken.nodup, taken.below⟩
        next => exact ⟨placed.nodup, placed.below⟩
      · split
        next => exact leaves
        next => exact fun _ inside _ => inside

-- The end of a handling changes the entry of its own worker only.
theorem finish_spec (placed : Placed state) (owns : Owns thread delivery state) :
    Placed (state.setPhase delivery.place finished) ∧
      (∀ other, other ≠ thread → LeavesHeld other state (state.setPhase delivery.place finished)) ∧
      Owns thread delivery (state.setPhase delivery.place finished) := by
  obtain ⟨entry, member, here, held⟩ := owns
  refine ⟨setPhase_placed placed _ _, fun other different => ?_, ?_⟩
  · apply setPhase_leaves
    intro one inside same heldByOther
    rw [placed.unique inside member (same.trans here.symm)] at heldByOther
    exact different (heldByOther.unique held)
  · refine ⟨{ entry with phase := finished entry.phase }, ?_, here, ?_⟩
    · exact mem_map.mpr ⟨entry, member, if_pos here⟩
    · rcases held with held | held
      · exact .inr (by rw [held]; rfl)
      · exact .inr (by rw [held]; rfl)

theorem ack_spec (placed : Placed state) (owns : Owns thread delivery state) (ending : Ending) :
    Placed (state.handle (.ack delivery ending)).2 ∧
      ∀ other, other ≠ thread → LeavesHeld other state (state.handle (.ack delivery ending)).2 := by
  obtain ⟨entry, member, here, held⟩ := owns
  have removed : Placed (state.remove delivery ending) :=
    ⟨placed.nodup.sublist ((filter_sublist ..).map _), fun one inside => placed.below one (mem_filter.mp inside).1⟩
  have leaves : ∀ other, other ≠ thread → LeavesHeld other state (state.remove delivery ending) := by
    intro other different one inside heldByOther
    refine mem_filter.mpr ⟨inside, ?_⟩
    rw [decide_eq_true_eq]
    intro same
    rw [placed.unique inside member (same.trans here.symm)] at heldByOther
    exact different (heldByOther.unique held)
  cases raised : state.faults 0 with
  | none =>
    have same : (state.handle (.ack delivery ending)).2 = state.faulted.remove delivery ending := by
      simp only [Semantics.handle, attempt, raised]
    rw [same]
    exact ⟨⟨removed.nodup, removed.below⟩, leaves⟩
  | some fault =>
    have same : (state.handle (.ack delivery ending)).2 = if fault.done then state.faulted.remove delivery ending else state.faulted := by
      simp only [Semantics.handle, attempt, raised]
    rw [same]
    split
    next => exact ⟨⟨removed.nodup, removed.below⟩, leaves⟩
    next => exact ⟨⟨placed.nodup, placed.below⟩, fun _ _ _ inside _ => inside⟩

end Calls

-- What holds of the calls made so far, in any interleaving
structure Sound (start : Semantics ι) (world : World ι (SemanticCall ι) (Semantics ι)) : Prop where
  placed : Placed world.state
  replayed : world.state = stateAfter start world.log
  neverLost : NeverLost start world.log
  dropsCovered : DropsCovered start world.log

def retryContract (start : Semantics ι) : Contract ι (SemanticCall ι) (Semantics ι) where
  invariant := Sound start
  rely thread before after := LeavesHeld thread before.state after.state ∧ before.log <:+ after.log
  refl _ _ := ⟨fun _ member _ => member, suffix_rfl⟩
  trans _ _ _ _ first second :=
    ⟨fun entry member held => second.1 entry (first.1 entry member held) held, first.2.trans second.2⟩

section Contracts

variable {start : Semantics ι} {thread : ι} {delivery : Delivery} {world moved : World ι (SemanticCall ι) (Semantics ι)}

theorem HeldAgain.later {log more : Log ι} (held : HeldAgain start log thread delivery) (grown : log <:+ more) :
    HeldAgain start more thread delivery := by
  obtain ⟨earlier, inside, there⟩ := held
  exact ⟨earlier, inside.trans grown, there⟩

theorem Handles.later (handles : Handles thread delivery world.state) (moves : (retryContract start).rely thread world moved) :
    Handles thread delivery moved.state :=
  moves.1 _ handles (.inl rfl)

theorem Owns.later (owns : Owns thread delivery world.state) (moves : (retryContract start).rely thread world moved) :
    Owns thread delivery moved.state := by
  obtain ⟨entry, member, here, held⟩ := owns
  exact ⟨entry, moves.1 entry member held, here, held⟩

-- A call adds itself to the log, so that only what it does itself has to be shown.
theorem Sound.step (sound : Sound start world) {call : SemanticCall ι} (stoodFor : StoodFor call world.state)
    (placed : Placed (world.state.handle call).2)
    (held : ∀ delivery, call = .report delivery .requeue → HeldAgain start world.log thread delivery) :
    Sound start (world.after (machine StoodFor) thread call) where
  placed := placed
  replayed := by
    change (world.state.handle call).2 = ((stateAfter start world.log).handle call).2
    rw [← sound.replayed]
  neverLost := by
    intro worker delivery earlier inside
    rcases suffix_cons_iff.mp inside with same | older
    · obtain ⟨newest, rfl⟩ := List.cons.inj same
      obtain ⟨rfl, rfl⟩ := Prod.mk.inj newest
      exact held delivery rfl
    · exact sound.neverLost worker delivery earlier older
  dropsCovered := by
    intro other retryOf msg earlier inside dropped
    rcases suffix_cons_iff.mp inside with same | older
    · obtain ⟨newest, rfl⟩ := List.cons.inj same
      obtain ⟨rfl, rfl⟩ := Prod.mk.inj newest
      rw [← sound.replayed] at dropped ⊢
      have shut : world.state.last.shut msg.memoryParentSemanticKey (world.state.times 0) = true := by
        by_contra opened
        simp [Semantics.handle, Window.claim, opened] at dropped
      obtain ⟨entry, member, isOpen, covers, -⟩ := stoodFor shut
      exact ⟨entry, member, isOpen, covers⟩
    · exact sound.dropsCovered other retryOf msg earlier older dropped

def IsInner : SemanticCall ι → Prop
  | .take _ | .ack .. | .report .. => False
  | _ => True

theorem IsInner.quiet {call : SemanticCall ι} (inner : IsInner call) : IsQuiet call := by
  cases call <;> trivial

theorem inner_step (sound : Sound start world) {call : SemanticCall ι} (inner : IsInner call) (stoodFor : StoodFor call world.state) :
    Sound start (world.after (machine StoodFor) thread call) ∧
      (∀ other, other ≠ thread → (retryContract start).rely other world (world.after (machine StoodFor) thread call)) ∧
      (Handles thread delivery world.state → Handles thread delivery (world.after (machine StoodFor) thread call).state) := by
  have grows : Extends world.state (world.state.handle call).2 := quiet_extends inner.quiet
  refine ⟨sound.step stoodFor (grows.placed sound.placed) ?_, ?_, grows.mem⟩
  · rintro delivery rfl
    exact inner.elim
  · exact fun other _ => ⟨fun entry member _ => grows.mem member, suffix_cons ..⟩

abbrev Inner {α : Type} (program : Handling ι α) : Prop := Does (fun _ _ => True) IsInner (fun _ => True) (fun _ => True) program

-- A step that fails leaves the delivery to its worker.
abbrev Trying (start : Semantics ι) (thread : ι) (delivery : Delivery) {α : Type} (post : α → World ι (SemanticCall ι) (Semantics ι) → Prop)
    (program : Handling ι α) (world : World ι (SemanticCall ι) (Semantics ι)) : Prop :=
  (retryContract start).Attempts (machine StoodFor) thread post (fun _ later => Handles thread delivery later.state) program world

theorem Inner.respects {α : Type} {program : Handling ι α} (inner : Inner program) (handles : Handles thread delivery world.state) :
    Trying start thread delivery (fun _ later => Handles thread delivery later.state) program world := by
  have within : Within (fun _ _ => True) IsInner (Ends (fun _ => True) fun _ => True) program.run := inner
  have respects : (retryContract start).Respects (machine StoodFor) thread
      (fun result later => Ends (fun _ => True) (fun _ => True) result ∧ Handles thread delivery later.state) program.run world :=
    Respects.of_within (fun _ _ _ moves held => Handles.later held moves) ?_ within handles
  · refine respects.weaken fun result later _ held => ?_
    cases result <;> exact held.2
  · intro call before sound held allowed enabled
    obtain ⟨kept, others, still⟩ := @inner_step _ _ _ delivery _ sound _ allowed enabled
    exact ⟨kept, others, still held⟩

end Contracts

section Programs

variable {start : Semantics ι} {thread : ι} {delivery : Delivery} {world : World ι (SemanticCall ι) (Semantics ι)}

variable {α : Type}

theorem ends_always (result : Except Failure α) : Ends (fun _ => True) (fun _ => True) result := by
  cases result <;> trivial

theorem inner_work (stage : Stage) : Inner (callWork stage : Handling ι Unit) := ⟨trivial, fun _ _ => ends_always _⟩

theorem inner_lift {call : SemanticCall ι} (inner : IsInner call) : Inner (ExceptT.lift (perform call)) :=
  Does.weaken (Does.perform call inner) (fun _ allowed => allowed) (fun _ _ => trivial) fun _ held => held

theorem inner_bind {α β : Type} {program : Handling ι α} {next : α → Handling ι β} (first : Inner program)
    (rest : ∀ value, Inner (next value)) : Inner (program >>= next) :=
  Does.bind first fun value _ => rest value

theorem inner_pure (value : α) : Inner (pure value : Handling ι α) := Does.pure trivial

theorem inner_throw (failure : Failure) : Inner (throw failure : Handling ι α) := Does.throw trivial

theorem inner_ite {condition : Prop} [Decidable condition] {first second : Handling ι α} (one : Inner first)
    (other : Inner second) : Inner (if condition then first else second) := by
  split
  next => exact one
  next => exact other

theorem inner_run {program : Handling ι α} (inner : Inner program) :
    Inner (ExceptT.lift program.run : Handling ι (Except Failure α)) := by
  have within : Within (fun _ _ => True) IsInner (Ends (fun _ => True) fun _ => True) program.run := inner
  rw [Inner, Does, ExceptT.run_lift, ← bind_pure_comp]
  exact within.bind fun _ _ => trivial

theorem inner_enqueue (retryOf : Option Delivery) (msg : SemanticMsg) : Inner (enqueue retryOf msg : Handling ι Enqueued) := by
  refine inner_bind (inner_ite (inner_lift trivial) (inner_pure _)) fun repeated => inner_ite (inner_pure _) ?_
  refine inner_bind (inner_ite ?_ (inner_pure _)) fun versioned => ?_
  · exact inner_bind (inner_lift trivial) fun _ => inner_pure _
  · exact inner_bind ⟨trivial, fun _ _ => ends_always _⟩ fun _ => inner_pure _

theorem inner_writeAbstractOverview (delivery : Delivery) (msg : SemanticMsg) :
    Inner (writeAbstractOverview delivery msg : Handling ι Bool) := by
  refine inner_bind (inner_lift trivial) fun stale => inner_ite (inner_pure _) ?_
  exact inner_bind (inner_work _) fun _ => ⟨trivial, fun _ _ => ends_always _⟩

theorem inner_processMemoryDirectory (delivery : Delivery) (msg : SemanticMsg) :
    Inner (processMemoryDirectory delivery msg : Handling ι Unit) := by
  refine inner_bind (inner_work _) fun _ => inner_bind (inner_lift trivial) fun _ => inner_ite ?_ (inner_pure _)
  refine inner_bind (inner_work _) fun _ => inner_bind (inner_work _) fun _ => ?_
  refine inner_bind (inner_writeAbstractOverview delivery msg) fun _ => inner_ite ?_ (inner_pure _)
  exact inner_ite (inner_pure _) (inner_work _)

theorem inner_runExecutor (delivery : Delivery) (msg : SemanticMsg) : Inner (runExecutor delivery msg : Handling ι Bool) := by
  refine inner_bind (inner_work _) fun _ => inner_ite (inner_pure _) ?_
  refine inner_bind (inner_bind (inner_lift trivial) fun _ => inner_ite (inner_lift trivial) (inner_pure _)) fun early => ?_
  refine inner_bind (inner_lift trivial) fun _ => inner_ite ?_ (inner_pure _)
  refine inner_bind (inner_run (inner_writeAbstractOverview delivery msg)) fun written => ?_
  cases written with
  | error failure =>
    refine inner_bind (inner_lift trivial) fun _ => inner_ite (inner_throw _) ?_
    exact inner_bind (inner_ite (inner_pure _) (inner_work _)) fun _ => inner_pure _
  | ok wrote => exact inner_bind (inner_ite (inner_work _) (inner_pure _)) fun _ => inner_pure _

theorem inner_valueError (message : Text) : Inner (ExceptT.lift (valueError message) : Handling ι Failure) :=
  ⟨trivial, fun _ _ => trivial⟩

theorem inner_planParentRefresh : Inner (planParentRefresh : Handling ι Bool) := by
  refine inner_bind ?_ fun _ => inner_ite (inner_lift trivial) (inner_pure _)
  refine Does.tryCatch (inner_bind (inner_work _) fun _ => inner_pure _) fun failure _ => ?_
  exact inner_ite (inner_pure _) (inner_throw _)

theorem inner_enqueueParentRefresh (msg : SemanticMsg) (uri : Text) : Inner (enqueueParentRefresh msg uri : Handling ι Unit) := by
  refine inner_ite (inner_pure _) ?_
  split
  next => exact inner_bind (inner_valueError _) fun _ => inner_throw _
  next => exact inner_pure _
  next =>
    refine inner_ite (inner_pure _) (inner_bind (inner_work _) fun _ => ?_)
    refine inner_bind inner_planParentRefresh fun _ => inner_ite ?_ (inner_pure _)
    refine inner_bind (inner_work _) fun _ => inner_bind (inner_lift trivial) fun _ => ?_
    exact inner_bind (inner_enqueue _ _) fun _ => inner_pure _

theorem inner_processDirectory (delivery : Delivery) (msg : SemanticMsg) : Inner (processDirectory delivery msg : Handling ι Ending) := by
  refine inner_ite (inner_bind (inner_processMemoryDirectory delivery msg) fun _ => inner_pure _) ?_
  refine inner_bind (inner_ite (inner_bind (inner_work _) fun _ => ?_) (inner_pure _)) fun _ => ?_
  · exact inner_ite (inner_work _) (inner_pure _)
  · refine inner_bind (inner_runExecutor delivery msg) fun _ => inner_ite (inner_pure _) ?_
    exact inner_bind (inner_ite (inner_enqueueParentRefresh _ _) (inner_pure _)) fun _ => inner_pure _

theorem inner_resolveLock (msg : SemanticMsg) : Inner (resolveLock msg : Handling ι Bool) := by
  rw [resolveLock]
  split
  next => exact inner_pure _
  next =>
    refine Does.tryCatch (inner_bind (inner_work _) fun _ => inner_pure _) fun failure _ => ?_
    exact inner_ite (inner_bind (inner_work _) fun _ => inner_pure _) (inner_throw _)

theorem inner_closing (owned : Bool) {body : Handling ι α} (inner : Inner body) : Inner (closing owned body) := by
  refine inner_bind (inner_run inner) fun result => inner_bind (inner_ite (inner_work _) (inner_pure _)) fun _ => ?_
  cases result with
  | ok value => exact inner_pure _
  | error failure => exact inner_throw _

theorem handles_stable (_ : α) (before after : World ι (SemanticCall ι) (Semantics ι))
    (moves : (retryContract start).rely thread before after) (handles : Handles thread delivery before.state) :
    Handles thread delivery after.state := handles.later moves

section

variable (handles : Handles thread delivery world.state) (msg : SemanticMsg)

include handles msg

-- A retried message that is dropped is stood for by another one in the queue.
theorem attempts_claimWindow :
    (retryContract start).Attempts (machine StoodFor) thread
      (fun repeated later => Handles thread delivery later.state ∧ (repeated = true → HeldAgain start later.log thread delivery))
      (fun _ later => Handles thread delivery later.state) (callClaimWindow (some delivery) msg) world := by
  intro before sound moves stoodFor
  have mine := handles.later moves
  obtain ⟨kept, others, still⟩ := @inner_step _ _ thread delivery _ sound (.claimWindow (some delivery) msg) trivial stoodFor
  refine ⟨kept, others, fun after _ later => ⟨(still mine).later later, fun repeated => ?_⟩⟩
  have shut : before.state.last.shut msg.memoryParentSemanticKey (before.state.times 0) = true := by
    by_contra opened
    have answer : (before.state.last.claim msg.memoryParentSemanticKey (before.state.times 0)).1 = true := repeated
    simp [Window.claim, opened] at answer
  obtain ⟨entry, member, -, -, stands⟩ := stoodFor shut
  have held : HeldAgain start before.log thread delivery := by
    refine ⟨before.log, suffix_rfl, ?_⟩
    rw [← sound.replayed]
    exact ⟨mine, entry, member, stands delivery rfl⟩
  exact held.later ((suffix_cons ..).trans later.2)

theorem attempts_store :
    Trying start thread delivery (fun _ later => Handles thread delivery later.state ∧ HeldAgain start later.log thread delivery)
      (callStore (some delivery) msg) world := by
  intro before sound moves sameWork
  have mine := handles.later moves
  obtain ⟨kept, others, still⟩ := @inner_step _ _ thread delivery _ sound (.store (some delivery) msg) trivial sameWork
  refine ⟨kept, others, fun after _ later => ?_⟩
  cases raised : before.state.faults 0 with
  | some fault =>
    have failed : (before.state.handle (.store (some delivery) msg)).1 = .error fault.failure := by
      simp only [Semantics.handle, attempt, raised]
      rfl
    change Leaves _ _ (before.state.handle (.store (some delivery) msg)).1 after
    rw [failed]
    exact (still mine).later later
  | none =>
    have stored : before.state.handle (.store (some delivery) msg) = (.ok (), before.state.faulted.append msg) := by
      simp only [Semantics.handle, attempt, raised]
      rfl
    have held : HeldAgain start (before.after (machine StoodFor) thread (.store (some delivery) msg)).log thread delivery := by
      refine ⟨_, suffix_rfl, ?_⟩
      rw [← kept.replayed]
      refine ⟨still mine, ⟨before.state.nextPlace, msg, .pending⟩, ?_, ?_, sameWork⟩
      · change _ ∈ (before.state.handle (.store (some delivery) msg)).2.entries
        rw [stored]
        exact mem_append_right _ (mem_singleton_self _)
      · exact (sound.placed.below _ mine).ne'
    change Leaves _ _ (before.state.handle (.store (some delivery) msg)).1 after
    rw [stored]
    exact ⟨(still mine).later later, held.later later.2⟩

theorem attempts_reenqueue :
    Trying start thread delivery (fun _ later => Handles thread delivery later.state ∧ HeldAgain start later.log thread delivery)
      (reenqueueSemanticMsg delivery msg) world := by
  have pass {after : World ι (SemanticCall ι) (Semantics ι)} {α : Type} {value : α}
      (held : Handles thread delivery after.state ∧ HeldAgain start after.log thread delivery) :
      Trying start thread delivery (fun _ later => Handles thread delivery later.state ∧ HeldAgain start later.log thread delivery)
        (pure value : Handling ι α) after :=
    Attempts.pure fun later moves => ⟨held.1.later moves, held.2.later moves.2⟩
  refine ((inner_work _).respects handles).bind handles_stable fun _ first _ mine => ?_
  refine Attempts.bind ?_ handles_stable fun _ second _ held => pass held
  have claimed : (retryContract start).Attempts (machine StoodFor) thread
      (fun repeated later => Handles thread delivery later.state ∧ (repeated = true → HeldAgain start later.log thread delivery))
      (fun _ later => Handles thread delivery later.state)
      (if msg.isPlainMemory then callClaimWindow (some delivery) msg else pure false) first := by
    split
    next => exact attempts_claimWindow mine msg
    next => exact Attempts.pure fun later moves => ⟨mine.later moves, fun no => by cases no⟩
  refine claimed.bind handles_stable fun repeated second _ held => ?_
  split
  next dropped => exact pass ⟨held.1, held.2 dropped⟩
  next =>
    have versioned : Inner (if msg.coalesceKey ≠ [] then do
        let version ← callNextVersion msg
        pure { msg with coalesceVersion := version }
      else pure msg : Handling ι SemanticMsg) :=
      inner_ite (inner_bind (inner_lift trivial) fun _ => inner_pure _) (inner_pure _)
    refine (versioned.respects held.1).bind handles_stable fun versioned third _ mine => ?_
    exact (attempts_store mine versioned).bind handles_stable fun _ _ _ held => pass held

end

variable {post : Unit → World ι (SemanticCall ι) (Semantics ι) → Prop}

theorem respects_requeue (handles : Handles thread delivery world.state) (held : HeldAgain start world.log thread delivery) :
    (retryContract start).Respects (machine StoodFor) thread (fun _ later => Handles thread delivery later.state)
      (report delivery .requeue) world := by
  intro before sound moves _
  have mine := handles.later moves
  have grows : Extends before.state (before.state.handle (.report delivery .requeue)).2 := quiet_extends trivial
  refine ⟨sound.step trivial (grows.placed sound.placed) ?_, ?_, ?_⟩
  · rintro _ ⟨⟩
    exact held.later moves.2
  · exact fun other _ => ⟨fun entry member _ => grows.mem member, suffix_cons ..⟩
  · exact fun after _ later => @Handles.later _ _ _ _ (before.after (machine StoodFor) thread (.report delivery .requeue)) _ (grows.mem mine) later

theorem respects_end (owns : Owns thread delivery world.state) {outcome : Outcome} (ends : outcome ≠ .requeue) :
    (retryContract start).Respects (machine StoodFor) thread (fun _ later => Owns thread delivery later.state)
      (report delivery outcome) world := by
  intro before sound moves _
  obtain ⟨placed, leaves, mine⟩ := finish_spec sound.placed (owns.later moves)
  have entries : (before.state.handle (.report delivery outcome)).2.entries = (before.state.setPhase delivery.place finished).entries ∧
      (before.state.handle (.report delivery outcome)).2.nextPlace = before.state.nextPlace := by
    cases outcome with
    | requeue => exact absurd rfl ends
    | success => exact ⟨rfl, rfl⟩
    | error message => exact ⟨rfl, rfl⟩
  have kept : Placed (before.state.handle (.report delivery outcome)).2 :=
    ⟨by rw [entries.1]; exact placed.nodup, by rw [entries.1, entries.2]; exact placed.below⟩
  refine ⟨sound.step (by cases outcome <;> trivial) kept ?_, fun other different => ⟨?_, suffix_cons ..⟩, ?_⟩
  · rintro _ ⟨⟩
    exact absurd rfl ends
  · intro entry member held
    change entry ∈ (before.state.handle (.report delivery outcome)).2.entries
    rw [entries.1]
    exact leaves other different entry member held
  · intro after _ later
    have now : Owns thread delivery (before.after (machine StoodFor) thread (.report delivery outcome)).state := by
      change ∃ entry ∈ (before.state.handle (.report delivery outcome)).2.entries, _
      rw [entries.1]
      exact mine
    exact now.later later

end Programs

section Handlers

variable {start : Semantics ι} {thread : ι} {delivery : Delivery} {world : World ι (SemanticCall ι) (Semantics ι)}

-- What a handler leaves is still its worker's entry.
abbrev Keeps (start : Semantics ι) (thread : ι) (delivery : Delivery) {α : Type} (program : Prog (SemanticCall ι) SemanticCall.Answer α)
    (world : World ι (SemanticCall ι) (Semantics ι)) : Prop :=
  (retryContract start).Respects (machine StoodFor) thread (fun _ later => Owns thread delivery later.state) program world

theorem keeps_value {α : Type} (owns : Owns thread delivery world.state) (value : α) : Keeps start thread delivery (pure value) world :=
  fun _ _ moves => owns.later moves

theorem keeps_reported (owns : Owns thread delivery world.state) {outcome : Outcome} (ends : outcome ≠ .requeue) (ending : Ending) :
    Keeps start thread delivery (do
      report delivery outcome
      pure ending) world :=
  (respects_end owns ends).bind fun _ _ _ owns => keeps_value owns ending

theorem keeps_requeue (handles : Handles thread delivery world.state) (msg : SemanticMsg) (failure : Failure) :
    Keeps start thread delivery (requeueSemanticMsgAfterError delivery msg failure) world := by
  refine Respects.bind (attempts_reenqueue handles msg) fun result later _ ends => ?_
  cases result with
  | ok value =>
    refine (respects_requeue ends.1 ends.2).bind fun _ _ _ mine => ?_
    exact keeps_reported mine.owns (by simp) _
  | error raised => exact keeps_reported (Handles.owns ends) (by simp) _

theorem keeps_after {α : Type} {call : SemanticCall ι} (inner : IsInner call) {next : call.Answer → Prog (SemanticCall ι) SemanticCall.Answer α}
    (handles : Handles thread delivery world.state)
    (rest : ∀ answer later, Handles thread delivery later.state → Keeps start thread delivery (next answer) later) :
    Keeps start thread delivery (perform call >>= next) world := by
  intro before sound moves stoodFor
  obtain ⟨kept, others, still⟩ := @inner_step _ _ thread delivery _ sound call inner stoodFor
  exact ⟨kept, others, rest _ _ (still (handles.later moves))⟩

section

variable (handles : Handles thread delivery world.state) (msg : Option SemanticMsg) (failure : Failure)

include handles msg failure

theorem keeps_retryOrReport :
    Keeps start thread delivery (retryOrReport delivery msg failure) world := by
  cases msg with
  | some msg => exact keeps_requeue handles msg failure
  | none => exact keeps_reported handles.owns (by simp) _

theorem keeps_afterError :
    Keeps start thread delivery (afterError delivery msg failure) world := by
  have recorded {next : Prog (SemanticCall ι) SemanticCall.Answer Ending}
      (rest : ∀ later : World ι (SemanticCall ι) (Semantics ι), Handles thread delivery later.state → Keeps start thread delivery next later) :
      Keeps start thread delivery (do
        perform (SemanticCall.recordFailure failure.errorClass)
        next) world :=
    @keeps_after _ _ _ _ _ _ (.recordFailure failure.errorClass) trivial (fun _ => next) handles fun _ later mine => rest later mine
  unfold afterError
  split
  next => exact keeps_retryOrReport handles msg failure
  next =>
    split
    next => exact keeps_reported handles.owns (by simp) _
    next => exact recorded fun later mine => keeps_reported mine.owns (by simp) _
    next => exact recorded fun later mine => keeps_retryOrReport mine msg failure

end

theorem attempts_after {α : Type} {call : SemanticCall ι} (inner : IsInner call) {next : call.Answer → Handling ι α}
    (handles : Handles thread delivery world.state)
    (rest : ∀ answer later, Handles thread delivery later.state →
      Trying start thread delivery (fun _ later => Owns thread delivery later.state) (next answer) later) :
    Trying start thread delivery (fun _ later => Owns thread delivery later.state) (ExceptT.lift (perform call) >>= next) world := by
  intro before sound moves stoodFor
  obtain ⟨kept, others, still⟩ := @inner_step _ _ thread delivery _ sound call inner stoodFor
  exact ⟨kept, others, rest _ _ (still (handles.later moves))⟩

theorem attempts_report {α : Type} {outcome : Outcome} {next : Unit → Handling ι α} {fails : Failure → World ι (SemanticCall ι) (Semantics ι) → Prop}
    {mid : World ι (SemanticCall ι) (Semantics ι) → Prop} {post : α → World ι (SemanticCall ι) (Semantics ι) → Prop}
    (respects : (retryContract start).Respects (machine StoodFor) thread (fun _ later => mid later) (report delivery outcome) world)
    (rest : ∀ later, mid later → (retryContract start).Attempts (machine StoodFor) thread post fails (next ()) later) :
    (retryContract start).Attempts (machine StoodFor) thread post fails (ExceptT.lift (report delivery outcome) >>= next) world := by
  intro before sound moves enabled
  obtain ⟨kept, others, held⟩ := respects before sound moves enabled
  refine ⟨kept, others, Respects.of_later fun later soundLater moved => ?_⟩
  exact rest later (held later soundLater moved)

section

variable (handles : Handles thread delivery world.state)

include handles

theorem attempts_processMessage (msg : SemanticMsg) :
    Trying start thread delivery (fun _ later => Owns thread delivery later.state) (processMessage delivery msg) world := by
  have ended {later : World ι (SemanticCall ι) (Semantics ι)} (owns : Owns thread delivery later.state) (ending : Ending) :
      Trying start thread delivery (fun _ later => Owns thread delivery later.state) (pure ending : Handling ι Ending) later :=
    Attempts.pure fun _ moves => owns.later moves
  refine @attempts_after _ _ _ _ _ _ .breakerCheck trivial _ handles fun opened first mine => ?_
  split
  next =>
    refine (attempts_reenqueue mine msg).bind handles_stable fun _ second _ held => ?_
    refine attempts_report (respects_requeue held.1 held.2) fun third mine => ?_
    exact attempts_report (respects_end mine.owns (by simp)) fun fourth owns => ended owns _
  next =>
    refine ((inner_work _).respects mine).bind handles_stable fun _ second _ mine => ?_
    refine ((inner_resolveLock msg).respects mine).bind handles_stable fun owned third _ mine => ?_
    refine ((inner_closing owned (inner_processDirectory delivery msg)).respects mine).bind handles_stable fun ending fourth _ mine => ?_
    refine attempts_report (respects_end mine.owns (by simp)) fun fifth owns => ?_
    -- The breaker hears of the success last.
    intro before sound moves enabled
    have grows : Extends before.state (before.state.handle .recordSuccess).2 := quiet_extends trivial
    obtain ⟨kept, others, -⟩ := @inner_step _ _ thread delivery _ sound .recordSuccess trivial enabled
    obtain ⟨entry, member, here, held⟩ := owns.later moves
    have still : Owns thread delivery (before.after (machine StoodFor) thread .recordSuccess).state := ⟨entry, grows.mem member, here, held⟩
    exact ⟨kept, others, fun _ _ moved => still.later moved⟩

theorem keeps_handled (msg : SemanticMsg) :
    Keeps start thread delivery (handled delivery msg) world := by
  refine Respects.bind (attempts_processMessage handles msg) fun result later _ ends => ?_
  cases result with
  | ok ending => exact keeps_value ends ending
  | error failure => exact keeps_afterError ends (some msg) failure

theorem keeps_onDequeue : Keeps start thread delivery (onDequeue delivery) world := by
  have raised (message : Text) (msg : Option SemanticMsg) : Keeps start thread delivery (do
      let failure ← valueError message
      afterError delivery msg failure) world :=
    @keeps_after _ _ _ _ _ _ (.classify message) trivial _ handles fun _ later mine => keeps_afterError mine msg _
  rw [onDequeue]
  split
  next => exact raised _ _
  next msg _ =>
    split
    next => exact raised _ _
    next => exact keeps_reported handles.owns (by simp) _
    next =>
      refine @keeps_after _ _ _ _ _ _ (.isStale msg) trivial _ handles fun stale later mine => ?_
      split
      next => exact keeps_reported mine.owns (by simp) _
      next => exact keeps_handled mine _

end

theorem respects_serve : (retryContract start).Respects (machine StoodFor) thread (fun _ _ => True) (serve thread) world := by
  intro before sound moves _
  obtain ⟨placed, -, -⟩ := @take_spec _ thread _ sound.placed thread
  refine ⟨sound.step trivial placed (by rintro _ ⟨⟩), fun other _ => ⟨(take_spec sound.placed other).2.1, suffix_cons ..⟩, ?_⟩
  have mine := (@take_spec _ thread _ sound.placed thread).2.2
  dsimp only [Prog.bind]
  cases taken : ((machine StoodFor).handle (.take thread) before.state).1 with
  | none => exact fun _ _ _ => trivial
  | some delivery =>
    have handles : Handles thread delivery (before.after (machine StoodFor) thread (.take thread)).state := mine delivery taken
    refine (keeps_onDequeue handles).bind fun ending later _ owns => ?_
    intro last soundLast movedLast _
    obtain ⟨placedLast, leaves⟩ := ack_spec soundLast.placed (owns.later movedLast) ending
    refine ⟨soundLast.step trivial placedLast (by rintro _ ⟨⟩), fun other different => ⟨leaves other different, suffix_cons ..⟩, ?_⟩
    exact fun _ _ _ => trivial

theorem respects_request (msg : SemanticMsg) :
    (retryContract start).Respects (machine StoodFor) thread (fun _ _ => True) ((Activity.request msg).program thread) world := by
  have inner : Inner (do
      let id ← callDraw
      enqueue none { msg with id := id } : Handling ι Enqueued) :=
    inner_bind (inner_lift trivial) fun _ => inner_enqueue _ _
  have within : Within (fun _ _ => True) IsInner (fun _ => True) ((Activity.request msg).program thread) :=
    Within.bind inner fun _ _ => trivial
  have respects : (retryContract start).Respects (machine StoodFor) thread (fun _ _ => True ∧ True)
      ((Activity.request msg).program thread) world := by
    refine Respects.of_within (fun _ _ _ _ (held : True) => held) ?_ within trivial
    intro call before sound _ allowed enabled
    have grows : Extends before.state (before.state.handle call).2 := quiet_extends allowed.quiet
    refine ⟨sound.step enabled (grows.placed sound.placed) ?_, fun other _ => ⟨fun entry member _ => grows.mem member, suffix_cons ..⟩, trivial⟩
    rintro delivery rfl
    exact allowed.elim
  exact respects.weaken fun _ _ _ _ => trivial

theorem respects_activities (jobs : List Activity) :
    (retryContract start).Respects (machine StoodFor) thread (fun _ _ => True) (activities thread jobs) world := by
  induction jobs generalizing world with
  | nil => exact fun _ _ _ => trivial
  | cons activity rest ih =>
    cases activity with
    | request msg => exact (respects_request msg).bind fun _ _ _ _ => ih
    | serve => exact respects_serve.bind fun _ _ _ _ => ih

end Handlers

section Runs

variable [DecidableEq ι] {start : Semantics ι}

theorem retried_never_lost (jobs : ι → List Activity) (placed : Placed start)
    {pool : Pool ι (SemanticCall ι) SemanticCall.Answer Unit (Semantics ι)}
    (reached : Pool.Reaches (machine StoodFor) (started jobs start) pool) :
    NeverLost start pool.log ∧ DropsCovered start pool.log := by
  have holds : (retryContract start).Holds (machine StoodFor) (fun _ _ _ => True) (started jobs start) := by
    refine ⟨⟨placed, rfl, ?_, ?_⟩, fun thread => respects_activities (jobs thread)⟩
    · intro worker delivery earlier inside
      exact absurd (suffix_nil.mp inside) (by simp)
    · intro thread retryOf msg earlier inside
      exact absurd (suffix_nil.mp inside) (by simp)
  have sound := (holds.reaches reached).invariant
  exact ⟨sound.neverLost, sound.dropsCovered⟩

end Runs

namespace Small

instance (call : SemanticCall Bool) (state : Semantics Bool) : Decidable ((machine fun _ _ => True).enabled call state) :=
  inferInstanceAs (Decidable True)

instance (call : SemanticCall Bool) (state : Semantics Bool) : Decidable ((machine StoodFor).enabled call state) :=
  match call with
  | .claimWindow _ _ => inferInstanceAs (Decidable (_ → _))
  | .store (some delivery) msg => inferInstanceAs (Decidable (msg.SameWork delivery.msg))
  | .store none _ | .draw | .nextVersion _ | .isStale _ | .breakerCheck | .recordFailure _ | .recordSuccess | .classify _ | .work _
  | .ask _ | .writeSidecars .. | .take _ | .report .. | .ack .. => Decidable.isTrue trivial

-- One message is enqueued at 50 seconds; ten seconds later its directory cannot be listed.
def unlisted : Semantics Bool where
  times turn := if turn = 0 then seconds 50 else seconds 60
  faults turn := if turn = 3 then some ⟨{ errorClass := .transient }, false⟩ else none

def memoryNotes : SemanticMsg := { uri := "viking://user/a/memories", contextType := "memory" }

def resourceNotes : SemanticMsg := { uri := "viking://resources/notes", contextType := "resource" }

def oneServed (msg : SemanticMsg) : Bool → List Activity
  | false => [.request msg]
  | true => [.serve]

def enqueuedThenServed : List Bool := List.replicate 3 false ++ List.replicate 20 true

def retriedRun : Pool Bool (SemanticCall Bool) SemanticCall.Answer Unit (Semantics Bool) :=
  Pool.follow (machine StoodFor) enqueuedThenServed (started (oneServed resourceNotes) unlisted)

theorem resource_message_kept :
    retriedRun.state.status.requeueCount = 1 ∧ retriedRun.state.entries.length = 1 ∧
      NeverLost unlisted retriedRun.log ∧ DropsCovered unlisted retriedRun.log := by
  have placed : Placed unlisted := ⟨nodup_nil, fun _ inside => absurd inside (not_mem_nil)⟩
  exact ⟨by decide, by decide, retried_never_lost (oneServed resourceNotes) placed (Pool.reaches_follow _ _ _)⟩

def droppedRun : Pool Bool (SemanticCall Bool) SemanticCall.Answer Unit (Semantics Bool) :=
  Pool.follow (machine fun _ _ => True) enqueuedThenServed (started (oneServed memoryNotes) unlisted)

theorem same_of_short {α : Type} {items : List α} (few : items.length ≤ 1) {one other : α} (first : one ∈ items) (second : other ∈ items) :
    one = other := by
  match items with
  | [] => cases first
  | [only] => rw [mem_singleton.mp first, mem_singleton.mp second]

-- Where there was never a second message, none was held beside the first.
theorem not_neverLost {start : Semantics Bool} {log : Log Bool} {worker : Bool} {delivery : Delivery} {count : Nat}
    (reported : log.drop count = (worker, .report delivery .requeue) :: log.drop (count + 1))
    (single : ∀ earlier ∈ (log.drop (count + 1)).tails, (stateAfter start earlier).entries.length ≤ 1) : ¬ NeverLost start log := by
  intro neverLost
  have inside : (worker, SemanticCall.report delivery .requeue) :: log.drop (count + 1) <:+ log := by
    rw [← reported]
    exact drop_suffix count log
  obtain ⟨earlier, tail, mine, again, member, apart, -⟩ := neverLost worker delivery _ inside
  rw [same_of_short (single earlier ((mem_tails ..).mpr tail)) member mine] at apart
  exact apart rfl

-- The retry falls into the window that its own message opened, and the queue is empty in the end.
theorem memory_message_lost :
    ∃ pool : Pool Bool (SemanticCall Bool) SemanticCall.Answer Unit (Semantics Bool),
      Pool.Reaches (machine fun _ _ => True) (started (oneServed memoryNotes) unlisted) pool ∧
        pool.state.entries.length = 0 ∧ ¬ NeverLost unlisted pool.log := by
  refine ⟨droppedRun, Pool.reaches_follow _ _ _, by decide, ?_⟩
  have reported : droppedRun.log.drop 2 = (true, .report ⟨0, memoryNotes⟩ .requeue) :: droppedRun.log.drop 3 := by decide
  have single : ∀ earlier ∈ (droppedRun.log.drop 3).tails, (stateAfter unlisted earlier).entries.length ≤ 1 := by decide
  exact not_neverLost reported single

end Small

end LoginomDock.Semantic
