import LoginomDock.Library.Calls
import Mathlib.Logic.Function.Basic
import Mathlib.Logic.Relation

/-! Several threads run programs over one shared state. -/

namespace LoginomDock

structure Machine (Op : Type) (Res : Op → Type) (σ : Type) where
  handle : (op : Op) → σ → Res op × σ
  enabled : Op → σ → Prop

-- The shared state, and the calls made so far, newest first.
structure World (ι Op σ : Type) where
  state : σ
  log : List (ι × Op)

structure Pool (ι Op : Type) (Res : Op → Type) (α σ : Type) extends World ι Op σ where
  threads : ι → Prog Op Res α

variable {ι Op σ α β ε : Type} {Res : Op → Type}

def World.after (machine : Machine Op Res σ) (world : World ι Op σ) (thread : ι) (op : Op) : World ι Op σ where
  state := (machine.handle op world.state).2
  log := (thread, op) :: world.log

section

variable (machine : Machine Op Res σ) (world : World ι Op σ) (thread : ι) (op : Op)

@[simp] theorem World.after_state : (world.after machine thread op).state = (machine.handle op world.state).2 := rfl

@[simp] theorem World.after_log : (world.after machine thread op).log = (thread, op) :: world.log := rfl

end

-- The state after the calls of a log, newest first.
def Machine.replay (machine : Machine Op Res σ) (start : σ) : List (ι × Op) → σ
  | [] => start
  | (_, op) :: earlier => (machine.handle op (machine.replay start earlier)).2

namespace Pool

variable [DecidableEq ι] (machine : Machine Op Res σ)

inductive Step : Pool ι Op Res α σ → Pool ι Op Res α σ → Prop where
  | call (pool : Pool ι Op Res α σ) (thread : ι) (op : Op) (rest : Res op → Prog Op Res α)
      (next : pool.threads thread = .call op rest) (enabled : machine.enabled op pool.state) :
      Step pool {
        toWorld := pool.toWorld.after machine thread op
        threads := Function.update pool.threads thread (rest (machine.handle op pool.state).1) }

def Reaches : Pool ι Op Res α σ → Pool ι Op Res α σ → Prop := Relation.ReflTransGen (Step machine)

def follow [∀ op state, Decidable (machine.enabled op state)] : List ι → Pool ι Op Res α σ → Pool ι Op Res α σ
  | [], pool => pool
  | thread :: order, pool =>
    match pool.threads thread with
    | .done _ => follow order pool
    | .call op rest =>
      if machine.enabled op pool.state then
        follow order {
          toWorld := pool.toWorld.after machine thread op
          threads := Function.update pool.threads thread (rest (machine.handle op pool.state).1) }
      else follow order pool

theorem reaches_follow [∀ op state, Decidable (machine.enabled op state)] (order : List ι)
    (pool : Pool ι Op Res α σ) : Reaches machine pool (follow machine order pool) := by
  induction order generalizing pool with
  | nil => exact .refl
  | cons thread order ih =>
    rw [follow]
    split
    · exact ih pool
    next op rest next =>
      split
      next enabled => exact .head (.call pool thread op rest next enabled) (ih _)
      next => exact ih pool

variable {start pool : Pool ι Op Res α σ}

theorem state_eq_replay {machine : Machine Op Res σ} (silent : start.log = [])
    (reached : Reaches machine start pool) : pool.state = machine.replay start.state pool.log := by
  induction reached with
  | refl => rw [silent, Machine.replay]
  | tail _ step ih =>
    obtain ⟨thread, op, rest, next, enabled⟩ := step
    simp only [World.after, Machine.replay, ← ih]

theorem log_suffix {machine : Machine Op Res σ} (reached : Reaches machine start pool) : start.log <:+ pool.log := by
  induction reached with
  | refl => exact List.suffix_refl _
  | tail _ step ih =>
    cases step
    exact ih.trans (List.suffix_cons _ _)

theorem invariant_of_within {machine : Machine Op Res σ} {answers : (op : Op) → Res op → Prop} {allowed : Op → Prop}
    {post : α → Prop} {invariant : World ι Op σ → Prop}
    (keeps : ∀ thread op world, invariant world → allowed op → machine.enabled op world.state →
      answers op (machine.handle op world.state).1 ∧ invariant (world.after machine thread op)) (initially : invariant start.toWorld)
    (within : ∀ thread, Prog.Within answers allowed post (start.threads thread))
    (reached : Reaches machine start pool) :
    invariant pool.toWorld ∧ ∀ thread, Prog.Within answers allowed post (pool.threads thread) := by
  induction reached with
  | refl => exact ⟨initially, within⟩
  | tail _ step ih =>
    obtain ⟨thread, op, rest, next, enabled⟩ := step
    obtain ⟨holds, programs⟩ := ih
    have here := programs thread
    rw [next] at here
    obtain ⟨given, kept⟩ := keeps thread op _ holds here.1 enabled
    refine ⟨kept, fun other => ?_⟩
    by_cases same : other = thread
    · subst same
      simpa using here.2 _ given
    · simpa [same] using programs other

end Pool

structure Contract (ι Op σ : Type) where
  invariant : World ι Op σ → Prop
  rely : ι → World ι Op σ → World ι Op σ → Prop
  refl : ∀ thread world, rely thread world world
  trans : ∀ thread first second third, rely thread first second → rely thread second third →
    rely thread first third

namespace Contract

variable (contract : Contract ι Op σ) (machine : Machine Op Res σ) (thread : ι)

def Respects (post : α → World ι Op σ → Prop) : Prog Op Res α → World ι Op σ → Prop
  | .done value, world => ∀ later, contract.invariant later → contract.rely thread world later → post value later
  | .call op rest, world => ∀ later, contract.invariant later → contract.rely thread world later →
      machine.enabled op later.state →
        contract.invariant (later.after machine thread op) ∧
          (∀ other, other ≠ thread → contract.rely other later (later.after machine thread op)) ∧
          Respects post (rest (machine.handle op later.state).1) (later.after machine thread op)

variable {contract machine thread} {post : α → World ι Op σ → Prop} {world : World ι Op σ}
  {program : Prog Op Res α}

theorem Respects.later {later : World ι Op σ} (respects : contract.Respects machine thread post program world)
    (moves : contract.rely thread world later) : contract.Respects machine thread post program later := by
  cases program with
  | done value => exact fun last holds more => respects last holds (contract.trans _ _ _ _ moves more)
  | call op rest => exact fun last holds more => respects last holds (contract.trans _ _ _ _ moves more)

theorem Respects.of_later (respects : ∀ later, contract.invariant later → contract.rely thread world later →
    contract.Respects machine thread post program later) : contract.Respects machine thread post program world := by
  cases program with
  | done value => exact fun later holds moves => respects later holds moves later holds (contract.refl _ _)
  | call op rest => exact fun later holds moves => respects later holds moves later holds (contract.refl _ _)

variable {weaker : α → World ι Op σ → Prop}

theorem Respects.weaken
    (respects : contract.Respects machine thread post program world)
    (weak : ∀ value later, contract.invariant later → post value later → weaker value later) :
    contract.Respects machine thread weaker program world := by
  induction program generalizing world with
  | done value => exact fun later holds moves => weak value later holds (respects later holds moves)
  | call op rest ih =>
    intro later holds moves enabled
    obtain ⟨kept, others, continued⟩ := respects later holds moves enabled
    exact ⟨kept, others, ih _ continued⟩

variable {after : β → World ι Op σ → Prop}

theorem Respects.bind {next : α → Prog Op Res β}
    (respects : contract.Respects machine thread post program world)
    (rest : ∀ value later, contract.invariant later → post value later →
      contract.Respects machine thread after (next value) later) :
    contract.Respects machine thread after (program >>= next) world := by
  induction program generalizing world with
  | done value =>
    exact .of_later fun later holds moves => rest value later holds (respects later holds moves)
  | call op more ih =>
    intro later holds moves enabled
    obtain ⟨kept, others, continued⟩ := respects later holds moves enabled
    exact ⟨kept, others, ih _ continued⟩

theorem Respects.of_within {allowed : Op → Prop} {result : α → Prop} {assertion : World ι Op σ → Prop}
    (stable : ∀ before later, contract.invariant later → contract.rely thread before later →
      assertion before → assertion later)
    (step : ∀ op before, contract.invariant before → assertion before → allowed op →
      machine.enabled op before.state →
        contract.invariant (before.after machine thread op) ∧
          (∀ other, other ≠ thread → contract.rely other before (before.after machine thread op)) ∧
          assertion (before.after machine thread op))
    (within : Prog.Within (fun _ _ => True) allowed result program) (holds : assertion world) :
    contract.Respects machine thread (fun value later => result value ∧ assertion later) program world := by
  induction program generalizing world with
  | done value => exact fun later kept moves => ⟨within, stable world later kept moves holds⟩
  | call op rest ih =>
    intro later kept moves enabled
    obtain ⟨keptOn, others, holdsOn⟩ := step op later kept (stable world later kept moves holds) within.1 enabled
    exact ⟨keptOn, others, ih _ (within.2 _ trivial) holdsOn⟩

section Fallible

def Leaves (post : α → World ι Op σ → Prop) (fails : ε → World ι Op σ → Prop) :
    Except ε α → World ι Op σ → Prop
  | .ok value => post value
  | .error error => fails error

def Attempts (contract : Contract ι Op σ) (machine : Machine Op Res σ) (thread : ι)
    (post : α → World ι Op σ → Prop) (fails : ε → World ι Op σ → Prop) (program : ExceptT ε (Prog Op Res) α)
    (world : World ι Op σ) : Prop :=
  contract.Respects machine thread (Leaves post fails) program.run world

variable {fails : ε → World ι Op σ → Prop} {attempt : ExceptT ε (Prog Op Res) α}

theorem Attempts.pure {value : α} (holds : ∀ later, contract.rely thread world later → post value later) :
    contract.Attempts machine thread post fails (pure value) world :=
  fun later _ moves => holds later moves

theorem Attempts.throw {error : ε} (holds : ∀ later, contract.rely thread world later → fails error later) :
    contract.Attempts machine thread post fails (throw error) world :=
  fun later _ moves => holds later moves

theorem Attempts.bind {next : α → ExceptT ε (Prog Op Res) β}
    (attempts : contract.Attempts machine thread post fails attempt world)
    (stable : ∀ error before later, contract.rely thread before later → fails error before → fails error later)
    (rest : ∀ value later, contract.invariant later → post value later →
      contract.Attempts machine thread after fails (next value) later) :
    contract.Attempts machine thread after fails (attempt >>= next) world := by
  have first : contract.Respects machine thread (Leaves post fails) attempt.run world := attempts
  refine first.bind fun result later holds ends => ?_
  cases result with
  | ok value => exact rest value later holds ends
  | error error => exact fun last _ moves => stable error later last moves ends

theorem Attempts.tryCatch {thrown : ε → World ι Op σ → Prop} {handler : ε → ExceptT ε (Prog Op Res) α}
    (attempts : contract.Attempts machine thread post thrown attempt world)
    (stable : ∀ value before later, contract.rely thread before later → post value before → post value later)
    (handles : ∀ error later, contract.invariant later → thrown error later →
      contract.Attempts machine thread post fails (handler error) later) :
    contract.Attempts machine thread post fails (tryCatch attempt handler) world := by
  have first : contract.Respects machine thread (Leaves post thrown) attempt.run world := attempts
  refine first.bind fun result later holds ends => ?_
  cases result with
  | ok value => exact fun last _ moves => stable value later last moves ends
  | error error => exact handles error later holds ends

theorem Attempts.weaken {weakerFails : ε → World ι Op σ → Prop}
    (attempts : contract.Attempts machine thread post fails attempt world)
    (weak : ∀ value later, contract.invariant later → post value later → weaker value later)
    (weakFails : ∀ error later, contract.invariant later → fails error later → weakerFails error later) :
    contract.Attempts machine thread weaker weakerFails attempt world := by
  refine Respects.weaken attempts fun result later holds ends => ?_
  cases result with
  | ok value => exact weak value later holds ends
  | error error => exact weakFails error later holds ends

end Fallible

section Pools

variable {posts : ι → α → World ι Op σ → Prop}

structure Holds (contract : Contract ι Op σ) (machine : Machine Op Res σ) (posts : ι → α → World ι Op σ → Prop)
    (pool : Pool ι Op Res α σ) : Prop where
  invariant : contract.invariant pool.toWorld
  respects : ∀ thread, contract.Respects machine thread (posts thread) (pool.threads thread) pool.toWorld

theorem Holds.finished {pool : Pool ι Op Res α σ} (holds : contract.Holds machine posts pool) {thread : ι} {value : α}
    (ended : pool.threads thread = .done value) : posts thread value pool.toWorld := by
  have here := holds.respects thread
  rw [ended] at here
  exact here _ holds.invariant (contract.refl _ _)

variable [DecidableEq ι]

theorem Holds.step {before after : Pool ι Op Res α σ} (holds : contract.Holds machine posts before)
    (step : Pool.Step machine before after) : contract.Holds machine posts after := by
  obtain ⟨thread, op, rest, next, enabled⟩ := step
  have here := holds.respects thread
  rw [next] at here
  obtain ⟨kept, others, continued⟩ := here _ holds.invariant (contract.refl _ _) enabled
  refine ⟨kept, fun other => ?_⟩
  by_cases same : other = thread
  · subst same
    simpa using continued
  · simpa [same] using (holds.respects other).later (others other same)

theorem Holds.reaches {start pool : Pool ι Op Res α σ} (holds : contract.Holds machine posts start)
    (reached : Pool.Reaches machine start pool) : contract.Holds machine posts pool := by
  induction reached with
  | refl => exact holds
  | tail _ step ih => exact ih.step step

end Pools

end Contract

end LoginomDock
