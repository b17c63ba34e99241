import LoginomDock.Library.Interleave

/-! A thread chooses its calls by what its own earlier calls were answered. -/

namespace LoginomDock

open List

variable {ι Op σ α β ε : Type} {Res : Op → Type}

abbrev Event (Op : Type) (Res : Op → Type) := Sigma Res

namespace Prog

def Traced (guard : List (Event Op Res) → Op → Prop) (post : List (Event Op Res) → α → Prop) :
    List (Event Op Res) → Prog Op Res α → Prop
  | history, .done value => post history value
  | history, .call op rest => guard history op ∧ ∀ answer, Traced guard post (⟨op, answer⟩ :: history) (rest answer)

variable {guard : List (Event Op Res) → Op → Prop} {history : List (Event Op Res)} {program : Prog Op Res α}

theorem Traced.weaken {post weaker : List (Event Op Res) → α → Prop} (traced : Traced guard post history program)
    (weak : ∀ later value, post later value → weaker later value) : Traced guard weaker history program := by
  induction program generalizing history with
  | done value => exact weak history value traced
  | call op rest ih => exact ⟨traced.1, fun answer => ih answer (traced.2 answer)⟩

theorem Traced.bind {post : List (Event Op Res) → β → Prop} {next : α → Prog Op Res β}
    (traced : Traced guard (fun later value => Traced guard post later (next value)) history program) :
    Traced guard post history (program >>= next) := by
  induction program generalizing history with
  | done value => exact traced
  | call op rest ih => exact ⟨traced.1, fun answer => ih answer (traced.2 answer)⟩

end Prog

section Log

variable [DecidableEq ι] (machine : Machine Op Res σ) (start : σ) (thread : ι)

-- The calls of a thread with their answers, newest first.
def Machine.history : List (ι × Op) → List (Event Op Res)
  | [] => []
  | (other, op) :: earlier =>
    if other = thread then ⟨op, (machine.handle op (machine.replay start earlier)).1⟩ :: history earlier
    else history earlier

variable {machine start thread} {log : List (ι × Op)}

theorem Machine.history_other {other : ι} (different : other ≠ thread) (op : Op) :
    machine.history start thread ((other, op) :: log) = machine.history start thread log :=
  if_neg different

theorem Machine.history_own (op : Op) :
    machine.history start thread ((thread, op) :: log) =
      ⟨op, (machine.handle op (machine.replay start log)).1⟩ :: machine.history start thread log :=
  if_pos rfl

theorem Machine.history_suffix {earlier : List (ι × Op)} (suffix : earlier <:+ log) :
    machine.history start thread earlier <:+ machine.history start thread log := by
  induction log with
  | nil =>
    cases suffix_nil.mp suffix
    exact suffix_refl _
  | cons entry log ih =>
    obtain ⟨other, op⟩ := entry
    rcases suffix_cons_iff.mp suffix with rfl | before
    · exact suffix_refl _
    by_cases same : other = thread
    · subst same
      rw [history_own]
      exact (ih before).trans (suffix_cons _ _)
    · rw [history_other same]
      exact ih before

theorem Machine.history_cons {event : Event Op Res} {rest : List (Event Op Res)}
    (suffix : event :: rest <:+ machine.history start thread log) :
    ∃ earlier, (thread, event.1) :: earlier <:+ log ∧
      event.2 = (machine.handle event.1 (machine.replay start earlier)).1 ∧ machine.history start thread earlier = rest := by
  induction log with
  | nil => cases suffix_nil.mp suffix
  | cons entry log ih =>
    obtain ⟨other, op⟩ := entry
    by_cases same : other = thread
    · subst same
      rw [history_own] at suffix
      rcases suffix_cons_iff.mp suffix with here | before
      · cases here
        exact ⟨log, suffix_refl _, rfl, rfl⟩
      · obtain ⟨earlier, made, answered, prior⟩ := ih before
        exact ⟨earlier, made.trans (suffix_cons _ _), answered, prior⟩
    · rw [history_other same] at suffix
      obtain ⟨earlier, made, answered, prior⟩ := ih suffix
      exact ⟨earlier, made.trans (suffix_cons _ _), answered, prior⟩

theorem Machine.mem_history {event : Event Op Res} :
    event ∈ machine.history start thread log ↔
      ∃ earlier, (thread, event.1) :: earlier <:+ log ∧
        event.2 = (machine.handle event.1 (machine.replay start earlier)).1 := by
  constructor
  · intro member
    obtain ⟨newer, older, split⟩ := append_of_mem member
    have cut : event :: older <:+ machine.history start thread log := ⟨newer, split.symm⟩
    obtain ⟨earlier, made, answered, _⟩ := history_cons cut
    exact ⟨earlier, made, answered⟩
  · rintro ⟨earlier, made, answered⟩
    have own : machine.history start thread ((thread, event.1) :: earlier) <:+ machine.history start thread log := history_suffix made
    rw [history_own] at own
    have here : event = ⟨event.1, (machine.handle event.1 (machine.replay start earlier)).1⟩ := Sigma.ext rfl (heq_of_eq answered)
    rw [here]
    exact own.subset mem_cons_self

end Log

namespace Pool

variable [DecidableEq ι] {machine : Machine Op Res σ} {guard : List (Event Op Res) → Op → Prop}
  {posts : ι → List (Event Op Res) → α → Prop}

theorem traced_reaches {start pool : Pool ι Op Res α σ} (silent : start.log = [])
    (traced : ∀ thread, Prog.Traced guard (posts thread) [] (start.threads thread)) (reached : Reaches machine start pool) :
    (∀ thread, Prog.Traced guard (posts thread) (machine.history start.state thread pool.log) (pool.threads thread)) ∧
      ∀ thread op earlier, (thread, op) :: earlier <:+ pool.log → guard (machine.history start.state thread earlier) op := by
  induction reached with
  | refl =>
    constructor
    · rw [silent]
      exact traced
    · intro thread op earlier suffix
      rw [silent] at suffix
      cases suffix_nil.mp suffix
  | tail before step ih =>
    have replayed := state_eq_replay silent before
    obtain ⟨thread, op, rest, next, enabled⟩ := step
    obtain ⟨programs, guarded⟩ := ih
    have here := programs thread
    rw [next] at here
    constructor
    · intro other
      by_cases same : other = thread
      · subst same
        simp only [World.after, Function.update_self, Machine.history_own, replayed]
        exact here.2 _
      · simp only [World.after, Function.update_of_ne same, Machine.history_other (Ne.symm same)]
        exact programs other
    · intro other made earlier suffix
      rcases suffix_cons_iff.mp suffix with same | earlier'
      · cases same
        exact here.1
      · exact guarded other made earlier earlier'

end Pool

end LoginomDock
