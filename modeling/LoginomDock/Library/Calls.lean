import LoginomDock.Library.Prog

/-! `Within` holds of a program whose calls are all allowed and whose values all satisfy a condition, as long as its
surroundings give only the answers they may give. -/

namespace LoginomDock

namespace Prog

variable {Op : Type} {Res : Op → Type} {α β σ ε : Type}

def Within (answers : (op : Op) → Res op → Prop) (allowed : Op → Prop) (post : α → Prop) :
    Prog Op Res α → Prop
  | .done value => post value
  | .call op rest => allowed op ∧ ∀ answer, answers op answer → Within answers allowed post (rest answer)

variable {answers : (op : Op) → Res op → Prop} {allowed : Op → Prop} {post : α → Prop} {program : Prog Op Res α}

theorem Within.weaken {permitted : Op → Prop} {weaker : α → Prop}
    (within : Within answers allowed post program) (more : ∀ op, allowed op → permitted op)
    (weak : ∀ value, post value → weaker value) : Within answers permitted weaker program := by
  induction program with
  | done value => exact weak value within
  | call op rest ih => exact ⟨more op within.1, fun answer given => ih answer (within.2 answer given)⟩

theorem Within.assume {fewer : (op : Op) → Res op → Prop}
    (within : Within answers allowed post program) (less : ∀ op answer, fewer op answer → answers op answer) :
    Within fewer allowed post program := by
  induction program with
  | done value => exact within
  | call op rest ih => exact ⟨within.1, fun answer given => ih answer (within.2 answer (less op answer given))⟩

theorem Within.bind {after : β → Prop} {next : α → Prog Op Res β}
    (within : Within answers allowed post program)
    (rest : ∀ value, post value → Within answers allowed after (next value)) :
    Within answers allowed after (program >>= next) := by
  induction program with
  | done value => exact rest value within
  | call op more ih => exact ⟨within.1, fun answer given => ih answer (within.2 answer given)⟩

variable {handle : (op : Op) → σ → Res op × σ}

theorem Within.run {invariant : σ → Prop}
    (step : ∀ op state, invariant state → allowed op →
      answers op (handle op state).1 ∧ invariant (handle op state).2) (within : Within answers allowed post program) {state : σ}
    (start : invariant state) :
    post (program.run handle state).1 ∧ invariant (program.run handle state).2 := by
  induction program generalizing state with
  | done value => exact ⟨within, start⟩
  | call op rest ih =>
    obtain ⟨given, kept⟩ := step op state start within.1
    exact ih _ (within.2 _ given) kept

theorem Within.run_commutes {change : σ → σ}
    (step : ∀ op state, allowed op → handle op (change state) = ((handle op state).1, change (handle op state).2)) (within : Within (fun _ _ => True) allowed post program) (state : σ) :
    program.run handle (change state) = ((program.run handle state).1, change (program.run handle state).2) := by
  induction program generalizing state with
  | done value => rfl
  | call op rest ih =>
    rw [run_call, run_call, step op state within.1]
    exact ih _ (within.2 _ trivial) _

section Fallible

-- What a fallible program returns: a value that satisfies the first condition, or an error that satisfies the second.
def Ends (post : α → Prop) (fails : ε → Prop) : Except ε α → Prop
  | .ok value => post value
  | .error error => fails error

def Does (answers : (op : Op) → Res op → Prop) (allowed : Op → Prop) (post : α → Prop) (fails : ε → Prop)
    (program : ExceptT ε (Prog Op Res) α) : Prop :=
  Within answers allowed (Ends post fails) program.run

variable {fails : ε → Prop}

theorem Does.pure {value : α} (holds : post value) :
    Does answers allowed post fails (pure value : ExceptT ε (Prog Op Res) α) := holds

theorem Does.throw {error : ε} (holds : fails error) :
    Does answers allowed post fails (throw error : ExceptT ε (Prog Op Res) α) := holds

theorem Does.perform (op : Op) (permitted : allowed op) :
    Does answers allowed (answers op) fails (ExceptT.lift (perform op) : ExceptT ε (Prog Op Res) (Res op)) :=
  ⟨permitted, fun _ given => given⟩

theorem Does.bind {after : β → Prop} {program : ExceptT ε (Prog Op Res) α}
    {next : α → ExceptT ε (Prog Op Res) β} (does : Does answers allowed post fails program)
    (rest : ∀ value, post value → Does answers allowed after fails (next value)) :
    Does answers allowed after fails (program >>= next) := by
  have step : Within answers allowed (Ends post fails) program.run := does
  refine Within.bind step ?_
  intro result holds
  cases result with
  | ok value => exact rest value holds
  | error error => exact holds

theorem Does.tryCatch {program : ExceptT ε (Prog Op Res) α} {handler : ε → ExceptT ε (Prog Op Res) α}
    {thrown : ε → Prop} (does : Does answers allowed post thrown program)
    (handles : ∀ error, thrown error → Does answers allowed post fails (handler error)) :
    Does answers allowed post fails (tryCatch program handler) := by
  have step : Within answers allowed (Ends post thrown) program.run := does
  refine Within.bind step ?_
  intro result holds
  cases result with
  | ok value => exact holds
  | error error => exact handles error holds

theorem Does.weaken {permitted : Op → Prop} {weaker : α → Prop} {weakerFails : ε → Prop}
    {program : ExceptT ε (Prog Op Res) α} (does : Does answers allowed post fails program)
    (more : ∀ op, allowed op → permitted op) (weak : ∀ value, post value → weaker value)
    (weakFails : ∀ error, fails error → weakerFails error) :
    Does answers permitted weaker weakerFails program := by
  refine Within.weaken does more fun result holds => ?_
  cases result with
  | ok value => exact weak value holds
  | error error => exact weakFails error holds

end Fallible

end Prog

end LoginomDock
