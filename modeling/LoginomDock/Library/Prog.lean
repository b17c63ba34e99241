import Mathlib.Init

/-! A program is a tree of calls to its surroundings: what a source function does between two awaited calls is the
computation of the next call. -/

namespace LoginomDock

inductive Prog (Op : Type) (Res : Op → Type) (α : Type) where
  | done (value : α)
  | call (op : Op) (rest : Res op → Prog Op Res α)

namespace Prog

variable {Op : Type} {Res : Op → Type} {α β σ : Type}

def bind : Prog Op Res α → (α → Prog Op Res β) → Prog Op Res β
  | .done value, next => next value
  | .call op rest, next => .call op fun answer => (rest answer).bind next

instance : Monad (Prog Op Res) where
  pure := .done
  bind := bind

def perform (op : Op) : Prog Op Res (Res op) := .call op .done

@[simp] theorem pure_eq (value : α) : (pure value : Prog Op Res α) = .done value := rfl

@[simp] theorem done_bind (value : α) (next : α → Prog Op Res β) :
    ((.done value : Prog Op Res α) >>= next) = next value := rfl

@[simp] theorem call_bind (op : Op) (rest : Res op → Prog Op Res α) (next : α → Prog Op Res β) :
    ((.call op rest : Prog Op Res α) >>= next) = .call op fun answer => rest answer >>= next := rfl

theorem id_map_eq (program : Prog Op Res α) : id <$> program = program := by
  induction program with
  | done => rfl
  | call op rest ih => exact congrArg (Prog.call op) (funext ih)

theorem bind_assoc_eq {γ : Type} (program : Prog Op Res α) (next : α → Prog Op Res β)
    (last : β → Prog Op Res γ) :
    program >>= next >>= last = program >>= fun value => next value >>= last := by
  induction program with
  | done => rfl
  | call op rest ih => exact congrArg (Prog.call op) (funext ih)

instance : LawfulMonad (Prog Op Res) :=
  LawfulMonad.mk' _ id_map_eq (fun _ _ => rfl) bind_assoc_eq

/-- Run a program alone, each call answered by `handle`. -/
def run (handle : (op : Op) → σ → Res op × σ) : Prog Op Res α → σ → α × σ
  | .done value, state => (value, state)
  | .call op rest, state => (rest (handle op state).1).run handle (handle op state).2

variable (handle : (op : Op) → σ → Res op × σ)

@[simp] theorem run_done (value : α) (state : σ) :
    (Prog.done value : Prog Op Res α).run handle state = (value, state) := rfl

@[simp] theorem run_call (op : Op) (rest : Res op → Prog Op Res α) (state : σ) :
    (Prog.call op rest).run handle state =
      (rest (handle op state).1).run handle (handle op state).2 := rfl

@[simp] theorem run_perform (op : Op) (state : σ) :
    (perform op : Prog Op Res (Res op)).run handle state = handle op state := rfl

theorem run_bind (program : Prog Op Res α) (next : α → Prog Op Res β) (state : σ) :
    (program >>= next).run handle state =
      (next (program.run handle state).1).run handle (program.run handle state).2 := by
  induction program generalizing state with
  | done => rfl
  | call op rest ih => exact ih _ _

section Fallible

variable {ε : Type}

def exec (program : ExceptT ε (Prog Op Res) α) (state : σ) : Except ε α × σ :=
  Prog.run handle program.run state

@[simp] theorem exec_pure (value : α) (state : σ) :
    exec handle (pure value : ExceptT ε (Prog Op Res) α) state = (.ok value, state) := rfl

@[simp] theorem exec_throw (error : ε) (state : σ) :
    exec handle (throw error : ExceptT ε (Prog Op Res) α) state = (.error error, state) := rfl

@[simp] theorem exec_lift (program : Prog Op Res α) (state : σ) :
    exec handle (ExceptT.lift program : ExceptT ε (Prog Op Res) α) state =
      (.ok (program.run handle state).1, (program.run handle state).2) := by
  simp only [exec, ExceptT.run_lift]
  change Prog.run handle (program >>= fun value => Prog.done (Except.ok value)) state = _
  rw [run_bind]
  rfl

theorem exec_bind (program : ExceptT ε (Prog Op Res) α) (next : α → ExceptT ε (Prog Op Res) β)
    (state : σ) :
    exec handle (program >>= next) state =
      match exec handle program state with
      | (.ok value, after) => exec handle (next value) after
      | (.error error, after) => (.error error, after) := by
  simp only [exec, ExceptT.run_bind, run_bind]
  rcases program.run.run handle state with ⟨value | error, after⟩ <;> rfl

variable {next : α → ExceptT ε (Prog Op Res) β} {program : ExceptT ε (Prog Op Res) α}

theorem exec_bind_ok {state after : σ} {value : α}
    (success : exec handle program state = (.ok value, after)) :
    exec handle (program >>= next) state = exec handle (next value) after := by
  rw [exec_bind, success]

theorem exec_bind_error {state after : σ} {error : ε}
    (failure : exec handle program state = (.error error, after)) :
    exec handle (program >>= next) state = (.error error, after) := by
  rw [exec_bind, failure]

theorem exec_adapt {ε' : Type} (program : ExceptT ε (Prog Op Res) α) (change : ε → ε') (state : σ) :
    exec handle (program.adapt change) state = ((exec handle program state).1.mapError change, (exec handle program state).2) := by
  change Prog.run handle (Functor.map _ program.run) state = _
  rw [← bind_pure_comp, run_bind]
  rfl

theorem exec_tryCatch (program : ExceptT ε (Prog Op Res) α) (handler : ε → ExceptT ε (Prog Op Res) α) (state : σ) :
    exec handle (tryCatch program handler) state =
      match exec handle program state with
      | (.ok value, after) => (.ok value, after)
      | (.error error, after) => exec handle (handler error) after := by
  change Prog.run handle (program.run >>= _) state = _
  rw [run_bind]
  simp only [exec]
  rcases program.run.run handle state with ⟨value | error, after⟩ <;> rfl

end Fallible

end Prog

end LoginomDock
