import Mathlib.Init

/-! What a program over a state returns and leaves behind, and the rules that put the steps of a program together. -/

namespace LoginomDock

variable {σ α β : Type}

-- From a state with the first condition the program ends with the second one.
def Ensures (pre : σ → Prop) (program : StateM σ α) (post : α → σ → Prop) : Prop :=
  ∀ state, pre state → post (program.run state).1 (program.run state).2

namespace Ensures

variable {pre : σ → Prop} {post : α → σ → Prop}

theorem pure {value : α} (holds : ∀ state, pre state → post value state) :
    Ensures pre (Pure.pure value : StateM σ α) post := holds

variable {after : β → σ → Prop}

theorem bind {middle : α → σ → Prop} {program : StateM σ α} {next : α → StateM σ β}
    (first : Ensures pre program middle) (rest : ∀ value, Ensures (middle value) (next value) after) :
    Ensures pre (program >>= next) after :=
  fun state holds => rest _ _ (first state holds)

theorem seq {middle : σ → Prop} {program : StateM σ Unit} {next : Unit → StateM σ β}
    (first : Ensures pre program fun _ => middle) (rest : Ensures middle (next ()) after) :
    Ensures pre (program >>= next) after :=
  bind first fun _ => rest

theorem weaken {stronger : σ → Prop} {weaker : α → σ → Prop} {program : StateM σ α} (ensures : Ensures pre program post)
    (more : ∀ state, stronger state → pre state) (less : ∀ value state, post value state → weaker value state) :
    Ensures stronger program weaker :=
  fun state holds => less _ _ (ensures state (more state holds))

theorem fix {program : StateM σ α} (from' : ∀ now, pre now → Ensures (fun state => now = state) program post) :
    Ensures pre program post :=
  fun now held => from' now held now rfl

theorem get : Ensures pre (MonadState.get : StateM σ σ) fun value state => value = state ∧ pre state :=
  fun _ holds => ⟨rfl, holds⟩

theorem getThen {next : σ → StateM σ α} (rest : ∀ now, pre now → Ensures (fun state => now = state) (next now) post) :
    Ensures pre (MonadState.get >>= next) post :=
  fun now held => rest now held now rfl

theorem ite {condition : Prop} [Decidable condition] {whenTrue whenFalse : StateM σ α}
    (holds : condition → Ensures pre whenTrue post) (fails : ¬ condition → Ensures pre whenFalse post) :
    Ensures pre (if condition then whenTrue else whenFalse) post := by
  split
  case isTrue yes => exact holds yes
  case isFalse no => exact fails no

theorem whenThen {condition : Prop} [Decidable condition] {middle : σ → Prop} {step : StateM σ Unit}
    {next : Unit → StateM σ α} (taken : condition → Ensures pre step fun _ => middle)
    (skipped : ¬ condition → ∀ state, pre state → middle state) (rest : Ensures middle (next ()) post) :
    Ensures pre (if condition then step >>= next else next ()) post :=
  ite (fun yes => seq (taken yes) rest) fun no => rest.weaken (skipped no) fun _ _ held => held

theorem forM {invariant : σ → Prop} {step : α → StateM σ Unit} {values : List α}
    (each : ∀ value ∈ values, Ensures invariant (step value) fun _ => invariant) :
    Ensures invariant (values.forM step) fun _ => invariant := by
  induction values with
  | nil => exact fun _ holds => holds
  | cons value rest ih =>
    refine seq (each value List.mem_cons_self) ?_
    exact ih fun other later => each other (List.mem_cons_of_mem _ later)

end Ensures

section Fallible

variable {ε : Type}

def Attains (pre : σ → Prop) (program : ExceptT ε (StateM σ) α) (post : α → σ → Prop) (fails : σ → Prop) : Prop :=
  Ensures pre program.run fun result state =>
    match result with
    | .ok value => post value state
    | .error _ => fails state

namespace Attains

variable {pre fails : σ → Prop} {post : α → σ → Prop}

theorem pure {value : α} (holds : ∀ state, pre state → post value state) :
    Attains pre (Pure.pure value : ExceptT ε (StateM σ) α) post fails := holds

variable {program : ExceptT ε (StateM σ) α} {weaker : α → σ → Prop}

theorem entails (attains : Attains pre program post fails)
    (less : ∀ value state, post value state → weaker value state) : Attains pre program weaker fails := by
  intro state holds
  have there := attains state holds
  revert there
  generalize program.run.run state = ended
  obtain ⟨result, after⟩ := ended
  cases result with
  | ok value => exact less value after
  | error error => exact id

theorem loosen {stronger fewer : σ → Prop}
    (attains : Attains pre program post fails) (more : ∀ state, stronger state → pre state)
    (less : ∀ value state, post value state → weaker value state) (lessFails : ∀ state, fails state → fewer state) :
    Attains stronger program weaker fewer := by
  refine Ensures.weaken attains more fun result state held => ?_
  cases result with
  | ok value => exact less value state held
  | error error => exact lessFails state held

theorem fix (from' : ∀ now, pre now → Attains (fun state => now = state) program post fails) :
    Attains pre program post fails :=
  fun now held => from' now held now rfl

theorem throw {error : ε} (holds : ∀ state, pre state → fails state) :
    Attains pre (MonadExcept.throw error : ExceptT ε (StateM σ) α) post fails := holds

section

variable {middle : α → σ → Prop} {after : β → σ → Prop}

theorem bind {next : α → ExceptT ε (StateM σ) β} (first : Attains pre program middle fails)
    (rest : ∀ value, Attains (middle value) (next value) after fails) : Attains pre (program >>= next) after fails := by
  rw [Attains, ExceptT.run_bind]
  refine Ensures.bind first fun result => ?_
  cases result with
  | ok value => exact rest value
  | error error => exact fun _ held => held

-- From one known state to the next
theorem onwards {stops : σ → Prop} {next : α → ExceptT ε (StateM σ) β} {now : σ}
    (first : Attains pre program middle stops) (held : pre now) (early : ∀ state, stops state → fails state)
    (rest : ∀ value later, middle value later → Attains (fun state => later = state) (next value) after fails) :
    Attains (fun state => now = state) (program >>= next) after fails :=
  bind (first.loosen (fun _ same => same ▸ held) (fun _ _ held => held) early) fun value => fix (rest value)

end

end Attains

end Fallible

end LoginomDock
