import Mathlib.Data.List.Basic

/-! A run is a list of inputs. What holds at each input of a run is said of the inputs before it and of the input
itself. -/

namespace LoginomDock

variable {ι : Type}

def AtEach (inputs : List ι) (holds : List ι → ι → Prop) : Prop :=
  ∀ before input after, inputs = before ++ input :: after → holds before input

@[simp] theorem atEach_nil (holds : List ι → ι → Prop) : AtEach [] holds := by
  intro before input after split
  simp at split

@[simp] theorem atEach_cons (first : ι) (rest : List ι) (holds : List ι → ι → Prop) :
    AtEach (first :: rest) holds ↔ holds [] first ∧ AtEach rest (fun before => holds (first :: before)) := by
  constructor
  · intro each
    refine ⟨each [] first rest rfl, ?_⟩
    intro before input after split
    exact each (first :: before) input after (by simp [split])
  · rintro ⟨here, later⟩ before input after split
    cases before with
    | nil =>
      obtain ⟨rfl, -⟩ := List.cons.inj split
      exact here
    | cons _ before =>
      obtain ⟨rfl, inner⟩ := List.cons.inj split
      exact later before input after inner

theorem atEach_append_singleton (before : List ι) (last : ι) (holds : List ι → ι → Prop) :
    AtEach (before ++ [last]) holds ↔ AtEach before holds ∧ holds before last := by
  induction before generalizing holds with
  | nil => simp
  | cons first rest ih => simp [ih, and_assoc]

end LoginomDock
