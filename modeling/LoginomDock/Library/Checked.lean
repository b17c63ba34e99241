import Mathlib.Data.List.Forall2

/-! A program of `Except` taken apart: it ends well when each of its steps does. -/

namespace LoginomDock

open List

variable {ε α β : Type}

@[simp] theorem ok_bind (value : α) (next : α → Except ε β) : (Except.ok value >>= next) = next value := rfl

@[simp] theorem error_bind (error : ε) (next : α → Except ε β) : (Except.error error >>= next) = .error error := rfl

@[simp] theorem pure_eq_ok (value : α) : (pure value : Except ε α) = .ok value := rfl

@[simp] theorem throw_eq_error (error : ε) : (throw error : Except ε α) = .error error := rfl

@[simp] theorem map_ok (f : α → β) (value : α) : (Except.ok value : Except ε α).map f = .ok (f value) := rfl

@[simp] theorem map_error (f : α → β) (error : ε) : (Except.error error : Except ε α).map f = .error error := rfl

@[simp] theorem toOption_ok (value : α) : (Except.ok value : Except ε α).toOption = some value := rfl

@[simp] theorem toOption_error (error : ε) : (Except.error error : Except ε α).toOption = none := rfl

section

variable {first : Except ε α} {next : α → Except ε β}

theorem bind_ok_iff {value : β} :
    (first >>= next) = .ok value ↔ ∃ middle, first = .ok middle ∧ next middle = .ok value := by
  cases first <;> simp

theorem bind_error_iff {error : ε} :
    (first >>= next) = .error error ↔ first = .error error ∨ ∃ middle, first = .ok middle ∧ next middle = .error error := by
  cases first <;> simp

end

theorem map_ok_iff {f : α → β} {first : Except ε α} {value : β} :
    first.map f = .ok value ↔ ∃ middle, first = .ok middle ∧ f middle = value := by
  cases first <;> simp

variable {program : α → Except ε β} {items : List α}

theorem mapM_ok {value : α → β} (each : ∀ item ∈ items, program item = .ok (value item)) :
    items.mapM program = .ok (items.map value) := by
  induction items with
  | nil => rfl
  | cons first rest ih =>
    rw [mapM_cons, each first (by simp), ok_bind, ih fun item member => each item (by simp [member])]
    rfl

variable {values : List β}

theorem mapM_ok_iff :
    items.mapM program = .ok values ↔ Forall₂ (fun item value => program item = .ok value) items values := by
  induction items generalizing values with
  | nil => simp [eq_comm]
  | cons first rest ih =>
    rw [mapM_cons, bind_ok_iff, forall₂_cons_left_iff]
    constructor
    · rintro ⟨value, here, later⟩
      obtain ⟨others, done, same⟩ := bind_ok_iff.mp later
      cases same
      exact ⟨value, others, here, ih.mp done, rfl⟩
    · rintro ⟨value, others, here, later, rfl⟩
      exact ⟨value, here, bind_ok_iff.mpr ⟨others, ih.mpr later, rfl⟩⟩

theorem mapM_error {error : ε} (failed : items.mapM program = .error error) : ∃ item ∈ items, program item = .error error := by
  induction items with
  | nil => cases failed
  | cons first rest ih =>
    rw [mapM_cons] at failed
    rcases bind_error_iff.mp failed with here | ⟨value, -, later⟩
    · exact ⟨first, by simp, here⟩
    · rcases bind_error_iff.mp later with later | ⟨values, -, done⟩
      · obtain ⟨item, inside, raised⟩ := ih later
        exact ⟨item, by simp [inside], raised⟩
      · cases done

theorem exists_of_forall₂ {R : α → β → Prop} (related : Forall₂ R items values) {item : α}
    (member : item ∈ items) : ∃ value ∈ values, R item value := by
  induction related with
  | nil => cases member
  | cons here _ ih =>
    rcases mem_cons.mp member with rfl | later
    · exact ⟨_, mem_cons_self, here⟩
    · obtain ⟨value, inside, found⟩ := ih later
      exact ⟨value, mem_cons_of_mem _ inside, found⟩

theorem exists_of_mapM_ok (done : items.mapM program = .ok values) {item : α}
    (member : item ∈ items) : ∃ value ∈ values, program item = .ok value :=
  exists_of_forall₂ (mapM_ok_iff.mp done) member

theorem exists_source_of_mapM_ok (done : items.mapM program = .ok values)
    {value : β} (member : value ∈ values) : ∃ item ∈ items, program item = .ok value :=
  exists_of_forall₂ (mapM_ok_iff.mp done).flip member

end LoginomDock
