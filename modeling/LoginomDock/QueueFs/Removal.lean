import LoginomDock.QueueFs.Backends
import LoginomDock.Library.Runs
import Mathlib.Data.List.TakeWhile

namespace LoginomDock.QueueFs

open Redis List

theorem likeChars_append (lead : Text) {pattern text : Text} (matched : likeChars pattern text = true) :
    likeChars (lead ++ pattern) (lead ++ text) = true := by
  induction lead with
  | nil => exact matched
  | cons char lead ih =>
    rw [cons_append, cons_append]
    by_cases percent : char = '%'
    · subst percent
      rw [likeChars, any_eq_true]
      exact ⟨lead ++ text, (mem_tails _ _).mpr (suffix_cons _ _), ih⟩
    · by_cases underscore : char = '_'
      · subst underscore
        exact ih
      · simp [likeChars, sameLetter, ih]

theorem untilZero_append (first second : Text) :
    untilZero (first ++ second) = if '\x00' ∈ first then untilZero first else first ++ untilZero second := by
  by_cases zero : '\x00' ∈ first
  · rw [if_pos zero, untilZero, untilZero, takeWhile_append, if_neg]
    intro whole
    rw [← (List.takeWhile_prefix _).eq_of_length whole] at zero
    simpa using mem_takeWhile_imp zero
  · rw [if_neg zero]
    refine takeWhile_append_of_pos fun char member => decide_eq_true fun isZero => ?_
    exact zero (isZero ▸ member)

variable {lead name : Text}

theorem like_of_below (below : lead ++ ['/'] <+: name) : like name (lead ++ ['/', '%']) = true := by
  obtain ⟨rest, rfl⟩ := below
  have pattern : lead ++ ['/', '%'] = (lead ++ ['/']) ++ ['%'] := by simp
  rw [like, pattern, untilZero_append (lead ++ ['/']) ['%'], untilZero_append (lead ++ ['/']) rest]
  by_cases zero : '\x00' ∈ lead ++ ['/']
  · have same := @likeChars_append (untilZero (lead ++ ['/'])) [] [] rfl
    rw [if_pos zero, if_pos zero]
    rwa [append_nil] at same
  · rw [if_neg zero, if_neg zero]
    exact likeChars_append _ (by simp [untilZero, likeChars])

theorem below_iff (name queue : Text) : Below name queue ↔ Under name queue := by
  rw [Below, Under, prefix_iff_eq_take, List.length_append, length_singleton]
  exact or_congr Iff.rfl eq_comm

theorem Under.is_prefix (under : Under lead name) : lead <+: name := by
  rcases under with rfl | below
  · exact prefix_rfl
  · exact (prefix_append lead ['/']).trans below

theorem Under.selected (under : Under lead name) : SQLiteBackend.selected lead name = true := by
  rcases under with rfl | below
  · simp [SQLiteBackend.selected]
  · simp [SQLiteBackend.selected, like_of_below below]

structure Chooses {σ γ : Type} (backend : Backend σ γ) (removes lists : Text → Text → Bool) (inv : σ → Prop) : Prop where
  keeps : ∀ call state, inv state → inv (backend.serve call state).2
  absent : ∀ state, inv state → ∀ queue, queue ∉ backend.names state → backend.contents state queue = backend.blank
  removal : ∀ name state, inv state →
    (backend.serve (.removeQueue name) state).1 =
        .done (if ∃ queue ∈ backend.names state, removes name queue = true then .ok () else .error (.notFound name)) ∧
      (∀ queue, removes name queue = true → queue ∉ backend.names (backend.serve (.removeQueue name) state).2 ∧
        backend.contents (backend.serve (.removeQueue name) state).2 queue = backend.blank) ∧
      ∀ queue, removes name queue = false →
        (queue ∈ backend.names (backend.serve (.removeQueue name) state).2 ↔ queue ∈ backend.names state) ∧
          backend.contents (backend.serve (.removeQueue name) state).2 queue = backend.contents state queue
  listing : ∀ lead state, inv state → ∃ listed, (backend.serve (.listQueues lead) state).1 = .listed (.ok listed) ∧ listed.Nodup ∧
    ∀ queue, queue ∈ listed ↔ queue ∈ backend.names state ∧ (lead = [] ∨ lists lead queue = true)
  creation : ∀ name now state, inv state →
    (backend.serve (.createQueue name now) state).1 =
        .done (if name ∈ backend.names state then .error (.alreadyExists name) else .ok ()) ∧
      ∀ queue, queue ∈ backend.names (backend.serve (.createQueue name now) state).2 ↔ queue ∈ backend.names state ∨ queue = name
  existence : ∀ name state, inv state →
    (backend.serve (.queueExists name) state).1 = .known (.ok (decide (name ∈ backend.names state)))
  others : ∀ call state, inv state → (∀ name now, call ≠ .createQueue name now) → (∀ name, call ≠ .removeQueue name) →
    ∀ queue, queue ∈ backend.names (backend.serve call state).2 ↔ queue ∈ backend.names state

def Fits (removes lists : Text → Text → Bool) (names : List Text) : BackendCall → Prop
  | .removeQueue name => ∀ queue ∈ names, removes name queue = true ↔ Under name queue
  | .listQueues lead => lead = [] ∨ ∀ queue ∈ names, lists lead queue = true ↔ Under lead queue
  | _ => True

def Meets (names : List Text) : BackendCall → BackendReply → Prop
  | .createQueue name _, reply => reply = .done (if name ∈ names then .error (.alreadyExists name) else .ok ())
  | .removeQueue name, reply => reply = .done (if ∃ queue ∈ names, Under name queue then .ok () else .error (.notFound name))
  | .queueExists name, reply => reply = .known (.ok (decide (name ∈ names)))
  | .listQueues lead, reply => ∃ listed, reply = .listed (.ok listed) ∧ listed.Nodup ∧
      ∀ queue, queue ∈ listed ↔ queue ∈ names ∧ (lead = [] ∨ Under lead queue)
  | _, _ => True

variable {call : BackendCall}

theorem Meets.agrees {names : List Text} {first second : BackendReply} (about : call.aboutNames = true)
    (left : Meets names call first) (right : Meets names call second) : first.Agrees second := by
  cases call with
  | createQueue name now =>
    rw [left, right]
    rfl
  | removeQueue name =>
    rw [left, right]
    rfl
  | queueExists name =>
    rw [left, right]
    rfl
  | listQueues lead =>
    obtain ⟨listed, rfl, once, members⟩ := left
    obtain ⟨others, rfl, onceOthers, membersOthers⟩ := right
    exact (perm_ext_iff_of_nodup once onceOthers).mpr fun queue => (members queue).trans (membersOthers queue).symm
  | _ => cases about

def Has {σ γ : Type} (backend : Backend σ γ) (inv : σ → Prop) (names : List Text) (state : σ) : Prop :=
  inv state ∧ ∀ queue, queue ∈ backend.names state ↔ queue ∈ names

namespace Chooses

variable {σ γ : Type} {backend : Backend σ γ} {removes lists : Text → Text → Bool} {inv : σ → Prop} {names : List Text} {state : σ}

section

variable (chooses : Chooses backend removes lists inv) (has : Has backend inv names state)

include chooses has

theorem exact_iff (call : BackendCall) :
    backend.Exact call state ↔ Fits removes lists names call := by
  obtain ⟨holds, same⟩ := has
  cases call with
  | removeQueue name =>
    obtain ⟨reply, gone, kept⟩ := chooses.removal name state holds
    constructor
    · rintro ⟨_, exact'⟩ queue member
      have here := exact' queue
      by_cases under : Under name queue
      · rw [if_pos under] at here
        refine iff_of_true ?_ under
        by_contra spared
        exact here.1 ((kept queue (Bool.eq_false_iff.mpr spared)).1.mpr ((same queue).mpr member))
      · rw [if_neg under] at here
        refine iff_of_false (fun taken => ?_) under
        exact (gone queue taken).1 (here.1.mpr ((same queue).mpr member))
    · intro fits
      have some : (∃ queue ∈ backend.names state, removes name queue = true) ↔ ∃ queue ∈ backend.names state, Under name queue :=
        exists_congr fun queue => and_congr_right fun member => fits queue ((same queue).mp member)
      refine ⟨reply.trans ?_, fun queue => ?_⟩
      · by_cases found : ∃ queue ∈ backend.names state, Under name queue
        · rw [if_pos found, if_pos (some.mpr found)]
        · rw [if_neg found, if_neg (mt some.mp found)]
      · by_cases member : queue ∈ backend.names state
        · by_cases under : Under name queue
          · rw [if_pos under]
            exact gone queue ((fits queue ((same queue).mp member)).mpr under)
          · rw [if_neg under]
            exact kept queue (Bool.eq_false_iff.mpr fun taken => under ((fits queue ((same queue).mp member)).mp taken))
        · -- a queue that is not there has nothing to lose
          have nothing := chooses.absent state holds queue member
          have after : queue ∉ backend.names (backend.serve (.removeQueue name) state).2 ∧
              backend.contents (backend.serve (.removeQueue name) state).2 queue = backend.blank := by
            cases taken : removes name queue with
            | true => exact gone queue taken
            | false => exact ⟨fun later => member ((kept queue taken).1.mp later), (kept queue taken).2.trans nothing⟩
          by_cases under : Under name queue
          · rwa [if_pos under]
          · rw [if_neg under]
            exact ⟨iff_of_false after.1 member, after.2.trans nothing.symm⟩
  | listQueues lead =>
    obtain ⟨listed, reply, once, members⟩ := chooses.listing lead state holds
    constructor
    · rintro ⟨others, sameReply, _, exact'⟩
      rw [reply] at sameReply
      obtain rfl : listed = others := by simpa using sameReply
      refine or_iff_not_imp_left.mpr fun some queue member => ?_
      have both := (members queue).symm.trans (exact' queue)
      simpa [some, (same queue).mpr member] using both
    · intro fits
      refine ⟨listed, reply, once, fun queue => (members queue).trans (and_congr_right fun member => ?_)⟩
      rcases fits with all | fits
      · exact iff_of_true (.inl all) (.inl all)
      · exact or_congr Iff.rfl (fits queue ((same queue).mp member))
  | _ => exact Iff.rfl

theorem meets (fits : Fits removes lists names call) : Meets names call (backend.serve call state).1 := by
  have exact' := (chooses.exact_iff has call).mpr fits
  obtain ⟨holds, same⟩ := has
  cases call with
  | createQueue name now =>
    have created := (chooses.creation name now state holds).1
    rwa [if_congr (same name) rfl rfl] at created
  | removeQueue name =>
    refine exact'.1.trans ?_
    rw [if_congr (exists_congr fun queue => and_congr_left' (same queue)) rfl rfl]
  | queueExists name => exact (chooses.existence name state holds).trans (by rw [decide_eq_decide.mpr (same name)])
  | listQueues lead =>
    obtain ⟨listed, reply, once, members⟩ := exact'
    exact ⟨listed, reply, once, fun queue => (members queue).trans (and_congr_left' (same queue))⟩
  | _ => trivial

theorem step (fits : Fits removes lists names call) : Has backend inv (namesAfterCall names call) (backend.serve call state).2 := by
  have exact' := (chooses.exact_iff has call).mpr fits
  refine ⟨chooses.keeps call state has.1, fun queue => ?_⟩
  have same := has.2 queue
  cases call with
  | createQueue name now =>
    rw [(chooses.creation name now state has.1).2 queue, same, namesAfterCall]
    by_cases old : name ∈ names
    · rw [if_pos old]
      exact or_iff_left_of_imp fun isName => isName ▸ old
    · rw [if_neg old, mem_append, mem_singleton]
  | removeQueue name =>
    have here := exact'.2 queue
    rw [namesAfterCall, mem_filter, decide_eq_true_iff]
    by_cases under : Under name queue
    · rw [if_pos under] at here
      exact iff_of_false here.1 fun kept => kept.2 under
    · rw [if_neg under] at here
      exact here.1.trans (same.trans (and_iff_left under).symm)
  | _ => exact (chooses.others _ state has.1 (by simp) (by simp) queue).trans same

end

end Chooses

end LoginomDock.QueueFs
