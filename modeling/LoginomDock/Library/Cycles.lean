import Mathlib.Data.Set.Finite.Basic
import Mathlib.Dynamics.PeriodicPts.Lemmas
import Mathlib.Logic.Relation

/-! Among finitely many members, each of which has a next one and is next of no more than one, every member is on a
cycle. -/

namespace LoginomDock

variable {α : Type} {next : α → α → Prop}

theorem transGen_iterate {step : α → α} (steps : ∀ a, next a (step a)) (a : α) (count : ℕ) :
    Relation.TransGen next a (step^[count + 1] a) := by
  induction count with
  | zero => exact .single (steps a)
  | succ count ih =>
    rw [Function.iterate_succ_apply']
    exact ih.tail (steps _)

theorem onCycle_of_closed {members : List α} (follows : ∀ a ∈ members, ∃ b ∈ members, next a b)
    (once : ∀ a ∈ members, ∀ b ∈ members, ∀ c, next a c → next b c → a = b) : ∀ a ∈ members, Relation.TransGen next a a := by
  choose step inside steps using follows
  let within : {a // a ∈ members} → {a // a ∈ members} := fun a => ⟨step a a.2, inside a a.2⟩
  have finite : Finite {a // a ∈ members} := members.finite_toSet.to_subtype
  have injective : Function.Injective within := by
    intro a b same
    have nextOf := steps a a.2
    rw [show step a a.2 = step b b.2 from congrArg Subtype.val same] at nextOf
    exact Subtype.ext (once a a.2 b b.2 _ nextOf (steps b b.2))
  intro a member
  obtain ⟨count, positive, periodic⟩ := Function.mem_periodicPts.mp (injective.mem_periodicPts ⟨a, member⟩)
  obtain ⟨count, rfl⟩ : ∃ less, count = less + 1 := ⟨count - 1, by omega⟩
  have walk := @transGen_iterate _ (fun a b : {a // a ∈ members} => next a b) within (fun a => steps a a.2) ⟨a, member⟩ count
  rw [show within^[count + 1] ⟨a, member⟩ = ⟨a, member⟩ from periodic] at walk
  exact walk.lift Subtype.val fun _ _ related => related

theorem mem_of_transGen {members : List α} (before : ∀ a b, b ∈ members → next a b → a ∈ members) {a b : α}
    (leads : Relation.TransGen next a b) (member : b ∈ members) : a ∈ members := by
  induction leads using Relation.TransGen.head_induction_on with
  | single related => exact before _ _ member related
  | head related _ ih => exact before _ _ ih related

end LoginomDock
