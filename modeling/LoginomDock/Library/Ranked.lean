import Mathlib.Order.WithBot
import Mathlib.Order.BoundedOrder.Lattice
import Mathlib.Data.List.Basic

/-! Every key holds the highest of the ranks that were given to it. -/

namespace LoginomDock

open List

variable {K V : Type} [LinearOrder K] [LinearOrder V]

def rankOf : List (K × V) → K → WithBot V
  | [], _ => ⊥
  | entry :: rest, key => if entry.1 = key then (entry.2 : WithBot V) ⊔ rankOf rest key else rankOf rest key

def raise : List (K × V) → K × V → List (K × V)
  | [], entry => [entry]
  | first :: rest, entry =>
    if entry.1 < first.1 then entry :: first :: rest
    else if entry.1 = first.1 then (first.1, first.2 ⊔ entry.2) :: rest
    else first :: raise rest entry

variable (entries : List (K × V))

theorem rankOf_raise (entry : K × V) (key : K) :
    rankOf (raise entries entry) key = if entry.1 = key then rankOf entries key ⊔ entry.2 else rankOf entries key := by
  induction entries with
  | nil => by_cases same : entry.1 = key <;> simp [raise, rankOf, same]
  | cons first rest ih =>
    rw [raise]
    split
    next =>
      rw [rankOf]
      split
      next => exact sup_comm ..
      next => rfl
    next =>
      split
      next own =>
        by_cases same : entry.1 = key
        · rw [rankOf, rankOf, if_pos (own.symm.trans same), if_pos (own.symm.trans same), if_pos same, WithBot.coe_sup]
          exact sup_right_comm ..
        · have other : first.1 ≠ key := own ▸ same
          rw [rankOf, rankOf, if_neg other, if_neg other, if_neg same]
      next =>
        rw [rankOf, rankOf, ih]
        by_cases same : entry.1 = key
        · by_cases here : first.1 = key
          · rw [if_pos here, if_pos here, if_pos same, if_pos same, sup_assoc]
          · rw [if_neg here, if_neg here]
        · rw [if_neg same, if_neg same]

theorem rankOf_append (first second : List (K × V)) (key : K) :
    rankOf (first ++ second) key = rankOf first key ⊔ rankOf second key := by
  induction first with
  | nil => rw [nil_append, rankOf, bot_sup_eq]
  | cons entry rest ih =>
    rw [cons_append, rankOf, rankOf, ih]
    split
    · rw [sup_assoc]
    · rfl

theorem keys_raise (entry : K × V) :
    ∀ item ∈ raise entries entry, item.1 = entry.1 ∨ ∃ other ∈ entries, other.1 = item.1 := by
  induction entries with
  | nil =>
    intro item member
    rw [mem_singleton.mp member]
    exact .inl rfl
  | cons first rest ih =>
    intro item member
    rw [raise] at member
    split at member
    · rcases mem_cons.mp member with rfl | inside
      · exact .inl rfl
      · exact .inr ⟨item, inside, rfl⟩
    · split at member
      next own =>
        rcases mem_cons.mp member with rfl | inside
        · exact .inl own.symm
        · exact .inr ⟨item, mem_cons_of_mem _ inside, rfl⟩
      next =>
        rcases mem_cons.mp member with rfl | inside
        · exact .inr ⟨item, mem_cons_self, rfl⟩
        · rcases ih item inside with own | ⟨other, there, same⟩
          · exact .inl own
          · exact .inr ⟨other, mem_cons_of_mem _ there, same⟩

section

variable {entries : List (K × V)}

theorem sorted_raise (sorted : entries.Pairwise fun first second => first.1 < second.1) (entry : K × V) :
    (raise entries entry).Pairwise fun first second => first.1 < second.1 := by
  induction entries with
  | nil => exact pairwise_singleton ..
  | cons first rest ih =>
    obtain ⟨least, inner⟩ := pairwise_cons.mp sorted
    rw [raise]
    split
    next before =>
      refine pairwise_cons.mpr ⟨fun item member => ?_, sorted⟩
      rcases mem_cons.mp member with rfl | inside
      · exact before
      · exact before.trans (least item inside)
    next notBefore =>
      split
      next => exact pairwise_cons.mpr ⟨least, inner⟩
      next other =>
        refine pairwise_cons.mpr ⟨fun item member => ?_, ih inner⟩
        rcases keys_raise rest entry item member with own | ⟨there, inside, own⟩
        · rw [own]
          exact lt_of_le_of_ne (not_lt.mp notBefore) (Ne.symm other)
        · rw [← own]
          exact least there inside

theorem rankOf_eq_bot {key : K} (absent : ∀ entry ∈ entries, entry.1 ≠ key) : rankOf entries key = ⊥ := by
  induction entries with
  | nil => rfl
  | cons first rest ih =>
    rw [rankOf, if_neg (absent first (by simp))]
    exact ih fun entry member => absent entry (by simp [member])

theorem rankOf_ne_bot_iff {key : K} : rankOf entries key ≠ ⊥ ↔ ∃ entry ∈ entries, entry.1 = key := by
  induction entries with
  | nil => simp [rankOf]
  | cons first rest ih =>
    rw [rankOf]
    split
    next own => simp [own]
    next other => simp [ih, other]

end

theorem rankOf_head {first : K × V} {rest : List (K × V)} (least : ∀ entry ∈ rest, first.1 < entry.1) :
    rankOf (first :: rest) first.1 = first.2 := by
  rw [rankOf, if_pos rfl, rankOf_eq_bot fun entry member => (least entry member).ne', sup_bot_eq]

structure Ranked (K V : Type) [LinearOrder K] where
  entries : List (K × V)
  sorted : entries.Pairwise fun first second => first.1 < second.1
  deriving DecidableEq

namespace Ranked

def empty : Ranked K V := ⟨[], List.Pairwise.nil⟩

def add (ranked : Ranked K V) (entry : K × V) : Ranked K V := ⟨raise ranked.entries entry, sorted_raise ranked.sorted entry⟩

def ofList (entries : List (K × V)) : Ranked K V := entries.foldl add empty

def union (first second : Ranked K V) : Ranked K V := ofList (first.entries ++ second.entries)

def ranks (ranked : Ranked K V) : K → WithBot V := rankOf ranked.entries

@[simp] theorem ranks_empty : (empty : Ranked K V).ranks = ⊥ := rfl

theorem ranks_foldl (ranked : Ranked K V) :
    (entries.foldl add ranked).ranks = ranked.ranks ⊔ rankOf entries := by
  induction entries generalizing ranked with
  | nil =>
    funext key
    rw [foldl_nil, Pi.sup_apply, rankOf, sup_bot_eq]
  | cons entry rest ih =>
    rw [foldl_cons, ih]
    funext key
    have raised := rankOf_raise ranked.entries entry key
    simp only [Pi.sup_apply, ranks, add, raised]
    rw [rankOf]
    split
    · rw [sup_assoc]
    · rfl

theorem ranks_ofList : (ofList entries).ranks = rankOf entries := by
  rw [ofList, ranks_foldl, ranks_empty, bot_sup_eq]

@[simp] theorem ranks_union (first second : Ranked K V) : (first.union second).ranks = first.ranks ⊔ second.ranks := by
  rw [union, ranks_ofList]
  funext key
  exact rankOf_append ..

theorem entries_eq {first second : List (K × V)} (sortedFirst : first.Pairwise fun one other => one.1 < other.1)
    (sortedSecond : second.Pairwise fun one other => one.1 < other.1) (same : ∀ key, rankOf first key = rankOf second key) :
    first = second := by
  induction first generalizing second with
  | nil =>
    cases second with
    | nil => rfl
    | cons entry rest =>
      have here := same entry.1
      rw [rankOf_head (pairwise_cons.mp sortedSecond).1] at here
      cases here
  | cons entry rest ih =>
    obtain ⟨least, inner⟩ := pairwise_cons.mp sortedFirst
    cases second with
    | nil =>
      have here := same entry.1
      rw [rankOf_head least] at here
      cases here
    | cons other others =>
      obtain ⟨leastOther, innerOther⟩ := pairwise_cons.mp sortedSecond
      have keys : entry.1 = other.1 := by
        rcases lt_trichotomy entry.1 other.1 with before | equal | after
        · have here := same entry.1
          rw [rankOf_head least, rankOf_eq_bot] at here
          · cases here
          · intro item member
            rcases mem_cons.mp member with rfl | inside
            · exact before.ne'
            · exact (before.trans (leastOther item inside)).ne'
        · exact equal
        · have here := same other.1
          rw [rankOf_head leastOther, rankOf_eq_bot] at here
          · cases here
          · intro item member
            rcases mem_cons.mp member with rfl | inside
            · exact after.ne'
            · exact (after.trans (least item inside)).ne'
      have values : entry.2 = other.2 := by
        have here := same entry.1
        rw [rankOf_head least, keys, rankOf_head leastOther] at here
        exact WithBot.coe_injective here
      obtain rfl : entry = other := Prod.ext keys values
      congr 1
      refine ih inner innerOther fun key => ?_
      by_cases own : entry.1 = key
      · rw [← own, rankOf_eq_bot fun item member => (least item member).ne',
          rankOf_eq_bot fun item member => (leastOther item member).ne']
      · have here := same key
        rwa [rankOf, rankOf, if_neg own, if_neg own] at here

variable {first second : Ranked K V}

theorem ext_ranks (same : first.ranks = second.ranks) : first = second := by
  obtain ⟨entries, sorted⟩ := first
  obtain ⟨others, sortedOthers⟩ := second
  obtain rfl : entries = others := entries_eq sorted sortedOthers (congrFun same)
  rfl

theorem ranks_inj : first.ranks = second.ranks ↔ first = second :=
  ⟨ext_ranks, fun same => same ▸ rfl⟩

theorem mem_union {key : K} : (∃ entry ∈ (first.union second).entries, entry.1 = key) ↔
    (∃ entry ∈ first.entries, entry.1 = key) ∨ ∃ entry ∈ second.entries, entry.1 = key := by
  rw [← rankOf_ne_bot_iff, ← rankOf_ne_bot_iff, ← rankOf_ne_bot_iff]
  have united := congrFun (ranks_union first second) key
  rw [Pi.sup_apply, ranks, ranks, ranks] at united
  rw [united, ne_eq, sup_eq_bot_iff, not_and_or]

theorem ranks_eq_bot {ranked : Ranked K V} : ranked.ranks = ⊥ ↔ ranked = empty := by
  rw [← ranks_empty, ranks_inj]

end Ranked

end LoginomDock
