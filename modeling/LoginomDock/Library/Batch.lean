import Mathlib.Data.List.Lex
import Mathlib.Data.List.Sort
import LoginomDock.Library.Table

/-! A batch is a list of puts and deletes, applied in order. `inOrder` is a table read in key order. -/

namespace LoginomDock

open List

inductive TableOp (K V : Type) where
  | put (key : K) (value : V)
  | del (key : K)
  deriving DecidableEq, Repr

namespace Table

variable {K V ι : Type} [DecidableEq K]

def applyOp (table : Table K V) : TableOp K V → Table K V
  | .put key value => table.insert key value
  | .del key => table.erase key

def applyOps (ops : List (TableOp K V)) (table : Table K V) : Table K V := ops.foldl applyOp table

@[simp] theorem applyOps_nil (table : Table K V) : applyOps [] table = table := rfl

@[simp] theorem applyOps_cons (op : TableOp K V) (ops : List (TableOp K V)) (table : Table K V) :
    applyOps (op :: ops) table = applyOps ops (table.applyOp op) := rfl

theorem lookup_applyOps_put (items : List ι) (key : ι → K) (value : ι → V) (table : Table K V) (other : K) :
    (∃ item ∈ items, key item = other ∧
        (applyOps (items.map fun item => .put (key item) (value item)) table).lookup other = some (value item)) ∨
      other ∉ items.map key ∧
        (applyOps (items.map fun item => .put (key item) (value item)) table).lookup other = table.lookup other := by
  induction items generalizing table with
  | nil => simp
  | cons first rest ih =>
    rcases ih (table.insert (key first) (value first)) with ⟨item, member, named, found⟩ | ⟨absent, same⟩
    · exact .inl ⟨item, by simp [member], named, found⟩
    · by_cases here : key first = other
      · refine .inl ⟨first, by simp, here, ?_⟩
        rw [map_cons, applyOps_cons]
        exact same.trans (by rw [lookup_insert_if, if_pos here.symm])
      · refine .inr ⟨by simpa [Ne.symm here] using absent, ?_⟩
        rw [map_cons, applyOps_cons]
        exact same.trans (by rw [lookup_insert_if, if_neg (Ne.symm here)])

theorem lookup_applyOps_del (items : List ι) (key : ι → K) (table : Table K V) (other : K) :
    (applyOps (items.map fun item => .del (key item)) table).lookup other =
      if other ∈ items.map key then none else table.lookup other := by
  have folded : applyOps (items.map fun item => .del (key item)) table =
      (items.map key).foldl (fun rest gone => rest.erase gone) table := by
    simp [applyOps, foldl_map, applyOp]
  rw [folded, lookup_foldl_erase]

theorem perm_foldl_insert (puts : List (K × V)) (table : Table K V) (fresh : ∀ put ∈ puts, put.1 ∉ table)
    (distinct : (puts.map fun put => put.1).Nodup) :
    ((puts.foldl (fun rest put => rest.insert put.1 put.2) table).entries.map fun entry => (entry.1, entry.2)).Perm
      ((table.entries.map fun entry => (entry.1, entry.2)) ++ puts) := by
  induction puts generalizing table with
  | nil => simp
  | cons put rest ih =>
    obtain ⟨alone, others⟩ := nodup_cons.mp (map_cons ▸ distinct)
    have freshRest : ∀ other ∈ rest, other.1 ∉ table.insert put.1 put.2 := by
      intro other member inside
      rcases (AList.mem_insert table).mp inside with same | old
      · exact alone (mem_map.mpr ⟨other, member, same⟩)
      · exact fresh other (by simp [member]) old
    refine (ih (table.insert put.1 put.2) freshRest others).trans ?_
    rw [AList.entries_insert_of_notMem (fresh put (by simp)), map_cons, cons_append]
    exact perm_middle.symm

theorem mem_pairs_iff {table : Table K V} {pair : K × V} :
    pair ∈ (table.entries.map fun entry => (entry.1, entry.2)) ↔ table.lookup pair.1 = some pair.2 := by
  rw [← mem_entries_iff, mem_map]
  constructor
  · rintro ⟨entry, member, rfl⟩
    exact member
  · intro member
    exact ⟨_, member, rfl⟩

section Ordered

variable [LinearOrder K]

def inOrder (table : Table K V) : List (K × V) :=
  (table.entries.map fun entry => (entry.1, entry.2)).insertionSort fun first second => first.1 ≤ second.1

omit [DecidableEq K] in
theorem perm_inOrder (table : Table K V) :
    table.inOrder.Perm (table.entries.map fun entry => (entry.1, entry.2)) := perm_insertionSort _ _

omit [DecidableEq K] in
theorem sorted_inOrder (table : Table K V) : table.inOrder.Pairwise fun first second => first.1 ≤ second.1 :=
  pairwise_insertionSort (fun first second : K × V => first.1 ≤ second.1) _

omit [DecidableEq K] in
theorem strict_inOrder (table : Table K V) : table.inOrder.Pairwise fun first second => first.1 < second.1 := by
  have distinct : (table.inOrder.map fun entry => entry.1).Nodup := by
    rw [(table.perm_inOrder.map fun entry => entry.1).nodup_iff, map_map]
    exact table.nodupKeys
  exact (List.Pairwise.and table.sorted_inOrder (pairwise_map.mp distinct)).imp fun both =>
    lt_of_le_of_ne both.1 both.2

theorem filter_inOrder {table : Table K V} {entries : List (K × V)} (select : K × V → Bool)
    (perm : (table.entries.map fun entry => (entry.1, entry.2)).Perm entries)
    (ascending : (entries.filter select).Pairwise fun first second => first.1 < second.1) :
    table.inOrder.filter select = entries.filter select := by
  have same := (table.perm_inOrder.trans perm).filter select
  refine same.eq_of_pairwise ?_ (table.sorted_inOrder.filter select) (ascending.imp le_of_lt)
  -- two entries under one key are one entry
  intro first second inFirst inSecond below above
  have key : first.1 = second.1 := le_antisymm below above
  have foundFirst := mem_pairs_iff.mp (table.perm_inOrder.mem_iff.mp (mem_filter.mp inFirst).1)
  have foundSecond := mem_pairs_iff.mp (perm.mem_iff.mpr (mem_filter.mp inSecond).1)
  rw [key, foundSecond, Option.some_inj] at foundFirst
  exact Prod.ext key foundFirst.symm

end Ordered

end Table

end LoginomDock
