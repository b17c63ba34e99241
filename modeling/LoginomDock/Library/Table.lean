import Mathlib.Data.List.AList

/-! A hash map or a B-tree map of the source is an association list without repeated keys. -/

namespace LoginomDock

open List AList

abbrev Table (K V : Type) := AList (fun _ : K => V)

namespace Table

variable {K V : Type} [DecidableEq K]

theorem lookup_insert_if (table : Table K V) (key other : K) (value : V) :
    (table.insert key value).lookup other = if other = key then some value else table.lookup other := by
  by_cases same : other = key
  · subst same
    simp
  · rw [lookup_insert_ne same, if_neg same]

theorem lookup_erase_if (table : Table K V) (key other : K) :
    (table.erase key).lookup other = if other = key then none else table.lookup other := by
  by_cases same : other = key
  · subst same
    simp
  · rw [lookup_erase_ne same, if_neg same]

theorem lookup_foldl_erase (keys : List K) (table : Table K V) (key : K) :
    (keys.foldl (fun rest gone => rest.erase gone) table).lookup key =
      if key ∈ keys then none else table.lookup key := by
  induction keys generalizing table with
  | nil => simp
  | cons gone keys ih =>
    rw [foldl_cons, ih, lookup_erase_if]
    by_cases same : key = gone <;> simp [same]

/-- The entries whose key satisfies a test, as `HashMap::retain` keeps them. -/
def retain (table : Table K V) (keep : K → Bool) : Table K V where
  entries := table.entries.filter fun entry => keep entry.1
  nodupKeys := (filter_sublist.map _).nodup table.nodupKeys

theorem lookup_retain (table : Table K V) (keep : K → Bool) (key : K) :
    (table.retain keep).lookup key = if keep key then table.lookup key else none := by
  have step : ∀ entries : List (Sigma fun _ : K => V),
      (entries.filter fun entry => keep entry.1).dlookup key =
        if keep key then entries.dlookup key else none := by
    intro entries
    induction entries with
    | nil => simp
    | cons entry rest ih =>
      obtain ⟨name, value⟩ := entry
      by_cases same : name = key
      · subst same
        by_cases kept : keep name <;> simp [kept, ih]
      · have skip : ∀ more : List (Sigma fun _ : K => V),
            (⟨name, value⟩ :: more : List (Sigma fun _ : K => V)).dlookup key = more.dlookup key :=
          fun more => dlookup_cons_ne more ⟨name, value⟩ fun equal => same equal.symm
        by_cases kept : keep name <;> simp [kept, skip, ih]
  exact step table.entries

theorem mem_keys_retain (table : Table K V) (keep : K → Bool) (key : K) :
    key ∈ table.retain keep ↔ keep key ∧ key ∈ table := by
  rw [← lookup_isSome, lookup_retain]
  by_cases kept : keep key <;> simp [kept, lookup_isSome]

def moveKey (rename : K → K) (table : Table K V) (key : K) : Table K V :=
  match table.lookup key with
  | some value => (table.erase key).insert (rename key) value
  | none => table

theorem lookup_moveKey (rename : K → K) (table : Table K V) {key : K} (present : key ∈ table) (other : K) :
    (table.moveKey rename key).lookup other =
      if other = rename key then table.lookup key else if other = key then none else table.lookup other := by
  obtain ⟨value, found⟩ := Option.isSome_iff_exists.mp (lookup_isSome.mpr present)
  simp only [moveKey, found, lookup_insert_if, lookup_erase_if]

theorem lookup_foldl_moveKey (rename : K → K) (keys : List K) (table : Table K V) (nodup : keys.Nodup)
    (present : ∀ key ∈ keys, key ∈ table)
    (injective : ∀ key ∈ keys, ∀ other ∈ keys, rename key = rename other → key = other)
    (apart : ∀ key ∈ keys, ∀ other ∈ keys, rename key ≠ other) :
    (∀ key ∈ keys, (keys.foldl (moveKey rename) table).lookup (rename key) = table.lookup key) ∧
      ∀ other, other ∉ keys.map rename →
        (keys.foldl (moveKey rename) table).lookup other = if other ∈ keys then none else table.lookup other := by
  induction keys generalizing table with
  | nil => simp
  | cons first rest ih =>
    have fresh : first ∉ rest := (nodup_cons.mp nodup).1
    have moved := lookup_moveKey rename table (present first (by simp))
    -- the keys still to move are where they were
    have same : ∀ key ∈ rest, (table.moveKey rename first).lookup key = table.lookup key := by
      intro key member
      have other : key ≠ first := fun equal => fresh (equal ▸ member)
      rw [moved, if_neg (Ne.symm (apart first (by simp) key (by simp [member]))), if_neg other]
    obtain ⟨arrived, others⟩ := ih (table.moveKey rename first) (nodup_cons.mp nodup).2
      (fun key member => by
        rw [← lookup_isSome, same key member, lookup_isSome]
        exact present key (by simp [member]))
      (fun key member other inside => injective key (by simp [member]) other (by simp [inside]))
      (fun key member other inside => apart key (by simp [member]) other (by simp [inside]))
    constructor
    · intro key member
      rw [foldl_cons]
      rcases mem_cons.mp member with rfl | later
      · have alone : rename key ∉ rest.map rename := by
          intro clash
          obtain ⟨other, inside, equal⟩ := mem_map.mp clash
          exact fresh (injective other (by simp [inside]) key (by simp) equal ▸ inside)
        rw [others _ alone, if_neg (fun inside => apart key (by simp) _ (by simp [inside]) rfl), moved,
          if_pos rfl]
      · rw [arrived key later, same key later]
    · intro other outside
      rw [map_cons, mem_cons, not_or] at outside
      rw [foldl_cons, others other outside.2, moved, if_neg outside.1]
      by_cases equal : other = first <;> simp [equal]

theorem mem_entries_iff (table : Table K V) (key : K) (value : V) :
    (⟨key, value⟩ : Sigma fun _ : K => V) ∈ table.entries ↔ table.lookup key = some value :=
  mem_lookup_iff.symm

theorem lookup_foldl_insert {ι : Type} (items : List ι) (name : ι → K) (content : ι → V)
    (nodup : (items.map name).Nodup) (table : Table K V) (key : K) (value : V) :
    (items.foldl (fun rest item => rest.insert (name item) (content item)) table).lookup key = some value ↔
      (∃ item ∈ items, name item = key ∧ content item = value) ∨
        key ∉ items.map name ∧ table.lookup key = some value := by
  induction items generalizing table with
  | nil => simp
  | cons first rest ih =>
    rw [map_cons, nodup_cons] at nodup
    rw [foldl_cons, ih nodup.2, lookup_insert_if]
    by_cases same : key = name first
    · subst same
      have later : ¬ ∃ item ∈ rest, name item = name first ∧ content item = value := by
        rintro ⟨item, inside, equal, -⟩
        exact nodup.1 (mem_map.mpr ⟨item, inside, equal⟩)
      simp [nodup.1, later]
    · simp [same, Ne.symm same]

end Table

end LoginomDock
