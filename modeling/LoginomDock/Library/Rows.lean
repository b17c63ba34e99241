import LoginomDock.Library.Table

/-! What an UPDATE or a DELETE with a condition does to a table with a primary key, and how many rows it counts. -/

namespace LoginomDock.Table

open List

variable {K V : Type} [DecidableEq K]

section

variable (table : Table K V) (condition : V → Bool)

def countWhere : Nat := table.entries.countP fun entry => condition entry.2

def updateWhere (change : V → V) : Table K V where
  entries := table.entries.map fun entry => ⟨entry.1, if condition entry.2 then change entry.2 else entry.2⟩
  nodupKeys := by
    have same : (table.entries.map fun entry => (⟨entry.1, if condition entry.2 then change entry.2 else entry.2⟩ : Sigma fun _ : K => V)).keys =
        table.entries.keys := by
      simp [List.keys, Function.comp_def]
    rw [List.NodupKeys, same]
    exact table.nodupKeys

def deleteWhere : Table K V where
  entries := table.entries.filter fun entry => !condition entry.2
  nodupKeys := (filter_sublist.map _).nodup table.nodupKeys

end

def insertNew (table : Table K V) (key : K) (row : V) : Bool × Table K V :=
  match table.lookup key with
  | some _ => (false, table)
  | none => (true, table.insert key row)

theorem lookup_updateWhere (table : Table K V) (condition : V → Bool) (change : V → V) (key : K) :
    (table.updateWhere condition change).lookup key =
      (table.lookup key).map fun row => if condition row then change row else row := by
  have step : ∀ entries : List (Sigma fun _ : K => V),
      (entries.map fun entry => (⟨entry.1, if condition entry.2 then change entry.2 else entry.2⟩ : Sigma fun _ : K => V)).dlookup key =
        (entries.dlookup key).map fun row => if condition row then change row else row := by
    intro entries
    induction entries with
    | nil => rfl
    | cons entry rest ih =>
      obtain ⟨name, row⟩ := entry
      by_cases same : name = key
      · subst same
        simp
      · rw [map_cons, dlookup_cons_ne _ _ (Ne.symm same), dlookup_cons_ne _ _ (Ne.symm same), ih]
  exact step table.entries

theorem lookup_deleteWhere (table : Table K V) (condition : V → Bool) (key : K) :
    (table.deleteWhere condition).lookup key = (table.lookup key).filter fun row => !condition row := by
  have step : ∀ entries : List (Sigma fun _ : K => V), entries.NodupKeys →
      (entries.filter fun entry => !condition entry.2).dlookup key = (entries.dlookup key).filter fun row => !condition row := by
    intro entries nodup
    induction entries with
    | nil => rfl
    | cons entry rest ih =>
      obtain ⟨name, row⟩ := entry
      obtain ⟨apart, restNodup⟩ := nodupKeys_cons.mp nodup
      by_cases same : name = key
      · subst same
        -- the key of a deleted row does not come again
        have absent : rest.dlookup name = none := dlookup_eq_none.mpr apart
        by_cases deleted : condition row <;> simp [deleted, ih restNodup, absent, Option.filter]
      · have skip : ∀ more : List (Sigma fun _ : K => V),
            (⟨name, row⟩ :: more : List (Sigma fun _ : K => V)).dlookup key = more.dlookup key :=
          fun more => dlookup_cons_ne more ⟨name, row⟩ (Ne.symm same)
        by_cases deleted : condition row <;> simp [deleted, skip, ih restNodup]
  exact step table.entries table.nodupKeys

theorem lookup_insertNew (table : Table K V) (key other : K) (row : V) :
    (table.insertNew key row).2.lookup other =
      if other = key then some ((table.lookup key).getD row) else table.lookup other := by
  unfold insertNew
  by_cases same : other = key
  · subst same
    cases found : table.lookup other <;> simp [found]
  · cases found : table.lookup key <;> simp [same]

end LoginomDock.Table
