import LoginomDock.Tenancy.VisitedOnce

namespace LoginomDock.Tenancy

open Filters List

variable {V : Type} [DecidableEq V] {engine : Engine V} {account : Text}

section

variable (account : Text) (store : Store engine.label) (label : Nat)

def ownRow : Option (Record V) := (store.rows.lookup label).filter (isOwn account)

def Foreign : Prop := ∃ row, store.rows.lookup label = some row ∧ isOwn account row = false

end

structure Agree (account : Text) (first second : World engine.label) : Prop where
  rows : ∀ label, ownRow account first.store label = ownRow account second.store label
  vectors : first.vectors = second.vectors
  uuids : first.uuids = second.uuids

def Confined (account : Text) (before after : Store engine.label) : Prop :=
  ∀ label, after.rows.lookup label = before.rows.lookup label ∨
    ¬ Foreign account before label ∧ ∀ row, after.rows.lookup label = some row → isOwn account row = true

variable {store : Store engine.label}

theorem ownRow_eq_some {label : Nat} {row : Record V} :
    ownRow account store label = some row ↔ store.rows.lookup label = some row ∧ isOwn account row = true := by
  rw [ownRow, Option.filter_eq_some_iff]

theorem ownRow_of_not_foreign {label : Nat} (notForeign : ¬ Foreign account store label) :
    ownRow account store label = store.rows.lookup label := by
  rw [ownRow]
  cases found : store.rows.lookup label with
  | none => rfl
  | some row =>
    have own : isOwn account row = true := by
      by_contra other
      exact notForeign ⟨row, found, by simpa using other⟩
    rw [Option.filter_some_pos own]

section

variable {first second : World engine.label} (agree : Agree account first second)

include agree

theorem Agree.symm : Agree account second first where
  rows label := (agree.rows label).symm
  vectors := agree.vectors.symm
  uuids := agree.uuids.symm

theorem Agree.drawn : Agree account first.drawn second.drawn where
  rows := agree.rows
  vectors := by rw [World.drawn, World.drawn, agree.vectors]
  uuids := agree.uuids

end

theorem Confined.refl (store : Store engine.label) : Confined account store store := fun _ => .inl rfl

theorem Confined.trans {first second third : Store engine.label} (before : Confined account first second) (after : Confined account second third) :
    Confined account first third := by
  intro label
  rcases after label with kept | ⟨notForeign, own⟩
  · rw [kept]
    exact before label
  · rcases before label with same | ⟨notBefore, _⟩
    · refine .inr ⟨fun foreign => notForeign ?_, own⟩
      obtain ⟨row, found, other⟩ := foreign
      exact ⟨row, same.trans found, other⟩
    · exact .inr ⟨notBefore, own⟩

theorem Confined.notForeign {before after : Store engine.label} (confined : Confined account before after) {label : Nat}
    (notForeign : ¬ Foreign account before label) : ¬ Foreign account after label := by
  rintro ⟨row, found, other⟩
  rcases confined label with same | ⟨_, own⟩
  · exact notForeign ⟨row, same.symm.trans found, other⟩
  · rw [own row found] at other
    cases other

theorem ownRows_eq {first second : Store engine.label} (same : ∀ label, ownRow account first label = ownRow account second label) :
    first.rows.inOrder.filter (fun row => isOwn account row.2) = second.rows.inOrder.filter fun row => isOwn account row.2 := by
  have members (store : Store engine.label) (row : Nat × Record V) :
      row ∈ store.rows.inOrder.filter (fun row => isOwn account row.2) ↔ ownRow account store row.1 = some row.2 := by
    rw [mem_filter, ownRow_eq_some, store.rows.perm_inOrder.mem_iff, Table.mem_pairs_iff]
  have distinct (store : Store engine.label) : (store.rows.inOrder.filter fun row => isOwn account row.2).Nodup :=
    ((nodup_ids store).of_map _).filter _
  refine ((perm_ext_iff_of_nodup (distinct first) (distinct second)).mpr fun row => ?_).eq_of_pairwise ?_
    (first.rows.sorted_inOrder.filter _) (second.rows.sorted_inOrder.filter _)
  · rw [members, members, same]
  · intro row other inside among below above
    have found := (members first row).mp inside
    rw [le_antisymm below above, same, (members second other).mp among] at found
    exact Prod.ext (le_antisymm below above) (Option.some_inj.mp found).symm

theorem matching_bound (bound : account ≠ []) (filter : Option (FilterExpr V))
    (read : engine.reading (compileFilter (boundFilter account filter)) ≠ .unfiltered) :
    ∃ select : Record V → Bool, (∀ row, select row = true → isOwn account row = true) ∧
      ∃ failed : Option Failure, ∀ store : Store engine.label, matching store (compileFilter (boundFilter account filter)) =
        match failed with
        | some failed => .error failed
        | none => .ok (store.rows.inOrder.filter fun row => select row.2) := by
  cases reading : engine.reading (compileFilter (boundFilter account filter)) with
  | unfiltered => exact absurd reading read
  | throws message =>
    refine ⟨fun _ => false, by simp, some (.other message), fun store => ?_⟩
    rw [matching, reading]
  | filtered =>
    refine ⟨fun row => isOwn account row && filter.all fun filter => matchesFilter engine.meets row.field (compileFilter filter), ?_, none,
      fun store => ?_⟩
    · intro row selected
      exact (Bool.and_eq_true _ _ ▸ selected).1
    · rw [matching, reading]
      exact congrArg Except.ok (filter_congr fun row inside => matches_boundFilter bound filter inside)

section Stores

variable {first second : Store engine.label} (same : ∀ label, ownRow account first label = ownRow account second label)

include same

theorem selected_eq {select : Record V → Bool} (own : ∀ row, select row = true → isOwn account row = true) :
    first.rows.inOrder.filter (fun row => select row.2) = second.rows.inOrder.filter fun row => select row.2 := by
  have narrowed (store : Store engine.label) : store.rows.inOrder.filter (fun row => select row.2) =
      (store.rows.inOrder.filter fun row => isOwn account row.2).filter fun row => select row.2 := by
    rw [filter_filter]
    refine filter_congr fun row _ => ?_
    cases selected : select row.2 with
    | false => rfl
    | true => rw [own row.2 selected]; rfl
  rw [narrowed first, narrowed second, ownRows_eq same]

theorem resultPage_eq {rows : List (Nat × Record V)} (inFirst : ∀ row ∈ rows, first.rows.lookup row.1 = some row.2)
    (own : ∀ row ∈ rows, isOwn account row.2 = true) {hits : List (Nat × FieldValue V)} (among : ∀ hit ∈ hits, hit.1 ∈ rows.map Prod.fst)
    (names : List Text) (query : Query V) : resultPage first names hits query = resultPage second names hits query := by
  refine filterMap_congr fun hit inside => ?_
  obtain ⟨row, member, label⟩ := mem_map.mp (among hit (mem_of_mem_take (mem_of_mem_drop (mem_of_mem_take inside))))
  have found := ownRow_eq_some.mpr ⟨inFirst row member, own row member⟩
  rw [same, ownRow_eq_some] at found
  obtain ⟨place, score⟩ := hit
  dsimp only at label ⊢
  rw [← label, inFirst row member, found.1]

section

variable (bound : account ≠ []) (filter : Option (FilterExpr V))
  (read : engine.reading (compileFilter (boundFilter account filter)) ≠ .unfiltered)

include bound filter read

theorem queryRecords_eq (vector : List ℚ) (request : Query V) :
    queryRecords first vector { request with filter := boundFilter account filter } =
      queryRecords second vector { request with filter := boundFilter account filter } := by
  obtain ⟨select, own, failed, looked⟩ := matching_bound bound filter read
  unfold queryRecords
  rw [looked first, looked second]
  cases failed with
  | some failed => rfl
  | none =>
    dsimp only
    rw [← selected_eq same own, ok_bind, ok_bind]
    have inFirst : ∀ row ∈ first.rows.inOrder.filter (fun row => select row.2), first.rows.lookup row.1 = some row.2 :=
      fun row inside => Table.mem_pairs_iff.mp (first.rows.perm_inOrder.mem_iff.mp (mem_filter.mp inside).1)
    have isOwned : ∀ row ∈ first.rows.inOrder.filter (fun row => select row.2), isOwn account row.2 = true :=
      fun row inside => own _ (mem_filter.mp inside).2
    have ranked (dense : List ℚ) (sparse : List (Text × ℚ)) : ∀ hit ∈ engine.ranking.byVector dense sparse
        (first.rows.inOrder.filter fun row => select row.2), hit.1 ∈ (first.rows.inOrder.filter fun row => select row.2).map Prod.fst :=
      fun hit inside => (engine.ranking.byVector_perm _ _ _).subset (mem_map_of_mem inside)
    split
    · rw [resultPage_eq same inFirst isOwned (ranked _ _)]
    · split
      · rw [resultPage_eq same inFirst isOwned (engine.ranking.byField_among _ _ _)]
      · rw [resultPage_eq same inFirst isOwned (ranked _ _)]

theorem countRecords_eq :
    countRecords first (boundFilter account filter) = countRecords second (boundFilter account filter) := by
  obtain ⟨select, own, failed, looked⟩ := matching_bound bound filter read
  unfold countRecords
  rw [looked first, looked second]
  cases failed with
  | some failed => rfl
  | none =>
    dsimp only
    rw [selected_eq same own]

end

end Stores

theorem ownRecords_eq (store : Store engine.label) (ids : List (FieldValue V)) :
    (getRecords store ids).filter (isOwn account) =
      ids.filterMap fun key => (ownRow account store (engine.label key)).map fun row => readAs engine row key := by
  induction ids with
  | nil => rfl
  | cons key rest ih =>
    rw [filterMap_cons, ← ih]
    cases found : store.rows.lookup (engine.label key) with
    | none => simp [getRecords, fetchData, ownRow, found]
    | some row =>
      have answered : getRecords store (key :: rest) = readAs engine row key :: getRecords store rest := by
        rw [getRecords, fetchData, filterMap_cons, found]
        rfl
      have kept : isOwn account (readAs engine row key) = isOwn account row := by
        rw [isOwn, field_account_readAs (store.accounts _ _ found), isOwn]
      rw [answered, ownRow, found]
      by_cases own : isOwn account row = true
      · rw [filter_cons_of_pos (kept.trans own), Option.filter_some_pos own, Option.map_some]
      · rw [filter_cons_of_neg (by rw [kept]; exact own), Option.filter_some_neg (by simpa using own), Option.map_none]

theorem ownRow_of_got {ids : List (FieldValue V)} {record : Record V}
    (got : record ∈ (getRecords store ids).filter (isOwn account)) :
    ∃ row, ownRow account store (engine.label (record.field idField)) = some row := by
  rw [ownRecords_eq] at got
  obtain ⟨key, _, found⟩ := mem_filterMap.mp got
  obtain ⟨row, here, rfl⟩ := Option.map_eq_some_iff.mp found
  exact ⟨row, by rw [id_readAs, here]⟩

omit [DecidableEq V] in
theorem lookup_deleteData (store : Store engine.label) (ids : List (FieldValue V)) (label : Nat) :
    (deleteData store ids).rows.lookup label = if label ∈ ids.map engine.label then none else store.rows.lookup label := by
  have removed (labels : List Nat) (store : Store engine.label) :
      (labels.foldl Store.remove store).rows = labels.foldl (fun rest gone => rest.erase gone) store.rows := by
    induction labels generalizing store with
    | nil => rfl
    | cons gone rest ih => exact ih (store.remove gone)
  rw [deleteData, removed, Table.lookup_foldl_erase]

omit [DecidableEq V] in
theorem lookup_puts (rows : List (Row V)) (label : Nat) :
    (∃ row ∈ rows, engine.label row.record.id = label ∧ ∀ store : Store engine.label,
        (rows.foldl Store.put store).rows.lookup label = some row.record) ∨
      (∀ row ∈ rows, engine.label row.record.id ≠ label) ∧ ∀ store : Store engine.label,
        (rows.foldl Store.put store).rows.lookup label = store.rows.lookup label := by
  induction rows with
  | nil => exact .inr ⟨by simp, fun _ => rfl⟩
  | cons row rest ih =>
    rcases ih with ⟨later, member, here, found⟩ | ⟨apart, kept⟩
    · exact .inl ⟨later, mem_cons_of_mem _ member, here, fun store => found _⟩
    · by_cases here : engine.label row.record.id = label
      · refine .inl ⟨row, mem_cons_self, here, fun store => (kept _).trans ?_⟩
        rw [Store.put, Table.lookup_insert_if, if_pos here.symm]
      · refine .inr ⟨by simpa [here] using apart, fun store => (kept _).trans ?_⟩
        rw [Store.put, Table.lookup_insert_if, if_neg (Ne.symm here)]

end LoginomDock.Tenancy
