import LoginomDock.Tenancy.ScrolledPages

/-! Scrolling shows every record of the account that matches, and each once, exactly when they fit into one page. -/

namespace LoginomDock.Tenancy

open Filters List Prog

variable {V : Type} [DecidableEq V] {engine : Engine V}

section Visits

variable (account : Text) (filter : Option (FilterExpr V)) (limit : Nat) (outputFields : List Text) (store : Store engine.label)

def ownMatching : List (Nat × Record V) :=
  store.rows.inOrder.filter fun row => isOwn account row.2 && filter.all fun filter => matchesFilter engine.meets row.2.field (compileFilter filter)

-- Whatever orders the pages are cut from, following the cursors to the end shows every such row exactly once.
def VisitsOnce : Prop :=
  ∀ (ranking : Ranking V) (vectors : Nat → List ℚ) (uuids : Nat → Text), ∃ turns records after,
    exec (answerCall (engine.rankedBy ranking)) (scrollFrom engine.python account filter limit outputFields turns none)
        ⟨store, vectors, uuids⟩ = (.ok (some records), after) ∧
      (records.map fun record => record.field idField).Perm ((ownMatching account filter store).map fun row => row.2.id)

-- The collection reads the filter, and lets through what satisfies it.
def FilterRead : Prop := matching store (compileFilter (boundFilter account filter)) = .ok (ownMatching account filter store)

end Visits

section Rows

variable {account : Text} {filter : Option (FilterExpr V)} {limit : Nat} {outputFields : List Text} {store : Store engine.label}
  {rows : List (Nat × Record V)}

omit [DecidableEq V] in
theorem Pages.unique {vectors : Nat → List ℚ} {offset : Int} {records others : List (Record V)}
    (pages : Pages account filter limit outputFields store rows vectors offset records)
    (again : Pages account filter limit outputFields store rows vectors offset others) : records = others := by
  induction pages generalizing others with
  | last _ _ short =>
    cases again with
    | last => rfl
    | more _ _ _ full => exact absurd full short
  | more _ _ rest full _ ih =>
    cases again with
    | last _ _ short => exact absurd full short
    | more _ _ _ _ later => rw [ih later]

theorem ownMatching_sublist : (ownMatching account filter store).Sublist store.rows.inOrder := filter_sublist

theorem nodup_ownIds : ((ownMatching account filter store).map fun row => row.2.id).Nodup :=
  (nodup_ids store).sublist (ownMatching_sublist.map _)

theorem rows_eq_of_ids (inStore : rows.Sublist store.rows.inOrder)
    (perm : (rows.map fun row => row.2.id).Perm ((ownMatching account filter store).map fun row => row.2.id)) :
    rows = ownMatching account filter store := by
  have distinct := nodup_ids store
  have one (first second : Nat × Record V) (inFirst : first ∈ store.rows.inOrder) (inSecond : second ∈ store.rows.inOrder)
      (same : first.2.id = second.2.id) : first = second := inj_on_of_nodup_map distinct inFirst inSecond same
  have members (row : Nat × Record V) : row ∈ rows ↔ row ∈ ownMatching account filter store := by
    constructor
    · intro inside
      obtain ⟨own, among, same⟩ := mem_map.mp (perm.subset (mem_map_of_mem inside))
      exact one own row (ownMatching_sublist.subset among) (inStore.subset inside) same ▸ among
    · intro inside
      obtain ⟨found, among, same⟩ := mem_map.mp (perm.symm.subset (mem_map_of_mem inside))
      exact one found row (inStore.subset among) (ownMatching_sublist.subset inside) same ▸ among
  have nodupRows : rows.Nodup := (distinct.of_map _).sublist inStore
  have nodupOwn : (ownMatching account filter store).Nodup := (distinct.of_map _).sublist ownMatching_sublist
  refine ((perm_ext_iff_of_nodup nodupRows nodupOwn).mpr members).eq_of_pairwise ?_
    (store.rows.sorted_inOrder.sublist inStore) (store.rows.sorted_inOrder.sublist ownMatching_sublist)
  intro first second inFirst inSecond below above
  refine one first second (inStore.subset inFirst) (ownMatching_sublist.subset inSecond) ?_
  have found (row : Nat × Record V) (inside : row ∈ store.rows.inOrder) : store.rows.lookup row.1 = some row.2 :=
    Table.mem_pairs_iff.mp (store.rows.perm_inOrder.mem_iff.mp inside)
  have same := found first (inStore.subset inFirst)
  rw [le_antisymm below above, found second (ownMatching_sublist.subset inSecond)] at same
  rw [Option.some_inj.mp same]

theorem matching_of_exec {turns : Nat} {world after : World engine.label} {records : List (Record V)}
    (ended : exec (answerCall engine) (scrollFrom engine.python account filter limit outputFields turns none) world =
      (.ok (some records), after)) : ∃ rows, matching world.store (compileFilter (boundFilter account filter)) = .ok rows := by
  cases turns with
  | zero => cases ended
  | succ turns =>
    cases found : matching world.store (compileFilter (boundFilter account filter)) with
    | ok rows => exact ⟨rows, rfl⟩
    | error failed =>
      have raised : queryRecords world.store (world.vectors 0) (pageQuery account filter limit outputFields 0) = .error failed := by
        rw [queryRecords]
        change (matching world.store (compileFilter (boundFilter account filter)) >>= _) = _
        rw [found]
        rfl
      have first := exec_scroll engine.python account filter limit outputFields (rfl : cursorOffset engine.python none = .ok 0) world
      rw [raised] at first
      rw [scrollFrom, exec_bind_error _ first] at ended
      cases ended

theorem visitsOnce_iff (positive : 0 < limit) : VisitsOnce account filter limit outputFields store ↔
    FilterRead account filter store ∧ (ownMatching account filter store).length ≤ limit := by
  constructor
  · intro visits
    obtain ⟨turns, records, after, ended, perm⟩ := visits (wavering limit) (fun turn => if turn = 0 then [] else [1]) fun _ => []
    obtain ⟨rows, found⟩ := @matching_of_exec V _ (engine.rankedBy (wavering limit)) _ _ _ _ _ _ _ _ ended
    have pages := pages_of_exec (rfl : cursorOffset engine.python none = .ok 0) found ended
    have stored := stored_of_matching found
    have fits : rows.length ≤ limit := by
      by_contra exceeds
      exact repeated_of_exceeds stored positive (by omega) pages (perm.nodup_iff.mpr nodup_ownIds)
    obtain ⟨others, again, same⟩ := @pages_of_fits V (engine.rankedBy (wavering limit)) account filter limit outputFields store rows stored
      positive fits (fun turn => if turn = 0 then [] else [1])
    rw [← pages.unique again] at same
    obtain rfl := rows_eq_of_ids (matching_sublist found) (same.symm.trans perm)
    exact ⟨found, fits⟩
  · rintro ⟨read, fits⟩ ranking vectors uuids
    obtain ⟨records, pages, perm⟩ := @pages_of_fits V (engine.rankedBy ranking) account filter limit outputFields store _
      (stored_of_matching read) positive fits vectors
    obtain ⟨turns, after, ended⟩ := @exec_of_pages V _ (engine.rankedBy ranking) engine.python account filter limit outputFields _ _ read _ _ _
      pages none rfl uuids
    exact ⟨turns, records, after, ended, perm⟩

end Rows

theorem readsOnly_scrollFrom (python : Python V) (account : Text) (filter : Option (FilterExpr V)) (limit : Nat) (outputFields : List Text)
    (turns : Nat) (cursor : Option Text) : ReadsOnly engine (scrollFrom python account filter limit outputFields turns cursor) := by
  induction turns generalizing cursor with
  | zero => exact .pure _
  | succ turns ih =>
    have page : ReadsOnly engine (scroll python account filter limit cursor outputFields) :=
      .bind (.attempt _) fun _ => .bind (.callQuery _) fun _ => .bind (.attempt _) fun _ => .pure _
    refine .bind page fun found => ?_
    obtain ⟨records, next⟩ := found
    cases next with
    | none => exact .pure _
    | some next => exact .bind (ih _) fun _ => .pure _

theorem exec_mapM_getStrict (account : Text) (batches : List (List (FieldValue V))) (world : World engine.label) :
    exec (answerCall engine) (batches.mapM (getStrict account)) world =
      (.ok (batches.map fun ids => (getRecords world.store ids).filter (isOwn account)), world) := by
  induction batches with
  | nil => rfl
  | cons ids rest ih =>
    rw [mapM_cons, exec_bind_ok _ (exec_getStrict world account ids), exec_bind_ok _ ih]
    rfl

omit [DecidableEq V] in
theorem getRecords_flatten (store : Store engine.label) (batches : List (List (FieldValue V))) :
    getRecords store batches.flatten = (batches.map (getRecords store)).flatten := by
  induction batches with
  | nil => rfl
  | cons ids rest ih =>
    rw [flatten_cons, map_cons, flatten_cons, ← ih]
    simp [getRecords, fetchData]

def askedId (python : Python V) (id : FieldValue V) : FieldValue V := text (python.str id)

-- The texts of the ids that are not empty, as `_subtree_records` asks for them.
def askedIds (python : Python V) (ids : List (FieldValue V)) : List (FieldValue V) := (ids.filter (truthy python)).map (askedId python)

variable {world after : World engine.label}

theorem exec_subtreeRecords {account uri : Text} {turns : Nat} {refs : List (Record V)}
    (scrolled : exec (answerCall engine) (scrollFrom engine.python account (some (inSubtree uri)) 500 [idField] turns none) world =
      (.ok (some refs), after)) :
    exec (answerCall engine) (subtreeRecords engine.python account uri turns) world =
      (.ok (some ((getRecords world.store (askedIds engine.python (refs.map fun record => record.field idField))).filter (isOwn account))),
        after) := by
  have same : after.store = world.store := by
    have reads := @readsOnly_scrollFrom V _ engine engine.python account (some (inSubtree uri)) 500 [idField] turns none world
    rw [scrolled] at reads
    exact reads
  rw [subtreeRecords, scrollAll, exec_bind_ok _ scrolled]
  dsimp only
  rw [exec_bind_ok _ (exec_mapM_getStrict _ _ _), exec_pure, same, askedIds]
  have filtered (batches : List (List (FieldValue V))) :
      (batches.map fun ids => (getRecords world.store ids).filter (isOwn account)).flatten =
        (getRecords world.store batches.flatten).filter (isOwn account) := by
    rw [getRecords_flatten, filter_flatten, map_map]
    rfl
  rw [filtered, flatten_blocks (by decide)]
  rfl

omit [DecidableEq V] in
theorem lookup_fixFieldsData {row : Record V} {name : Text} {value : FieldValue V} (found : row.lookup name = some value) :
    (fixFieldsData engine row).lookup name = some value := by
  have kept (fields : List (Text × FieldType)) (row : Record V) (found : row.lookup name = some value) :
      (fields.foldl (fun (row : Record V) (field : Text × FieldType) =>
        if field.1 ∈ row then row else row.insert field.1 (fixedDefault engine.python field.1 field.2)) row).lookup name = some value := by
    induction fields generalizing row with
    | nil => exact found
    | cons field rest ih =>
      refine ih _ ?_
      by_cases present : field.1 ∈ row
      · simp only [if_pos present, found]
      · have apart : name ≠ field.1 := by
          intro same
          exact present (same ▸ AList.lookup_isSome.mp (by rw [found]; rfl))
        simp only [if_neg present, AList.lookup_insert_ne apart, found]
  exact kept contextFields row found

omit [DecidableEq V] in
theorem lookup_account {row : Record V} (has : HasAccount row) : ∃ account, row.lookup accountField = some (text account) := by
  obtain ⟨account, same⟩ := has
  refine ⟨account, ?_⟩
  unfold Record.field at same
  cases found : row.lookup accountField with
  | none => rw [found] at same; cases same
  | some value => rw [found] at same; exact congrArg some same

def readAs (engine : Engine V) (row : Record V) (key : FieldValue V) : Record V :=
  normalizeForRead ((fixFieldsData engine row).insert idField key)

omit [DecidableEq V] in
theorem field_account_readAs {row : Record V} (has : HasAccount row) (key : FieldValue V) :
    (readAs engine row key).field accountField = row.field accountField := by
  obtain ⟨account, found⟩ := lookup_account has
  rw [readAs, field_normalizeForRead _ (by decide), Record.field, AList.lookup_insert_ne (by decide), lookup_fixFieldsData found, Record.field,
    found]

omit [DecidableEq V] in
theorem id_readAs (row : Record V) (key : FieldValue V) : (readAs engine row key).field idField = key := by
  rw [readAs, field_normalizeForRead _ (by decide), Record.field, AList.lookup_insert, Option.getD_some]

omit [DecidableEq V] in
theorem label_asked (id : FieldValue V) : engine.label (askedId engine.python id) = engine.label id := by
  rw [askedId, Engine.label, text, engine.python.str_text, Engine.label]

theorem ids_asked {account : Text} {store : Store engine.label} {ids : List (FieldValue V)}
    (own : ∀ id ∈ ids, ∃ row, store.rows.lookup (engine.label id) = some row ∧ isOwn account row = true) :
    ((getRecords store (askedIds engine.python ids)).filter (isOwn account)).map (fun record => record.field idField) =
      askedIds engine.python ids := by
  induction ids with
  | nil => rfl
  | cons id rest ih =>
    have later := ih fun other inside => own other (mem_cons_of_mem _ inside)
    by_cases filled : truthy engine.python id = true
    · obtain ⟨row, found, isOwned⟩ := own id mem_cons_self
      have asked : askedIds engine.python (id :: rest) = askedId engine.python id :: askedIds engine.python rest := by
        rw [askedIds, filter_cons_of_pos filled]
        rfl
      have answered : getRecords store (askedId engine.python id :: askedIds engine.python rest) =
          readAs engine row (askedId engine.python id) :: getRecords store (askedIds engine.python rest) := by
        rw [getRecords, fetchData, filterMap_cons, label_asked, found]
        rfl
      have kept : isOwn account (readAs engine row (askedId engine.python id)) = true := by
        rw [isOwn, field_account_readAs (store.accounts _ _ found)]
        exact isOwned
      rw [asked, answered, filter_cons_of_pos kept, map_cons, later, id_readAs]
    · have asked : askedIds engine.python (id :: rest) = askedIds engine.python rest := by
        rw [askedIds, filter_cons_of_neg filled]
        rfl
      rw [asked, later]

theorem filterRead_of_reading {account : Text} {filter : FilterExpr V} {store : Store engine.label}
    (read : engine.reading (compileFilter filter) = .filtered) : FilterRead account (some filter) store := by
  by_cases unbound : account = []
  · have bounded : boundFilter account (some filter) = filter := by
      unfold boundFilter
      rw [if_pos unbound, Option.getD_some]
    rw [FilterRead, bounded, ownMatching, matching, read]
    refine congrArg Except.ok (filter_congr fun row _ => ?_)
    simp [isOwn, unbound]
  · rw [FilterRead, matching, reading_boundFilter unbound read]
    exact congrArg Except.ok (filter_congr fun row inside => matches_boundFilter unbound _ inside)

theorem filterRead_inSubtree (account uri : Text) (store : Store engine.label) : FilterRead account (some (inSubtree uri)) store := by
  refine filterRead_of_reading ?_
  rw [inSubtree, compileFilter, encodeConds, if_pos (by decide), map_cons, map_nil, encodeUriFieldValue]
  exact engine.reading_must _ _ _

-- Whatever orders the pages are cut from, the records below a uri are read, each exactly once.
def SeesSubtree (account uri : Text) (store : Store engine.label) : Prop :=
  ∀ (ranking : Ranking V) (vectors : Nat → List ℚ) (uuids : Nat → Text), ∃ turns records after,
    exec (answerCall (engine.rankedBy ranking)) (subtreeRecords engine.python account uri turns) ⟨store, vectors, uuids⟩ =
        (.ok (some records), after) ∧
      (records.map fun record => record.field idField).Perm
        ((ownMatching account (some (inSubtree uri)) store).map fun row => askedId engine.python row.2.id)

section Subtree

variable {account uri : Text} {store : Store engine.label}

omit [DecidableEq V] in
theorem Pages.ids_subset {filter : Option (FilterExpr V)} {limit : Nat} {outputFields : List Text} {rows : List (Nat × Record V)}
    (stored : ∀ row ∈ rows, store.rows.lookup row.1 = some row.2) {vectors : Nat → List ℚ} {offset : Nat} {records : List (Record V)}
    (pages : Pages account filter limit outputFields store rows vectors offset records) :
    (records.map fun record => record.field idField) ⊆ rows.map fun row => row.2.id := by
  have page (vector : List ℚ) (offset : Nat) :
      ((pageAt account filter limit outputFields store rows vector offset).map fun record => record.field idField) ⊆ rows.map fun row => row.2.id := by
    rw [ids_pageAt]
    intro id inside
    refine (hitIds_perm stored (engine.ranking.byVector_perm vector [] rows)).subset ?_
    obtain ⟨hit, among, found⟩ := mem_filterMap.mp inside
    exact mem_filterMap.mpr ⟨hit, mem_of_mem_take (mem_of_mem_drop (mem_of_mem_take among)), found⟩
  generalize at' : (offset : Int) = place at pages
  induction pages generalizing offset with
  | last vectors => exact at' ▸ page _ _
  | more vectors place rest full _ ih =>
    subst at'
    rw [map_append]
    exact append_subset.mpr ⟨page _ _, @ih (offset + limit) (by simp)⟩

theorem askedId_injective {filter : Option (FilterExpr V)} {first second : FieldValue V}
    (inFirst : first ∈ (ownMatching account filter store).map fun row => row.2.id)
    (inSecond : second ∈ (ownMatching account filter store).map fun row => row.2.id)
    (same : askedId engine.python first = askedId engine.python second) : first = second := by
  obtain ⟨row, member, rfl⟩ := mem_map.mp inFirst
  obtain ⟨other, among, rfl⟩ := mem_map.mp inSecond
  have found (row : Nat × Record V) (inside : row ∈ ownMatching account filter store) : store.rows.lookup row.1 = some row.2 :=
    Table.mem_pairs_iff.mp (store.rows.perm_inOrder.mem_iff.mp (ownMatching_sublist.subset inside))
  have label : row.1 = other.1 := by
    rw [← store.keyed _ _ (found row member), ← store.keyed _ _ (found other among), ← label_asked, same, label_asked]
  have equal := found row member
  rw [label, found other among] at equal
  rw [Option.some_inj.mp equal]

theorem ownIds_of_scrolled {records : List (Record V)}
    (inside : (records.map fun record => record.field idField) ⊆ (ownMatching account (some (inSubtree uri)) store).map fun row => row.2.id) :
    ∀ id ∈ records.map fun record => record.field idField, ∃ row, store.rows.lookup (engine.label id) = some row ∧ isOwn account row = true := by
  intro id member
  obtain ⟨row, among, rfl⟩ := mem_map.mp (inside member)
  obtain ⟨inStore, selected⟩ := mem_filter.mp among
  have found := Table.mem_pairs_iff.mp (store.rows.perm_inOrder.mem_iff.mp inStore)
  exact ⟨row.2, by rw [store.keyed _ _ found, found], (Bool.and_eq_true _ _ ▸ selected).1⟩

theorem exec_subtree_scrolled {turns : Nat} {records : List (Record V)}
    (ended : exec (answerCall engine) (subtreeRecords engine.python account uri turns) world = (.ok (some records), after)) :
    ∃ refs between, exec (answerCall engine) (scrollFrom engine.python account (some (inSubtree uri)) 500 [idField] turns none) world =
      (.ok (some refs), between) := by
  rw [subtreeRecords, scrollAll, exec_bind] at ended
  generalize exec (answerCall engine) (scrollFrom engine.python account (some (inSubtree uri)) 500 [idField] turns none) world = scrolled at ended ⊢
  obtain ⟨failed | (_ | refs), between⟩ := scrolled
  · cases ended
  · cases ended
  · exact ⟨refs, between, rfl⟩

theorem seesSubtree_iff : SeesSubtree account uri store ↔
    (ownMatching account (some (inSubtree uri)) store).length ≤ 500 ∧
      ∀ row ∈ ownMatching account (some (inSubtree uri)) store, truthy engine.python row.2.id = true := by
  have read := filterRead_inSubtree account uri store
  have stored := stored_of_matching read
  constructor
  · intro sees
    obtain ⟨turns, records, after, ended, perm⟩ := sees (wavering 500) (fun turn => if turn = 0 then [] else [1]) fun _ => []
    obtain ⟨refs, between, scrolled⟩ := exec_subtree_scrolled ended
    have pages := pages_of_exec (rfl : cursorOffset engine.python none = .ok 0) (by exact read) scrolled
    have inside := @Pages.ids_subset V (engine.rankedBy (wavering 500)) _ _ _ _ _ _ stored _ 0 _ pages
    have ids := @ids_asked V _ (engine.rankedBy (wavering 500)) account store _ (ownIds_of_scrolled inside)
    rw [exec_subtreeRecords scrolled] at ended
    obtain rfl : _ = records := Option.some_inj.mp (Except.ok.inj (Prod.ext_iff.mp ended).1)
    rw [ids] at perm
    -- a row that is asked for under no text of its own would not be read
    have filled : ∀ row ∈ ownMatching account (some (inSubtree uri)) store, truthy engine.python row.2.id = true := by
      intro row member
      obtain ⟨id, among, same⟩ := mem_map.mp (perm.symm.subset (mem_map_of_mem member))
      obtain ⟨shown, truth⟩ := mem_filter.mp among
      exact askedId_injective (inside shown) (mem_map_of_mem member) same ▸ truth
    have whole : askedIds engine.python (refs.map fun record => record.field idField) =
        (refs.map fun record => record.field idField).map (askedId engine.python) := by
      rw [askedIds, filter_eq_self.mpr]
      intro id shown
      obtain ⟨row, member, rfl⟩ := mem_map.mp (inside shown)
      exact filled row member
    refine ⟨?_, filled⟩
    by_contra exceeds
    refine repeated_of_exceeds stored (by decide) (by omega) pages (Nodup.of_map (askedId engine.python) ?_)
    have asked := Nodup.map_on (fun first inFirst second inSecond => askedId_injective inFirst inSecond) (@nodup_ownIds V _ engine account
      (some (inSubtree uri)) store)
    rw [map_map] at asked
    exact whole ▸ perm.nodup_iff.mpr asked
  · rintro ⟨fits, filled⟩ ranking vectors uuids
    obtain ⟨refs, pages, perm⟩ := @pages_of_fits V (engine.rankedBy ranking) account (some (inSubtree uri)) 500 [idField] store _ stored
      (by decide) fits vectors
    obtain ⟨turns, after, scrolled⟩ := @exec_of_pages V _ (engine.rankedBy ranking) engine.python account (some (inSubtree uri)) 500 [idField]
      _ _ read _ _ _ pages none rfl uuids
    refine ⟨turns, _, after, exec_subtreeRecords scrolled, ?_⟩
    rw [@ids_asked V _ (engine.rankedBy ranking) account store _ (ownIds_of_scrolled perm.subset), askedIds, filter_eq_self.mpr]
    · simpa [map_map, Function.comp_def] using perm.map (askedId engine.python)
    · intro id shown
      obtain ⟨row, member, rfl⟩ := mem_map.mp (perm.subset shown)
      exact filled row member

end Subtree

/-- With more matching records than fit into one page, some draws of the random vectors show a record twice. -/
theorem scrolling_visits_once_iff (account : Text) (filter : Option (FilterExpr V)) (limit : Nat) (outputFields : List Text)
    (store : Store engine.label) (positive : 0 < limit) :
    (VisitsOnce account filter limit outputFields store ↔
        FilterRead account filter store ∧ (ownMatching account filter store).length ≤ limit) ∧
      ∀ uri, SeesSubtree account uri store ↔
        (ownMatching account (some (inSubtree uri)) store).length ≤ 500 ∧
          ∀ row ∈ ownMatching account (some (inSubtree uri)) store, truthy engine.python row.2.id = true :=
  ⟨visitsOnce_iff positive, fun _ => seesSubtree_iff⟩

namespace Small

def twoNotes : Store noteEngine.label := noteStore [noteRow "a" "acme", noteRow "b" "acme"]

theorem two_notes_scrolled_by_one : ¬ VisitsOnce "acme" none 1 [] twoNotes := fun visits =>
  absurd ((scrolling_visits_once_iff "acme" none 1 [] twoNotes (by decide)).1.mp visits).2 (by decide)

/-- Two records, in pages of one: one of them can be shown twice and the other one not at all. -/
theorem scrolling_misses_notes : ¬ ∀ (account : Text) (filter : Option (FilterExpr Plain)) (limit : Nat) (outputFields : List Text)
    (store : Store noteEngine.label), 0 < limit → VisitsOnce account filter limit outputFields store :=
  fun every => absurd ((visitsOnce_iff (by decide)).mp (every "acme" none 1 [] twoNotes (by decide))).2 (by decide)

end Small

end LoginomDock.Tenancy
