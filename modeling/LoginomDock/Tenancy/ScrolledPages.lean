import LoginomDock.Tenancy.AccountBackend

/-! `scroll` cuts pages by their offset, and each page from a ranking of its own: a query for no vector draws one at
random. -/

namespace LoginomDock.Tenancy

open Filters List Prog

variable {V : Type} [DecidableEq V]

section Scrolling

variable (python : Python V) (account : Text) (filter : Option (FilterExpr V)) (limit : Nat) (outputFields : List Text)

def scrollFrom : Nat → Option Text → Backend V (Option (List (Record V)))
  | 0, _ => pure none
  | turns + 1, cursor => do
      let (page, next) ← scroll python account filter limit cursor outputFields
      match next with
      | none => pure (some page)
      | some next => do
          let rest ← scrollFrom turns (some next)
          pure (rest.map (page ++ ·))

end Scrolling

/-- `AclManager._scroll_all` -/
def scrollAll (python : Python V) (account : Text) (filterExpr : FilterExpr V) (outputFields : List Text) (turns : Nat) :
    Backend V (Option (List (Record V))) :=
  scrollFrom python account (some filterExpr) 500 outputFields turns none

/-- The slices of `range(0, len(items), size)`. -/
def blocks {α : Type} (size : Nat) (items : List α) : List (List α) :=
  (List.range ((items.length + size - 1) / size)).map fun turn => (items.drop (size * turn)).take size

def inSubtree (uri : Text) : FilterExpr V := .pathScope "uri" uri (-1)

/-- `AclManager._subtree_records` -/
def subtreeRecords (python : Python V) (account : Text) (uri : Text) (turns : Nat) : Backend V (Option (List (Record V))) := do
  match ← scrollAll python account (inSubtree uri) [idField] turns with
  | none => pure none
  | some refs =>
    let ids := ((refs.map fun record => record.field idField).filter (truthy python)).map fun id => text (python.str id)
    let records ← (blocks 500 ids).mapM (getStrict account)
    pure (some records.flatten)

theorem flatten_blocks {α : Type} {size : Nat} (positive : 0 < size) (items : List α) : (blocks size items).flatten = items := by
  have taken (turns : Nat) :
      ((List.range turns).map fun turn => (items.drop (size * turn)).take size).flatten = items.take (size * turns) := by
    induction turns with
    | zero => simp
    | succ turns ih => rw [range_succ, map_append, flatten_append, ih, Nat.mul_succ, take_add]; simp
  rw [blocks, taken]
  apply take_of_length_le
  have enough := Nat.lt_mul_div_succ (items.length - 1) positive
  rcases items.length.eq_zero_or_pos with none' | some'
  · omega
  · have step : (items.length + size - 1) / size = (items.length - 1) / size + 1 := by
      rw [← Nat.add_div_right _ positive]
      congr 1
      omega
    rw [step]
    omega

omit [DecidableEq V] in
theorem lookup_onUri (change : Text → Text) (record : Record V) {name other : Text} (apart : other ≠ name) :
    (onUri change record name).lookup other = record.lookup other := by
  unfold onUri
  split
  · exact AList.lookup_insert_ne apart
  · rfl

omit [DecidableEq V] in
theorem lookup_onUris (change : Text → Text) (record : Record V) {name : Text} (apart : name ∉ uriFieldNames) :
    (uriFieldNames.foldl (onUri change) record).lookup name = record.lookup name := by
  simp only [uriFieldNames, mem_cons, not_or] at apart
  simp only [uriFieldNames, foldl_cons, foldl_nil]
  rw [lookup_onUri _ _ apart.2.1, lookup_onUri _ _ apart.1]

omit [DecidableEq V] in
theorem field_normalizeForRead (record : Record V) {name : Text} (apart : name ∉ uriFieldNames) :
    (normalizeForRead record).field name = record.field name := by
  rw [Record.field, normalizeForRead, lookup_onUris _ _ apart, Record.field]

omit [DecidableEq V] in
theorem id_resultRecord (names : List Text) (row : Record V) (score : FieldValue V) :
    (resultRecord names row score).field idField = row.id := by
  rw [resultRecord, field_normalizeForRead _ (by decide), Record.field, AList.lookup_insert_ne (by decide), AList.lookup_insert,
    Option.getD_some]

variable {engine : Engine V}

omit [DecidableEq V] in
theorem nodup_ids {labelOf : FieldValue V → Nat} (store : Store labelOf) : (store.rows.inOrder.map fun row => row.2.id).Nodup := by
  refine (pairwise_map.mpr (store.rows.strict_inOrder.imp_of_mem ?_))
  intro first second inFirst inSecond below same
  have found (row : Nat × Record V) (inside : row ∈ store.rows.inOrder) : labelOf row.2.id = row.1 :=
    store.keyed _ _ (Table.mem_pairs_iff.mp (store.rows.perm_inOrder.mem_iff.mp inside))
  have equal : first.1 = second.1 := by rw [← found first inFirst, ← found second inSecond, same]
  omega

def hitIds {labelOf : FieldValue V → Nat} (store : Store labelOf) (hits : List (Nat × FieldValue V)) : List (FieldValue V) :=
  hits.filterMap fun hit => (store.rows.lookup hit.1).map Record.id

omit [DecidableEq V] in
theorem ids_resultPage (store : Store engine.label) (names : List Text) (hits : List (Nat × FieldValue V)) (query : Query V) :
    (resultPage store names hits query).map (fun record => record.field idField) =
      hitIds store (((hits.take (query.limit + query.offset).toNat).drop query.offset.toNat).take query.limit) := by
  rw [resultPage, hitIds, map_filterMap]
  congr 1
  funext hit
  obtain ⟨label, score⟩ := hit
  dsimp only
  cases store.rows.lookup label with
  | none => rfl
  | some row => exact congrArg some (id_resultRecord names row score)

omit [DecidableEq V] in
theorem hitIds_eq {labelOf : FieldValue V → Nat} {store : Store labelOf} {rows : List (Nat × Record V)}
    (stored : ∀ row ∈ rows, store.rows.lookup row.1 = some row.2) {hits : List (Nat × FieldValue V)}
    (same : hits.map Prod.fst = rows.map Prod.fst) : hitIds store hits = rows.map fun row => row.2.id := by
  have byLabel : hitIds store hits = (hits.map Prod.fst).filterMap fun label => (store.rows.lookup label).map Record.id := by
    rw [filterMap_map]
    rfl
  rw [byLabel, same, filterMap_map, ← filterMap_eq_map]
  exact filterMap_congr fun row inside => by simp [stored row inside]

omit [DecidableEq V] in
theorem hitIds_perm {labelOf : FieldValue V → Nat} {store : Store labelOf} {rows : List (Nat × Record V)}
    (stored : ∀ row ∈ rows, store.rows.lookup row.1 = some row.2) {hits : List (Nat × FieldValue V)}
    (perm : (hits.map Prod.fst).Perm (rows.map Prod.fst)) : (hitIds store hits).Perm (rows.map fun row => row.2.id) := by
  have byLabel (labels : List Nat) (hits : List (Nat × FieldValue V)) (same : hits.map Prod.fst = labels) :
      hitIds store hits = labels.filterMap fun label => (store.rows.lookup label).map Record.id := by
    rw [← same, filterMap_map]
    rfl
  have inPlace : hitIds store (rows.map fun row => (row.1, null)) = rows.map fun row => row.2.id := hitIds_eq stored (by simp)
  rw [← inPlace, byLabel _ hits rfl, byLabel (rows.map Prod.fst) _ (by simp)]
  exact perm.filterMap _

section

variable {store : Store engine.label} {payload : Payload V} {rows : List (Nat × Record V)} (found : matching store payload = .ok rows)

include found

theorem matching_sublist : rows.Sublist store.rows.inOrder := by
  unfold matching at found
  split at found
  · cases found
  · cases found
    exact List.Sublist.refl _
  · cases found
    exact filter_sublist

theorem stored_of_matching : ∀ row ∈ rows, store.rows.lookup row.1 = some row.2 :=
  fun _ inside => Table.mem_pairs_iff.mp (store.rows.perm_inOrder.mem_iff.mp ((matching_sublist found).subset inside))

end

section Calls

variable (python : Python V) (account : Text) (filter : Option (FilterExpr V)) (limit : Nat) (outputFields : List Text)

def pageQuery (offset : Int) : Query V := { filter := boundFilter account filter, limit, offset, outputFields }

def nextCursor (offset : Int) (page : List (Record V)) : Option Text :=
  if page.length = limit then some (toString (offset + limit)).toList else none

theorem exec_scroll {cursor : Option Text} {offset : Int} (read : cursorOffset python cursor = .ok offset) (world : World engine.label) :
    exec (answerCall engine) (scroll python account filter limit cursor outputFields) world =
      match queryRecords world.store (world.vectors 0) (pageQuery account filter limit outputFields offset) with
      | .ok page => (.ok (page, nextCursor limit offset page), world.drawn)
      | .error failed => (.error failed, world.drawn) := by
  have random : (pageQuery account filter limit outputFields offset).draws = true := rfl
  rw [scroll, read, exec_bind_ok _ (exec_attempt world (.ok offset)), ← pageQuery, exec_bind_ok _ (exec_callQuery world _), random,
    if_pos rfl, exec_bind, exec_attempt]
  cases queryRecords world.store (world.vectors 0) (pageQuery account filter limit outputFields offset) with
  | ok page => rfl
  | error failed => rfl

omit [DecidableEq V] in
theorem toString_ne_nil (number : Int) : (toString number).toList ≠ [] := by
  cases number with
  | ofNat number =>
    change (Nat.repr number).toList ≠ []
    simp [Nat.repr]
  | negSucc number =>
    change ("-" ++ _).toList ≠ []
    simp

omit [DecidableEq V] in
theorem cursorOffset_next {limit : Nat} {offset : Int} {page : List (Record V)} {next : Text}
    (more : nextCursor limit offset page = some next) : cursorOffset python (some next) = .ok (offset + limit) := by
  unfold nextCursor at more
  split at more
  case isTrue =>
    obtain ⟨first, rest, spelled⟩ := exists_cons_of_ne_nil (toString_ne_nil (offset + limit))
    rw [← Option.some_inj.mp more, spelled, cursorOffset, ← spelled]
    simp only [text, python.int_str]
    simp
  case isFalse => cases more

def pageAt (store : Store engine.label) (rows : List (Nat × Record V)) (vector : List ℚ) (offset : Int) : List (Record V) :=
  resultPage store (if outputFields = [] then fieldNames else outputFields) (engine.ranking.byVector vector [] rows)
    (pageQuery account filter limit outputFields offset)

theorem queryRecords_page {store : Store engine.label} {rows : List (Nat × Record V)}
    (found : matching store (compileFilter (boundFilter account filter)) = .ok rows) (vector : List ℚ) (offset : Int) :
    queryRecords store vector (pageQuery account filter limit outputFields offset) =
      .ok (pageAt account filter limit outputFields store rows vector offset) := by
  rw [queryRecords, show (pageQuery account filter limit outputFields offset).filter = boundFilter account filter from rfl, found]
  rfl

-- What the pages from an offset on show together, each cut from the ranking of the next vector.
inductive Pages (store : Store engine.label) (rows : List (Nat × Record V)) : (Nat → List ℚ) → Int → List (Record V) → Prop where
  | last (vectors : Nat → List ℚ) (offset : Int) :
      (pageAt account filter limit outputFields store rows (vectors 0) offset).length ≠ limit →
      Pages store rows vectors offset (pageAt account filter limit outputFields store rows (vectors 0) offset)
  | more (vectors : Nat → List ℚ) (offset : Int) (rest : List (Record V)) :
      (pageAt account filter limit outputFields store rows (vectors 0) offset).length = limit →
      Pages store rows (fun turn => vectors (turn + 1)) (offset + limit) rest →
      Pages store rows vectors offset (pageAt account filter limit outputFields store rows (vectors 0) offset ++ rest)

variable {python account filter limit outputFields}

theorem exec_scroll_page {cursor : Option Text} {offset : Int} (read : cursorOffset python cursor = .ok offset) {world : World engine.label}
    {rows : List (Nat × Record V)} (found : matching world.store (compileFilter (boundFilter account filter)) = .ok rows) :
    exec (answerCall engine) (scroll python account filter limit cursor outputFields) world =
      (.ok (pageAt account filter limit outputFields world.store rows (world.vectors 0) offset,
        nextCursor limit offset (pageAt account filter limit outputFields world.store rows (world.vectors 0) offset)), world.drawn) := by
  rw [exec_scroll _ _ _ _ _ read, queryRecords_page account filter limit outputFields found]

theorem pages_of_exec {turns : Nat} {cursor : Option Text} {offset : Int} (read : cursorOffset python cursor = .ok offset)
    {world after : World engine.label} {rows : List (Nat × Record V)} {records : List (Record V)}
    (found : matching world.store (compileFilter (boundFilter account filter)) = .ok rows)
    (ended : exec (answerCall engine) (scrollFrom python account filter limit outputFields turns cursor) world = (.ok (some records), after)) :
    Pages account filter limit outputFields world.store rows world.vectors offset records := by
  induction turns generalizing cursor offset world after records with
  | zero => cases ended
  | succ turns ih =>
    rw [scrollFrom, exec_bind_ok _ (exec_scroll_page read found)] at ended
    by_cases full : (pageAt account filter limit outputFields world.store rows (world.vectors 0) offset).length = limit
    · have more : nextCursor limit offset (pageAt account filter limit outputFields world.store rows (world.vectors 0) offset) =
          some (toString (offset + limit)).toList := by rw [nextCursor, if_pos full]
      rw [more] at ended
      dsimp only at ended
      have later := cursorOffset_next python more
      rw [exec_bind] at ended
      generalize step : exec (answerCall engine) (scrollFrom python account filter limit outputFields turns
        (some (toString (offset + limit)).toList)) world.drawn = stepped at ended
      obtain ⟨failed | rest, between⟩ := stepped
      · cases ended
      cases rest with
      | none => cases ended
      | some rest =>
        obtain rfl : pageAt account filter limit outputFields world.store rows (world.vectors 0) offset ++ rest = records := by
          injection ended with result
          injection result with result
          injection result
        exact .more _ _ rest full (@ih _ _ later world.drawn _ _ found step)
    · have done : nextCursor limit offset (pageAt account filter limit outputFields world.store rows (world.vectors 0) offset) = none := by
        rw [nextCursor, if_neg full]
      rw [done] at ended
      dsimp only at ended
      obtain rfl : pageAt account filter limit outputFields world.store rows (world.vectors 0) offset = records := by
        injection ended with result
        injection result with result
        injection result
      exact .last _ _ full

theorem exec_of_pages {store : Store engine.label} {rows : List (Nat × Record V)}
    (found : matching store (compileFilter (boundFilter account filter)) = .ok rows) {vectors : Nat → List ℚ} {offset : Int}
    {records : List (Record V)} (pages : Pages account filter limit outputFields store rows vectors offset records)
    {cursor : Option Text} (read : cursorOffset python cursor = .ok offset) (uuids : Nat → Text) :
    ∃ turns after, exec (answerCall engine) (scrollFrom python account filter limit outputFields turns cursor) ⟨store, vectors, uuids⟩ =
      (.ok (some records), after) := by
  induction pages generalizing cursor with
  | last vectors offset short =>
    refine ⟨1, World.drawn ⟨store, vectors, uuids⟩, ?_⟩
    rw [scrollFrom, exec_bind_ok _ (exec_scroll_page read found), nextCursor, if_neg short]
    rfl
  | more vectors offset rest full _ ih =>
    have more : nextCursor limit offset (pageAt account filter limit outputFields store rows (vectors 0) offset) =
        some (toString (offset + limit)).toList := by rw [nextCursor, if_pos full]
    obtain ⟨turns, after, later⟩ := ih (cursorOffset_next python more)
    refine ⟨turns + 1, after, ?_⟩
    rw [scrollFrom, exec_bind_ok _ (exec_scroll_page read found)]
    dsimp only
    rw [more]
    exact (exec_bind_ok _ later).trans rfl

end Calls

section Rows

variable {account : Text} {filter : Option (FilterExpr V)} {limit : Nat} {outputFields : List Text} {store : Store engine.label}
  {rows : List (Nat × Record V)}

omit [DecidableEq V] in
theorem ids_pageAt (vector : List ℚ) (offset : Nat) :
    (pageAt account filter limit outputFields store rows vector offset).map (fun record => record.field idField) =
      hitIds store ((((engine.ranking.byVector vector [] rows).take (limit + offset)).drop offset).take limit) := by
  rw [pageAt, ids_resultPage]
  rfl

omit [DecidableEq V] in
theorem length_ranked (vector : List ℚ) : (engine.ranking.byVector vector [] rows).length = rows.length := by
  simpa using (engine.ranking.byVector_perm vector [] rows).length_eq

omit [DecidableEq V] in
theorem pages_of_fits (stored : ∀ row ∈ rows, store.rows.lookup row.1 = some row.2) (positive : 0 < limit) (fits : rows.length ≤ limit)
    (vectors : Nat → List ℚ) : ∃ records, Pages account filter limit outputFields store rows vectors 0 records ∧
      (records.map fun record => record.field idField).Perm (rows.map fun row => row.2.id) := by
  have first : ((pageAt account filter limit outputFields store rows (vectors 0) 0).map fun record => record.field idField).Perm
      (rows.map fun row => row.2.id) := by
    have ids := @ids_pageAt V engine account filter limit outputFields store rows (vectors 0) 0
    have whole : (((engine.ranking.byVector (vectors 0) [] rows).take (limit + 0)).drop 0).take limit =
        engine.ranking.byVector (vectors 0) [] rows := by
      rw [drop_zero, take_take, take_of_length_le]
      rw [length_ranked]
      omega
    rw [whole] at ids
    exact ids ▸ hitIds_perm stored (engine.ranking.byVector_perm _ _ _)
  by_cases full : (pageAt account filter limit outputFields store rows (vectors 0) 0).length = limit
  · have empty : pageAt account filter limit outputFields store rows (vectors 1) (limit : Int) = [] := by
      have ids := @ids_pageAt V engine account filter limit outputFields store rows (vectors 1) limit
      rw [drop_eq_nil_of_le (by rw [length_take, length_ranked]; omega)] at ids
      rw [take_nil] at ids
      exact map_eq_nil_iff.mp ids
    have second := @Pages.last V engine account filter limit outputFields store rows (fun turn => vectors (turn + 1)) limit (by rw [empty]; simp; omega)
    rw [empty] at second
    refine ⟨_, .more vectors 0 [] full (by rw [Int.zero_add]; exact second), ?_⟩
    rwa [append_nil]
  · exact ⟨_, .last vectors 0 full, first⟩

-- An order in which the first row comes only after a page of the others.
def delayed (limit : Nat) : List (Nat × Record V) → List (Nat × Record V)
  | [] => []
  | first :: rest => rest.take limit ++ first :: rest.drop limit

omit [DecidableEq V] in
theorem perm_delayed (limit : Nat) (rows : List (Nat × Record V)) : (delayed limit rows).Perm rows := by
  cases rows with
  | nil => exact .nil
  | cons first rest =>
    refine perm_middle.trans (.cons first ?_)
    rw [take_append_drop]

def unscored (rows : List (Nat × Record V)) : List (Nat × FieldValue V) := rows.map fun row => (row.1, null)

omit [DecidableEq V] in
theorem labels_unscored (rows : List (Nat × Record V)) : (unscored rows).map Prod.fst = rows.map Prod.fst := by
  rw [unscored, map_map]
  rfl

def wavering (limit : Nat) : Ranking V where
  byVector dense _ rows := unscored (if dense = [] then rows else delayed limit rows)
  byVector_perm dense _ rows := by
    rw [labels_unscored]
    by_cases same : dense = []
    · rw [if_pos same]
    · rw [if_neg same]
      exact (perm_delayed limit rows).map Prod.fst
  byField _ _ rows := unscored rows
  byField_among _ _ rows hit inside := by
    obtain ⟨row, among, rfl⟩ := mem_map.mp inside
    exact mem_map_of_mem among

end Rows

-- The collection with another order of its search results.
abbrev Engine.rankedBy (engine : Engine V) (ranking : Ranking V) : Engine V := { engine with ranking }

section Wavering

variable {account : Text} {filter : Option (FilterExpr V)} {limit : Nat} {outputFields : List Text} {store : Store engine.label}
  {rows : List (Nat × Record V)}

omit [DecidableEq V] in
theorem ids_wavering (stored : ∀ row ∈ rows, store.rows.lookup row.1 = some row.2) (vector : List ℚ) (offset : Nat) :
    (@pageAt V (engine.rankedBy (wavering limit)) account filter limit outputFields store rows vector offset).map
        (fun record => record.field idField) =
      ((((if vector = [] then rows else delayed limit rows).take (limit + offset)).drop offset).take limit).map fun row => row.2.id := by
  refine (@ids_pageAt V (engine.rankedBy (wavering limit)) account filter limit outputFields store rows vector offset).trans ?_
  have among : ∀ row ∈ (if vector = [] then rows else delayed limit rows), row ∈ rows := by
    intro row inside
    by_cases same : vector = []
    · rwa [if_pos same] at inside
    · rw [if_neg same] at inside
      exact (perm_delayed limit rows).subset inside
  refine hitIds_eq (fun row inside => stored row (among row ?_)) ?_
  · exact mem_of_mem_take (mem_of_mem_drop (mem_of_mem_take inside))
  · change (((unscored _).take _).drop offset |>.take limit).map Prod.fst = _
    rw [map_take, map_drop, map_take, labels_unscored, map_take, map_drop, map_take]

omit [DecidableEq V] in
theorem Pages.subset {vectors : Nat → List ℚ} {offset : Int} {records : List (Record V)}
    (pages : Pages account filter limit outputFields store rows vectors offset records) :
    pageAt account filter limit outputFields store rows (vectors 0) offset ⊆ records := by
  cases pages with
  | last => exact fun _ inside => inside
  | more => exact subset_append_left _ _

omit [DecidableEq V] in
theorem repeated_of_exceeds (stored : ∀ row ∈ rows, store.rows.lookup row.1 = some row.2) (positive : 0 < limit) (exceeds : limit < rows.length)
    {records : List (Record V)}
    (pages : @Pages V (engine.rankedBy (wavering limit)) account filter limit outputFields store rows (fun turn => if turn = 0 then [] else [1]) 0
      records) : ¬ (records.map fun record => record.field idField).Nodup := by
  obtain ⟨first, others, rfl⟩ := exists_cons_of_ne_nil (ne_nil_of_length_pos (by omega : 0 < rows.length))
  rw [length_cons] at exceeds
  have before := @ids_wavering V engine account filter limit outputFields store (first :: others) stored [] 0
  have after := @ids_wavering V engine account filter limit outputFields store (first :: others) stored [1] limit
  rw [if_pos rfl, Nat.add_zero, drop_zero, take_take, Nat.min_self] at before
  rw [if_neg (by simp), delayed, drop_take, drop_append_of_le_length (by simp; omega), drop_eq_nil_of_le (by simp),
    Nat.add_sub_cancel, take_take, Nat.min_self, nil_append] at after
  cases pages with
  | last _ _ short =>
    refine absurd ?_ short
    have size := congrArg List.length before
    rw [length_map, length_map, length_take, length_cons] at size
    exact size.trans (by omega)
  | more _ _ rest _ later =>
    rw [map_append]
    intro distinct
    obtain ⟨size, rfl⟩ := Nat.exists_eq_succ_of_ne_zero (by omega : limit ≠ 0)
    have shownFirst : first.2.id ∈ (@pageAt V (engine.rankedBy (wavering (size + 1))) account filter (size + 1) outputFields store
        (first :: others) [] (0 : Nat)).map fun record => record.field idField := by
      rw [before]
      simp
    have shownAgain : first.2.id ∈ rest.map fun record => record.field idField := by
      refine map_subset _ later.subset ?_
      rw [Int.zero_add]
      exact after ▸ by simp
    exact disjoint_of_nodup_append distinct shownFirst shownAgain

end Wavering

end LoginomDock.Tenancy
