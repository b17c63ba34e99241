import LoginomDock.CacheFs.GrepPlan
import Mathlib.Data.List.Nodup

/-! Over a coherent cache the explicit stack goes through the plan too, in batches of files. In which order the reads of
a batch end does not matter. -/

namespace LoginomDock.CacheFs

open List CacheReader GrepBackend

section Batches

variable {ε : Type} (backend : GrepBackend ε) (query : GrepQuery)

def fileItems (remainingLimit : Option Nat) (path : Text) : Except ε (List GrepMatch) :=
  (backend.read path).map fun content =>
    matchLines query.isMatch (relativeMatchFile query.basePath path) remainingLimit (GrepQuery.numberedLines content) []

def indexedItems (remainingLimit : Option Nat) (files : List Text) : List (Nat × Except ε (List GrepMatch)) :=
  files.zipIdx.map fun file => (file.2, fileItems backend query remainingLimit file.1)

def flushed (fileBatch : List Text) (result : GrepResult) : Except ε GrepResult :=
  if fileBatch = [] ∨ query.full result then .ok result
  else
    pushFiles query
      (indexedItems backend query (query.nodeLimit.map fun limit => limit - result.count) fileBatch) result

def inBatches : List (GrepEvent ε) → List Text → GrepResult → Except ε GrepResult
  | [], fileBatch, result => flushed backend query fileBatch result
  | .directory failure :: rest, fileBatch, result =>
    if query.full result then .ok result
    else (flushed backend query fileBatch result).bind fun after =>
      if query.full after then .ok after
      else
        match failure with
        | some error => .error error
        | none => inBatches rest [] after
  | .file path :: rest, fileBatch, result =>
    if query.full result then .ok result
    else if grepCacheFileConcurrency ≤ (fileBatch ++ [path]).length then
      (flushed backend query (fileBatch ++ [path]) result).bind (inBatches rest [])
    else inBatches rest (fileBatch ++ [path]) result

end Batches

structure CacheReader.Coherent {σ ε : Type} (reader : CacheReader σ ε) (backend : GrepBackend ε) (paths : Set Text) (holds : σ → Prop) :
    Prop where
  stat : ∀ path ∈ paths, Ensures holds (reader.stat path) fun answer state => answer = backend.stat path ∧ holds state
  readDir : ∀ path ∈ paths, Ensures holds (reader.readDirWithGenerationCache path) fun answer state =>
    answer = backend.readDir path ∧ holds state
  read : ∀ path ∈ paths, Ensures holds (reader.readWithGenerationCache path) fun answer state =>
    answer = backend.read path ∧ holds state
  completed : ∀ count, Ensures holds (reader.completed count) fun order state => order.Perm (List.range count) ∧ holds state

-- A fact about an earlier answer, taken out of the condition on the state
theorem ensures_given {σ α : Type} {fact : Prop} {pre : σ → Prop} {program : StateM σ α} {post : α → σ → Prop}
    (ensures : fact → Ensures pre program post) : Ensures (fun state => fact ∧ pre state) program post :=
  fun state held => ensures held.1 state held.2

-- What follows an earlier answer that is known
theorem ensures_then {σ α β : Type} {pre : σ → Prop} {program : StateM σ α} {next : α → StateM σ β} {post : β → σ → Prop} {value : α}
    (first : Ensures pre program fun answer state => answer = value ∧ pre state) (rest : Ensures pre (next value) post) :
    Ensures pre (program >>= next) post :=
  .bind first fun _ => ensures_given fun same => same ▸ rest

section Flush

variable {σ ε : Type} {reader : CacheReader σ ε} {backend : GrepBackend ε} {query : GrepQuery} {paths : Set Text} {holds : σ → Prop}
  {remainingLimit : Option Nat} {files : List Text} {result : GrepResult}

theorem flushed_full (full : query.full result = true) (files : List Text) : flushed backend query files result = .ok result :=
  if_pos (.inr full)

theorem inBatches_full (full : query.full result = true) (events : List (GrepEvent ε)) (files : List Text) :
    inBatches backend query events files result = .ok result := by
  cases events with
  | nil => exact flushed_full full files
  | cons event rest => cases event <;> exact if_pos full

theorem grepCachedFile_ensures (coherent : reader.Coherent backend paths holds) {path : Text} (known : path ∈ paths) :
    Ensures holds (reader.grepCachedFile query path remainingLimit) fun answer state =>
      answer = fileItems backend query remainingLimit path ∧ holds state := by
  refine .bind (coherent.read path known) fun answer => ?_
  cases answer with
  | error error =>
    refine .pure fun state held => ⟨?_, held.2⟩
    rw [fileItems, ← held.1]
    rfl
  | ok content =>
    refine .pure fun state held => ⟨?_, held.2⟩
    rw [fileItems, ← held.1]
    rfl

def outcomesIn (backend : GrepBackend ε) (query : GrepQuery) (remainingLimit : Option Nat) (files : List Text) (order : List Nat) :
    List (Nat × Except ε (List GrepMatch)) :=
  order.filterMap fun index => files[index]?.map fun path => (index, fileItems backend query remainingLimit path)

theorem grepInOrder_ensures (coherent : reader.Coherent backend paths holds) (known : ∀ path ∈ files, path ∈ paths) (order : List Nat) :
    Ensures holds (reader.grepInOrder query files remainingLimit order) fun answer state =>
      answer = outcomesIn backend query remainingLimit files order ∧ holds state := by
  induction order with
  | nil => exact .pure fun state held => ⟨rfl, held⟩
  | cons index order ih =>
    rw [grepInOrder]
    cases found : files[index]? with
    | none =>
      refine ih.weaken (fun _ held => held) fun answer state ended => ⟨?_, ended.2⟩
      simp [ended.1, outcomesIn, found]
    | some path =>
      refine .bind (grepCachedFile_ensures coherent (known path (mem_of_getElem? found))) fun outcome => ?_
      refine ensures_given fun isOutcome => .bind ih fun others => ?_
      refine .pure fun state held => ⟨?_, held.2⟩
      rw [held.1, isOutcome]
      simp [outcomesIn, found]

theorem indexedItems_fst (remainingLimit : Option Nat) (files : List Text) :
    (indexedItems backend query remainingLimit files).map Prod.fst = List.range files.length := by
  rw [indexedItems, map_map, range_eq_range']
  exact zipIdx_map_snd 0 files

theorem outcomesIn_range : outcomesIn backend query remainingLimit files (List.range files.length) =
    indexedItems backend query remainingLimit files := by
  have indices : List.range files.length = files.zipIdx.map Prod.snd := by
    rw [range_eq_range', zipIdx_map_snd]
  rw [outcomesIn, indices, filterMap_map, indexedItems, ← filterMap_eq_map]
  refine filterMap_congr fun file member => ?_
  have found := mem_zipIdx_iff_getElem?.mp member
  simp [found]

theorem mergeSort_outcomes {order : List Nat} (complete : order.Perm (List.range files.length)) :
    (outcomesIn backend query remainingLimit files order).mergeSort (fun first second => decide (first.1 ≤ second.1)) =
      indexedItems backend query remainingLimit files := by
  have ascending : (indexedItems backend query remainingLimit files).Pairwise fun first second => first.1 < second.1 := by
    rw [← pairwise_map, indexedItems_fst]
    exact pairwise_lt_range
  have same : (outcomesIn backend query remainingLimit files order).Perm (indexedItems backend query remainingLimit files) := by
    rw [← outcomesIn_range]
    exact complete.filterMap _
  have sorted : ((outcomesIn backend query remainingLimit files order).mergeSort fun first second => decide (first.1 ≤ second.1)).Pairwise
      fun first second => first.1 ≤ second.1 := by
    refine (pairwise_mergeSort ?_ ?_ _).imp fun ordered => of_decide_eq_true ordered
    · intro first second third left right
      exact decide_eq_true (Nat.le_trans (of_decide_eq_true left) (of_decide_eq_true right))
    · intro first second
      simpa using Nat.le_total first.1 second.1
  have both := (mergeSort_perm (outcomesIn backend query remainingLimit files order)
    fun first second => decide (first.1 ≤ second.1)).trans same
  refine List.Perm.eq_of_pairwise (fun first second left right below above => ?_) sorted (ascending.imp fun below => Nat.le_of_lt below) both
  -- an index names one outcome
  have distinct : ((indexedItems backend query remainingLimit files).map Prod.fst).Nodup := by
    rw [indexedItems_fst]
    exact nodup_range
  exact inj_on_of_nodup_map distinct (both.subset left) right (Nat.le_antisymm below above)

theorem flush_ensures (coherent : reader.Coherent backend paths holds) (known : ∀ path ∈ files, path ∈ paths) (result : GrepResult) :
    Ensures holds (reader.flushGrepFileBatch query files result) fun answer state =>
      answer = flushed backend query files result ∧ holds state := by
  unfold flushGrepFileBatch flushed
  by_cases idle : files = [] ∨ query.full result = true
  · rw [if_pos idle, if_pos idle]
    exact .pure fun state held => ⟨rfl, held⟩
  · rw [if_neg idle, if_neg idle]
    refine .bind (coherent.completed files.length) fun order => ensures_given fun complete => ?_
    refine .bind (grepInOrder_ensures coherent known order) fun indexed => ?_
    refine .pure fun state held => ⟨?_, held.2⟩
    rw [held.1, mergeSort_outcomes complete]

def Follows (reader : CacheReader σ ε) (backend : GrepBackend ε) (query : GrepQuery) (paths : Set Text) (holds : σ → Prop)
    (stack : List GrepVisit) (events : List (GrepEvent ε)) : Prop :=
  ∀ (files : List Text) (result : GrepResult), (∀ path ∈ files, path ∈ paths) →
    ∃ bound, ∀ fuel, bound ≤ fuel → Ensures holds (reader.visitAll query fuel stack files result) fun answer state =>
      answer = some (inBatches backend query events files result) ∧ holds state

theorem follows_nil (coherent : reader.Coherent backend paths holds) : Follows reader backend query paths holds [] [] := by
  intro files result known
  refine ⟨1, fun fuel enough => ?_⟩
  obtain ⟨more, rfl⟩ := Nat.exists_eq_add_of_le' enough
  refine .bind (flush_ensures coherent known result) fun answer => .pure fun state held => ⟨?_, held.2⟩
  rw [held.1]
  rfl

theorem pushEntries_eq (currentPath : Text) (entries : List FileInfo) (stack : List GrepVisit) :
    pushEntries currentPath entries stack =
      entries.map (fun entry => { path := entryPath currentPath entry.name, isDir := some entry.isDir }) ++ stack := by
  rw [pushEntries, foldl_reverse]
  induction entries with
  | nil => rfl
  | cons entry rest ih => rw [foldr_cons, ih, map_cons, cons_append]

-- What the loop knows about a path, from its parent's listing or from a stat
def GrepVisit.Knows (backend : GrepBackend ε) (visit : GrepVisit) (isDir : Bool) : Prop :=
  visit.isDir = some isDir ∨ visit.isDir = none ∧ ∃ info, backend.stat visit.path = .ok info ∧ info.isDir = isDir

theorem isDirectory_ensures (coherent : reader.Coherent backend paths holds) {visit : GrepVisit} {isDir : Bool}
    (known : visit.path ∈ paths) (knows : visit.Knows backend isDir) :
    Ensures holds (reader.isDirectory visit) fun answer state => answer = .ok isDir ∧ holds state := by
  unfold isDirectory
  rcases knows with told | ⟨untold, info, found, same⟩
  · rw [told]
    exact .pure fun state held => ⟨rfl, held⟩
  · rw [untold]
    refine ensures_then (coherent.stat visit.path known) ?_
    rw [found]
    exact .pure fun state held => ⟨by rw [same], held⟩

variable {visit : GrepVisit} {stack : List GrepVisit} {rest : List (GrepEvent ε)}

theorem Follows.round {events : List (GrepEvent ε)}
    (step : ∀ files result, (∀ path ∈ files, path ∈ paths) → query.full result = false → query.excluded visit.path = false →
      ∃ bound, ∀ fuel, bound ≤ fuel → Ensures holds (reader.visitAll query (fuel + 1) (visit :: stack) files result) fun answer state =>
        answer = some (inBatches backend query events files result) ∧ holds state)
    (coherent : reader.Coherent backend paths holds)
    (excluded : query.excluded visit.path = true → Follows reader backend query paths holds stack events) :
    Follows reader backend query paths holds (visit :: stack) events := by
  intro files result known
  cases full : query.full result with
  | true =>
    refine ⟨1, fun fuel enough => ?_⟩
    obtain ⟨more, rfl⟩ := Nat.exists_eq_add_of_le' enough
    simp only [visitAll, full, if_true]
    refine .bind (flush_ensures coherent known result) fun answer => .pure fun state held => ⟨?_, held.2⟩
    rw [held.1, flushed_full full, inBatches_full full]
  | false =>
    cases isExcluded : query.excluded visit.path with
    | true =>
      obtain ⟨bound, follows⟩ := excluded isExcluded files result known
      refine ⟨bound + 1, fun fuel enough => ?_⟩
      obtain ⟨more, rfl⟩ := Nat.exists_eq_add_of_le' (Nat.le_trans (Nat.le_add_left 1 bound) enough)
      simp only [visitAll, full, isExcluded, if_true, Bool.false_eq_true, if_false]
      exact follows more (by omega)
    | false =>
      obtain ⟨bound, follows⟩ := step files result known full isExcluded
      refine ⟨bound + 1, fun fuel enough => ?_⟩
      obtain ⟨more, rfl⟩ := Nat.exists_eq_add_of_le' (Nat.le_trans (Nat.le_add_left 1 bound) enough)
      exact follows more (by omega)

variable (coherent : reader.Coherent backend paths holds) (follows : Follows reader backend query paths holds stack rest)

include coherent follows in
theorem follows_excluded (excluded : query.excluded visit.path = true) : Follows reader backend query paths holds (visit :: stack) rest := by
  refine .round (fun files result known full included => ?_) coherent fun _ => follows
  rw [excluded] at included
  cases included

include coherent follows in
theorem follows_file (known : visit.path ∈ paths) (knows : visit.Knows backend false) :
    Follows reader backend query paths holds (visit :: stack)
      ((if query.excluded visit.path then [] else if query.skipsFile visit.path then [] else [.file visit.path]) ++ rest) := by
  refine .round (fun files result knownFiles full excluded => ?_) coherent fun excluded => ?_
  · have knownMore : ∀ path ∈ files ++ [visit.path], path ∈ paths := by
      intro path member
      rcases mem_append.mp member with before | here
      · exact knownFiles path before
      · exact mem_singleton.mp here ▸ known
    by_cases skips : query.skipsFile visit.path = true
    · obtain ⟨bound, after⟩ := follows files result knownFiles
      refine ⟨bound, fun fuel enough => ?_⟩
      simp only [visitAll, full, excluded, skips, if_true, Bool.false_eq_true, if_false, nil_append]
      refine ensures_then (isDirectory_ensures coherent known knows) ?_
      exact after fuel enough
    · by_cases large : grepCacheFileConcurrency ≤ (files ++ [visit.path]).length
      · cases outcome : flushed backend query (files ++ [visit.path]) result with
        | error error =>
          refine ⟨0, fun fuel _ => ?_⟩
          simp only [visitAll, full, excluded, skips, large, if_true, Bool.false_eq_true, if_false, cons_append,
            nil_append, inBatches, outcome]
          refine ensures_then (isDirectory_ensures coherent known knows) ?_
          refine ensures_then (flush_ensures coherent knownMore result) ?_
          rw [outcome]
          exact .pure fun state held => ⟨rfl, held⟩
        | ok next =>
          obtain ⟨bound, after⟩ := follows [] next nofun
          refine ⟨bound, fun fuel enough => ?_⟩
          simp only [visitAll, full, excluded, skips, large, if_true, Bool.false_eq_true, if_false, cons_append,
            nil_append, inBatches, outcome]
          refine ensures_then (isDirectory_ensures coherent known knows) ?_
          refine ensures_then (flush_ensures coherent knownMore result) ?_
          rw [outcome]
          exact after fuel enough
      · obtain ⟨bound, after⟩ := follows (files ++ [visit.path]) result knownMore
        refine ⟨bound, fun fuel enough => ?_⟩
        simp only [visitAll, full, excluded, skips, large, Bool.false_eq_true, if_false, cons_append,
          nil_append, inBatches]
        refine ensures_then (isDirectory_ensures coherent known knows) ?_
        exact after fuel enough
  · rw [if_pos excluded]
    exact follows

def entered (reader : CacheReader σ ε) (query : GrepQuery) (visit : GrepVisit) (stack : List GrepVisit) (fuel : Nat) (after : GrepResult) :
    StateM σ (Option (Except ε GrepResult)) :=
  if query.skipsDirectory visit.path then reader.visitAll query fuel stack [] after
  else do
    match ← reader.readDirWithGenerationCache visit.path with
    | .error error => return some (.error error)
    | .ok entries => reader.visitAll query fuel (pushEntries visit.path entries stack) [] after

include coherent in
theorem follows_directory (known : visit.path ∈ paths) (knows : visit.Knows backend true)
    {failure : Option ε} {next : List (GrepEvent ε)}
    (enters : ∀ after, ∃ bound, ∀ fuel, bound ≤ fuel → Ensures holds (entered reader query visit stack fuel after) fun answer state =>
      answer = some (match failure with | some error => .error error | none => inBatches backend query next [] after) ∧ holds state)
    (included : query.excluded visit.path = false) :
    Follows reader backend query paths holds (visit :: stack) (.directory failure :: next) := by
  refine .round (fun files result knownFiles full excluded => ?_) coherent fun excluded => ?_
  rotate_left
  · rw [included] at excluded
    cases excluded
  cases outcome : flushed backend query files result with
  | error error =>
    refine ⟨0, fun fuel _ => ?_⟩
    simp only [visitAll, full, excluded, Bool.false_eq_true, if_false, inBatches, outcome]
    refine ensures_then (isDirectory_ensures coherent known knows) ?_
    refine ensures_then (flush_ensures coherent knownFiles result) ?_
    rw [outcome]
    exact .pure fun state held => ⟨rfl, held⟩
  | ok after =>
    obtain ⟨bound, inside⟩ := enters after
    refine ⟨bound, fun fuel enough => ?_⟩
    simp only [visitAll, full, excluded, Bool.false_eq_true, if_false, inBatches, outcome]
    refine ensures_then (isDirectory_ensures coherent known knows) ?_
    refine ensures_then (flush_ensures coherent knownFiles result) ?_
    rw [outcome]
    simp only [Except.bind]
    cases filled : query.full after with
    | true =>
      have none : ∀ path ∈ ([] : List Text), path ∈ paths := nofun
      simp only [if_true]
      refine .bind (flush_ensures coherent none after) fun answer => .pure fun state held => ⟨?_, held.2⟩
      rw [held.1, flushed_full filled]
    | false =>
      simp only [Bool.false_eq_true, if_false]
      exact inside fuel enough

include follows in
theorem follows_entries {plan : Text → Option (List (GrepEvent ε))} (currentPath : Text) (entries : List FileInfo)
    (each : ∀ entry ∈ entries, ∀ events stack rest, plan (entryPath currentPath entry.name) = some events →
      Follows reader backend query paths holds stack rest →
        Follows reader backend query paths holds ({ path := entryPath currentPath entry.name, isDir := some entry.isDir } :: stack)
          (events ++ rest))
    {below : List (GrepEvent ε)} (planned : planEntries plan currentPath entries = some below) :
    Follows reader backend query paths holds
      (entries.map (fun entry => { path := entryPath currentPath entry.name, isDir := some entry.isDir }) ++ stack) (below ++ rest) := by
  induction entries generalizing below with
  | nil =>
    cases planned
    exact follows
  | cons entry others ih =>
    obtain ⟨first, after, firstPlan, restPlan, rfl⟩ := planEntries_cons.mp planned
    rw [append_assoc]
    exact each entry mem_cons_self first _ _ firstPlan
      (ih (fun other member => each other (mem_cons_of_mem _ member)) restPlan)

-- A directory that is left alone
include coherent follows in
theorem follows_skipped (known : visit.path ∈ paths) (knows : visit.Knows backend true) (included : query.excluded visit.path = false)
    (skips : query.skipsDirectory visit.path = true) :
    Follows reader backend query paths holds (visit :: stack) (.directory none :: rest) := by
  refine follows_directory coherent known knows (fun after => ?_) included
  obtain ⟨bound, next⟩ := follows [] after nofun
  refine ⟨bound, fun fuel enough => ?_⟩
  rw [entered, if_pos skips]
  exact next fuel enough

include coherent follows in
theorem follows_plan {path : Text} (tree : DirectoryTree backend paths path)
    {fuel : Nat} {events : List (GrepEvent ε)} (planned : backend.plan query fuel path = some events) (same : visit.path = path)
    (knows : ∀ info, backend.stat path = .ok info → visit.Knows backend info.isDir) :
    Follows reader backend query paths holds (visit :: stack) (events ++ rest) := by
  induction tree generalizing fuel events visit stack rest with
  | file path info known found isFile =>
    subst same
    cases fuel with
    | zero => cases planned
    | succ fuel =>
      have shape : events = if query.excluded visit.path then [] else if query.skipsFile visit.path then [] else [.file visit.path] := by
        simp only [plan, found, isFile, Bool.false_eq_true, if_false] at planned
        split at planned <;> [(cases planned; simp [*]); (split at planned <;> (cases planned; simp [*]))]
      rw [shape]
      exact follows_file coherent follows known (isFile ▸ knows info found)
  | unlisted path info error known found isDirectory failed =>
    subst same
    cases fuel with
    | zero => cases planned
    | succ fuel =>
      have isDir := isDirectory ▸ knows info found
      cases excluded : query.excluded visit.path with
      | true =>
        simp only [plan, excluded, if_true, Option.some.injEq] at planned
        subst planned
        exact follows_excluded coherent follows excluded
      | false =>
        simp only [plan, excluded, found, isDirectory, failed, if_true, Bool.false_eq_true, if_false] at planned
        by_cases skips : query.skipsDirectory visit.path = true
        · rw [if_pos skips] at planned
          cases planned
          exact follows_skipped coherent follows known isDir excluded skips
        · rw [if_neg skips] at planned
          cases planned
          refine follows_directory coherent known isDir (fun after => ⟨0, fun fuel _ => ?_⟩) excluded
          rw [entered, if_neg skips]
          refine ensures_then (coherent.readDir visit.path known) ?_
          rw [failed]
          exact .pure fun state held => ⟨rfl, held⟩
  | directory path info entries known found isDirectory listed agrees below ih =>
    subst same
    cases fuel with
    | zero => cases planned
    | succ fuel =>
      have isDir := isDirectory ▸ knows info found
      cases excluded : query.excluded visit.path with
      | true =>
        simp only [plan, excluded, if_true, Option.some.injEq] at planned
        subst planned
        exact follows_excluded coherent follows excluded
      | false =>
        simp only [plan, excluded, found, isDirectory, listed, if_true, Bool.false_eq_true, if_false] at planned
        by_cases skips : query.skipsDirectory visit.path = true
        · rw [if_pos skips] at planned
          cases planned
          exact follows_skipped coherent follows known isDir excluded skips
        · rw [if_neg skips] at planned
          obtain ⟨inside, planInside, rfl⟩ := Option.map_eq_some_iff.mp planned
          have onwards : Follows reader backend query paths holds (pushEntries visit.path entries stack) (inside ++ rest) := by
            rw [pushEntries_eq]
            refine follows_entries follows visit.path entries (fun entry member events stack rest planned follows => ?_) planInside
            refine ih entry member follows planned rfl fun child stated => .inl ?_
            obtain ⟨other, restated, agreed⟩ := agrees entry member
            cases restated.symm.trans stated
            rw [agreed]
          refine follows_directory coherent known isDir (fun after => ?_) excluded
          obtain ⟨bound, next⟩ := onwards [] after (forall_mem_nil _)
          refine ⟨bound, fun fuel enough => ?_⟩
          rw [entered, if_neg skips]
          refine ensures_then (coherent.readDir visit.path known) ?_
          rw [listed]
          exact next fuel enough

end Flush

end LoginomDock.CacheFs
