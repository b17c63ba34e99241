import LoginomDock.Git.Commit
import LoginomDock.Git.Snapshot
import LoginomDock.Git.TreeLookup
import LoginomDock.Git.TreeRefinement

/-! Each candidate is compared with the disk. The loop carries the editor's files as `compared` says them for the
candidates done so far. -/

namespace LoginomDock.Git

open List GitM WorkTree Repository

variable {Oid : Type} [DecidableEq Oid] [ObjectHash Oid]

open TreeEditor

def baseEntryAt (objects : Objects Oid) : Option Oid → PathMap Text (TreeEntry Oid)
  | none => fun _ => none
  | some tree => storedEntryAt objects tree

def baseFiles (objects : Objects Oid) (base : Option Oid) : PathMap Text Oid := fileMap (baseLeaves objects base)

section Base

variable {objects : Objects Oid} {base : Option Oid} {path other : List Text}

theorem baseFiles_eq (path : List Text) :
    baseFiles objects base path =
      ((baseEntryAt objects base path).filter fun entry => !entry.isTree).map TreeEntry.oid := by
  cases base with
  | none => rfl
  | some tree =>
    simp only [baseFiles, fileMap, PathMap.mapValues, baseLeaves, baseEntryAt]
    rw [storedLeaves_eq_entryAt]

theorem baseFiles_eq_some {oid : Oid} :
    baseFiles objects base path = some oid ↔
      ∃ entry, baseLeaves objects base path = some entry ∧ entry.oid = oid :=
  Option.map_eq_some_iff

theorem baseFiles_alone {first second : Oid} (here : baseFiles objects base path = some first)
    (there : baseFiles objects base other = some second) (comparable : path <+: other ∨ other <+: path) :
    path = other := by
  obtain ⟨entry, leaf, -⟩ := baseFiles_eq_some.mp here
  obtain ⟨otherEntry, otherLeaf, -⟩ := baseFiles_eq_some.mp there
  cases base with
  | none => cases leaf
  | some tree =>
    by_contra different
    rcases comparable with ⟨below, rfl⟩ | ⟨below, rfl⟩
    · have more : below ≠ [] := by
        rintro rfl
        simp at different
      exact absurd otherLeaf (by simp [baseLeaves, storedLeaves_below_leaf leaf more])
    · have more : below ≠ [] := by
        rintro rfl
        simp at different
      exact absurd leaf (by simp [baseLeaves, storedLeaves_below_leaf otherLeaf more])

theorem baseEntryAt_of_below {oid : Oid} (nonempty : path ≠ []) (inside : path <+: other)
    (present : baseFiles objects base other = some oid) : baseEntryAt objects base path ≠ none := by
  obtain ⟨entry, leaf, -⟩ := baseFiles_eq_some.mp present
  obtain ⟨below, rfl⟩ := inside
  cases base with
  | none => cases leaf
  | some tree =>
    have shown : storedLeaves objects tree (path ++ below) ≠ none := by
      rw [show storedLeaves objects tree (path ++ below) = some entry from leaf]
      simp
    exact storedEntryAt_of_below nonempty shown

theorem storedEntryAt_tree {tree : Oid} (stored : TreeStored objects tree) {entry : TreeEntry Oid}
    (found : storedEntryAt objects tree path = some entry) (isTree : entry.isTree) :
    TreeStored objects entry.oid := by
  induction path generalizing tree with
  | nil => cases found
  | cons name rest ih =>
    simp only [storedEntryAt] at found
    rcases present : (storedEntries objects tree).lookup name with _ | source <;> rw [present] at found
    · cases found
    · by_cases last : rest = []
      · simp only [last, if_true, Option.some.injEq] at found
        exact stored.lookup_tree (found ▸ present) isTree
      · by_cases sourceTree : source.isTree
        · simp only [last, sourceTree, if_false, if_true] at found
          exact ih (stored.lookup_tree present sourceTree) found
        · simp [last, sourceTree] at found

theorem baseFiles_of_blob (addressed : Addressed objects) (stored : BaseStored objects base) {data : Bytes}
    {entry : TreeEntry Oid} (found : baseEntryAt objects base path = some entry)
    (same : entry.oid = computeHash (.blob data)) : baseFiles objects base path = some entry.oid := by
  rw [baseFiles_eq, found]
  by_cases isTree : entry.isTree
  · cases base with
    | none => cases found
    | some tree =>
      have child := storedEntryAt_tree (stored tree rfl) found isTree
      cases child with
      | intro _ entries present _ _ =>
        have clash := ObjectHash.computeHash_injective ((addressed _ _ present).trans same)
        cases clash
  · simp [isTree, Option.filter]

end Base

section Loop

variable {objects : Objects Oid} {prevTree : Option Oid} {disk : WorkTree} {dropped : Text → Prop}
  {files : PathMap Text Oid}

structure Candidate (objects : Objects Oid) (prevTree : Option Oid) (dropped : Text → Prop)
    (files : PathMap Text Oid) (path : Text) : Prop where
  valid : Text.IsPath path.components
  kept : ∀ oid, baseFiles objects prevTree path.components = some oid → files path.components = some oid
  fits : ∀ tree, prevTree = some tree → ∀ name rest, path.components = name :: rest → dropped name →
    rest ≠ [] ∧ ∀ entry, (storedEntries objects tree).lookup name = some entry → ¬ entry.isTree

structure Comparing (objects : Objects Oid) (prevTree : Option Oid) (disk : WorkTree) (dropped : Text → Prop)
    (files : PathMap Text Oid) (done : List (List Text)) (repo : Repository Oid) (state : Progress Oid) :
    Prop where
  addressed : Addressed repo.objects
  extend : Extends objects repo.objects
  workTree : repo.workTree = disk
  sound : Sound repo.objects state.editor
  leaves : fileMap (leaves repo.objects state.editor) = compared disk done files
  stale : ∀ key, Stale state.editor key → ¬ disk.IsDirectory key
  cache : ∀ tree, prevTree = some tree → CacheAgrees objects tree dropped state.cache

-- The candidates that count as changed.
def Changes (objects : Objects Oid) (prevTree : Option Oid) (disk : WorkTree) (path : List Text) : Prop :=
  (∃ oid, disk.fileOid path = some oid ∧
    (baseEntryAt objects prevTree path).map TreeEntry.oid ≠ some oid) ∨
  (disk.node path = none ∧ baseEntryAt objects prevTree path ≠ none)

theorem relativeParts_of_isPath {path : Text} (valid : Text.IsPath path.components) :
    relativeParts path = path.components := by
  have nonempty : path ≠ [] := by
    rintro rfl
    exact (valid.2 [] (by simp [Text.components])).1 rfl
  exact if_neg nonempty

theorem exec_prevEntry (stored : BaseStored objects prevTree) {repo : Repository Oid}
    (extend : Extends objects repo.objects) {path : Text}
    (candidate : Candidate objects prevTree dropped files path) {cache : TreeLookupCache Oid}
    (agrees : ∀ tree, prevTree = some tree → CacheAgrees objects tree dropped cache) :
    ∃ next, (prevEntry prevTree path cache).exec repo =
        (.ok ((baseEntryAt objects prevTree path.components).map fun entry => (entry.oid, entry.mode), next),
          repo) ∧
      ∀ tree, prevTree = some tree → CacheAgrees objects tree dropped next := by
  cases prevTree with
  | none => exact ⟨cache, rfl, agrees⟩
  | some tree =>
    obtain ⟨next, found, agreesNext⟩ := exec_lookupCached extend (stored tree rfl) candidate.valid
      (candidate.fits tree rfl) (agrees tree rfl)
    refine ⟨next, found, ?_⟩
    rintro _ ⟨⟩
    exact agreesNext

theorem exec_blobOid (service : GitService Oid) {repo : Repository Oid} (addressed : Addressed repo.objects)
    {path : Text} {info : FileInfo} {data : Bytes} {modTime : Int}
    (file : repo.workTree.node (relativeParts path) = some (.file data modTime)) :
    (blobOid service none path info).exec repo =
      (.ok (computeHash (.blob data)), repo.store (.blob data)) := by
  have read : (Repository.handle (.readFile path) repo) = (.ok data, repo) := by
    simp [Repository.handle, WorkTree.read, file]
  simp only [blobOid, trustedOid]
  rw [GitM.exec_call_bind, read]
  by_cases precheck : service.blobExistsPrecheck
  · simp [precheck, liftFs, exec_writeObjectIfAbsent addressed]
  · simp [precheck, liftFs]

theorem exec_blobOid_directory (service : GitService Oid) {repo : Repository Oid} {path : Text} {info : FileInfo}
    {modTime : Int} (directory : repo.workTree.node (relativeParts path) = some (.directory modTime)) :
    (blobOid service none path info).exec repo = (.error (.vfs (.isADirectory path)), repo) := by
  have read : Repository.handle (.readFile path) repo = (.error (.isADirectory path), repo) := by
    simp [Repository.handle, WorkTree.read, directory]
  simp only [blobOid, trustedOid]
  rw [GitM.exec_call_bind, read]
  rfl

namespace Comparing

variable {done : List (List Text)} {repo : Repository Oid} {state : Progress Oid} {path : Text}

section

variable (comparing : Comparing objects prevTree disk dropped files done repo state)

include comparing

theorem store (object : GitObject Oid) :
    Comparing objects prevTree disk dropped files done (repo.store object) state where
  addressed := store_addressed comparing.addressed object
  extend := comparing.extend.trans (store_extends comparing.addressed object)
  __ := comparing
  sound := comparing.sound.mono (store_extends comparing.addressed object)
  leaves := by
    rw [leaves_mono comparing.sound (store_extends comparing.addressed object)]
    exact comparing.leaves

theorem upsert (valid : Text.IsPath path.components) {oid : Oid} (file : disk.fileOid path.components = some oid) :
    ∃ after, (state.editor.upsert path oid).exec repo = (.ok after, repo) ∧
      ∀ changed cache entries, (∀ tree, prevTree = some tree → CacheAgrees objects tree dropped cache) →
        Comparing objects prevTree disk dropped files (done ++ [path.components]) repo
          { editor := after, changed, cache, indexEntries := entries } := by
  obtain ⟨after, success, sound, shown, -, -, stale⟩ := exec_upsert comparing.addressed comparing.sound valid oid
  have listed : Listed state.editor path.components.dropLast := by
    apply listed_of_no_stale
    intro key inside gone
    have shorter : key ≠ path.components := by
      rintro rfl
      have length := inside.length_le
      have positive := length_pos_of_ne_nil valid.1
      rw [length_dropLast] at length
      omega
    exact comparing.stale key gone
      (directory_above_file file (inside.trans (List.dropLast_prefix _)) shorter)
  refine ⟨after, success, fun changed cache entries agrees => ?_⟩
  refine ⟨comparing.addressed, comparing.extend, comparing.workTree, sound, ?_, ?_, agrees⟩
  · rw [compared_file file, shown listed, fileMap, PathMap.mapValues_set]
    exact congrArg _ comparing.leaves
  · intro key gone
    rcases stale key gone with old | rfl
    · exact comparing.stale key old
    · exact not_directory_of_file file

theorem remove (valid : Text.IsPath path.components) (missing : disk.node path.components = none) :
    ∃ after, (state.editor.remove path).exec repo = (.ok after, repo) ∧
      ∀ changed cache entries, (∀ tree, prevTree = some tree → CacheAgrees objects tree dropped cache) →
        Comparing objects prevTree disk dropped files (done ++ [path.components]) repo
          { editor := after, changed, cache, indexEntries := entries } := by
  obtain ⟨after, success, sound, deleted, -, removed⟩ := exec_remove comparing.addressed comparing.sound valid
  refine ⟨after, success, fun changed cache entries agrees => ?_⟩
  refine ⟨comparing.addressed, comparing.extend, comparing.workTree, sound, ?_, ?_, agrees⟩
  · rw [compared_missing missing, deleted, fileMap, PathMap.mapValues_delete]
    exact congrArg _ comparing.leaves
  · intro key gone
    rcases removed.stale key gone with old | rfl
    · exact comparing.stale key old
    · exact not_directory_of_missing missing

theorem skip (same : compared disk (done ++ [path.components]) files = compared disk done files)
    {cache : TreeLookupCache Oid} (agrees : ∀ tree, prevTree = some tree → CacheAgrees objects tree dropped cache)
    (entries : Table Text (IndexEntry Oid)) :
    Comparing objects prevTree disk dropped files (done ++ [path.components]) repo
      { state with cache, indexEntries := entries } where
  __ := comparing
  leaves := by
    rw [same]
    exact comparing.leaves
  cache := agrees

end

end Comparing

structure Compares (objects : Objects Oid) (prevTree : Option Oid) (disk : WorkTree) (path : List Text)
    (before after : Progress Oid) : Prop where
  kept : ¬ Changes objects prevTree disk path → after.editor = before.editor ∧ after.changed = before.changed
  counted : Changes objects prevTree disk path → after.changed = before.changed + 1

section Candidate

variable (service : GitService Oid) (addressed : Addressed objects) (stored : BaseStored objects prevTree)
  (small : ∀ other oid, files other = some oid → baseFiles objects prevTree other = some oid)
  {done : List (List Text)} {repo : Repository Oid} {state : Progress Oid} {path : Text}
  (candidate : Candidate objects prevTree dropped files path)
  (comparing : Comparing objects prevTree disk dropped files done repo state)

include addressed stored small candidate comparing

theorem exec_compareCandidate_file {oid : Oid} (file : disk.fileOid path.components = some oid) :
    ∃ next after, (compareCandidate service prevTree none path state).exec repo = (.ok next, after) ∧
      Comparing objects prevTree disk dropped files (done ++ [path.components]) after next ∧
      Grown repo after ∧ Compares objects prevTree disk path.components state next := by
  obtain ⟨data, modTime, found, rfl⟩ := fileOid_eq_some.mp file
  have node : repo.workTree.node (relativeParts path) = some (.file data modTime) := by
    rw [comparing.workTree, relativeParts_of_isPath candidate.valid, found]
  have stat : Repository.handle (.stat path) repo = (.ok (Node.file data modTime).info, repo) := by
    simp [Repository.handle, stat, node]
  have grown := Grown.store comparing.addressed (.blob data)
  have later := comparing.store (.blob data)
  obtain ⟨cache, looked, agrees⟩ := exec_prevEntry stored later.extend candidate later.cache
  rw [compareCandidate, GitM.exec_call_bind, stat]
  simp only
  rw [exec_bind_ok (exec_blobOid service comparing.addressed node), exec_bind_ok looked]
  have present : disk.node path.components ≠ none := by simp [found]
  have changes : Changes objects prevTree disk path.components ↔
      (baseEntryAt objects prevTree path.components).map TreeEntry.oid ≠ some (computeHash (.blob data)) := by
    simp [Changes, file, present]
  by_cases same : (baseEntryAt objects prevTree path.components).map TreeEntry.oid =
      some (computeHash (.blob data))
  · obtain ⟨entry, entryAt, blob⟩ := Option.map_eq_some_iff.mp same
    have isFile := baseFiles_of_blob addressed stored entryAt blob
    rw [blob] at isFile
    have unchanged := compared_present done file (candidate.kept _ isFile) (by
      intro other different comparable
      rcases kept : files other with _ | otherOid
      · rfl
      · exact absurd (baseFiles_alone isFile (small other otherOid kept) comparable).symm different)
    refine ⟨_, repo.store (.blob data), ?_, later.skip unchanged agrees
      (recordIndex service path (Node.file data modTime).info (computeHash (.blob data)) state.indexEntries),
      grown, ?_⟩
    · simp [entryAt, blob]
    · exact ⟨fun _ => ⟨rfl, rfl⟩, fun change => absurd same (changes.mp change)⟩
  · obtain ⟨editor, edited, next⟩ := later.upsert candidate.valid file
    refine ⟨_, repo.store (.blob data), ?_, next (state.changed + 1) cache
      (recordIndex service path (Node.file data modTime).info (computeHash (.blob data)) state.indexEntries)
      agrees, grown, ?_⟩
    · have differs : ((baseEntryAt objects prevTree path.components).map
          fun entry => (entry.oid, entry.mode)).map Prod.fst ≠ some (computeHash (.blob data)) := by
        rwa [Option.map_map]
      simp only [differs, ne_eq, not_false_eq_true, if_true]
      rw [exec_bind_ok edited]
      rfl
    · exact ⟨fun kept => absurd same (by simpa [changes] using kept), fun _ => rfl⟩

omit addressed in
theorem exec_compareCandidate_missing (missing : disk.node path.components = none) :
    ∃ next, (compareCandidate service prevTree none path state).exec repo = (.ok next, repo) ∧
      Comparing objects prevTree disk dropped files (done ++ [path.components]) repo next ∧
      Compares objects prevTree disk path.components state next := by
  have stat : Repository.handle (.stat path) repo = (.error (.notFound path), repo) := by
    simp [Repository.handle, stat, comparing.workTree, relativeParts_of_isPath candidate.valid, missing]
  obtain ⟨cache, looked, agrees⟩ := exec_prevEntry stored comparing.extend candidate comparing.cache
  rw [compareCandidate, GitM.exec_call_bind, stat]
  simp only [FsError.isNotFound, if_true]
  rw [exec_bind_ok looked]
  have changes : Changes objects prevTree disk path.components ↔
      baseEntryAt objects prevTree path.components ≠ none := by
    have noFile : (disk.fileOid path.components : Option Oid) = none := fileOid_of_missing missing
    simp [Changes, noFile, missing]
  rcases entryAt : baseEntryAt objects prevTree path.components with _ | entry
  · have absent : ∀ other, path.components <+: other → files other = none := by
      intro other inside
      rcases kept : files other with _ | oid
      · rfl
      · exact absurd entryAt (baseEntryAt_of_below candidate.valid.1 inside (small other oid kept))
    have unchanged := compared_absent done missing absent
    refine ⟨_, rfl, comparing.skip unchanged agrees (forgetIndex service path state.indexEntries), ?_⟩
    exact ⟨fun _ => ⟨rfl, rfl⟩, fun change => absurd entryAt (changes.mp change)⟩
  · obtain ⟨editor, edited, next⟩ := comparing.remove candidate.valid missing
    refine ⟨_, ?_, next (state.changed + 1) cache (forgetIndex service path state.indexEntries) agrees, ?_⟩
    · simp only [Option.map_some, Option.isSome_some, if_true]
      rw [exec_bind_ok edited]
      rfl
    · exact ⟨fun kept => absurd (changes.mpr (by simp [entryAt])) kept, fun _ => rfl⟩

omit addressed stored small in
theorem exec_compareCandidate_directory (directory : disk.IsDirectory path.components) :
    (compareCandidate service prevTree none path state).exec repo = (.error (.vfs (.isADirectory path)), repo) := by
  obtain ⟨modTime, found⟩ := directory
  have node : repo.workTree.node (relativeParts path) = some (.directory modTime) := by
    rw [comparing.workTree, relativeParts_of_isPath candidate.valid, found]
  have stat : Repository.handle (.stat path) repo = (.ok (Node.directory modTime).info, repo) := by
    simp [Repository.handle, stat, node]
  rw [compareCandidate, GitM.exec_call_bind, stat]
  exact exec_bind_error (exec_blobOid_directory service node)

end Candidate

section Candidates

variable (service : GitService Oid) (addressed : Addressed objects) (stored : BaseStored objects prevTree)
  (small : ∀ other oid, files other = some oid → baseFiles objects prevTree other = some oid)

include addressed stored small

section

variable (candidates : List Text) {done : List (List Text)} {repo : Repository Oid} {state : Progress Oid}
  (fit : ∀ path ∈ candidates, Candidate objects prevTree dropped files path)

include candidates fit

section

variable (comparing : Comparing objects prevTree disk dropped files done repo state)

include comparing

theorem exec_compareCandidates (readable : ∀ path ∈ candidates, ¬ disk.IsDirectory path.components) :
    ∃ final after, (compareCandidates service prevTree none candidates state).exec repo = (.ok final, after) ∧
      Comparing objects prevTree disk dropped files (done ++ candidates.map Text.components) after final ∧
      Grown repo after ∧
      ((∀ path ∈ candidates, ¬ Changes objects prevTree disk path.components) →
        final.editor = state.editor ∧ final.changed = state.changed) ∧
      state.changed ≤ final.changed ∧
      ((∃ path ∈ candidates, Changes objects prevTree disk path.components) → state.changed < final.changed) := by
  induction candidates generalizing done repo state with
  | nil =>
    refine ⟨state, repo, rfl, by simpa using comparing, .refl comparing.addressed, fun _ => ⟨rfl, rfl⟩, le_rfl, ?_⟩
    rintro ⟨path, member, -⟩
    cases member
  | cons path rest ih =>
    have candidate := fit path (by simp)
    have step : ∃ next after, (compareCandidate service prevTree none path state).exec repo = (.ok next, after) ∧
        Comparing objects prevTree disk dropped files (done ++ [path.components]) after next ∧
        Grown repo after ∧ Compares objects prevTree disk path.components state next := by
      rcases file_or_missing_or_directory Oid disk path.components with
        ⟨oid, file⟩ | missing | directory
      · exact exec_compareCandidate_file service addressed stored small candidate comparing file
      · obtain ⟨next, success, later, compares⟩ :=
          exec_compareCandidate_missing service stored small candidate comparing missing
        exact ⟨next, repo, success, later, .refl comparing.addressed, compares⟩
      · exact absurd directory (readable path (by simp))
    obtain ⟨next, middle, success, later, grown, compares⟩ := step
    obtain ⟨final, after, finish, last, grownLast, kept, least, counted⟩ :=
      ih (fun other member => fit other (by simp [member])) later
        (fun other member => readable other (by simp [member]))
    have once : next.changed = state.changed ∨ next.changed = state.changed + 1 := by
      by_cases change : Changes objects prevTree disk path.components
      · exact .inr (compares.counted change)
      · exact .inl (compares.kept change).2
    refine ⟨final, after, ?_, by simpa using last, grown.trans grownLast, ?_, by omega, ?_⟩
    · rw [compareCandidates, exec_bind_ok success, finish]
    · intro unchanged
      obtain ⟨editor, changed⟩ := compares.kept (unchanged path (by simp))
      obtain ⟨finalEditor, finalChanged⟩ := kept fun other member => unchanged other (by simp [member])
      exact ⟨finalEditor.trans editor, finalChanged.trans changed⟩
    · rintro ⟨other, member, change⟩
      rcases mem_cons.mp member with rfl | later
      · have := compares.counted change
        omega
      · have := counted ⟨other, later, change⟩
        omega

theorem exec_compareCandidates_directory (blocked : ∃ path ∈ candidates, disk.IsDirectory path.components) :
    ∃ error after, (compareCandidates service prevTree none candidates state).exec repo = (.error error, after) := by
  induction candidates generalizing done repo state with
  | nil =>
    obtain ⟨path, member, -⟩ := blocked
    cases member
  | cons path rest ih =>
    have candidate := fit path (by simp)
    rw [compareCandidates]
    by_cases directory : disk.IsDirectory path.components
    · exact ⟨_, repo, exec_bind_error
        (exec_compareCandidate_directory service candidate comparing directory)⟩
    · obtain ⟨next, middle, success, later, -⟩ := exec_compareCandidates service addressed stored small
        [path] (by simpa using candidate) comparing (by simpa using directory)
      have first : (compareCandidate service prevTree none path state).exec repo = (.ok next, middle) := by
        simpa [compareCandidates] using success
      rw [exec_bind_ok first]
      refine ih (fun other member => fit other (by simp [member])) later ?_
      obtain ⟨other, member, found⟩ := blocked
      rcases mem_cons.mp member with rfl | inside
      · exact absurd found directory
      · exact ⟨other, inside, found⟩

end

end

end Candidates

end Loop

end LoginomDock.Git
