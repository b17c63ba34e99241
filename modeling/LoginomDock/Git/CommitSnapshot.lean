import LoginomDock.Git.CommitScope

namespace LoginomDock.Git

open List GitM Repository WorkTree CommitResponse TreeEditor

variable {Oid : Type} [DecidableEq Oid] [ObjectHash Oid]

section

variable (repo : Repository Oid) (branch : Text)

def headTree : Option Oid :=
  match repo.refs.lookup (refNameOf branch) with
  | none => none
  | some commitOid =>
    match repo.objects commitOid with
    | some (.commit commit) => some commit.tree
    | _ => none

def headFiles : PathMap Text Oid :=
  baseFiles repo.objects (headTree repo branch)

def HeadStored : Prop :=
  ∀ commitOid, repo.refs.lookup (refNameOf branch) = some commitOid →
    ∃ commit, repo.objects commitOid = some (.commit commit) ∧ TreeStored repo.objects commit.tree

end

structure Committable (service : GitService Oid) (req : CommitRequest) (repo : Repository Oid)
    (matcher : IgnoreMatcher) : Prop where
  account : validateAccountId req.account = (.ok () : Except (GitError Oid) Unit)
  branch : validateRefName (refNameOf req.branch) = (.ok () : Except (RefStoreError Oid) Unit)
  paths : ∀ path ∈ req.paths.getD [], validateRelativePath path = (.ok () : Except (GitError Oid) Unit)
  ignore : (loadIgnoreMatcher service).exec repo = (.ok matcher, repo)
  unindexed : service.indexStore = false
  addressed : Addressed repo.objects
  head : HeadStored repo req.branch

section Validation

theorem isPath_of_valid {path : Text} (valid : validateRelativePath path = (.ok () : Except (GitError Oid) Unit)) :
    Text.IsPath path.components := by
  apply Text.isPath_components
  intro member
  have empty : path.components.any (· = []) = true := by
    simpa using member
  simp only [validateRelativePath, empty, if_true] at valid
  split at valid
  · cases valid
  · split at valid <;> cases valid

theorem exec_validatePaths (paths : List Text) (repo : Repository Oid)
    (valid : ∀ path ∈ paths, validateRelativePath path = (.ok () : Except (GitError Oid) Unit)) :
    (validatePaths paths).exec repo = (.ok (), repo) := by
  induction paths with
  | nil => rfl
  | cons path rest ih =>
    rw [validatePaths, valid path (by simp)]
    exact ih fun other member => valid other (by simp [member])

end Validation

section Steps

variable {repo : Repository Oid}

theorem exec_readRef {refName : Text}
    (valid : validateRefName refName = (.ok () : Except (RefStoreError Oid) Unit)) :
    (readRef refName).exec repo = (.ok (repo.refs.lookup refName), repo) := by
  rw [readRef, valid]
  rfl

theorem exec_prevTreeOf {branch : Text} (stored : HeadStored repo branch) :
    (prevTreeOf (repo.refs.lookup (refNameOf branch))).exec repo = (.ok (headTree repo branch), repo) := by
  rw [headTree]
  rcases found : repo.refs.lookup (refNameOf branch) with _ | commitOid
  · rfl
  · obtain ⟨commit, present, -⟩ := stored commitOid found
    have loaded : (loadCommitMeta commitOid).exec repo = (.ok commit, repo) := by
      rw [loadCommitMeta, exec_bind_ok (exec_readObject present)]
      rfl
    rw [prevTreeOf, exec_bind_ok loaded]
    simp [present]

theorem baseStored_headTree {branch : Text} (stored : HeadStored repo branch) :
    BaseStored repo.objects (headTree repo branch) := by
  intro tree isSome
  rw [headTree] at isSome
  rcases found : repo.refs.lookup (refNameOf branch) with _ | commitOid
  · simp [found] at isSome
  · obtain ⟨commit, present, treeStored⟩ := stored commitOid found
    simp only [found, present, Option.some.injEq] at isSome
    exact isSome ▸ treeStored

section

variable {after : Repository Oid} {branch : Text} (grown : Grown repo after) (stored : HeadStored repo branch)

include grown stored

theorem headStored_grown : HeadStored after branch := by
  intro commitOid found
  rw [show after.refs = repo.refs by rw [grown.frame]] at found
  obtain ⟨commit, present, treeStored⟩ := stored commitOid found
  exact ⟨commit, grown.extend _ _ present, treeStored.mono grown.extend⟩

theorem headFiles_grown : headFiles after branch = headFiles repo branch := by
  have sameRefs : after.refs = repo.refs := by rw [grown.frame]
  simp only [headFiles, headTree, sameRefs]
  rcases found : repo.refs.lookup (refNameOf branch) with _ | commitOid
  · rfl
  · obtain ⟨commit, present, treeStored⟩ := stored commitOid found
    simp only [present, grown.extend _ _ present, baseFiles, baseLeaves]
    rw [treeStored.storedLeaves_mono grown.extend]

end

theorem exec_advanceRef (repo : Repository Oid) {refName : Text} (new : Oid)
    (valid : validateRefName refName = (.ok () : Except (RefStoreError Oid) Unit)) :
    (advanceRef refName (repo.refs.lookup refName) new).exec repo =
      (.ok (), { repo with refs := repo.refs.insert refName new }) := by
  have swapped : (casUpdate refName (repo.refs.lookup refName) new).exec repo =
      (.ok (.ok ()), { repo with refs := repo.refs.insert refName new }) := by
    rw [casUpdate, valid]
    simp only
    rw [exec_call_bind, exec_call_bind]
    simp only [handle, ne_eq, not_true_eq_false, if_false]
    rw [exec_call_bind, exec_call_bind]
    simp [handle]
  rw [advanceRef, exec_bind_ok swapped]
  rfl

section

variable (service : GitService Oid) (unindexed : service.indexStore = false) (req : CommitRequest)

include service unindexed req

theorem exec_finishCommit_noop (prevHead : Option Oid) (ignored : Nat) {compared : Progress Oid}
    (unchanged : compared.changed = 0) :
    (finishCommit service req prevHead ignored compared).exec repo =
      (.ok (.noop (prevHead.getD ObjectHash.null) ignored), repo) := by
  cases prevHead <;> simp [finishCommit, unchanged, saveIndex, unindexed]

theorem exec_finishCommit_created (valid : validateRefName (refNameOf req.branch) = (.ok () : Except (RefStoreError Oid) Unit))
    (addressed : Addressed repo.objects) (ignored : Nat) {compared : Progress Oid}
    (sound : Sound repo.objects compared.editor) (changed : compared.changed ≠ 0) :
    ∃ commitOid after, (finishCommit service req (repo.refs.lookup (refNameOf req.branch)) ignored compared).exec repo =
        (.ok (.created commitOid compared.changed ignored), after) ∧
      headFiles after req.branch = fileMap (compared.editor.leaves repo.objects) ∧ HeadStored after req.branch := by
  obtain ⟨tree, written, write, grown, treeStored, content⟩ := exec_write addressed sound
  have sameRefs : written.refs = repo.refs := by rw [grown.frame]
  have committed : ∃ commit : Commit Oid, commit.tree = tree ∧
      (writeCommit tree (repo.refs.lookup (refNameOf req.branch)).toList req.authorName req.authorEmail
        req.message).exec written = (.ok (computeHash (.commit commit)), written.store (.commit commit)) := by
    refine ⟨_, ?_, by rw [writeCommit, exec_call_bind]; exact exec_writeObject _ _⟩
    rfl
  obtain ⟨commit, commitTree, commitRun⟩ := committed
  have moved := exec_advanceRef (written.store (.commit commit)) (computeHash (.commit commit)) valid
  have storeRefs : (written.store (.commit commit)).refs = repo.refs := sameRefs
  rw [storeRefs] at moved
  refine ⟨computeHash (.commit commit), { written.store (.commit commit) with
    refs := repo.refs.insert (refNameOf req.branch) (computeHash (.commit commit)) }, ?_, ?_, ?_⟩
  · rw [finishCommit, if_neg changed, exec_bind_ok write, exec_bind_ok commitRun, exec_bind_ok moved]
    simp only [saveIndex, unindexed, Bool.false_eq_true, if_false]
    rfl
  · have extend := store_extends grown.addressed (.commit commit)
    have head : headTree { written.store (.commit commit) with
        refs := repo.refs.insert (refNameOf req.branch) (computeHash (.commit commit)) } req.branch = some tree := by
      simp [headTree, store, commitTree]
    rw [headFiles, head, ← storedLeaves_of_content content]
    simp only [baseFiles, baseLeaves]
    rw [treeStored.storedLeaves_mono extend]
  · intro commitOid found
    rw [AList.lookup_insert, Option.some.injEq] at found
    refine ⟨commit, ?_, ?_⟩
    · simp [← found, store]
    · rw [commitTree]
      exact treeStored.mono (store_extends grown.addressed (.commit commit))

end

end Steps

def CommitResponse.isNoop : CommitResponse Oid → Bool
  | .noop _ _ => true
  | .created _ _ _ => false

section Alone

variable {service : GitService Oid} {req : CommitRequest} {repo : Repository Oid} {matcher : IgnoreMatcher}
  {fuel : Nat} {listing : List (Text × Oid)}

section

variable (repo : Repository Oid) (req : CommitRequest) (matcher : IgnoreMatcher) (path : List Text)

def IsCandidate : Prop :=
  shouldTrackPath (Text.joined path) matcher = true ∧ Text.IsPath path ∧
    ∃ scope ∈ scopesOf req.paths, Admits repo.workTree (headFiles repo req.branch) scope path

def IsDropped : Prop :=
  shouldTrackPath (Text.joined path) matcher = false ∧ headFiles repo req.branch path ≠ none ∧
    ∃ scope ∈ scopesOf req.paths, Examines repo.workTree scope path

end

/-- The outcome of a commit that compared `candidates` and dropped `removed`. -/
structure Records (repo after : Repository Oid) (req : CommitRequest) (matcher : IgnoreMatcher)
    (response : CommitResponse Oid) (candidates : List (List Text)) (removed : List Text) : Prop where
  candidate : ∀ path, path ∈ candidates ↔ IsCandidate repo req matcher path
  dropped : ∀ path, headFiles repo req.branch path ≠ none →
    (Text.joined path ∈ removed ↔ IsDropped repo req matcher path)
  stored : HeadStored after req.branch
  files : headFiles after req.branch =
    compared repo.workTree candidates (withoutFiles removed (headFiles repo req.branch))
  kept : response.isNoop = true → headFiles after req.branch = headFiles repo req.branch
  unchanged : response.isNoop = true ↔ (∀ path, ¬ IsDropped repo req matcher path) ∧
    ∀ path, IsCandidate repo req matcher path →
      ¬ Changes repo.objects (headTree repo req.branch) repo.workTree path

variable {state : Gathering Oid}

section

variable {prevTree : Option Oid} {scopes : List (List Text)}

theorem GatheredFor.candidate (gathered : GatheredFor repo prevTree matcher listing scopes state) {path : Text}
    (member : path ∈ state.candidates) :
    Candidate repo.objects prevTree (· ∈ state.creditedRemoved)
      (withoutFiles state.creditedRemoved (baseFiles repo.objects prevTree)) path := by
  obtain ⟨tracked, valid, -⟩ := (gathered.candidates path).mp member
  have kept : path ∉ state.creditedRemoved := by
    intro removed
    rw [(gathered.removed path removed).1] at tracked
    cases tracked
  refine ⟨valid, ?_, ?_⟩
  · intro oid file
    simp [withoutFiles, kept, file]
  · rintro tree rfl name rest split removed
    constructor
    · rintro rfl
      have same : path = name := by
        rw [← Text.joined_components path, split, Text.joined_singleton]
      exact kept (same ▸ removed)
    · intro entry found isTree
      obtain ⟨-, -, oid, file⟩ := gathered.removed name removed
      rw [Text.components_name (valid.2 name (by simp [split]))] at file
      simp [baseFiles, fileMap, PathMap.mapValues, baseLeaves, storedLeaves, found, isTree] at file

theorem GatheredFor.comparing (addressed : Addressed repo.objects) (gathered : GatheredFor repo prevTree matcher listing scopes state)
    (entries : Table Text (IndexEntry Oid)) :
    Comparing repo.objects prevTree repo.workTree (· ∈ state.creditedRemoved)
      (withoutFiles state.creditedRemoved (baseFiles repo.objects prevTree)) [] repo
      { editor := state.editor
        changed := state.changed
        cache := seededCache prevTree state.editor
        indexEntries := entries } where
  addressed := addressed
  extend := Extends.refl _
  workTree := rfl
  sound := gathered.sound
  leaves := by rw [compared_nil, gathered.leaves]
  stale := fun key stale => absurd stale (gathered.stale key)
  cache := by
    rintro tree rfl oid cached found name
    rw [seededCache, Table.lookup_insert_if] at found
    split at found
    next same =>
      cases found
      rw [gathered.root tree rfl name, same]
      by_cases removed : name ∈ state.creditedRemoved <;> simp [removed]
    next => simp at found

end

section Run

variable (committable : Committable service req repo matcher)

include committable

theorem Committable.stored : BaseStored repo.objects (headTree repo req.branch) :=
  baseStored_headTree committable.head

theorem exec_commit_gathers (lists : Lists repo fuel (headTree repo req.branch) listing) :
    ∃ state entries, GatheredFor repo (headTree repo req.branch) matcher listing (scopesOf req.paths) state ∧
      (commit service fuel req).exec repo =
        (compareCandidates service (headTree repo req.branch) none state.candidates
          { editor := state.editor
            changed := state.changed
            cache := seededCache (headTree repo req.branch) state.editor
            indexEntries := entries } >>=
          finishCommit service req (repo.refs.lookup (refNameOf req.branch)) state.ignored).exec repo := by
  obtain ⟨editor, state, opened, gathers, gathered⟩ := exec_gather committable.addressed committable.stored lists
    matcher req.paths fun path member => isPath_of_valid (committable.paths path member)
  refine ⟨state, seedIndex service none req.paths state matcher, gathered, ?_⟩
  have account : (liftGit (validateAccountId req.account) : GitM Oid Unit).exec repo = (.ok (), repo) := by
    rw [committable.account]
    rfl
  have index : (loadIndex service req.branch (repo.refs.lookup (refNameOf req.branch))).exec repo =
      (.ok none, repo) := by
    simp [loadIndex, committable.unindexed]
  rw [commit, exec_bind_ok account,
    exec_bind_ok (exec_validatePaths _ repo committable.paths), commitImpl,
    exec_bind_ok committable.ignore, exec_bind_ok (exec_readRef committable.branch),
    exec_bind_ok (exec_prevTreeOf committable.head), exec_bind_ok index, exec_bind_ok opened,
    exec_bind_ok gathers]

section

variable (gathered : GatheredFor repo (headTree repo req.branch) matcher listing (scopesOf req.paths) state)

include gathered

theorem GatheredFor.isCandidate (path : List Text) : path ∈ state.candidates.map Text.components ↔ IsCandidate repo req matcher path := by
  rw [mem_map]
  constructor
  · rintro ⟨text, member, rfl⟩
    obtain ⟨tracked, valid, admitted⟩ := (gathered.candidates text).mp member
    exact ⟨by rwa [Text.joined_components], valid, admitted⟩
  · rintro ⟨tracked, valid, admitted⟩
    refine ⟨Text.joined path, (gathered.candidates _).mpr ?_, Text.components_joined valid⟩
    rw [Text.components_joined valid]
    exact ⟨tracked, valid, admitted⟩

theorem GatheredFor.isDropped {path : List Text} (file : headFiles repo req.branch path ≠ none) :
    Text.joined path ∈ state.creditedRemoved ↔ IsDropped repo req matcher path := by
  obtain ⟨oid, found⟩ := Option.ne_none_iff_exists'.mp file
  have valid := isPath_of_baseFiles committable.stored found
  rw [gathered.dropped, Text.components_joined valid]
  exact ⟨fun ⟨untracked, _, present, examined⟩ => ⟨untracked, present, examined⟩,
    fun ⟨untracked, present, examined⟩ => ⟨untracked, valid, present, examined⟩⟩

end

theorem exec_commit (lists : Lists repo fuel (headTree repo req.branch) listing) :
    ((∃ path, IsCandidate repo req matcher path ∧ repo.workTree.IsDirectory path) ∧
      ∃ error after, (commit service fuel req).exec repo = (.error error, after)) ∨
    ((∀ path, IsCandidate repo req matcher path → ¬ repo.workTree.IsDirectory path) ∧
      ∃ response after candidates removed, (commit service fuel req).exec repo = (.ok response, after) ∧
        Records repo after req matcher response candidates removed) := by
  obtain ⟨state, entries, gathered, run⟩ := exec_commit_gathers committable lists
  have stored := committable.stored
  have fit := fun path (member : path ∈ state.candidates) => gathered.candidate member
  have comparing := gathered.comparing committable.addressed entries
  have small : ∀ other oid, withoutFiles state.creditedRemoved (baseFiles repo.objects (headTree repo req.branch))
      other = some oid → baseFiles repo.objects (headTree repo req.branch) other = some oid := by
    intro other oid found
    rw [withoutFiles] at found
    split at found
    · cases found
    · exact found
  by_cases blocked : ∃ path ∈ state.candidates, repo.workTree.IsDirectory path.components
  · left
    obtain ⟨path, member, directory⟩ := blocked
    refine ⟨⟨path.components, ?_, directory⟩, ?_⟩
    · exact (gathered.isCandidate committable _).mp (mem_map_of_mem member)
    · obtain ⟨error, after, failed⟩ := exec_compareCandidates_directory service committable.addressed stored small
        state.candidates fit comparing ⟨path, member, directory⟩
      exact ⟨error, after, run.trans (exec_bind_error failed)⟩
  · right
    push Not at blocked
    have readable : ∀ path, IsCandidate repo req matcher path → ¬ repo.workTree.IsDirectory path := by
      intro path candidate
      obtain ⟨text, member, rfl⟩ := mem_map.mp ((gathered.isCandidate committable path).mpr candidate)
      exact blocked text member
    refine ⟨readable, ?_⟩
    obtain ⟨final, middle, success, done, grown, kept, least, counted⟩ := exec_compareCandidates service
      committable.addressed stored small state.candidates fit comparing blocked
    have sameRefs : middle.refs = repo.refs := by rw [grown.frame]
    have files : fileMap (final.editor.leaves middle.objects) = compared repo.workTree
        (state.candidates.map Text.components)
        (withoutFiles state.creditedRemoved (headFiles repo req.branch)) := done.leaves
    have unchanged : final.changed = 0 ↔ (∀ path, ¬ IsDropped repo req matcher path) ∧
        ∀ path, IsCandidate repo req matcher path →
          ¬ Changes repo.objects (headTree repo req.branch) repo.workTree path := by
      constructor
      · intro zero
        have empty : state.creditedRemoved = [] := by
          have length : state.creditedRemoved.length = 0 := by
            rw [← gathered.counted]
            exact Nat.le_zero.mp (zero ▸ least)
          exact length_eq_zero_iff.mp length
        refine ⟨?_, ?_⟩
        · intro path dropped
          have member := (gathered.isDropped committable dropped.2.1).mpr dropped
          simp [empty] at member
        · intro path candidate change
          obtain ⟨text, member, rfl⟩ := mem_map.mp ((gathered.isCandidate committable path).mpr candidate)
          have := counted ⟨text, member, change⟩
          omega
      · rintro ⟨noneDropped, noneChanged⟩
        have empty : state.creditedRemoved = [] := by
          rw [eq_nil_iff_forall_not_mem]
          intro path member
          obtain ⟨untracked, valid, present, examined⟩ := (gathered.dropped path).mp member
          refine noneDropped path.components ⟨by rwa [Text.joined_components], present, examined⟩
        have same := (kept fun path member => noneChanged _
          ((gathered.isCandidate committable _).mp (mem_map_of_mem member))).2
        rw [same, gathered.counted, empty]
        rfl
    by_cases zero : final.changed = 0
    · refine ⟨.noop ((repo.refs.lookup (refNameOf req.branch)).getD ObjectHash.null) state.ignored, middle,
        state.candidates.map Text.components, state.creditedRemoved, ?_, gathered.isCandidate committable,
        fun path => gathered.isDropped committable, headStored_grown grown committable.head, ?_,
        fun _ => headFiles_grown grown committable.head, ?_⟩
      · rw [run, exec_bind_ok success, exec_finishCommit_noop service committable.unindexed req _ _ zero]
      · obtain ⟨noneDropped, noneChanged⟩ := unchanged.mp zero
        have sameEditor := (kept fun path member => noneChanged _
          ((gathered.isCandidate committable _).mp (mem_map_of_mem member))).1
        have nothing : withoutFiles state.creditedRemoved (headFiles repo req.branch) = headFiles repo req.branch := by
          funext path
          by_cases file : headFiles repo req.branch path = none
          · simp [withoutFiles, file]
          · have member := (gathered.isDropped committable file).not.mpr (noneDropped path)
            simp [withoutFiles, member]
        rw [← files, headFiles_grown grown committable.head, sameEditor,
          leaves_mono gathered.sound grown.extend, gathered.leaves]
        exact nothing.symm
      · rw [← unchanged]
        simp [isNoop, zero]
    · obtain ⟨commitOid, after, finished, recorded, storedAfter⟩ := exec_finishCommit_created service committable.unindexed req
        committable.branch done.addressed state.ignored done.sound zero
      rw [sameRefs] at finished
      refine ⟨.created commitOid final.changed state.ignored, after, state.candidates.map Text.components,
        state.creditedRemoved, ?_, gathered.isCandidate committable, fun path => gathered.isDropped committable,
        storedAfter, ?_, ?_, ?_⟩
      · rw [run, exec_bind_ok success, finished]
      · rw [recorded, files]
      · simp [isNoop]
      · rw [← unchanged]
        simp [isNoop, zero]

end Run

def FlattensTo (repo : Repository Oid) (branch : Text) (files : PathMap Text Oid) : Prop :=
  ∃ bound listing, (∀ fuel, bound ≤ fuel →
    (flattenBase fuel (headTree repo branch)).exec repo = (.ok listing, repo)) ∧ listedFiles listing = files

theorem flattensTo_headFiles {branch : Text} (stored : HeadStored repo branch) :
    FlattensTo repo branch (headFiles repo branch) :=
  exec_flattenBase (baseStored_headTree stored)

def TakesSnapshot (service : GitService Oid) (req : CommitRequest) (repo : Repository Oid)
    (matcher : IgnoreMatcher) : Prop :=
  ∃ bound, ∀ fuel, bound ≤ fuel → ∃ response after, (commit service fuel req).exec repo = (.ok response, after) ∧
    FlattensTo after req.branch (snapshot repo.workTree matcher) ∧
    (response.isNoop = true ↔ headFiles repo req.branch = snapshot repo.workTree matcher)

section Full

variable (committable : Committable service req repo matcher) (full : req.paths = none)

include full in
theorem isCandidate_of_file {path : List Text} {oid : Oid}
    (recorded : snapshot repo.workTree matcher path = some oid) : IsCandidate repo req matcher path := by
  rw [snapshot] at recorded
  split at recorded
  next tracked =>
    obtain ⟨data, modTime, found, -⟩ := fileOid_eq_some.mp recorded
    have below : path ≠ [] := by
      rintro rfl
      rw [node_nil] at found
      cases found
    exact ⟨tracked, isPath_of_node _ found below, [], by simp [full, scopesOf],
      .inl ⟨⟨data, modTime, found⟩, List.nil_prefix⟩⟩
  next => cases recorded

include full in
theorem examines_root (disk : WorkTree) {path : List Text} (below : path ≠ []) :
    ∃ scope ∈ scopesOf req.paths, Examines disk scope path := by
  have root : disk.IsDirectory [] := ⟨0, node_nil _⟩
  exact ⟨[], by simp [full, scopesOf], (examines_directory root).mpr ⟨List.nil_prefix, below.symm⟩⟩

include committable full

section

variable {path : List Text} (present : headFiles repo req.branch path ≠ none)

include present

theorem isCandidate_of_headFile (tracked : shouldTrackPath (Text.joined path) matcher = true) : IsCandidate repo req matcher path := by
  obtain ⟨oid, found⟩ := Option.ne_none_iff_exists'.mp present
  have valid := isPath_of_baseFiles committable.stored found
  obtain ⟨scope, member, examines⟩ := examines_root full repo.workTree valid.1
  exact ⟨tracked, valid, scope, member, .inr (.inr ⟨present, examines⟩)⟩

theorem isDropped_of_headFile (untracked : shouldTrackPath (Text.joined path) matcher = false) : IsDropped repo req matcher path := by
  obtain ⟨oid, found⟩ := Option.ne_none_iff_exists'.mp present
  exact ⟨untracked, present, examines_root full _ (isPath_of_baseFiles committable.stored found).1⟩

end

variable (readable : ∀ path, headFiles repo req.branch path ≠ none →
  shouldTrackPath (Text.joined path) matcher = true → ¬ repo.workTree.IsDirectory path)

include readable

theorem isCandidate_not_directory {path : List Text} (candidate : IsCandidate repo req matcher path) :
    ¬ repo.workTree.IsDirectory path := by
  intro directory
  obtain ⟨tracked, -, scope, -, ⟨file, -⟩ | ⟨-, missing⟩ | ⟨present, -⟩⟩ := candidate
  · exact not_isFile_of_directory directory file
  · exact not_directory_of_missing missing directory
  · exact readable path present tracked directory

section

variable {after : Repository Oid} {response : CommitResponse Oid} {candidates : List (List Text)} {removed : List Text}
  (records : Records repo after req matcher response candidates removed)

include records

theorem Records.files_eq_snapshot :
    headFiles after req.branch = snapshot repo.workTree matcher := by
  rw [records.files]
  funext path
  rw [compared]
  split
  next here =>
    obtain ⟨tracked, -⟩ := (records.candidate path).mp here.1
    simp [snapshot, tracked]
  next notHere =>
    have nothing : snapshot repo.workTree matcher path = (none : Option Oid) := by
      rcases recorded : snapshot repo.workTree matcher path with _ | oid
      · rfl
      · refine absurd ⟨(records.candidate path).mpr (isCandidate_of_file full recorded), ?_⟩ notHere
        rw [snapshot] at recorded
        split at recorded
        · exact isFile_of_fileOid recorded
        · cases recorded
    rw [nothing]
    split
    · rfl
    next stays =>
      rw [withoutFiles]
      split
      · rfl
      next kept =>
        by_contra present
        rw [records.dropped path present] at kept
        rcases tracked : shouldTrackPath (Text.joined path) matcher with _ | _
        · exact kept (isDropped_of_headFile committable full present tracked)
        · have candidate := isCandidate_of_headFile committable full present tracked
          have member := (records.candidate path).mpr candidate
          rcases file_or_missing_or_directory Oid repo.workTree path with
            ⟨oid, file⟩ | missing | directory
          · exact notHere ⟨member, isFile_of_fileOid file⟩
          · exact stays ⟨path, member, .inr ⟨missing, prefix_refl _⟩⟩
          · exact readable path present tracked directory

theorem Records.noop_iff :
    response.isNoop = true ↔ headFiles repo req.branch = snapshot repo.workTree matcher := by
  constructor
  · intro noop
    rw [← records.kept noop]
    exact records.files_eq_snapshot committable full readable
  · intro same
    rw [records.unchanged]
    constructor
    · rintro path ⟨untracked, present, -⟩
      rw [same] at present
      simp [snapshot, untracked] at present
    · intro path candidate change
      obtain ⟨tracked, valid, scope, member, admitted⟩ := candidate
      rcases change with ⟨oid, file, differs⟩ | ⟨missing, entry⟩
      · have here : headFiles repo req.branch path = some oid := by
          rw [same]
          simp [snapshot, tracked, file]
        rw [headFiles, baseFiles_eq] at here
        obtain ⟨found, filtered, rfl⟩ := Option.map_eq_some_iff.mp here
        rw [Option.filter_eq_some_iff] at filtered
        exact differs (by rw [filtered.1]; rfl)
      · have absent : headFiles repo req.branch path = none := by
          rw [same]
          simp [snapshot, fileOid_of_missing missing]
        rw [full, scopesOf, mem_singleton] at member
        subst member
        rcases admitted with ⟨file, -⟩ | ⟨root, -⟩ | ⟨present, -⟩
        · exact not_isFile_of_missing missing file
        · exact valid.1 root.symm
        · exact present absent

end

end Full

theorem TakesSnapshot.readable (committable : Committable service req repo matcher) (full : req.paths = none)
    (takes : TakesSnapshot service req repo matcher) (path : List Text)
    (present : headFiles repo req.branch path ≠ none)
    (tracked : shouldTrackPath (Text.joined path) matcher = true) : ¬ repo.workTree.IsDirectory path := by
  intro directory
  obtain ⟨bound, runs⟩ := takes
  obtain ⟨listBound, listing, lists⟩ := exists_lists committable.stored
  obtain ⟨response, after, success, -⟩ := runs _ (le_max_left bound listBound)
  rcases exec_commit committable (lists _ (le_max_right bound listBound)) with
    ⟨-, error, other, failed⟩ | ⟨readable, -⟩
  · rw [success] at failed
    cases failed
  · exact readable path (isCandidate_of_headFile committable full present tracked) directory

end Alone

theorem full_commit_takes_snapshot_iff (service : GitService Oid) (req : CommitRequest) (repo : Repository Oid)
    (matcher : IgnoreMatcher) (committable : Committable service req repo matcher) (full : req.paths = none) :
    TakesSnapshot service req repo matcher ↔
      ∀ path, headFiles repo req.branch path ≠ none → shouldTrackPath (Text.joined path) matcher = true →
        ¬ repo.workTree.IsDirectory path := by
  constructor
  · intro takes path present tracked
    exact takes.readable committable full path present tracked
  · intro readable
    obtain ⟨listBound, listing, lists⟩ := exists_lists committable.stored
    refine ⟨listBound, fun fuel enough => ?_⟩
    rcases exec_commit committable (lists fuel enough) with
      ⟨⟨path, candidate, directory⟩, -⟩ | ⟨-, response, after, candidates, removed, success, records⟩
    · exact absurd directory (isCandidate_not_directory committable full readable candidate)
    · refine ⟨response, after, success, ?_, records.noop_iff committable full readable⟩
      rw [← records.files_eq_snapshot committable full readable]
      exact flattensTo_headFiles records.stored

section Instances

def plainService : GitService Digest where
  parseIgnore := fun _ => .ok .empty
  indexStore := false
  blobExistsPrecheck := true

def mainRequest (paths : Option (List Text)) : CommitRequest where
  account := "acme"
  branch := "main"
  message := "snapshot"
  paths := paths
  authorName := "agent"
  authorEmail := "agent@acme"

def firstFile : Repository Digest :=
  { fresh with workTree := (WorkTree.empty.write 0 "a" [1]).2 }

theorem firstFile_committable : Committable plainService (mainRequest none) firstFile .empty where
  account := by decide
  branch := by decide
  paths := by simp [mainRequest]
  ignore := by rfl
  unindexed := rfl
  addressed := fresh_addressed
  head := by
    intro commitOid found
    cases found

theorem full_commit_takes_snapshot_first_file :
    TakesSnapshot plainService (mainRequest none) firstFile .empty := by
  refine (full_commit_takes_snapshot_iff plainService (mainRequest none) firstFile .empty
    firstFile_committable rfl).mpr ?_
  intro path present
  exact absurd rfl present

def fileTree : GitObject Digest :=
  .tree [{ mode := .blob, filename := "a", oid := computeHash (.blob [1]) }]

def fileCommit : Commit Digest where
  tree := computeHash fileTree
  parents := []
  author := { name := [], email := [], timeSeconds := 0, tzOffsetSeconds := 0 }
  committer := { name := [], email := [], timeSeconds := 0, tzOffsetSeconds := 0 }
  message := []

/-- A branch whose commit has the one file `a`. -/
def fileCommitted : Repository Digest :=
  { ((fresh.store (.blob [1])).store fileTree).store (.commit fileCommit) with
    refs := (∅ : Table Text Digest).insert (refNameOf "main") (computeHash (.commit fileCommit)) }

theorem fileCommitted_addressed : Addressed fileCommitted.objects :=
  store_addressed (store_addressed (store_addressed fresh_addressed _) _) _

theorem fileTree_stored : TreeStored fileCommitted.objects (computeHash fileTree) := by
  refine .intro _ [{ mode := .blob, filename := "a", oid := computeHash (.blob [1]) }] (by rfl) ?_ ?_
  · exact ⟨by simp, by simp [Text.IsName], by simp⟩
  · simp [TreeEntry.isTree]

theorem fileCommitted_head : HeadStored fileCommitted "main" := by
  intro commitOid found
  refine ⟨fileCommit, ?_, fileTree_stored⟩
  rw [show fileCommitted.refs.lookup (refNameOf "main") = some (computeHash (.commit fileCommit)) from
    AList.lookup_insert _, Option.some.injEq] at found
  rw [← found]
  rfl

def fileNowDirectory : Repository Digest :=
  { fileCommitted with workTree := (WorkTree.empty.mkdir 0 "a").2 }

theorem fileNowDirectory_committable : Committable plainService (mainRequest none) fileNowDirectory .empty where
  account := by decide
  branch := by decide
  paths := by simp [mainRequest]
  ignore := by rfl
  unindexed := rfl
  addressed := fileCommitted_addressed
  head := fileCommitted_head

theorem file_now_directory_no_snapshot :
    Committable plainService (mainRequest none) fileNowDirectory .empty ∧ (mainRequest none).paths = none ∧
      ¬ TakesSnapshot plainService (mainRequest none) fileNowDirectory .empty := by
  refine ⟨fileNowDirectory_committable, rfl, fun takes => ?_⟩
  refine takes.readable fileNowDirectory_committable rfl ["a"] ?_ (by rfl) ⟨0, by rfl⟩
  have file : headFiles fileNowDirectory (mainRequest none).branch ["a"] = some (computeHash (.blob [1])) := by
    rfl
  rw [file]
  exact Option.some_ne_none _

end Instances

end LoginomDock.Git
