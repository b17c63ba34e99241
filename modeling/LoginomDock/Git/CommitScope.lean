import LoginomDock.Git.CommitGather

namespace LoginomDock.Git

open List PathMap WorkTree Text

variable {Oid : Type} [DecidableEq Oid] [ObjectHash Oid]

-- The files of the previous tree that a listed path looks at again: itself unless it is a directory now, and those
-- below it unless it is a file now.
def Examines (disk : WorkTree) (scope path : List Text) : Prop :=
  (scope = path ∧ ¬ disk.IsDirectory scope) ∨ (scope <+: path ∧ scope ≠ path ∧ ¬ disk.IsFile scope)

def Admits (disk : WorkTree) (files : PathMap Text Oid) (scope path : List Text) : Prop :=
  (disk.IsFile path ∧ scope <+: path) ∨ (scope = path ∧ disk.node path = none) ∨
    (files path ≠ none ∧ Examines disk scope path)

section Disk

theorem WorkTree.not_isFile_of_directory {disk : WorkTree} {path : List Text} (directory : disk.IsDirectory path) :
    ¬ disk.IsFile path := by
  rintro ⟨data, modTime, file⟩
  obtain ⟨time, found⟩ := directory
  rw [found] at file
  cases file

theorem WorkTree.not_isFile_of_missing {disk : WorkTree} {path : List Text} (missing : disk.node path = none) :
    ¬ disk.IsFile path := by
  rintro ⟨data, modTime, file⟩
  rw [missing] at file
  cases file

section Kinds

variable {disk : WorkTree} {files : PathMap Text Oid} {scope path : List Text}

theorem examines_directory (directory : disk.IsDirectory scope) :
    Examines disk scope path ↔ scope <+: path ∧ scope ≠ path := by
  simp [Examines, directory, not_isFile_of_directory directory]

theorem examines_file (file : disk.IsFile scope) : Examines disk scope path ↔ scope = path := by
  have notDirectory : ¬ disk.IsDirectory scope := fun directory =>
    not_isFile_of_directory directory file
  simp [Examines, file, notDirectory]

theorem examines_missing (missing : disk.node scope = none) : Examines disk scope path ↔ scope <+: path := by
  simp only [Examines, not_directory_of_missing missing, not_isFile_of_missing missing,
    not_false_eq_true, and_true]
  constructor
  · rintro (rfl | ⟨inside, -⟩)
    · exact prefix_refl _
    · exact inside
  · intro inside
    by_cases same : scope = path
    · exact .inl same
    · exact .inr ⟨inside, same⟩

theorem admits_directory (directory : disk.IsDirectory scope) :
    Admits disk files scope path ↔ (disk.IsFile path ∧ scope <+: path) ∨
      (files path ≠ none ∧ scope <+: path ∧ scope ≠ path) := by
  have never : ¬ (scope = path ∧ disk.node path = none) := by
    rintro ⟨rfl, missing⟩
    exact not_directory_of_missing missing directory
  rw [Admits, examines_directory directory, or_iff_right never]

theorem admits_file (file : disk.IsFile scope) : Admits disk files scope path ↔ scope = path := by
  rw [Admits, examines_file file]
  constructor
  · rintro (⟨pathFile, inside⟩ | ⟨same, -⟩ | ⟨-, same⟩)
    · by_contra different
      obtain ⟨data, modTime, found⟩ := pathFile
      exact not_isFile_of_directory (directory_above found inside different) file
    · exact same
    · exact same
  · rintro rfl
    exact .inl ⟨file, prefix_refl _⟩

theorem admits_missing (missing : disk.node scope = none) :
    Admits disk files scope path ↔ scope = path ∨ (files path ≠ none ∧ scope <+: path ∧ scope ≠ path) := by
  have never : ¬ (disk.IsFile path ∧ scope <+: path) := by
    rintro ⟨pathFile, inside⟩
    obtain ⟨data, modTime, found⟩ := pathFile
    by_cases same : scope = path
    · rw [same, found] at missing
      cases missing
    · exact not_directory_of_missing missing (directory_above found inside same)
  rw [Admits, examines_missing missing, or_iff_right never]
  by_cases same : scope = path
  · subst same
    simp [missing]
  · simp [same]

end Kinds

theorem exec_collectUnder {repo : Repository Oid} {path : Text} {scope : List Text}
    (parts : relativeParts path = scope) (directory : repo.workTree.IsDirectory scope) :
    ∃ listed, (collectUnder path).exec repo = (.ok listed, repo) ∧
      ∀ other, other ∈ listed ↔ IsPath other.components ∧ repo.workTree.IsFile other.components ∧
        scope <+: other.components ∧ prunePath other = false := by
  obtain ⟨modTime, found⟩ := directory
  have handled : ∃ entries, Repository.handle (.treeDirectory path) repo = (.ok entries, repo) ∧
      ∀ other info, (other, info) ∈ entries ↔ ∃ target node, repo.workTree.nodes.lookup target = some node ∧
        scope <+: target ∧ scope ≠ target ∧ other = joined target ∧ info = node.info := by
    refine ⟨_, by simp only [Repository.handle, treeDirectory, parts, found]; rfl, ?_⟩
    intro other info
    simp only [mem_map, mem_filter, decide_eq_true_eq, Prod.mk.injEq]
    constructor
    · rintro ⟨⟨target, node⟩, ⟨member, inside, different⟩, rfl, rfl⟩
      exact ⟨target, node, (Table.mem_entries_iff _ _ _).mp member, inside, different, rfl, rfl⟩
    · rintro ⟨target, node, member, inside, different, rfl, rfl⟩
      exact ⟨⟨target, node⟩, ⟨(Table.mem_entries_iff _ _ _).mpr member, inside, different⟩, rfl, rfl⟩
  obtain ⟨entries, answer, members⟩ := handled
  refine ⟨(entries.filter fun entry => !entry.2.isDir && !prunePath entry.1).map Prod.fst, ?_, ?_⟩
  · rw [collectUnder, GitM.exec_call_bind, answer]
    rfl
  · intro other
    simp only [mem_map, mem_filter, Bool.and_eq_true, Bool.not_eq_true', Prod.exists,
      exists_and_right, exists_eq_right]
    constructor
    · rintro ⟨info, member, isFile, kept⟩
      obtain ⟨target, node, present, inside, different, rfl, rfl⟩ := (members other info).mp member
      have below : target ≠ [] := by
        rintro rfl
        exact different (prefix_nil.mp inside)
      have here : repo.workTree.node target = some node := by
        rw [node_of_ne_nil _ below, present]
      have valid := isPath_of_node _ here below
      rw [components_joined valid]
      refine ⟨valid, ?_, inside, kept⟩
      cases node with
      | file data time => exact ⟨data, time, here⟩
      | directory => cases isFile
    · rintro ⟨valid, ⟨data, time, file⟩, inside, kept⟩
      refine ⟨(Node.file data time).info, (members _ _).mpr ⟨other.components, .file data time, ?_, inside, ?_,
        by simp, rfl⟩, rfl, kept⟩
      · rw [← node_of_ne_nil _ valid.1, file]
      · rintro rfl
        rw [found] at file
        cases file

end Disk

section Programs

variable {repo : Repository Oid} {prevTree : Option Oid} {matcher : IgnoreMatcher} {fuel : Nat}
  {listing : List (Text × Oid)}

structure Lists (repo : Repository Oid) (fuel : Nat) (prevTree : Option Oid) (listing : List (Text × Oid)) :
    Prop where
  runs : ∀ tree, prevTree = some tree → (flatten fuel tree none).exec repo = (.ok listing, repo)
  complete : ∀ path, path ∈ listing.map Prod.fst ↔
    IsPath path.components ∧ ∃ oid, baseFiles repo.objects prevTree path.components = some oid

theorem exists_lists (stored : BaseStored repo.objects prevTree) :
    ∃ bound listing, ∀ fuel, bound ≤ fuel → Lists repo fuel prevTree listing := by
  cases prevTree with
  | none =>
    refine ⟨0, [], fun fuel _ => ⟨by simp, ?_⟩⟩
    simp [baseFiles, fileMap, mapValues, baseLeaves]
  | some tree =>
    obtain ⟨bound, files, runs, enumerates⟩ := exec_flatten (stored tree rfl)
    refine ⟨bound, files, fun fuel enough => ⟨?_, ?_⟩⟩
    · rintro _ ⟨⟩
      exact runs fuel enough
    · intro path
      simp only [mem_map, Prod.exists, exists_and_right, exists_eq_right]
      constructor
      · rintro ⟨oid, member⟩
        obtain ⟨parts, rfl, found⟩ := (enumerates path oid).mp member
        have isFile : baseFiles repo.objects (some tree) parts = some oid := found
        rw [nil_append, components_joined (isPath_of_baseFiles stored isFile)]
        exact ⟨isPath_of_baseFiles stored isFile, oid, isFile⟩
      · rintro ⟨-, oid, found⟩
        exact ⟨oid, (enumerates path oid).mpr ⟨path.components, by simp, found⟩⟩

variable (addressed : Addressed repo.objects) (stored : BaseStored repo.objects prevTree)
  (lists : Lists repo fuel prevTree listing)

include lists in
theorem exec_loadPrevPaths {tree : Oid} (isSome : prevTree = some tree) {state : Gathering Oid}
    (gathered : Gathered repo.objects prevTree matcher listing state) :
    ∃ next, (loadPrevPaths fuel tree state).exec repo = (.ok (listing, next), repo) ∧
      Gathered repo.objects prevTree matcher listing next ∧
      next.candidates = state.candidates ∧ next.creditedRemoved = state.creditedRemoved := by
  rw [loadPrevPaths]
  rcases found : state.prevPaths with _ | paths
  · refine ⟨{ state with prevPaths := some listing }, ?_, ?_, rfl, rfl⟩
    · rw [GitM.exec_bind_ok (lists.runs tree isSome)]
      rfl
    · obtain ⟨sound, leaves, gone, keys, stale, root, counted, -⟩ := gathered
      refine ⟨sound, leaves, gone, keys, stale, root, counted, ?_⟩
      rintro _ ⟨⟩
      rfl
  · rw [gathered.prevPaths paths found]
    exact ⟨state, rfl, gathered, rfl, rfl⟩

-- The run only reads, and collects the tracked paths that `admits` and the untracked ones of the base that `examines`.
abbrev GathersFrom (repo : Repository Oid) (prevTree : Option Oid) (matcher : IgnoreMatcher) (listing : List (Text × Oid)) (state : Gathering Oid)
    (program : GitM Oid (Gathering Oid)) (admits examines : List Text → Prop) : Prop :=
  ∃ next, program.exec repo = (.ok next, repo) ∧ Gathered repo.objects prevTree matcher listing next ∧
    Collects state next (fun other => shouldTrackPath other matcher = true ∧ IsPath other.components ∧ admits other.components)
      fun other => shouldTrackPath other matcher = false ∧ IsPath other.components ∧
        baseFiles repo.objects prevTree other.components ≠ none ∧ examines other.components

include addressed stored lists

section

variable {path : Text} (valid : IsPath path.components) {state : Gathering Oid}
  (gathered : Gathered repo.objects prevTree matcher listing state)

include valid gathered

theorem exec_examinePrevUnder :
    GathersFrom repo prevTree matcher listing state (examinePrevUnder fuel matcher prevTree path state)
      (fun other => baseFiles repo.objects prevTree other ≠ none ∧ path.components <+: other ∧ path.components ≠ other)
      fun other => path.components <+: other ∧ path.components ≠ other := by
  cases prevTree with
  | none =>
    refine ⟨state, rfl, gathered, (Collects.refl state).congr ?_ ?_⟩
    · simp [baseFiles, fileMap, mapValues, baseLeaves]
    · simp [baseFiles, fileMap, mapValues, baseLeaves]
  | some tree =>
    obtain ⟨loaded, read, ready, candidates, removed⟩ := exec_loadPrevPaths lists rfl gathered
    obtain ⟨next, success, final, collects⟩ := exec_examinePrev addressed stored
      (fun other => path ++ ['/'] <+: other) listing (fun other member => (lists.complete other).mp member) ready
    refine ⟨next, ?_, final, ?_⟩
    · rw [examinePrevUnder, GitM.exec_bind_ok read, success]
    · have scope : ∀ other (rest : Prop), other ∈ listing.map Prod.fst ∧
          (decide (path ++ ['/'] <+: other)) = true ∧ rest ↔ rest ∧ IsPath other.components ∧
            baseFiles repo.objects (some tree) other.components ≠ none ∧
            path.components <+: other.components ∧ path.components ≠ other.components := by
        intro other rest
        rw [lists.complete, ← Option.ne_none_iff_exists', decide_eq_true_eq]
        constructor
        · rintro ⟨⟨isPath, present⟩, inside, holds⟩
          have below := slash_prefix_joined valid isPath
          rw [joined_components, joined_components] at below
          exact ⟨holds, isPath, present, below.mp inside⟩
        · rintro ⟨holds, isPath, present, under⟩
          have below := slash_prefix_joined valid isPath
          rw [joined_components, joined_components] at below
          exact ⟨⟨isPath, present⟩, below.mpr under, holds⟩
      constructor
      · intro other
        rw [collects.candidates, candidates, scope]
      · intro other
        rw [collects.removed, removed, scope]

theorem exec_includeOrDrop :
    ∃ next, (includeOrDrop fuel matcher prevTree path state).exec repo = (.ok next, repo) ∧
      Gathered repo.objects prevTree matcher listing next ∧
      Collects state next (fun other => other = path ∧ shouldTrackPath path matcher = true)
        fun other => other = path ∧ shouldTrackPath path matcher = false ∧
          baseFiles repo.objects prevTree path.components ≠ none := by
  obtain ⟨tracked, frame⟩ := includePath_spec matcher path state
  rw [includeOrDrop.eq_def]
  rcases result : Gathering.includePath matcher path state with ⟨included, counted⟩
  rw [result] at tracked frame
  obtain ⟨editor, removed, changed, prevPaths, candidates⟩ := frame counted rfl
  have ready := gathered.congr editor removed changed prevPaths
  cases included with
  | true =>
    obtain ⟨added, collects⟩ := ready.addCandidate path
    refine ⟨_, rfl, added, ?_, ?_⟩
    · intro other
      rw [collects.candidates, candidates]
      simp [← tracked]
    · intro other
      rw [collects.removed, removed]
      simp [← tracked]
  | false =>
    have kept : ∀ {next : Gathering Oid}, next.candidates = state.candidates →
        ∀ other, other ∈ next.candidates ↔
          other ∈ state.candidates ∨ other = path ∧ shouldTrackPath path matcher = true := by
      intro next same other
      simp [same, ← tracked]
    cases prevTree with
    | none =>
      refine ⟨counted, rfl, ready, kept candidates, ?_⟩
      intro other
      simp [removed, baseFiles, fileMap, mapValues, baseLeaves]
    | some tree =>
      obtain ⟨loaded, read, again, sameCandidates, sameRemoved⟩ := exec_loadPrevPaths lists rfl ready
      simp only
      rw [GitM.exec_bind_ok read]
      have listed : listing.any (fun file => file.1 = path) = true ↔
          baseFiles repo.objects (some tree) path.components ≠ none := by
        have member := lists.complete path
        rw [and_iff_right valid, ← Option.ne_none_iff_exists'] at member
        rw [← member]
        simp
      by_cases dropping : listing.any (fun file => file.1 = path) = true ∧ path ∉ loaded.creditedRemoved
      · obtain ⟨oid, present⟩ := Option.ne_none_iff_exists'.mp (listed.mp dropping.1)
        obtain ⟨edited, success, final, collects⟩ :=
          again.drop addressed stored valid (by simp [← tracked]) present
        refine ⟨_, ?_, final, ?_, ?_⟩
        · rw [if_pos dropping, GitM.exec_bind_ok success]
          rfl
        · intro other
          rw [collects.candidates, sameCandidates, candidates]
          simp [← tracked]
        · intro other
          rw [collects.removed, sameRemoved, removed]
          simp [← tracked, present]
      · refine ⟨loaded, by rw [if_neg dropping]; rfl, again, kept (sameCandidates.trans candidates), ?_⟩
        intro other
        rw [sameRemoved, removed]
        constructor
        · exact .inl
        · rintro (old | ⟨rfl, -, present⟩)
          · exact old
          · by_contra absent
            exact dropping ⟨listed.mpr present, by rwa [sameRemoved, removed]⟩

theorem exec_classifyPath :
    GathersFrom repo prevTree matcher listing state (classifyPath fuel matcher prevTree path state)
      (Admits repo.workTree (baseFiles repo.objects prevTree) path.components) (Examines repo.workTree path.components) := by
  have parts := relativeParts_of_isPath valid
  have ownPath : ∀ other : Text, path.components = other.components ↔ other = path := by
    intro other
    constructor
    · intro same
      rw [← joined_components other, ← same, joined_components]
    · rintro rfl
      rfl
  have stat : Repository.handle (.stat path) repo = (repo.workTree.stat path, repo) := rfl
  rw [GathersFrom, classifyPath, GitM.exec_call_bind, stat]
  rcases file_or_missing_or_directory Oid repo.workTree path.components with
    ⟨oid, file⟩ | missing | directory
  · have isFile := isFile_of_fileOid file
    obtain ⟨data, modTime, found⟩ := isFile
    have ready : Gathered repo.objects prevTree matcher listing
        { state with cleanupExact := path :: state.cleanupExact } := gathered.congr rfl rfl rfl rfl
    obtain ⟨next, success, final, collected⟩ := exec_includeOrDrop addressed stored lists valid ready
    have collects : Collects state next _ _ := ⟨collected.candidates, collected.removed⟩
    refine ⟨next, by simp [WorkTree.stat, parts, found, Node.info, success], final, collects.congr ?_ ?_⟩
    · intro other
      rw [admits_file ⟨data, modTime, found⟩, ownPath]
      constructor
      · rintro ⟨rfl, tracked⟩
        exact ⟨tracked, valid, rfl⟩
      · rintro ⟨tracked, -, rfl⟩
        exact ⟨rfl, tracked⟩
    · intro other
      rw [examines_file ⟨data, modTime, found⟩, ownPath]
      constructor
      · rintro ⟨rfl, untracked, present⟩
        exact ⟨untracked, valid, present, rfl⟩
      · rintro ⟨untracked, -, present, rfl⟩
        exact ⟨rfl, untracked, present⟩
  · have ready : Gathered repo.objects prevTree matcher listing
        { state with
          cleanupExact := path :: state.cleanupExact
          cleanupPrefixes := state.cleanupPrefixes ++ [path ++ ['/']] } := gathered.congr rfl rfl rfl rfl
    obtain ⟨middle, included, again, first⟩ := exec_includeOrDrop addressed stored lists valid ready
    obtain ⟨next, success, final, second⟩ := exec_examinePrevUnder addressed stored lists valid again
    have both := first.trans second
    have collects : Collects state next _ _ := ⟨both.candidates, both.removed⟩
    refine ⟨next, ?_, final, collects.congr ?_ ?_⟩
    · simp only [WorkTree.stat, parts, missing, FsError.isNotFound, if_true]
      rw [GitM.exec_bind_ok included, success]
    · intro other
      rw [admits_missing missing, ownPath]
      constructor
      · rintro (⟨rfl, tracked⟩ | ⟨tracked, isPath, below⟩)
        · exact ⟨tracked, valid, .inl rfl⟩
        · exact ⟨tracked, isPath, .inr below⟩
      · rintro ⟨tracked, isPath, rfl | below⟩
        · exact .inl ⟨rfl, tracked⟩
        · exact .inr ⟨tracked, isPath, below⟩
    · intro other
      rw [examines_missing missing]
      constructor
      · rintro (⟨rfl, untracked, present⟩ | ⟨untracked, isPath, present, inside, -⟩)
        · exact ⟨untracked, valid, present, prefix_refl _⟩
        · exact ⟨untracked, isPath, present, inside⟩
      · rintro ⟨untracked, isPath, present, inside⟩
        by_cases same : path.components = other.components
        · rw [ownPath] at same
          subst same
          exact .inl ⟨rfl, untracked, present⟩
        · exact .inr ⟨untracked, isPath, present, inside, same⟩
  · obtain ⟨modTime, found⟩ := directory
    have ready : Gathered repo.objects prevTree matcher listing
        { state with cleanupPrefixes := state.cleanupPrefixes ++ [path ++ ['/']] } :=
      gathered.congr rfl rfl rfl rfl
    obtain ⟨listed, collected, members⟩ := exec_collectUnder parts ⟨modTime, found⟩
    obtain ⟨again, first⟩ := ready.includeListed listed
    obtain ⟨next, success, final, second⟩ := exec_examinePrevUnder addressed stored lists valid again
    have both := first.trans second
    have collects : Collects state next _ _ := ⟨both.candidates, both.removed⟩
    refine ⟨next, ?_, final, collects.congr ?_ ?_⟩
    · simp only [WorkTree.stat, parts, found, Node.info, if_true]
      rw [GitM.exec_bind_ok collected, success]
    · intro other
      rw [admits_directory ⟨modTime, found⟩, members]
      constructor
      · rintro (⟨⟨isPath, isFile, inside, -⟩, tracked⟩ | ⟨tracked, isPath, below⟩)
        · exact ⟨tracked, isPath, .inl ⟨isFile, inside⟩⟩
        · exact ⟨tracked, isPath, .inr below⟩
      · rintro ⟨tracked, isPath, ⟨isFile, inside⟩ | below⟩
        · exact .inl ⟨⟨isPath, isFile, inside, not_prunePath_of_tracked tracked⟩, tracked⟩
        · exact .inr ⟨tracked, isPath, below⟩
    · intro other
      rw [examines_directory ⟨modTime, found⟩, false_or]

end

theorem exec_classifyPaths (paths : List Text) (valid : ∀ path ∈ paths, IsPath path.components)
    {state : Gathering Oid} (gathered : Gathered repo.objects prevTree matcher listing state) :
    GathersFrom repo prevTree matcher listing state (classifyPaths fuel matcher prevTree paths state)
      (fun other => ∃ scope ∈ paths.map components, Admits repo.workTree (baseFiles repo.objects prevTree) scope other)
      fun other => ∃ scope ∈ paths.map components, Examines repo.workTree scope other := by
  induction paths generalizing state with
  | nil => exact ⟨state, rfl, gathered, (Collects.refl state).congr (by simp) (by simp)⟩
  | cons path rest ih =>
    obtain ⟨middle, classified, again, first⟩ :=
      exec_classifyPath addressed stored lists (valid path (by simp)) gathered
    obtain ⟨next, success, final, second⟩ := ih (fun other member => valid other (by simp [member])) again
    refine ⟨next, ?_, final, (first.trans second).congr ?_ ?_⟩
    · rw [classifyPaths, GitM.exec_bind_ok classified, success]
    · intro other
      simp only [map_cons, mem_cons, exists_eq_or_imp, ← and_or_left]
    · intro other
      simp only [map_cons, mem_cons, exists_eq_or_imp, ← and_or_left]

theorem exec_enumerateAll {state : Gathering Oid} (gathered : Gathered repo.objects prevTree matcher listing state) :
    GathersFrom repo prevTree matcher listing state (enumerateAll fuel matcher prevTree state)
      (Admits repo.workTree (baseFiles repo.objects prevTree) []) (Examines repo.workTree []) := by
  have root : repo.workTree.IsDirectory [] := ⟨0, node_nil _⟩
  obtain ⟨listed, collected, members⟩ := exec_collectUnder (show relativeParts [] = [] from rfl) root
  obtain ⟨ready, first⟩ := gathered.includeListed listed
  have examined : ∃ next, (enumerateAll fuel matcher prevTree state).exec repo = (.ok next, repo) ∧
      Gathered repo.objects prevTree matcher listing next ∧
      Collects (listed.foldl (Gathering.includeListed matcher) state) next
        (fun other => (IsPath other.components ∧
          ∃ oid, baseFiles repo.objects prevTree other.components = some oid) ∧ shouldTrackPath other matcher = true)
        fun other => (IsPath other.components ∧
          ∃ oid, baseFiles repo.objects prevTree other.components = some oid) ∧
          shouldTrackPath other matcher = false := by
    cases prevTree with
    | none =>
      refine ⟨_, ?_, ready, (Collects.refl _).congr ?_ ?_⟩
      · rw [enumerateAll, GitM.exec_bind_ok collected]
        rfl
      · simp [baseFiles, fileMap, mapValues, baseLeaves]
      · simp [baseFiles, fileMap, mapValues, baseLeaves]
    | some tree =>
      obtain ⟨next, success, final, collects⟩ := exec_examinePrev addressed stored (fun _ => true) listing
        (fun other member => (lists.complete other).mp member) ready
      refine ⟨next, ?_, final, collects.congr ?_ ?_⟩
      · rw [enumerateAll, GitM.exec_bind_ok collected]
        simp only
        rw [GitM.exec_bind_ok (lists.runs tree rfl), success]
      · intro other
        rw [lists.complete]
        simp
      · intro other
        rw [lists.complete]
        simp
  obtain ⟨next, success, final, second⟩ := examined
  refine ⟨next, success, final, (first.trans second).congr ?_ ?_⟩
  · intro other
    rw [admits_directory root, members, ← Option.ne_none_iff_exists']
    constructor
    · rintro (⟨⟨isPath, isFile, inside, -⟩, tracked⟩ | ⟨⟨isPath, present⟩, tracked⟩)
      · exact ⟨tracked, isPath, .inl ⟨isFile, inside⟩⟩
      · exact ⟨tracked, isPath, .inr ⟨present, List.nil_prefix, isPath.1.symm⟩⟩
    · rintro ⟨tracked, isPath, ⟨isFile, inside⟩ | ⟨present, -⟩⟩
      · exact .inl ⟨⟨isPath, isFile, inside, not_prunePath_of_tracked tracked⟩, tracked⟩
      · exact .inr ⟨⟨isPath, present⟩, tracked⟩
  · intro other
    rw [examines_directory root, false_or, ← Option.ne_none_iff_exists']
    constructor
    · rintro ⟨⟨isPath, present⟩, untracked⟩
      exact ⟨untracked, isPath, present, List.nil_prefix, isPath.1.symm⟩
    · rintro ⟨untracked, isPath, present, -⟩
      exact ⟨⟨isPath, present⟩, untracked⟩

end Programs

-- The paths a commit looks at: those of the request, or the account root.
def scopesOf : Option (List Text) → List (List Text)
  | some paths => paths.map components
  | none => [[]]

structure GatheredFor (repo : Repository Oid) (prevTree : Option Oid) (matcher : IgnoreMatcher)
    (listing : List (Text × Oid)) (scopes : List (List Text)) (state : Gathering Oid) : Prop
    extends Gathered repo.objects prevTree matcher listing state where
  candidates : ∀ path, path ∈ state.candidates ↔ shouldTrackPath path matcher = true ∧
    IsPath path.components ∧
    ∃ scope ∈ scopes, Admits repo.workTree (baseFiles repo.objects prevTree) scope path.components
  dropped : ∀ path, path ∈ state.creditedRemoved ↔ shouldTrackPath path matcher = false ∧
    IsPath path.components ∧ baseFiles repo.objects prevTree path.components ≠ none ∧
    ∃ scope ∈ scopes, Examines repo.workTree scope path.components

theorem exec_gather {repo : Repository Oid} {prevTree : Option Oid} {fuel : Nat} {listing : List (Text × Oid)}
    (addressed : Addressed repo.objects) (stored : BaseStored repo.objects prevTree)
    (lists : Lists repo fuel prevTree listing) (matcher : IgnoreMatcher) (paths : Option (List Text))
    (valid : ∀ path ∈ paths.getD [], IsPath path.components) :
    ∃ editor state, (editorOf prevTree).exec repo = (.ok editor, repo) ∧
      (gather fuel matcher prevTree paths editor).exec repo = (.ok state, repo) ∧
      GatheredFor repo prevTree matcher listing (scopesOf paths) state := by
  obtain ⟨editor, opened, sound, leaves, unloaded, root⟩ := exec_editorOf stored
  have start : Gathered repo.objects prevTree matcher listing (.start editor) := by
    refine ⟨sound, ?_, by simp [Gathering.start], ?_, ?_, ?_, rfl, by simp [Gathering.start]⟩
    · funext path
      simp [Gathering.start, withoutFiles, leaves, baseFiles]
    · simp [Gathering.start, unloaded]
    · rintro key ⟨above, name, -, member, -⟩
      simp [Gathering.start, unloaded] at member
    · intro tree isSome name
      simp [Gathering.start, root tree isSome]
  cases paths with
  | some paths =>
    obtain ⟨state, success, gathered, collects⟩ :=
      exec_classifyPaths addressed stored lists paths (by simpa using valid) start
    refine ⟨editor, state, opened, success, gathered, ?_, ?_⟩
    · intro path
      rw [collects.candidates]
      simp [Gathering.start, scopesOf]
    · intro path
      rw [collects.removed]
      simp [Gathering.start, scopesOf]
  | none =>
    obtain ⟨state, success, gathered, collects⟩ := exec_enumerateAll addressed stored lists start
    refine ⟨editor, state, opened, success, gathered, ?_, ?_⟩
    · intro path
      rw [collects.candidates]
      simp [Gathering.start, scopesOf]
    · intro path
      rw [collects.removed]
      simp [Gathering.start, scopesOf]

end LoginomDock.Git
