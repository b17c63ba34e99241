import LoginomDock.Git.CommitSnapshot

namespace LoginomDock.Git

open List WorkTree Option

variable {Oid : Type} [DecidableEq Oid] [ObjectHash Oid]

namespace GitM

variable {α β : Type}

def Refines (first second : GitM Oid α) : Prop :=
  ∀ repo value after, first.exec repo = (.ok value, after) → second.exec repo = (.ok value, after)

theorem Refines.refl (program : GitM Oid α) : Refines program program := fun _ _ _ success => success

theorem Refines.bind {first second : GitM Oid α} {next other : α → GitM Oid β}
    (programs : Refines first second) (rest : ∀ value, Refines (next value) (other value)) :
    Refines (first >>= next) (second >>= other) := by
  intro repo value after success
  rw [exec_bind] at success
  rcases run : first.exec repo with ⟨error | middle, state⟩ <;> rw [run] at success
  · cases success
  · rw [exec_bind_ok (programs repo middle state run)]
    exact rest middle state value after success

end GitM

open GitM

section Fuel

variable {fuel more : Nat} (enough : fuel ≤ more)

include enough

theorem flattenLoop_refines (pathFilter : Option (List Text)) (stack result : List (Text × Oid)) :
    Refines (flattenLoop pathFilter fuel stack result) (flattenLoop pathFilter more stack result) := by
  induction fuel generalizing more stack result with
  | zero =>
    cases stack with
    | nil => cases more <;> exact .refl _
    | cons => exact fun _ _ _ success => by cases success
  | succ fuel ih =>
    cases stack with
    | nil => cases more <;> exact .refl _
    | cons entry stack =>
      cases more with
      | zero => omega
      | succ more => exact .bind (.refl _) fun entries => ih (by omega) _ _

theorem flatten_refines (tree : Oid) (pathFilter : Option (List Text)) :
    Refines (flatten fuel tree pathFilter) (flatten more tree pathFilter) :=
  .bind (flattenLoop_refines enough pathFilter _ _) fun _ => .refl _

theorem loadPrevPaths_refines (tree : Oid) (state : Gathering Oid) :
    Refines (loadPrevPaths fuel tree state) (loadPrevPaths more tree state) := by
  rw [loadPrevPaths, loadPrevPaths]
  cases state.prevPaths with
  | some => exact .refl _
  | none => exact .bind (flatten_refines enough tree none) fun _ => .refl _

variable (matcher : IgnoreMatcher) (prevTree : Option Oid)

section

variable (path : Text) (state : Gathering Oid)

include path state

theorem examinePrevUnder_refines :
    Refines (examinePrevUnder fuel matcher prevTree path state)
      (examinePrevUnder more matcher prevTree path state) := by
  cases prevTree with
  | none => exact .refl _
  | some tree => exact .bind (loadPrevPaths_refines enough tree state) fun _ => .refl _

theorem includeOrDrop_refines :
    Refines (includeOrDrop fuel matcher prevTree path state) (includeOrDrop more matcher prevTree path state) := by
  rw [includeOrDrop.eq_def, includeOrDrop.eq_def]
  rcases Gathering.includePath matcher path state with ⟨included, counted⟩
  cases included with
  | true => exact .refl _
  | false =>
    cases prevTree with
    | none => exact .refl _
    | some tree => exact .bind (loadPrevPaths_refines enough tree counted) fun _ => .refl _

theorem classifyPath_refines :
    Refines (classifyPath fuel matcher prevTree path state) (classifyPath more matcher prevTree path state) := by
  refine .bind (.refl _) fun answer => ?_
  cases answer with
  | ok info =>
    simp only
    split
    · exact .bind (.refl _) fun listed => examinePrevUnder_refines enough matcher prevTree path _
    · exact includeOrDrop_refines enough matcher prevTree path _
  | error error =>
    simp only
    split
    · exact .bind (includeOrDrop_refines enough matcher prevTree path _)
        fun state => examinePrevUnder_refines enough matcher prevTree path state
    · exact .refl _

end

theorem classifyPaths_refines (paths : List Text) (state : Gathering Oid) :
    Refines (classifyPaths fuel matcher prevTree paths state) (classifyPaths more matcher prevTree paths state) := by
  induction paths generalizing state with
  | nil => exact .refl _
  | cons path rest ih => exact .bind (classifyPath_refines enough matcher prevTree path state) ih

theorem gather_refines (paths : Option (List Text)) (editor : TreeEditor Oid) :
    Refines (gather fuel matcher prevTree paths editor) (gather more matcher prevTree paths editor) := by
  cases paths with
  | some paths => exact classifyPaths_refines enough matcher prevTree paths _
  | none =>
    refine .bind (.refl _) fun listed => ?_
    cases prevTree with
    | none => exact .refl _
    | some tree => exact .bind (flatten_refines enough tree none) fun _ => .refl _

theorem commit_refines (service : GitService Oid) (req : CommitRequest) :
    Refines (commit service fuel req) (commit service more req) := by
  refine .bind (.refl _) fun _ => .bind (.refl _) fun _ => ?_
  refine .bind (.refl _) fun matcher => .bind (.refl _) fun prevHead => .bind (.refl _) fun prevTree => ?_
  refine .bind (.refl _) fun prevIndex => .bind (.refl _) fun editor => ?_
  exact .bind (gather_refines enough matcher prevTree req.paths editor) fun gathered => .refl _

end Fuel

def InScope (req : CommitRequest) (path : List Text) : Prop := ∃ scope ∈ scopesOf req.paths, scope <+: path

structure ChangesOnlyScope (repo after : Repository Oid) (req : CommitRequest) (matcher : IgnoreMatcher) : Prop where
  frame : ∀ path, ¬ InScope req path →
    (¬ ∃ other, InScope req other ∧ snapshot repo.workTree matcher other ≠ (none : Option Oid) ∧ path <+: other) →
    headFiles after req.branch path = headFiles repo req.branch path
  scope : ∀ path, InScope req path → headFiles after req.branch path = snapshot repo.workTree matcher path

-- A file of the branch that a commit sees: a listed path looks at it again, or a tracked file on disk and in scope lies
-- above or below it.
def Seen (repo : Repository Oid) (req : CommitRequest) (matcher : IgnoreMatcher) (path : List Text) : Prop :=
  (∃ scope ∈ scopesOf req.paths, Examines repo.workTree scope path) ∨
    ∃ other, InScope req other ∧ snapshot repo.workTree matcher other ≠ (none : Option Oid) ∧
      (other <+: path ∨ path <+: other)

section Scope

variable {service : GitService Oid} {req : CommitRequest} {repo after : Repository Oid} {matcher : IgnoreMatcher}
  {path : List Text}

theorem Examines.inScope {disk : WorkTree} {scope path : List Text} (examines : Examines disk scope path) :
    scope <+: path := by
  rcases examines with ⟨rfl, -⟩ | ⟨inside, -⟩
  · exact prefix_refl _
  · exact inside

theorem IsCandidate.inScope (candidate : IsCandidate repo req matcher path) : InScope req path := by
  obtain ⟨-, -, scope, member, ⟨-, inside⟩ | ⟨rfl, -⟩ | ⟨-, examines⟩⟩ := candidate
  · exact ⟨scope, member, inside⟩
  · exact ⟨scope, member, prefix_refl _⟩
  · exact ⟨scope, member, examines.inScope⟩

theorem snapshot_of_file (tracked : shouldTrackPath (Text.joined path) matcher = true)
    (file : repo.workTree.IsFile path) : snapshot repo.workTree matcher path ≠ (none : Option Oid) := by
  obtain ⟨oid, found⟩ : ∃ oid : Oid, _ := fileOid_of_isFile file
  rw [snapshot, if_pos tracked, found]
  exact some_ne_none oid

theorem isCandidate_of_snapshot (inScope : InScope req path)
    (recorded : snapshot repo.workTree matcher path ≠ (none : Option Oid)) :
    IsCandidate repo req matcher path ∧ repo.workTree.IsFile path := by
  rw [snapshot] at recorded
  split at recorded
  next tracked =>
    obtain ⟨oid, found⟩ := ne_none_iff_exists'.mp recorded
    have file := isFile_of_fileOid found
    obtain ⟨data, modTime, present⟩ := file
    have below : path ≠ [] := by
      rintro rfl
      rw [node_nil] at present
      cases present
    obtain ⟨scope, member, inside⟩ := inScope
    exact ⟨⟨tracked, isPath_of_node _ present below, scope, member,
      .inl ⟨⟨data, modTime, present⟩, inside⟩⟩, data, modTime, present⟩
  next => exact absurd rfl recorded

variable {response : CommitResponse Oid} {candidates : List (List Text)} {removed : List Text}
  (records : Records repo after req matcher response candidates removed)

include records

theorem Records.keeps (notFile : IsCandidate repo req matcher path → ¬ repo.workTree.IsFile path)
    (stays : ¬ GivesWay repo.workTree candidates path) (notDropped : ¬ IsDropped repo req matcher path) :
    headFiles after req.branch path = headFiles repo req.branch path := by
  have notHere : ¬ (path ∈ candidates ∧ repo.workTree.IsFile path) := by
    rintro ⟨member, file⟩
    exact notFile ((records.candidate path).mp member) file
  rw [records.files, compared, if_neg notHere, if_neg stays, withoutFiles]
  by_cases absent : headFiles repo req.branch path = none
  · simp [absent]
  · rw [if_neg ((records.dropped path absent).not.mpr notDropped)]

theorem Records.frame (outside : ¬ InScope req path)
    (apart : ¬ ∃ other, InScope req other ∧ snapshot repo.workTree matcher other ≠ (none : Option Oid) ∧
      path <+: other) :
    headFiles after req.branch path = headFiles repo req.branch path := by
  apply records.keeps
  · exact fun candidate => absurd candidate.inScope outside
  · rintro ⟨other, member, ⟨file, above | below⟩ | ⟨-, above⟩⟩
    · obtain ⟨scope, listed, inside⟩ := ((records.candidate other).mp member).inScope
      exact outside ⟨scope, listed, inside.trans above⟩
    · have candidate := (records.candidate other).mp member
      exact apart ⟨other, candidate.inScope, snapshot_of_file candidate.1 file, below⟩
    · obtain ⟨scope, listed, inside⟩ := ((records.candidate other).mp member).inScope
      exact outside ⟨scope, listed, inside.trans above⟩
  · rintro ⟨-, -, scope, listed, examines⟩
    exact outside ⟨scope, listed, examines.inScope⟩

theorem Records.unseen (present : headFiles repo req.branch path ≠ none)
    (unseen : ¬ Seen repo req matcher path) :
    headFiles after req.branch path = headFiles repo req.branch path := by
  obtain ⟨notExamined, notDisplaced⟩ := not_or.mp unseen
  apply records.keeps
  · intro candidate file
    exact notDisplaced ⟨path, candidate.inScope, snapshot_of_file candidate.1 file, .inl (prefix_refl _)⟩
  · rintro ⟨other, member, ⟨file, comparable⟩ | ⟨missing, above⟩⟩
    · have candidate := (records.candidate other).mp member
      exact notDisplaced ⟨other, candidate.inScope, snapshot_of_file candidate.1 file, comparable⟩
    · obtain ⟨-, -, scope, listed, ⟨file, -⟩ | ⟨rfl, -⟩ | ⟨otherFile, examines⟩⟩ := (records.candidate other).mp member
      · exact not_isFile_of_missing missing file
      · exact notExamined ⟨scope, listed, (examines_missing missing).mpr above⟩
      · obtain ⟨otherOid, otherFound⟩ := ne_none_iff_exists'.mp otherFile
        obtain ⟨oid, found⟩ := ne_none_iff_exists'.mp present
        rw [baseFiles_alone otherFound found (.inl above)] at examines
        exact notExamined ⟨scope, listed, examines⟩
  · rintro ⟨-, -, examined⟩
    exact notExamined examined

theorem Records.seen (committable : Committable service req repo matcher)
    (readable : ∀ path, IsCandidate repo req matcher path → ¬ repo.workTree.IsDirectory path)
    (inScope : InScope req path)
    (seen : headFiles repo req.branch path ≠ none → Seen repo req matcher path) :
    headFiles after req.branch path = snapshot repo.workTree matcher path := by
  rw [records.files, compared]
  rcases recorded : (snapshot repo.workTree matcher path : Option Oid) with _ | oid
  · have notHere : ¬ (path ∈ candidates ∧ repo.workTree.IsFile path) := by
      rintro ⟨member, file⟩
      exact snapshot_of_file ((records.candidate path).mp member).1 file recorded
    rw [if_neg notHere]
    split
    · rfl
    next stays =>
      rw [withoutFiles]
      split
      · rfl
      next kept =>
        by_contra present
        rw [records.dropped path present] at kept
        rcases seen present with ⟨scope, listed, examines⟩ | ⟨other, otherScope, otherFile, comparable⟩
        · rcases tracked : shouldTrackPath (Text.joined path) matcher with _ | _
          · exact kept ⟨tracked, present, scope, listed, examines⟩
          · obtain ⟨oid, found⟩ := ne_none_iff_exists'.mp present
            have candidate : IsCandidate repo req matcher path :=
              ⟨tracked, isPath_of_baseFiles committable.stored found, scope, listed, .inr (.inr ⟨present, examines⟩)⟩
            have member := (records.candidate path).mpr candidate
            rcases file_or_missing_or_directory Oid repo.workTree path with
              ⟨oid, file⟩ | missing | directory
            · exact notHere ⟨member, isFile_of_fileOid file⟩
            · exact stays ⟨path, member, .inr ⟨missing, prefix_refl _⟩⟩
            · exact readable path candidate directory
        · obtain ⟨candidate, file⟩ := isCandidate_of_snapshot otherScope otherFile
          exact stays ⟨other, (records.candidate other).mpr candidate, .inl ⟨file, comparable⟩⟩
  · have present : snapshot repo.workTree matcher path ≠ (none : Option Oid) := by simp [recorded]
    obtain ⟨candidate, file⟩ := isCandidate_of_snapshot inScope present
    rw [if_pos ⟨(records.candidate path).mpr candidate, file⟩, ← recorded, snapshot, if_pos candidate.1]

end Scope

theorem scoped_commit_changes_only_scope_iff (service : GitService Oid) (fuel : Nat) (req : CommitRequest)
    (repo after : Repository Oid) (matcher : IgnoreMatcher) (response : CommitResponse Oid)
    (committable : Committable service req repo matcher)
    (success : (commit service fuel req).exec repo = (.ok response, after)) :
    ChangesOnlyScope repo after req matcher ↔
      ∀ path, InScope req path → headFiles repo req.branch path ≠ none → Seen repo req matcher path := by
  obtain ⟨bound, listing, lists⟩ := exists_lists committable.stored
  have again := commit_refines (le_max_left fuel bound) service req repo response after success
  rcases exec_commit committable (lists _ (le_max_right fuel bound)) with
    ⟨-, error, other, failed⟩ | ⟨readable, result, other, candidates, removed, same, records⟩
  · rw [again] at failed
    cases failed
  · rw [again] at same
    cases same
    constructor
    · intro changes path inScope present
      by_contra unseen
      have kept := records.unseen present unseen
      rw [changes.scope path inScope] at kept
      rw [← kept] at present
      exact unseen (.inr ⟨path, inScope, present, .inl (prefix_refl _)⟩)
    · intro seen
      exact ⟨fun path outside apart => records.frame outside apart,
        fun path inScope => records.seen committable readable inScope (seen path inScope)⟩

section Instances

def fileRewritten : Repository Digest :=
  { fileCommitted with workTree := (WorkTree.empty.write 0 "a" [2]).2 }

theorem committable_of_fileCommitted (repo : Repository Digest) (objects : repo.objects = fileCommitted.objects)
    (refs : repo.refs = fileCommitted.refs) (ignore : (loadIgnoreMatcher plainService).exec repo = (.ok .empty, repo)) :
    Committable plainService (mainRequest (some ["a"])) repo .empty where
  account := by decide
  branch := by decide
  paths := by
    intro path member
    rw [show path = "a" by simpa [mainRequest] using member]
    decide
  ignore := ignore
  unindexed := rfl
  addressed := objects ▸ fileCommitted_addressed
  head := by
    rw [HeadStored, refs, objects]
    exact fileCommitted_head

theorem scopes_listedFile : scopesOf (mainRequest (some ["a".toList])).paths = [["a".toList]] := by rfl

theorem scoped_commit_changes_rewritten_file :
    ∃ response after, (commit plainService 2 (mainRequest (some ["a"]))).exec fileRewritten =
        (.ok response, after) ∧
      ChangesOnlyScope fileRewritten after (mainRequest (some ["a"])) .empty := by
  have committable := committable_of_fileCommitted fileRewritten rfl rfl (by rfl)
  refine ⟨_, _, by rfl, ?_⟩
  refine (scoped_commit_changes_only_scope_iff plainService 2 (mainRequest (some ["a"])) fileRewritten _
    .empty _ committable (by rfl)).mpr ?_
  rintro path ⟨scope, member, inside⟩ present
  rw [scopes_listedFile, mem_singleton] at member
  subst member
  have committed : headFiles fileRewritten (mainRequest (some ["a"])).branch ["a"] =
      some (computeHash (.blob [1])) := by rfl
  obtain ⟨oid, found⟩ := ne_none_iff_exists'.mp present
  rw [← baseFiles_alone committed found (.inl inside)]
  refine .inl ⟨["a"], by rw [scopes_listedFile]; exact mem_singleton_self _, .inl ⟨rfl, ?_⟩⟩
  exact not_directory_of_file (show fileRewritten.workTree.fileOid ["a"] =
    some (computeHash (.blob [2] : GitObject Digest)) by rfl)

theorem listed_file_now_directory_not_in_scope :
    Committable plainService (mainRequest (some ["a"])) fileNowDirectory .empty ∧
      ∃ response after, (commit plainService 2 (mainRequest (some ["a"]))).exec fileNowDirectory =
          (.ok response, after) ∧
        ¬ ChangesOnlyScope fileNowDirectory after (mainRequest (some ["a"])) .empty := by
  refine ⟨committable_of_fileCommitted fileNowDirectory rfl rfl (by rfl), _, _, by rfl, fun changes => ?_⟩
  have here := changes.scope ["a"]
    ⟨["a"], by rw [scopes_listedFile]; exact mem_singleton_self _, prefix_refl _⟩
  have gone : snapshot fileNowDirectory.workTree .empty ["a"] = (none : Option Digest) := by rfl
  have stays : ∀ files : Option Digest, files = some (computeHash (.blob [1])) → files ≠ none := by simp
  exact stays _ (by rfl) (here.trans gone)

end Instances

end LoginomDock.Git
