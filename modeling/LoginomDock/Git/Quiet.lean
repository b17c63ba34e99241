import LoginomDock.Library.Calls
import LoginomDock.Git.Restore
import LoginomDock.Git.TreeWriting

namespace LoginomDock.Git

open Prog TreeEditor

variable {Oid : Type} [DecidableEq Oid] [ObjectHash Oid] {α β : Type}

def GitOp.Quiet : GitOp Oid → Prop
  | .getObject _ => True
  | .objectExists _ => True
  | .putObject oid object => computeHash object = oid
  | .readRef _ => True
  | .listRefs => True
  | .stat _ => True
  | .readFile _ => True
  | .treeDirectory _ => True
  | .readDir _ => True
  | .now => True
  | _ => False

-- The errors of a call that has not come to its compare-and-swap.
def GitError.Early : GitError Oid → Prop
  | .concurrentCommit _ _ _ => False
  | .restoreWritebackPartial _ => False
  | _ => True

namespace GitM

def Quiet (program : GitM Oid α) : Prop :=
  Does (fun _ _ => True) GitOp.Quiet (fun _ => True) GitError.Early program

namespace Quiet

theorem pure (value : α) : Quiet (pure value : GitM Oid α) := Does.pure trivial

theorem throw {error : GitError Oid} (early : error.Early) : Quiet (throw error : GitM Oid α) :=
  Does.throw early

theorem call {op : GitOp Oid} (quiet : op.Quiet) : Quiet (GitM.call op) := Does.perform op quiet

theorem bind {program : GitM Oid α} {next : α → GitM Oid β} (quiet : Quiet program)
    (rest : ∀ value, Quiet (next value)) : Quiet (program >>= next) :=
  Does.bind quiet fun value _ => rest value

theorem grown {program : GitM Oid α} (quiet : Quiet program) {repo : Repository Oid}
    (addressed : Addressed repo.objects) : Grown repo (program.exec repo).2 := by
  have step : ∀ (op : GitOp Oid) (state : Repository Oid), Grown repo state → op.Quiet →
      True ∧ Grown repo (Repository.handle op state).2 := by
    intro op state grown allowed
    refine ⟨trivial, ?_⟩
    cases op with
    | putObject oid object =>
      cases allowed
      exact grown.trans (.store grown.addressed object)
    | getObject oid =>
      simp only [Repository.handle]
      split <;> exact grown
    | objectExists | readRef | listRefs | stat | readFile | treeDirectory | readDir | now => exact grown
    | lockRef | unlockRef | replaceRef | writeFile | mkdir | removeFile | loadIndex | saveIndex =>
      cases allowed
  exact (Within.run step quiet (Grown.refl addressed)).2

end Quiet

end GitM

open GitM

section Objects

theorem quiet_readObject (oid : Oid) : Quiet (readObject oid) :=
  .bind (.call trivial) fun answer => by
    cases answer with
    | ok => exact .pure _
    | error => exact .throw trivial

theorem quiet_writeObject (object : GitObject Oid) : Quiet (writeObject object) :=
  .bind (.call (show GitOp.Quiet (.putObject (computeHash object) object) from rfl)) fun _ => .pure _

theorem quiet_writeObjectIfAbsent (object : GitObject Oid) : Quiet (writeObjectIfAbsent object) :=
  .bind (.call trivial) fun present => by
    split
    · exact .pure _
    · exact .bind (.call (show GitOp.Quiet (.putObject (computeHash object) object) from rfl)) fun _ => .pure _

theorem quiet_loadTree (oid : Oid) : Quiet (loadTree oid) :=
  .bind (quiet_readObject oid) fun object => by
    cases object with
    | tree => exact .pure _
    | blob | commit => exact .throw trivial

theorem quiet_loadTreeEntries (oid : Oid) : Quiet (loadTreeEntries oid) :=
  .bind (quiet_loadTree oid) fun _ => .pure _

theorem quiet_loadCommitMeta (oid : Oid) : Quiet (loadCommitMeta oid) :=
  .bind (quiet_readObject oid) fun object => by
    cases object with
    | commit => exact .pure _
    | blob | tree => exact .throw trivial

theorem quiet_writeCommit (tree : Oid) (parents : List Oid) (name email message : Text) :
    Quiet (writeCommit tree parents name email message) :=
  .bind (.call trivial) fun _ => quiet_writeObject _

end Objects

section Editor

theorem quiet_splitPath (path : Text) : Quiet (splitPath path : GitM Oid (List Text)) := by
  rw [splitPath]
  split
  · exact .throw trivial
  · split
    · exact .throw trivial
    · exact .pure _

namespace TreeEditor

theorem quiet_ensurePathLoaded (createMissing : Bool) (above dirs : List Text) (editor : TreeEditor Oid) :
    Quiet (ensurePathLoaded createMissing above dirs editor) := by
  induction dirs generalizing above editor with
  | nil => exact .pure _
  | cons name dirs ih =>
    rw [ensurePathLoaded]
    split
    · exact ih _ _
    · split
      · exact .throw trivial
      · split
        · exact .bind (quiet_loadTreeEntries _) fun _ => ih _ _
        · exact ih _ _
        · split
          · exact ih _ _
          · exact .pure _

variable (editor : TreeEditor Oid)

theorem quiet_upsert (path : Text) (oid : Oid) : Quiet (upsert editor path oid) :=
  .bind (quiet_splitPath path) fun _ => .bind (quiet_ensurePathLoaded _ _ _ _) fun _ => .pure _

theorem quiet_remove (path : Text) : Quiet (remove editor path) := by
  refine .bind (quiet_splitPath path) fun _ => .bind (quiet_ensurePathLoaded _ _ _ _) fun loaded => ?_
  simp only
  split
  · split <;> exact .pure _
  · exact .pure _

theorem quiet_upsertSubtree (path : Text) (oid : Oid) :
    Quiet (upsertSubtree editor path oid) :=
  .bind (quiet_splitPath path) fun _ => .bind (quiet_ensurePathLoaded _ _ _ _) fun _ => .pure _

theorem quiet_writeEntries {child : List Text → GitM Oid Oid} (children : ∀ dir, Quiet (child dir))
    (editor : TreeEditor Oid) (dir : List Text) (items : List (Sigma fun _ : Text => TreeEntry Oid)) :
    Quiet (writeEntries child editor dir items) := by
  induction items with
  | nil => exact .pure _
  | cons item rest ih =>
    obtain ⟨name, entry⟩ := item
    rw [writeEntries]
    split
    · split
      · split
        · exact ih
        · exact .bind (children _) fun _ => .bind ih fun _ => .pure _
      · exact .bind ih fun _ => .pure _
    · exact .bind ih fun _ => .pure _

theorem quiet_writeSubtree (fuel : Nat) (dir : List Text) :
    Quiet (writeSubtree editor fuel dir) := by
  induction fuel generalizing dir with
  | zero => exact .throw trivial
  | succ fuel ih =>
    rw [writeSubtree]
    split
    · exact .throw trivial
    · exact .bind (quiet_writeEntries ih editor dir _) fun _ => quiet_writeObject _

theorem quiet_write : Quiet editor.write := quiet_writeSubtree editor _ _

end TreeEditor

theorem quiet_editorOf (base : Option Oid) : Quiet (editorOf base) := by
  cases base with
  | none => exact .pure _
  | some tree => exact .bind (quiet_loadTreeEntries tree) fun _ => .pure _

theorem quiet_flattenLoop (pathFilter : Option (List Text)) (fuel : Nat) (stack result : List (Text × Oid)) :
    Quiet (flattenLoop pathFilter fuel stack result) := by
  induction fuel generalizing stack result with
  | zero =>
    cases stack with
    | nil => exact .pure _
    | cons => exact .throw trivial
  | succ fuel ih =>
    cases stack with
    | nil => exact .pure _
    | cons => exact .bind (quiet_loadTree _) fun _ => ih _ _

theorem quiet_flatten (fuel : Nat) (tree : Oid) (pathFilter : Option (List Text)) :
    Quiet (flatten fuel tree pathFilter) :=
  .bind (quiet_flattenLoop _ _ _ _) fun _ => .pure _

theorem quiet_lookupStep (tree : Oid) (cache : TreeLookupCache Oid) : Quiet (lookupStep tree cache) := by
  rw [lookupStep]
  split
  · exact .pure _
  · exact .bind (quiet_loadTreeEntries tree) fun _ => .pure _

theorem quiet_lookupParts (parts : List Text) (tree : Oid) (cache : TreeLookupCache Oid) :
    Quiet (lookupParts parts tree cache) := by
  induction parts generalizing tree cache with
  | nil => exact .pure _
  | cons component rest ih =>
    rw [lookupParts]
    split
    · exact .throw trivial
    · refine .bind (quiet_lookupStep tree cache) fun entries => ?_
      simp only
      split
      · split
        · exact .pure _
        · split
          · exact ih _ _
          · exact .pure _
      · exact .pure _

theorem quiet_lookupCached (tree : Oid) (path : Text) (cache : TreeLookupCache Oid) :
    Quiet (lookupCached tree path cache) := by
  rw [lookupCached]
  split
  · exact .throw trivial
  · exact quiet_lookupParts _ _ _

theorem quiet_lookup (tree : Oid) (path : Text) : Quiet (lookup tree path) :=
  .bind (quiet_lookupCached tree path ∅) fun _ => .pure _

end Editor

section Commit

theorem quiet_liftGit {result : Except (GitError Oid) α} (early : ∀ error, result = .error error → error.Early) :
    Quiet (liftGit result) := by
  cases result with
  | ok => exact .pure _
  | error error => exact .throw (early error rfl)

theorem early_validateAccountId (account : Text) (error : GitError Oid)
    (refused : validateAccountId account = .error error) : error.Early := by
  unfold validateAccountId at refused
  split_ifs at refused <;> cases refused <;> trivial

theorem early_validateRelativePath (path : Text) (error : GitError Oid)
    (refused : validateRelativePath path = .error error) : error.Early := by
  unfold validateRelativePath at refused
  split_ifs at refused <;> cases refused <;> trivial

theorem quiet_liftRef (result : Except (RefStoreError Oid) α) : Quiet (liftRef result) := by
  cases result with
  | ok => exact .pure _
  | error => exact .throw trivial

theorem quiet_liftFs (result : Except FsError α) : Quiet (liftFs result : GitM Oid α) := by
  cases result with
  | ok => exact .pure _
  | error => exact .throw trivial

theorem quiet_readRef (refName : Text) : Quiet (readRef refName : GitM Oid (Option Oid)) :=
  .bind (quiet_liftRef _) fun _ => .call trivial

theorem quiet_loadIgnoreMatcher (service : GitService Oid) : Quiet (loadIgnoreMatcher service) :=
  .bind (.call trivial) fun answer => by
    cases answer with
    | ok =>
      simp only
      split
      · exact .pure _
      · exact .throw trivial
      · exact .throw trivial
    | error =>
      simp only
      split
      · exact .pure _
      · exact .throw trivial

theorem quiet_prevTreeOf (prevHead : Option Oid) : Quiet (prevTreeOf prevHead) := by
  cases prevHead with
  | none => exact .pure _
  | some commitOid => exact .bind (quiet_loadCommitMeta commitOid) fun _ => .pure _

theorem quiet_collectUnder (path : Text) : Quiet (collectUnder path : GitM Oid (List Text)) :=
  .bind (.call trivial) fun _ => .bind (quiet_liftFs _) fun _ => .pure _

variable (fuel : Nat) (matcher : IgnoreMatcher) (prevTree : Option Oid)

theorem quiet_loadPrevPaths (tree : Oid) (state : Gathering Oid) : Quiet (loadPrevPaths fuel tree state) := by
  rw [loadPrevPaths]
  split
  · exact .pure _
  · exact .bind (quiet_flatten fuel tree none) fun _ => .pure _

theorem quiet_examinePrev (inScope : Text → Bool) (entries : List (Text × Oid)) (state : Gathering Oid) :
    Quiet (examinePrev matcher inScope entries state) := by
  induction entries generalizing state with
  | nil => exact .pure _
  | cons entry rest ih =>
    obtain ⟨path, oid⟩ := entry
    rw [examinePrev]
    split
    · exact ih _
    · split
      · exact ih _
      · exact .bind (quiet_remove _ _) fun _ => ih _

section

variable (path : Text) (state : Gathering Oid)

include path state

theorem quiet_examinePrevUnder :
    Quiet (examinePrevUnder fuel matcher prevTree path state) := by
  cases prevTree with
  | none => exact .pure _
  | some tree => exact .bind (quiet_loadPrevPaths fuel tree state) fun _ => quiet_examinePrev _ _ _ _

theorem quiet_includeOrDrop :
    Quiet (includeOrDrop fuel matcher prevTree path state) := by
  rw [includeOrDrop.eq_def]
  split
  · exact .pure _
  · cases prevTree with
    | none => exact .pure _
    | some tree =>
      refine .bind (quiet_loadPrevPaths fuel tree _) fun _ => ?_
      simp only
      split
      · exact .bind (quiet_remove _ _) fun _ => .pure _
      · exact .pure _

theorem quiet_classifyPath :
    Quiet (classifyPath fuel matcher prevTree path state) :=
  .bind (.call trivial) fun answer => by
    cases answer with
    | ok info =>
      simp only
      split
      · exact .bind (quiet_collectUnder path) fun _ => quiet_examinePrevUnder _ _ _ _ _
      · exact quiet_includeOrDrop _ _ _ _ _
    | error =>
      simp only
      split
      · exact .bind (quiet_includeOrDrop _ _ _ _ _) fun _ => quiet_examinePrevUnder _ _ _ _ _
      · exact .throw trivial

end

theorem quiet_classifyPaths (paths : List Text) (state : Gathering Oid) :
    Quiet (classifyPaths fuel matcher prevTree paths state) := by
  induction paths generalizing state with
  | nil => exact .pure _
  | cons path rest ih => exact .bind (quiet_classifyPath _ _ _ path state) ih

theorem quiet_gather (paths : Option (List Text)) (editor : TreeEditor Oid) :
    Quiet (gather fuel matcher prevTree paths editor) := by
  cases paths with
  | some paths => exact quiet_classifyPaths _ _ _ _ _
  | none =>
    refine .bind (quiet_collectUnder []) fun _ => ?_
    cases prevTree with
    | none => exact .pure _
    | some tree => exact .bind (quiet_flatten fuel tree none) fun _ => quiet_examinePrev _ _ _ _

variable (service : GitService Oid) (prevIndex : Option (CommitIndex Oid))

theorem quiet_blobOid (path : Text) (info : FileInfo) : Quiet (blobOid service prevIndex path info) := by
  rw [blobOid]
  split
  · exact .pure _
  · refine .bind (.call trivial) fun _ => .bind (quiet_liftFs _) fun _ => ?_
    split
    · exact quiet_writeObjectIfAbsent _
    · exact quiet_writeObject _

theorem quiet_prevEntry (path : Text) (cache : TreeLookupCache Oid) : Quiet (prevEntry prevTree path cache) := by
  cases prevTree with
  | none => exact .pure _
  | some tree => exact quiet_lookupCached tree path cache

theorem quiet_compareCandidate (path : Text) (state : Progress Oid) :
    Quiet (compareCandidate service prevTree prevIndex path state) :=
  .bind (.call trivial) fun answer => by
    cases answer with
    | ok info =>
      refine .bind (quiet_blobOid service prevIndex path info) fun oid => ?_
      refine .bind (quiet_prevEntry prevTree path _) fun found => ?_
      simp only
      split
      · exact .bind (quiet_upsert _ _ _) fun _ => .pure _
      · exact .pure _
    | error =>
      simp only
      split
      · refine .bind (quiet_prevEntry prevTree path _) fun found => ?_
        split
        · exact .bind (quiet_remove _ _) fun _ => .pure _
        · exact .pure _
      · exact .throw trivial

theorem quiet_compareCandidates (candidates : List Text) (state : Progress Oid) :
    Quiet (compareCandidates service prevTree prevIndex candidates state) := by
  induction candidates generalizing state with
  | nil => exact .pure _
  | cons path rest ih => exact .bind (quiet_compareCandidate _ _ _ path state) ih

theorem quiet_validatePaths (paths : List Text) : Quiet (validatePaths paths : GitM Oid Unit) := by
  induction paths with
  | nil => exact .pure _
  | cons path rest ih => exact .bind (quiet_liftGit (early_validateRelativePath path)) fun _ => ih

end Commit

section Restore

theorem early_validateProjectDir (projectDir : Text) (error : GitError Oid)
    (refused : validateProjectDir projectDir = .error error) : error.Early := by
  unfold validateProjectDir at refused
  split_ifs at refused <;> cases refused <;> trivial

variable (projectDir : Option Text)

theorem quiet_validateProjectDirOf : Quiet (validateProjectDirOf projectDir : GitM Oid Unit) := by
  cases projectDir with
  | none => exact .pure _
  | some dir => exact quiet_liftGit (early_validateProjectDir dir)

theorem quiet_readHead (refName : Text) : Quiet (readHead refName : GitM Oid Oid) :=
  .bind (quiet_readRef refName) fun found => by
    cases found with
    | some oid => exact .pure _
    | none => exact .throw trivial

variable [OidText Oid]

theorem quiet_attempt_bind {program : GitM Oid α} {next : Except (GitError Oid) α → GitM Oid β}
    (quiet : Quiet program) (rest : ∀ result, (∀ error, result = .error error → error.Early) → Quiet (next result)) :
    Quiet (attempt program >>= next) := by
  have tried : Does (fun _ _ => True) GitOp.Quiet (fun result : Except (GitError Oid) α =>
      ∀ error, result = .error error → error.Early) GitError.Early (attempt program) := by
    refine Within.bind (show Within _ _ _ program.run from quiet) fun result ends => ?_
    intro error failed
    cases failed
    exact ends
  exact Does.bind tried rest

theorem quiet_matchingOids (hexPrefix : Text) (fuel : Nat) (queue visited found : List Oid) :
    Quiet (matchingOids hexPrefix fuel queue visited found) := by
  induction fuel generalizing queue visited found with
  | zero =>
    cases queue with
    | nil => exact .pure _
    | cons => exact .throw trivial
  | succ fuel ih =>
    cases queue with
    | nil => exact .pure _
    | cons oid queue =>
      rw [matchingOids]
      split
      · exact ih _ _ _
      · split
        · exact .throw trivial
        · extract_lets matched
          split
          · exact .pure _
          · refine quiet_attempt_bind (quiet_loadCommitMeta oid) fun result early => ?_
            split
            · exact ih _ _ _
            · exact ih _ _ _
            · exact ih _ _ _
            · exact .throw (early _ rfl)

theorem quiet_resolveRef (fuel : Nat) (targetRef : Text) : Quiet (resolveRef fuel targetRef : GitM Oid Oid) := by
  unfold resolveRef
  split
  · split
    · exact .pure _
    · exact .throw trivial
  · split
    · refine .bind (.call trivial) fun refs => .bind (quiet_matchingOids _ _ _ _ _) fun found => ?_
      split
      · exact .throw trivial
      · exact .pure _
      · exact .throw trivial
    · exact quiet_readHead _

theorem quiet_restoredTrees (sourceOid sourceTree headTree : Oid) :
    Quiet (restoredTrees projectDir sourceOid sourceTree headTree) := by
  cases projectDir with
  | none => exact .pure _
  | some dir =>
    refine .bind (quiet_lookup sourceTree dir) fun found => ?_
    split
    · refine .bind (quiet_lookup headTree dir) fun other => ?_
      split <;> exact .pure _
    · exact .throw trivial

theorem quiet_flattenHead (fuel : Nat) (tree : Option Oid) : Quiet (flattenHead fuel tree) := by
  cases tree with
  | none => exact .pure _
  | some oid => exact quiet_flatten fuel oid none

theorem quiet_restoredTree (headTree subtree : Oid) :
    Quiet (restoredTree projectDir headTree subtree) := by
  cases projectDir with
  | none => exact .pure _
  | some dir =>
    exact .bind (quiet_editorOf _) fun editor => .bind (quiet_upsertSubtree _ _ _) fun edited =>
      quiet_write edited

end Restore

end LoginomDock.Git
