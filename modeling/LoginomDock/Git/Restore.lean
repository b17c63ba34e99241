import LoginomDock.Git.Commit

/-! `restore` brings a subtree back to what it was in an earlier commit: the two trees are compared, a commit on top of
the branch head is written and swapped in, and only then the files are written and deleted. -/

namespace LoginomDock.Git

variable {Oid : Type} [DecidableEq Oid] [ObjectHash Oid]

/-- How object ids are written and read, as the `gix_hash` crate has it. -/
class OidText (Oid : Type) where
  toHex : Oid → Text
  fromHex : Text → Option Oid

export OidText (toHex fromHex)

structure RestoreRequest where
  account : Text
  branch : Text
  projectDir : Option Text
  sourceCommit : Text
  dryRun : Bool
  message : Option Text
  authorName : Text
  authorEmail : Text

-- Paths are relative to the restored directory.
structure RestoreDiff (Oid : Type) where
  toWrite : List (Text × Oid)
  toDelete : List Text
  unchanged : List Text
  deriving DecidableEq

inductive RestoreResponse (Oid : Type) where
  | applied (newCommitOid sourceCommit parentCommit : Oid) (written deleted unchanged : Nat)
      (writtenPaths deletedPaths : List Text)
  | noop (head source : Oid)
  | dryRun (diff : RestoreDiff Oid) (head source : Oid)
  deriving DecidableEq

def validateProjectDir (projectDir : Text) : Except (GitError Oid) Unit :=
  if projectDir = [] then .error (.invalidProjectDir "project_dir must be non-empty")
  else if projectDir.head? = some '/' ∨ projectDir.getLast? = some '/' then
    .error (.invalidProjectDir "project_dir must not start or end with '/'")
  else if projectDir.components.any (· = []) then
    .error (.invalidProjectDir "project_dir contains empty segment")
  else if projectDir.components.any (fun part => part = "." || part = "..") then
    .error (.invalidProjectDir "project_dir contains '.' or '..' segment")
  else if '\\' ∈ projectDir then .error (.invalidProjectDir "project_dir must not contain backslash")
  else if projectDir.any (fun char => char.toNat < 32 || char.toNat = 127) then
    .error (.invalidProjectDir "project_dir contains control character")
  else .ok ()

section ResolveRef

def isHexDigit (char : Char) : Bool :=
  char.isDigit || ('a' ≤ char && char ≤ 'f') || ('A' ≤ char && char ≤ 'F')

/-- `RefStore::read`: a missing ref is an error. -/
def readHead (refName : Text) : GitM Oid Oid := do
  match ← readRef refName with
  | some oid => pure oid
  | none => throw (.refStore (.notFound refName))

-- A program whose error is handed to its caller as a value.
def attempt {α : Type} (program : GitM Oid α) : GitM Oid (Except (GitError Oid) α) := ExceptT.lift program.run

variable [OidText Oid]

def maxOidResolveVisited : Nat := 50000

def maxReportedCandidates : Nat := 5

def matchingOids (hexPrefix : Text) : Nat → List Oid → List Oid → List Oid → GitM Oid (List Oid)
  | _, [], _, found => pure found
  | 0, _ :: _, _, _ => throw .unfinished
  | fuel + 1, oid :: queue, visited, found =>
    if oid ∈ visited then matchingOids hexPrefix fuel queue visited found
    else if maxOidResolveVisited < (oid :: visited).length then
      throw (.other "OID prefix resolution aborted")
    else
      let found := if hexPrefix <+: toHex oid then found ++ [oid] else found
      -- Only a new match can exceed the number of candidates that are reported.
      if hexPrefix <+: toHex oid ∧ maxReportedCandidates < found.length then pure found
      else do
        match ← attempt (loadCommitMeta oid) with
        | .ok commit =>
          let parents := commit.parents.filter fun parent => parent ∉ oid :: visited
          matchingOids hexPrefix fuel (parents.reverse ++ queue) (oid :: visited) found
        | .error (.objectStore (.notFound _)) => matchingOids hexPrefix fuel queue (oid :: visited) found
        | .error (.other _) => matchingOids hexPrefix fuel queue (oid :: visited) found
        | .error error => throw error

-- The queue of the source is popped at its end, so the last ref comes first.
def resolveAbbreviatedOid (fuel : Nat) (hexPrefix : Text) : GitM Oid Oid := do
  let refs ← GitM.call .listRefs
  let found ← matchingOids (hexPrefix.map Char.toLower) fuel (refs.map Prod.snd).reverse [] []
  match found with
  | [] => throw (.oidPrefixNotFound hexPrefix)
  | [oid] => pure oid
  | _ => throw (.ambiguousOid hexPrefix found.length)

def resolveRef (fuel : Nat) (targetRef : Text) : GitM Oid Oid :=
  if targetRef.length = 40 ∧ targetRef.all isHexDigit then
    match fromHex targetRef with
    | some oid => pure oid
    | none => throw (.other "invalid oid")
  else if 4 ≤ targetRef.length ∧ targetRef.all isHexDigit then resolveAbbreviatedOid fuel targetRef
  else
    let full := if "refs/" <+: targetRef then targetRef else "refs/heads/" ++ targetRef
    readHead full

end ResolveRef

section Diff

def tableOf (files : List (Text × Oid)) : Table Text Oid :=
  files.foldl (fun table file => table.insert file.1 file.2) ∅

def sortedPaths (paths : List Text) : List Text := paths.insertionSort (· ≤ ·)

def computeSubtreeDiff (source head : List (Text × Oid)) : RestoreDiff Oid where
  toWrite := (source.filter fun file => (tableOf head).lookup file.1 ≠ some file.2).insertionSort
    fun first second => first.1 ≤ second.1
  toDelete := sortedPaths ((head.filter fun file => ((tableOf source).lookup file.1).isNone).map Prod.fst)
  unchanged := sortedPaths ((source.filter fun file => (tableOf head).lookup file.1 = some file.2).map Prod.fst)

end Diff

section Writeback

def readBlobPayload (blobOid : Oid) : GitM Oid Bytes := do
  match ← readObject blobOid with
  | .blob bytes => pure bytes
  | _ => throw (.corruptedObject "expected blob")

-- The directories above a path, outermost first.
def parentDirs (path : Text) : List Text :=
  (path.components.dropLast.inits.drop 1).map Text.joined

def makeDirs : List Text → GitM Oid Unit
  | [] => pure ()
  | dir :: rest => do
      match ← GitM.call (.mkdir dir) with
      | .ok () => makeDirs rest
      | .error (.alreadyExists _) => makeDirs rest
      | .error error => throw (.vfs error)

def ensureParentDirs (path : Text) : GitM Oid Unit := makeDirs (parentDirs path)

-- A path below the restored directory, from the account root.
def accountRel (projectDir : Option Text) (rel : Text) : Text :=
  match projectDir with
  | some dir => dir ++ ['/'] ++ rel
  | none => rel

def writeBack (path : Text) (blobOid : Oid) : GitM Oid Unit := do
  let bytes ← readBlobPayload blobOid
  ensureParentDirs path
  let written ← GitM.call (.writeFile path bytes)
  liftFs written

def deleteBack (path : Text) : GitM Oid Unit := do
  match ← GitM.call (.removeFile path) with
  | .ok () => pure ()
  | .error error => if error.isNotFound then pure () else throw (.vfs error)

def eachPath {α : Type} (path : α → Text) (program : α → GitM Oid Unit) :
    List α → GitM Oid (List (Text × Except (GitError Oid) Unit))
  | [] => pure []
  | item :: rest => do
      let result ← attempt (program item)
      let others ← eachPath path program rest
      pure ((path item, result) :: others)

def pruneCandidates (toDelete : List Text) : List Text :=
  ((toDelete.flatMap parentDirs).dedup.insertionSort fun first second =>
    second.components.length < first.components.length ∨
      (first.components.length = second.components.length ∧ second ≤ first))

def pruneDirs (projectDir : Option Text) : List Text → GitM Oid Unit
  | [] => pure ()
  | dir :: rest => do
      let listed ← GitM.call (.readDir (accountRel projectDir dir))
      match listed with
      | .ok [] => do
          -- Best effort: whatever the removal answers, the restore goes on.
          let _ ← GitM.call (.removeFile (accountRel projectDir dir))
          pruneDirs projectDir rest
      | _ => pruneDirs projectDir rest

section

variable (results : List (Text × Except (GitError Oid) Unit))

def succeeded : List Text :=
  (results.filter fun result => result.2.isOk).map Prod.fst

def failed : List Text :=
  (results.filter fun result => !result.2.isOk).map Prod.fst

end

-- The end of a restore: the branch has moved, and the working tree follows.
def finishRestore (projectDir : Option Text) (diff : RestoreDiff Oid) (newCommitOid sourceOid headOid : Oid) :
    GitM Oid (RestoreResponse Oid) := do
  let writes ← eachPath (fun file => accountRel projectDir file.1)
    (fun file => writeBack (accountRel projectDir file.1) file.2) diff.toWrite
  let deletes ← eachPath (accountRel projectDir) (fun rel => deleteBack (accountRel projectDir rel)) diff.toDelete
  pruneDirs projectDir (pruneCandidates diff.toDelete)
  let writtenPaths := sortedPaths (succeeded writes)
  let deletedPaths := sortedPaths (succeeded deletes)
  if failed writes ≠ [] ∨ failed deletes ≠ [] then
    throw (.restoreWritebackPartial {
      newCommitOid
      sourceCommit := sourceOid
      parentCommit := headOid
      written := writtenPaths.length
      deleted := deletedPaths.length
      unchanged := diff.unchanged.length
      writtenPaths
      deletedPaths
      failedWrites := failed writes
      failedDeletes := failed deletes })
  else
    pure (.applied newCommitOid sourceOid headOid writtenPaths.length deletedPaths.length diff.unchanged.length
      writtenPaths deletedPaths)

end Writeback

variable [OidText Oid]

def restoredTrees (projectDir : Option Text) (sourceOid sourceTree headTree : Oid) : GitM Oid (Oid × Option Oid) :=
  match projectDir with
  | none => pure (sourceTree, some headTree)
  | some dir => do
      match ← lookup sourceTree dir with
      | some (subtree, .tree) => do
          match ← lookup headTree dir with
          | some (headSubtree, .tree) => pure (subtree, some headSubtree)
          | _ => pure (subtree, none)
      | _ => throw (.subtreeNotFoundInCommit dir sourceOid)

def flattenHead (fuel : Nat) : Option Oid → GitM Oid (List (Text × Oid))
  | some tree => flatten fuel tree none
  | none => pure []

def restoredTree (projectDir : Option Text) (headTree subtree : Oid) : GitM Oid Oid :=
  match projectDir with
  | some dir => do
      let editor ← editorOf (some headTree)
      let editor ← editor.upsertSubtree dir subtree
      editor.write
  | none => pure subtree

def restoreMessage (req : RestoreRequest) (sourceOid : Oid) : Text :=
  req.message.getD (
    match req.projectDir with
    | some dir => "restore " ++ dir ++ " from " ++ (toHex sourceOid).take 12
    | none => "restore full tree from " ++ (toHex sourceOid).take 12)

def restoreImpl (fuel : Nat) (req : RestoreRequest) : GitM Oid (RestoreResponse Oid) := do
  let sourceOid ← resolveRef fuel req.sourceCommit
  let headOid ← readHead (refNameOf req.branch)
  let sourceMeta ← loadCommitMeta sourceOid
  let headMeta ← loadCommitMeta headOid
  let (sourceTree, headTree) ← restoredTrees req.projectDir sourceOid sourceMeta.tree headMeta.tree
  let sourceEntries ← flatten fuel sourceTree none
  let headEntries ← flattenHead fuel headTree
  let diff := computeSubtreeDiff sourceEntries headEntries
  if req.dryRun then pure (.dryRun diff headOid sourceOid)
  else if diff.toWrite = [] ∧ diff.toDelete = [] then pure (.noop headOid sourceOid)
  else do
    let newTree ← restoredTree req.projectDir headMeta.tree sourceTree
    let newCommitOid ← writeCommit newTree [headOid] req.authorName req.authorEmail (restoreMessage req sourceOid)
    advanceRef (refNameOf req.branch) (some headOid) newCommitOid
    finishRestore req.projectDir diff newCommitOid sourceOid headOid

def validateProjectDirOf : Option Text → GitM Oid Unit
  | some dir => liftGit (validateProjectDir dir)
  | none => pure ()

def restore (fuel : Nat) (req : RestoreRequest) : GitM Oid (RestoreResponse Oid) := do
  liftGit (validateAccountId req.account)
  validateProjectDirOf req.projectDir
  restoreImpl fuel req

end LoginomDock.Git
