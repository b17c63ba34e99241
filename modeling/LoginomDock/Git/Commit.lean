import LoginomDock.Git.Ignore
import LoginomDock.Git.TreeEditor

/-! `commit` follows the service step by step: the ignore rules and the branch head are read, the candidates are
gathered from the disk and from the previous tree, each candidate is compared with the disk, and a changed tree is
written and swapped in. -/

namespace LoginomDock.Git

open GitM

variable {Oid : Type} [DecidableEq Oid] [ObjectHash Oid]

structure GitService (Oid : Type) where
  /-- `IgnoreMatcher::parse` on the bytes of `.ovgitignore`. -/
  parseIgnore : Bytes → Except IgnoreError IgnoreMatcher
  indexStore : Bool
  blobExistsPrecheck : Bool

structure CommitRequest where
  account : Text
  branch : Text
  message : Text
  paths : Option (List Text)
  authorName : Text
  authorEmail : Text

inductive CommitResponse (Oid : Type) where
  | created (commitOid : Oid) (changed ignored : Nat)
  | noop (commitOid : Oid) (ignored : Nat)
  deriving DecidableEq

section Validation

def validateAccountId (account : Text) : Except (GitError Oid) Unit :=
  if account = [] then .error (.invalidAccountId "account_id is empty")
  else if account = "." ∨ account = ".." then
    .error (.invalidAccountId "account_id must not be '.' or '..'")
  else if ¬ account.all (fun char => char.isAlphanum || char = '_' || char = '.' || char = '@' || char = '-') then
    .error (.invalidAccountId "account_id must be an alphanumeric string")
  else if 1 < account.count '@' then
    .error (.invalidAccountId "account_id must have at most one @")
  else if account.head? = some '_' then
    .error (.invalidAccountId "account_id cannot start with underscore _")
  else .ok ()

def validateRelativePath (path : Text) : Except (GitError Oid) Unit :=
  if path = [] then .error (.invalidPath "path must be non-empty")
  else if path.head? = some '/' ∨ path.getLast? = some '/' then
    .error (.invalidPath "path must not start or end with '/'")
  else if path.components.any (· = []) then .error (.invalidPath "path contains empty segment")
  else if path.components.any (fun part => part = "." || part = "..") then
    .error (.invalidPath "path contains '.' or '..' segment")
  else if '\\' ∈ path then .error (.invalidPath "path must not contain backslash")
  else if path.any (fun char => char.toNat < 32 || char.toNat = 127) then
    .error (.invalidPath "path contains control character")
  else .ok ()

def hasDotDot : Text → Bool
  | '.' :: '.' :: _ => true
  | _ :: rest => hasDotDot rest
  | [] => false

def validateRefName (refName : Text) : Except (RefStoreError Oid) Unit :=
  if refName = [] then .error (.invalidName "ref name cannot be empty")
  else if hasDotDot refName then .error (.invalidName "ref name cannot contain '..'")
  else if refName.head? = some '/' ∨ refName.getLast? = some '/' then
    .error (.invalidName "ref name cannot start or end with '/'")
  else if refName.any (fun char => char ∈ [' ', '\x00', '~', '^', ':', '?', '[', '*']) then
    .error (.invalidName "ref name contains invalid characters")
  else .ok ()

end Validation

def liftGit {α : Type} : Except (GitError Oid) α → GitM Oid α
  | .ok value => pure value
  | .error error => throw error

def liftRef {α : Type} : Except (RefStoreError Oid) α → GitM Oid α
  | .ok value => pure value
  | .error error => throw (.refStore error)

def liftFs {α : Type} : Except FsError α → GitM Oid α
  | .ok value => pure value
  | .error error => throw (.vfs error)

section RefStore

def readRef (refName : Text) : GitM Oid (Option Oid) := do
  liftRef (validateRefName refName)
  call (.readRef refName)

section

variable (refName : Text) (expected : Option Oid) (new : Oid)

/-- `LocalRefStore::cas_update`: the mutex of the ref is held from the read to the rename. -/
def casUpdate :
    GitM Oid (Except (RefStoreError Oid) Unit) := do
  match validateRefName refName with
  | .error error => pure (.error error)
  | .ok () =>
    call (.lockRef refName)
    let actual ← call (.readRef refName)
    if actual ≠ expected then
      call (.unlockRef refName)
      pure (.error (.conflict expected actual))
    else
      call (.replaceRef refName new)
      call (.unlockRef refName)
      pure (.ok ())

-- The compare-and-swap of a commit or a restore, a lost race reported as such.
def advanceRef : GitM Oid Unit := do
  match ← casUpdate refName expected new with
  | .ok () => pure ()
  | .error (.conflict expected actual) => throw (.concurrentCommit refName expected actual)
  | .error other => throw (.refStore other)

end

end RefStore

def loadCommitMeta (commitOid : Oid) : GitM Oid (Commit Oid) := do
  match ← readObject commitOid with
  | .commit commit => pure commit
  | _ => throw (.other "expected commit object")

def writeCommit (tree : Oid) (parents : List Oid) (authorName authorEmail message : Text) : GitM Oid Oid := do
  let now ← call .now
  let actor : Actor :=
    { name := authorName, email := authorEmail, timeSeconds := now / 1000000000, tzOffsetSeconds := 0 }
  writeObject (.commit { tree, parents, author := actor, committer := actor, message })

def loadIgnoreMatcher (service : GitService Oid) : GitM Oid IgnoreMatcher := do
  match ← call (.readFile ovgitignorePath) with
  | .ok bytes =>
    match service.parseIgnore bytes with
    | .ok matcher => pure matcher
    | .error (.tooLarge size max) => throw (.ignoreFileTooLarge size max)
    | .error (.invalid reason) => throw (.invalidIgnoreFile reason)
  | .error error => if error.isNotFound then pure .empty else throw (.vfs error)

def collectUnder (subPath : Text) : GitM Oid (List Text) := do
  let entries ← call (.treeDirectory subPath)
  let entries ← liftFs entries
  pure ((entries.filter fun entry => !entry.2.isDir && !prunePath entry.1).map Prod.fst)

section Gather

-- What the first half of a commit collects. Sets are lists without repetition, the candidates in ascending order.
structure Gathering (Oid : Type) where
  editor : TreeEditor Oid
  candidates : List Text
  ignored : Nat
  changed : Nat
  creditedIgnored : List Text
  creditedRemoved : List Text
  cleanupExact : List Text
  cleanupPrefixes : List Text
  prevPaths : Option (List (Text × Oid))

namespace Gathering

def start (editor : TreeEditor Oid) : Gathering Oid where
  editor
  candidates := []
  ignored := 0
  changed := 0
  creditedIgnored := []
  creditedRemoved := []
  cleanupExact := []
  cleanupPrefixes := []
  prevPaths := none

section

variable (state : Gathering Oid) (path : Text)

def addCandidate : Gathering Oid :=
  if path ∈ state.candidates then state
  else { state with candidates := state.candidates.orderedInsert (· ≤ ·) path }

def creditIgnored : Gathering Oid :=
  if path ∈ state.creditedIgnored then state
  else { state with creditedIgnored := path :: state.creditedIgnored, ignored := state.ignored + 1 }

def creditRemoved : Gathering Oid :=
  if path ∈ state.creditedRemoved then state
  else { state with creditedRemoved := path :: state.creditedRemoved, changed := state.changed + 1 }

end

/-- `include_path`: pruned paths are dropped, ignored ones are counted once. -/
def includePath (matcher : IgnoreMatcher) (path : Text) (state : Gathering Oid) : Bool × Gathering Oid :=
  if prunePath path then (false, state)
  else if !shouldTrackPath path matcher then (false, state.creditIgnored path)
  else (true, state)

def includeListed (matcher : IgnoreMatcher) (state : Gathering Oid) (path : Text) : Gathering Oid :=
  match includePath matcher path state with
  | (true, state) => state.addCandidate path
  | (false, state) => state

end Gathering

variable (fuel : Nat) (matcher : IgnoreMatcher) (prevTree : Option Oid)

def loadPrevPaths (tree : Oid) (state : Gathering Oid) : GitM Oid (List (Text × Oid) × Gathering Oid) :=
  match state.prevPaths with
  | some paths => pure (paths, state)
  | none => do
      let paths ← flatten fuel tree none
      pure (paths, { state with prevPaths := some paths })

def examinePrev (inScope : Text → Bool) : List (Text × Oid) → Gathering Oid → GitM Oid (Gathering Oid)
  | [], state => pure state
  | (path, _) :: rest, state =>
    if !inScope path then examinePrev inScope rest state
    else if shouldTrackPath path matcher then examinePrev inScope rest (state.addCandidate path)
    else do
      let editor ← state.editor.remove path
      examinePrev inScope rest ({ state with editor }.creditRemoved path)

section

variable (path : Text) (state : Gathering Oid)

def examinePrevUnder : GitM Oid (Gathering Oid) :=
  match prevTree with
  | none => pure state
  | some tree => do
      let (paths, state) ← loadPrevPaths fuel tree state
      examinePrev matcher (fun other => path ++ ['/'] <+: other) paths state

def includeOrDrop : GitM Oid (Gathering Oid) :=
  match state.includePath matcher path with
  | (true, state) => pure (state.addCandidate path)
  | (false, state) =>
    match prevTree with
    | none => pure state
    | some tree => do
        let (paths, state) ← loadPrevPaths fuel tree state
        if paths.any (fun file => file.1 = path) ∧ path ∉ state.creditedRemoved then do
          let editor ← state.editor.remove path
          pure ({ state with editor }.creditRemoved path)
        else pure state

def classifyPath : GitM Oid (Gathering Oid) := do
  match ← call (.stat path) with
  | .ok info =>
    if info.isDir then do
      let state := { state with cleanupPrefixes := state.cleanupPrefixes ++ [path ++ ['/']] }
      let listed ← collectUnder path
      examinePrevUnder fuel matcher prevTree path (listed.foldl (Gathering.includeListed matcher) state)
    else
      includeOrDrop fuel matcher prevTree path { state with cleanupExact := path :: state.cleanupExact }
  | .error error =>
    if error.isNotFound then do
      let state := { state with
        cleanupExact := path :: state.cleanupExact
        cleanupPrefixes := state.cleanupPrefixes ++ [path ++ ['/']] }
      let state ← includeOrDrop fuel matcher prevTree path state
      examinePrevUnder fuel matcher prevTree path state
    else throw (.vfs error)

end

def classifyPaths : List Text → Gathering Oid → GitM Oid (Gathering Oid)
  | [], state => pure state
  | path :: rest, state => do
      let state ← classifyPath fuel matcher prevTree path state
      classifyPaths rest state

def enumerateAll (state : Gathering Oid) : GitM Oid (Gathering Oid) := do
  let listed ← collectUnder []
  let state := listed.foldl (Gathering.includeListed matcher) state
  match prevTree with
  | none => pure state
  | some tree => do
      let paths ← flatten fuel tree none
      examinePrev matcher (fun _ => true) paths state

def gather (paths : Option (List Text)) (editor : TreeEditor Oid) : GitM Oid (Gathering Oid) :=
  match paths with
  | some paths => classifyPaths fuel matcher prevTree paths (.start editor)
  | none => enumerateAll fuel matcher prevTree (.start editor)

end Gather

section Compare

structure Progress (Oid : Type) where
  editor : TreeEditor Oid
  changed : Nat
  cache : TreeLookupCache Oid
  indexEntries : Table Text (IndexEntry Oid)

/-- `stat_signature`: nothing for a time before the epoch. -/
def statSignature (info : FileInfo) : Option (Nat × Int) :=
  if 0 ≤ info.modTime then some (info.size, info.modTime) else none

def trustedOid (prevIndex : Option (CommitIndex Oid)) (path : Text) (info : FileInfo) : Option Oid :=
  match prevIndex with
  | none => none
  | some index =>
    match index.entries.lookup path, statSignature info, index.savedAtNs with
    | some entry, some (size, mtime), some saved =>
      if entry.size = size ∧ entry.mtimeNs = mtime ∧ mtime < saved then some entry.oid else none
    | _, _, _ => none

variable (service : GitService Oid) (prevTree : Option Oid) (prevIndex : Option (CommitIndex Oid))

section

variable (path : Text)

def blobOid (info : FileInfo) : GitM Oid Oid :=
  match trustedOid prevIndex path info with
  | some oid => pure oid
  | none => do
      let bytes ← call (.readFile path)
      let bytes ← liftFs bytes
      if service.blobExistsPrecheck then writeObjectIfAbsent (.blob bytes) else writeObject (.blob bytes)

def prevEntry (cache : TreeLookupCache Oid) :
    GitM Oid (Option (Oid × EntryKind) × TreeLookupCache Oid) :=
  match prevTree with
  | none => pure (none, cache)
  | some tree => lookupCached tree path cache

def recordIndex (info : FileInfo) (oid : Oid) (entries : Table Text (IndexEntry Oid)) :
    Table Text (IndexEntry Oid) :=
  if service.indexStore then
    match statSignature info with
    | some (size, mtimeNs) => entries.insert path { size, mtimeNs, oid }
    | none => entries.erase path
  else entries

def forgetIndex (entries : Table Text (IndexEntry Oid)) : Table Text (IndexEntry Oid) :=
  if service.indexStore then entries.erase path else entries

def compareCandidate (state : Progress Oid) : GitM Oid (Progress Oid) := do
  match ← call (.stat path) with
  | .ok info => do
      let oid ← blobOid service prevIndex path info
      let (entry, cache) ← prevEntry prevTree path state.cache
      let indexEntries := recordIndex service path info oid state.indexEntries
      if entry.map Prod.fst ≠ some oid then do
        let editor ← state.editor.upsert path oid
        pure { editor, changed := state.changed + 1, cache, indexEntries }
      else pure { state with cache, indexEntries }
  | .error error =>
    if error.isNotFound then do
      let (entry, cache) ← prevEntry prevTree path state.cache
      let indexEntries := forgetIndex service path state.indexEntries
      if entry.isSome then do
        let editor ← state.editor.remove path
        pure { editor, changed := state.changed + 1, cache, indexEntries }
      else pure { state with cache, indexEntries }
    else throw (.vfs error)

end

def compareCandidates : List Text → Progress Oid → GitM Oid (Progress Oid)
  | [], state => pure state
  | path :: rest, state => do
      let state ← compareCandidate service prevTree prevIndex path state
      compareCandidates rest state

def seedIndex (paths : Option (List Text)) (gathered : Gathering Oid) (matcher : IgnoreMatcher) :
    Table Text (IndexEntry Oid) :=
  let carried : Table Text (IndexEntry Oid) :=
    match service.indexStore, paths, prevIndex with
    | true, some _, some index => index.entries
    | _, _, _ => ∅
  let carried :=
    if paths.isSome then
      (gathered.cleanupExact.foldl (fun entries key => entries.erase key) carried).retain fun key =>
        !gathered.cleanupPrefixes.any fun dir => dir <+: key
    else carried
  if service.indexStore then carried.retain fun path => shouldTrackPath path matcher else carried

end Compare

def refNameOf (branch : Text) : Text := "refs/heads/" ++ branch

def loadIndex (service : GitService Oid) (branch : Text) (prevHead : Option Oid) :
    GitM Oid (Option (CommitIndex Oid)) :=
  match service.indexStore, prevHead with
  | true, some head => do
      match ← call (.loadIndex branch) with
      | some index => pure (if index.parentOid = head then some index else none)
      | none => pure none
  | _, _ => pure none

def saveIndex (service : GitService Oid) (branch : Text) (parent : Oid)
    (entries : Table Text (IndexEntry Oid)) : GitM Oid Unit :=
  if service.indexStore then
    call (.saveIndex branch { parentOid := parent, entries, savedAtNs := none })
  else pure ()

def prevTreeOf : Option Oid → GitM Oid (Option Oid)
  | some commitOid => do
      let commit ← loadCommitMeta commitOid
      pure (some commit.tree)
  | none => pure none

def seededCache (prevTree : Option Oid) (editor : TreeEditor Oid) : TreeLookupCache Oid :=
  match prevTree with
  | some tree => (∅ : TreeLookupCache Oid).insert tree editor.root
  | none => ∅

def finishCommit (service : GitService Oid) (req : CommitRequest) (prevHead : Option Oid) (ignored : Nat)
    (compared : Progress Oid) : GitM Oid (CommitResponse Oid) :=
  if compared.changed = 0 then do
    match prevHead with
    | some parent => saveIndex service req.branch parent compared.indexEntries
    | none => pure ()
    pure (.noop (prevHead.getD ObjectHash.null) ignored)
  else do
    let newTree ← compared.editor.write
    let commitOid ← writeCommit newTree prevHead.toList req.authorName req.authorEmail req.message
    advanceRef (refNameOf req.branch) prevHead commitOid
    saveIndex service req.branch commitOid compared.indexEntries
    pure (.created commitOid compared.changed ignored)

def commitImpl (service : GitService Oid) (fuel : Nat) (req : CommitRequest) : GitM Oid (CommitResponse Oid) := do
  let matcher ← loadIgnoreMatcher service
  let prevHead ← readRef (refNameOf req.branch)
  let prevTree ← prevTreeOf prevHead
  let prevIndex ← loadIndex service req.branch prevHead
  let editor ← editorOf prevTree
  let gathered ← gather fuel matcher prevTree req.paths editor
  let compared ← compareCandidates service prevTree prevIndex gathered.candidates
    { editor := gathered.editor
      changed := gathered.changed
      cache := seededCache prevTree gathered.editor
      indexEntries := seedIndex service prevIndex req.paths gathered matcher }
  finishCommit service req prevHead gathered.ignored compared

def validatePaths : List Text → GitM Oid Unit
  | [] => pure ()
  | path :: rest => do
      liftGit (validateRelativePath path)
      validatePaths rest

def commit (service : GitService Oid) (fuel : Nat) (req : CommitRequest) : GitM Oid (CommitResponse Oid) := do
  liftGit (validateAccountId req.account)
  validatePaths (req.paths.getD [])
  commitImpl service fuel req

end LoginomDock.Git
