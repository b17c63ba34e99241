import LoginomDock.PathLock.Provider

/-! One attempt takes the requests one by one, each after a look for conflicting tokens, and looks again at all of them
when it has a token for each. -/

namespace LoginomDock.PathLock

abbrev LockM (α : Type) := ExceptT PathLockError (Prog LockOp LockOp.Res) α

def call (op : LockOp) : LockM op.Res := ExceptT.lift (Prog.perform op)

inductive AcquisitionChange where
  | created
  | reentrant
  | upgraded (previous replacement : LockToken)
  deriving DecidableEq

structure PathLockManager where
  hash : LockHash
  -- `lock_expire_secs` in nanoseconds
  expireNs : Nat

namespace PathLockManager

section

variable (manager : PathLockManager)

def isStale (token : LockToken) (nowNs : Nat) : Bool :=
  manager.expireNs < nowNs - token.timeNs

def resolveExactPaths (path : Text) : LockM ResolvedExactPaths := do
  let isDir ← call (.stat path)
  let acquireLockPath := if isDir = some true then pathLockPath path else prefixedExactLockPath manager.hash path
  pure {
    acquireLockPath := acquireLockPath
    conflictPaths :=
      if acquireLockPath = pathLockPath path then [acquireLockPath, prefixedExactLockPath manager.hash path]
      else [acquireLockPath, pathLockPath path] }

def resolveExactConflictPaths (path : Text) : LockM (List Text) := do
  let resolved ← manager.resolveExactPaths path
  pure resolved.conflictPaths

def resolveTreeLockPath (path : Text) : LockM Text := do
  let isDir ← call (.stat path)
  pure (if isDir = some false then prefixedExactLockPath manager.hash path else pathLockPath path)

end

def conflictOf (lockPath : Text) (token : LockToken) : PathLockError := .conflict lockPath token.ownerId token.lockType

def checkEach (manager : PathLockManager) (ownerId : Text) (nowNs : Nat) : List Text → LockM Unit
  | [] => pure ()
  | lockPath :: rest => do
      match ← call (.readToken lockPath) with
      | some token =>
        if token.ownerId ≠ ownerId ∧ ¬ manager.isStale token nowNs then throw (conflictOf lockPath token)
        else manager.checkEach ownerId nowNs rest
      | none => manager.checkEach ownerId nowNs rest

def checkLockPaths (manager : PathLockManager) (lockPaths : List Text) (ownerId : Text) : LockM Unit := do
  let nowNs ← call .nowNs
  manager.checkEach ownerId nowNs lockPaths

def parentOf (current : Text) : Option Text :=
  match rsplitSlash current with
  | some (parent, _) => if parent ≠ [] then some parent else if current ≠ ['/'] then some ['/'] else none
  | none => none

-- The directories above a path; each is shorter than the one below, so that `fuel` may be the path's length.
def ancestors : Nat → Text → List Text
  | 0, _ => []
  | fuel + 1, current =>
    match parentOf current with
    | some parent => parent :: ancestors fuel parent
    | none => []

def ancestorLock (parent : Text) : Text := if parent = ['/'] then '/' :: pathLockFile else parent ++ '/' :: pathLockFile

def checkAncestors (manager : PathLockManager) (ownerId : Text) (nowNs : Nat) : List Text → LockM Unit
  | [] => pure ()
  | parent :: rest => do
      match ← call (.readToken (ancestorLock parent)) with
      | some token =>
        if token.lockType = .tree ∧ token.ownerId ≠ ownerId ∧ ¬ manager.isStale token nowNs then
          throw (conflictOf (ancestorLock parent) token)
        else manager.checkAncestors ownerId nowNs rest
      | none => manager.checkAncestors ownerId nowNs rest

def checkAncestorTreeLocks (manager : PathLockManager) (path ownerId : Text) : LockM Unit := do
  let nowNs ← call .nowNs
  manager.checkAncestors ownerId nowNs (ancestors path.length path)

def checkDescendantLocks (manager : PathLockManager) (path ownerId : Text) : LockM Unit := do
  let descendants ← call (.scanDescendantLocks path)
  let nowNs ← call .nowNs
  manager.checkEach ownerId nowNs descendants

-- From a directory upwards, the ones that are not there
def missingDirs : Nat → Text → LockM (List Text)
  | 0, _ => pure []
  | fuel + 1, current => do
      if (← call (.stat current)) = some true then pure []
      else
        match rsplitSlash current with
        | some (parent, _) =>
          if parent ≠ [] then do
            let above ← missingDirs fuel parent
            pure (current :: above)
          else pure [current]
        | none => pure [current]

def makeDirs : List Text → LockM Unit
  | [] => pure ()
  | dir :: rest => do
      match ← call (.mkdir dir) with
      | .ok _ => makeDirs rest
      | .error mkdirError =>
        if (← call (.stat dir)) = some true then makeDirs rest
        else throw (.io ("failed to create lock dir '" ++ dir ++ "': " ++ mkdirError))

section

variable (lockPath : Text)

def ensureLockDir : LockM Unit :=
  match rsplitSlash lockPath with
  | none => pure ()
  | some (parent, _) =>
    if parent = [] ∨ parent = ['/'] then pure ()
    else do
      let missing ← missingDirs parent.length parent
      makeDirs missing.reverse

-- The manager wraps the text of the error once more.
def ensureDir : LockM Unit :=
  tryCatch (ensureLockDir lockPath) fun
    | .io message => throw (.io ("failed to create lock dir: lock I/O error: " ++ message))
    | error => throw error

def createToken (token : LockToken) : LockM AcquisitionChange := do
  match ← call (.tryCreateToken lockPath token) with
  | .ok _ => pure .created
  | .error error => throw error

def upgradeToken (existing token : LockToken) : LockM AcquisitionChange := do
  if ← call (.compareAndWriteToken lockPath existing token) then pure (.upgraded existing token)
  else throw (.conflict lockPath token.ownerId existing.lockType)

end

section

variable (manager : PathLockManager) (lockPath ownerId : Text) (kind : PathLockKind)

def takeToken (nowNs : Nat) :
    Option LockToken → LockM AcquisitionChange
  | none => createToken lockPath { ownerId := ownerId, timeNs := nowNs, lockType := kind }
  | some existing =>
    if existing.ownerId = ownerId then
      if existing.lockType = .exact ∧ kind = .tree then
        upgradeToken lockPath existing { ownerId := ownerId, timeNs := nowNs, lockType := kind }
      else pure .reentrant
    else if ¬ manager.isStale existing nowNs then throw (conflictOf lockPath existing)
    else do
      let _ ← call (.removeToken lockPath existing.ownerId true)
      createToken lockPath { ownerId := ownerId, timeNs := nowNs, lockType := kind }

def tryAcquireOne : LockM AcquisitionChange := do
  let nowNs ← call .nowNs
  let existing ← call (.readToken lockPath)
  manager.takeToken lockPath ownerId kind nowNs existing

end

def removeOwnedToken (lockPath ownerId : Text) : LockM Bool := do
  if ← call (.removeToken lockPath ownerId false) then pure true
  else
    match ← call (.readToken lockPath) with
    | none => pure true
    | some token =>
      if token.ownerId ≠ ownerId then pure false
      else throw (.io ("lock path '" ++ lockPath ++ "' changed while releasing"))

abbrev Acquired := List (Text × AcquisitionChange)

def acquireRequest (manager : PathLockManager) (ownerId : Text) (request : PathLockRequest)
    (resolutions : Table Text ResolvedExactPaths) : LockM ((Text × AcquisitionChange) × Table Text ResolvedExactPaths) :=
  match request.kind with
  | .exact => do
      manager.checkAncestorTreeLocks request.path ownerId
      let resolved ← manager.resolveExactPaths request.path
      manager.checkLockPaths resolved.conflictPaths ownerId
      ensureDir resolved.acquireLockPath
      let change ← manager.tryAcquireOne resolved.acquireLockPath ownerId .exact
      pure ((resolved.acquireLockPath, change), resolutions.insert request.path resolved)
  | .tree => do
      let lockPath ← manager.resolveTreeLockPath request.path
      manager.checkAncestorTreeLocks request.path ownerId
      let exactCandidates ← manager.resolveExactConflictPaths request.path
      manager.checkLockPaths exactCandidates ownerId
      manager.checkDescendantLocks request.path ownerId
      ensureDir lockPath
      let change ← manager.tryAcquireOne lockPath ownerId .tree
      pure ((lockPath, change), resolutions)

-- What was acquired, newest first, also when a request fails
def acquireRequests (manager : PathLockManager) (ownerId : Text) :
    List PathLockRequest → Acquired → Table Text ResolvedExactPaths →
      Prog LockOp LockOp.Res (Acquired × Except PathLockError (Table Text ResolvedExactPaths))
  | [], acquired, resolutions => pure (acquired, .ok resolutions)
  | request :: rest, acquired, resolutions => do
      match ← (manager.acquireRequest ownerId request resolutions).run with
      | .ok (entry, resolutions) => manager.acquireRequests ownerId rest (entry :: acquired) resolutions
      | .error error => pure (acquired, .error error)

def verifyRequest (manager : PathLockManager) (ownerId : Text) (resolutions : Table Text ResolvedExactPaths)
    (request : PathLockRequest) : LockM Unit :=
  match request.kind with
  | .exact => do
      manager.checkAncestorTreeLocks request.path ownerId
      match resolutions.lookup request.path with
      | some resolved => manager.checkLockPaths resolved.conflictPaths ownerId
      | none => throw (.io ("missing cached exact resolution for '" ++ request.path ++ ['\'']))
  | .tree => do
      manager.checkAncestorTreeLocks request.path ownerId
      let exactCandidates ← manager.resolveExactConflictPaths request.path
      manager.checkLockPaths exactCandidates ownerId
      manager.checkDescendantLocks request.path ownerId

def verifyRequests (manager : PathLockManager) (ownerId : Text) (resolutions : Table Text ResolvedExactPaths) :
    List PathLockRequest → LockM Unit
  | [] => pure ()
  | request :: rest => do
      manager.verifyRequest ownerId resolutions request
      manager.verifyRequests ownerId resolutions rest

def rollbackChange (ownerId lockPath : Text) : AcquisitionChange → LockM Unit
  | .created => do
      let _ ← removeOwnedToken lockPath ownerId
  | .reentrant => pure ()
  | .upgraded previous replacement => do
      if ← call (.compareAndWriteToken lockPath replacement previous) then pure ()
      else throw (.io ("failed to roll back token upgrade at '" ++ lockPath ++ ['\'']))

def rollbackAcquisitions (ownerId : Text) : Acquired → Prog LockOp LockOp.Res (Except PathLockError Unit)
  | [] => pure (.ok ())
  | (lockPath, change) :: older => do
      let result ← (rollbackChange ownerId lockPath change).run
      let rest ← rollbackAcquisitions ownerId older
      pure (match result with
        | .ok _ => rest
        | .error error => .error error)

-- The flag says that the attempt failed before the second look.
abbrev AttemptResult := Except (PathLockError × Bool) Acquired

def giveUp (ownerId : Text) (acquired : Acquired) (error : PathLockError) (preConflict : Bool) :
    Prog LockOp LockOp.Res AttemptResult := do
  match ← rollbackAcquisitions ownerId acquired with
  | .ok _ => pure (.error (error, preConflict))
  | .error rollbackError => pure (.error (.rollbackFailed error rollbackError, false))

def tryAcquireBatchOnce (manager : PathLockManager) (requests : List PathLockRequest) (ownerId : Text) :
    Prog LockOp LockOp.Res AttemptResult := do
  match ← manager.acquireRequests ownerId requests [] ∅ with
  | (acquired, .error error) => giveUp ownerId acquired error true
  | (acquired, .ok resolutions) =>
    match ← (manager.verifyRequests ownerId resolutions requests).run with
    | .error error => giveUp ownerId acquired error false
    | .ok _ => pure (.ok acquired.reverse)

end PathLockManager

end LoginomDock.PathLock
