import LoginomDock.Library.Interleave
import LoginomDock.Library.Table
import LoginomDock.Library.Text

/-! A lock is a token in a table from lock paths to tokens. -/

namespace LoginomDock.PathLock

inductive PathLockKind where
  | exact
  | tree
  deriving DecidableEq

structure LockToken where
  ownerId : Text
  timeNs : Nat
  lockType : PathLockKind
  deriving DecidableEq

structure PathLockRequest where
  path : Text
  kind : PathLockKind
  deriving DecidableEq

inductive PathLockError where
  | conflict (lockPath owner : Text) (kind : PathLockKind)
  | io (message : Text)
  | rollbackFailed (error rollbackError : PathLockError)
  deriving DecidableEq

def pathLockFile : Text := ".path.ovlock"

def exactLockFilePrefix : Text := ".exact.ovlock."

def rsplitSlash (path : Text) : Option (Text × Text) :=
  match (path.reverse.dropWhile (· ≠ '/')) with
  | [] => none
  | _ :: before => some (before.reverse, (path.reverse.takeWhile (· ≠ '/')).reverse)

def trimEndSlashes (path : Text) : Text := (path.reverse.dropWhile (· = '/')).reverse

def pathLockPath (path : Text) : Text := trimEndSlashes path ++ '/' :: pathLockFile

def splitParentName (path : Text) : Text × Text :=
  match rsplitSlash (trimEndSlashes path) with
  | some (parent, name) => if parent ≠ [] then (parent, name) else (['/'], name)
  | none => (['/'], trimEndSlashes path)

def isPlainChar (char : Char) : Bool := char.isAlphanum || char ∈ ['.', '_', '-']

def sanitized : Bool → Text → Text
  | _, [] => []
  | replacing, char :: rest =>
    if isPlainChar char then char :: sanitized false rest
    else if replacing then sanitized true rest
    else '_' :: sanitized true rest

def trimMatches (chars : List Char) (text : Text) : Text :=
  ((text.dropWhile (· ∈ chars)).reverse.dropWhile (· ∈ chars)).reverse

def safeName (name : Text) : Text :=
  let trimmed := trimMatches ['.', '_'] (sanitized false name)
  (if trimmed = [] then "path".toList else trimmed).take 80

-- The first 16 hex digits of the SHA-1 of a path
structure LockHash where
  hashPrefix : Text → Text

def prefixedExactLockPath (hash : LockHash) (path : Text) : Text :=
  let (parent, name) := splitParentName path
  parent ++ '/' :: exactLockFilePrefix ++ safeName name ++ '.' :: hash.hashPrefix path

structure ResolvedExactPaths where
  acquireLockPath : Text
  conflictPaths : List Text
  deriving DecidableEq

inductive LockOp where
  | readToken (lockPath : Text)
  | tryCreateToken (lockPath : Text) (token : LockToken)
  | compareAndWriteToken (lockPath : Text) (expected replacement : LockToken)
  | refreshToken (lockPath ownerId : Text) (timeNs : Nat)
  | removeToken (lockPath ownerId : Text) (force : Bool)
  | scanDescendantLocks (root : Text)
  | nowNs
  | stat (path : Text)
  | mkdir (path : Text)
  deriving DecidableEq

@[reducible] def LockOp.Res : LockOp → Type
  | .readToken _ => Option LockToken
  | .tryCreateToken _ _ => Except PathLockError Unit
  | .scanDescendantLocks _ => List Text
  | .nowNs => Nat
  | .stat _ => Option Bool
  | .mkdir _ => Except Text Unit
  | _ => Bool

-- What the clock shows, whether a path is a directory, which directories can be made, and the order in which the
-- table's keys come, all of which may differ from one call to the next
structure Surroundings where
  clock : Nat → Nat
  stat : Nat → Text → Option Bool
  mkdir : Nat → Text → Except Text Unit
  order : Nat → List Text → List Text
  perm : ∀ call keys, (order call keys).Perm keys

structure LockStore where
  tokens : Table Text LockToken
  around : Surroundings
  calls : Nat

namespace LockStore

def withTokens (store : LockStore) (tokens : Table Text LockToken) : LockStore :=
  { store with tokens := tokens, calls := store.calls + 1 }

def tryCreate (lockPath : Text) (token : LockToken) (tokens : Table Text LockToken) :
    Except PathLockError Unit × Table Text LockToken :=
  match tokens.lookup lockPath with
  | some existing => (.error (.conflict lockPath existing.ownerId existing.lockType), tokens)
  | none => (.ok (), tokens.insert lockPath token)

def compareAndWrite (lockPath : Text) (expected replacement : LockToken) (tokens : Table Text LockToken) :
    Bool × Table Text LockToken :=
  if tokens.lookup lockPath = some expected then (true, tokens.insert lockPath replacement) else (false, tokens)

def refresh (lockPath ownerId : Text) (timeNs : Nat) (tokens : Table Text LockToken) : Bool × Table Text LockToken :=
  match tokens.lookup lockPath with
  | some token =>
    if token.ownerId = ownerId then (true, tokens.insert lockPath { token with timeNs := timeNs }) else (false, tokens)
  | none => (false, tokens)

def remove (lockPath ownerId : Text) (tokens : Table Text LockToken) : Bool × Table Text LockToken :=
  match tokens.lookup lockPath with
  | some token => if token.ownerId = ownerId then (true, tokens.erase lockPath) else (false, tokens)
  | none => (false, tokens)

def scan (root : Text) (store : LockStore) : List Text :=
  let lead := if root.getLast? = some '/' then root else root ++ ['/']
  (store.around.order store.calls store.tokens.keys).filter fun key => lead <+: key

def handle : (op : LockOp) → LockStore → op.Res × LockStore
  | .readToken lockPath, store => (store.tokens.lookup lockPath, store.withTokens store.tokens)
  | .tryCreateToken lockPath token, store =>
    ((tryCreate lockPath token store.tokens).1, store.withTokens (tryCreate lockPath token store.tokens).2)
  | .compareAndWriteToken lockPath expected replacement, store =>
    ((compareAndWrite lockPath expected replacement store.tokens).1,
      store.withTokens (compareAndWrite lockPath expected replacement store.tokens).2)
  | .refreshToken lockPath ownerId timeNs, store =>
    ((refresh lockPath ownerId timeNs store.tokens).1, store.withTokens (refresh lockPath ownerId timeNs store.tokens).2)
  -- The memory provider does not look at `force`.
  | .removeToken lockPath ownerId _, store =>
    ((remove lockPath ownerId store.tokens).1, store.withTokens (remove lockPath ownerId store.tokens).2)
  | .scanDescendantLocks root, store => (store.scan root, store.withTokens store.tokens)
  | .nowNs, store => (store.around.clock store.calls, store.withTokens store.tokens)
  | .stat path, store => (store.around.stat store.calls path, store.withTokens store.tokens)
  | .mkdir path, store => (store.around.mkdir store.calls path, store.withTokens store.tokens)

end LockStore

def lockMachine : Machine LockOp LockOp.Res LockStore where
  handle := LockStore.handle
  enabled _ _ := True

end LoginomDock.PathLock
