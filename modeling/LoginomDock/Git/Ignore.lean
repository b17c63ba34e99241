import LoginomDock.Git.Repository

/-! `prunePath` leaves out the service's own files and `.ovgitignore` leaves out what the account asks for. -/

namespace LoginomDock.Git

def ovgitignorePath : Text := ".ovgitignore"

def internalFirstSegments : List Text :=
  ["_system", "tasks", "temp", "queue", "upload"]

def pathLockFile : Text := ".path.ovlock"

def exactLockFilePrefix : Text := ".exact.ovlock."

def isHiddenRuntimeLockName (name : Text) : Bool := name = pathLockFile || exactLockFilePrefix <+: name

def prunePath (rel : Text) : Bool :=
  let segments := rel.components.filter fun segment => segment ≠ []
  match segments with
  | [] => true
  | first :: _ =>
    internalFirstSegments.contains first
      || segments.any (fun segment => pathLockFile <+: segment || isHiddenRuntimeLockName segment)
      || segments.dropLast.contains "embedding_cache"
      || ".faiss" <:+ segments.getLastD [] || ".index" <:+ segments.getLastD []

/-- What `.ovgitignore` is refused for. -/
inductive IgnoreError where
  | tooLarge (size max : Nat)
  | invalid (reason : String)
  deriving DecidableEq

structure IgnoreMatcher where
  inner : Option (Text → Bool → Bool)

namespace IgnoreMatcher

def empty : IgnoreMatcher := { inner := none }

def trimSlashes (path : Text) : Text :=
  ((path.dropWhile (· = '/')).reverse.dropWhile (· = '/')).reverse

def isIgnored (matcher : IgnoreMatcher) (relPath : Text) (isDir : Bool) : Bool :=
  match matcher.inner with
  | none => false
  | some inner =>
    let cleaned := trimSlashes relPath
    if cleaned = [] ∨ cleaned = ovgitignorePath then false else inner cleaned isDir

end IgnoreMatcher

def shouldTrackPath (relPath : Text) (matcher : IgnoreMatcher) : Bool :=
  if relPath = ovgitignorePath then true
  else !prunePath relPath && !matcher.isIgnored relPath false

theorem prunePath_ovgitignore : prunePath ovgitignorePath = false := by decide

theorem not_prunePath_of_tracked {path : Text} {matcher : IgnoreMatcher}
    (tracked : shouldTrackPath path matcher) : prunePath path = false := by
  by_cases control : path = ovgitignorePath
  · rw [control]
    exact prunePath_ovgitignore
  · simp only [shouldTrackPath, control, if_false, Bool.and_eq_true, Bool.not_eq_true'] at tracked
    exact tracked.1

end LoginomDock.Git
