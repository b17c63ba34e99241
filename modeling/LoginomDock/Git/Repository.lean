import LoginomDock.Library.Prog
import LoginomDock.Git.WorkTree

namespace LoginomDock.Git

inductive ObjectStoreError (Oid : Type) where
  | notFound (oid : Oid)
  deriving DecidableEq

inductive RefStoreError (Oid : Type) where
  | notFound (refName : Text)
  | conflict (expected actual : Option Oid)
  | invalidName (reason : String)
  deriving DecidableEq

-- What a restore reports when files failed after the ref had moved.
structure RestoreWritebackPartial (Oid : Type) where
  newCommitOid : Oid
  sourceCommit : Oid
  parentCommit : Oid
  written : Nat
  deleted : Nat
  unchanged : Nat
  writtenPaths : List Text
  deletedPaths : List Text
  failedWrites : List Text
  failedDeletes : List Text
  deriving DecidableEq

/-- `unfinished` is no error of the service: a loop of the model spent its bound on iterations. -/
inductive GitError (Oid : Type) where
  | objectStore (error : ObjectStoreError Oid)
  | refStore (error : RefStoreError Oid)
  | invalidPath (reason : String)
  | invalidProjectDir (reason : String)
  | invalidAccountId (reason : String)
  | subtreeNotFoundInCommit (projectDir : Text) (commit : Oid)
  | concurrentCommit (refName : Text) (expected actual : Option Oid)
  | restoreWritebackPartial (report : RestoreWritebackPartial Oid)
  | ignoreFileTooLarge (size max : Nat)
  | invalidIgnoreFile (reason : String)
  | oidPrefixNotFound (hexPrefix : Text)
  | ambiguousOid (hexPrefix : Text) (count : Nat)
  | corruptedObject (reason : String)
  | other (reason : String)
  | vfs (error : FsError)
  | unfinished
  deriving DecidableEq

structure IndexEntry (Oid : Type) where
  size : Nat
  mtimeNs : Int
  oid : Oid
  deriving DecidableEq

structure CommitIndex (Oid : Type) where
  parentOid : Oid
  entries : Table Text (IndexEntry Oid)
  savedAtNs : Option Int

inductive GitOp (Oid : Type) where
  | getObject (oid : Oid)
  | objectExists (oid : Oid)
  | putObject (oid : Oid) (object : GitObject Oid)
  | readRef (refName : Text)
  | listRefs
  | lockRef (refName : Text)
  | unlockRef (refName : Text)
  | replaceRef (refName : Text) (oid : Oid)
  | stat (path : Text)
  | readFile (path : Text)
  | treeDirectory (path : Text)
  | readDir (path : Text)
  | writeFile (path : Text) (data : Bytes)
  | mkdir (path : Text)
  | removeFile (path : Text)
  | loadIndex (branch : Text)
  | saveIndex (branch : Text) (index : CommitIndex Oid)
  | now

namespace GitOp

@[reducible] def Res {Oid : Type} : GitOp Oid → Type
  | .getObject _ => Except (ObjectStoreError Oid) (GitObject Oid)
  | .objectExists _ => Bool
  | .readRef _ => Option Oid
  | .listRefs => List (Text × Oid)
  | .stat _ => Except FsError FileInfo
  | .readFile _ => Except FsError Bytes
  | .treeDirectory _ => Except FsError (List (Text × FileInfo))
  | .readDir _ => Except FsError (List (Text × FileInfo))
  | .writeFile _ _ => Except FsError Unit
  | .mkdir _ => Except FsError Unit
  | .removeFile _ => Except FsError Unit
  | .loadIndex _ => Option (CommitIndex Oid)
  | .now => Int
  | _ => Unit

end GitOp

structure Repository (Oid : Type) where
  objects : Oid → Option (GitObject Oid)
  refs : Table Text Oid
  refLocks : List Text
  workTree : WorkTree
  indexes : Table Text (CommitIndex Oid × Int)
  /-- The coarse clock that stamps files and saved indexes, in nanoseconds. -/
  clock : Int
  /-- How far the clock has moved on when a running commit saves its index. -/
  lag : Nat

variable {Oid : Type} [DecidableEq Oid]

namespace Repository

-- Nothing stored, nothing on disk.
def fresh : Repository Oid where
  objects := fun _ => none
  refs := ∅
  refLocks := []
  workTree := .empty
  indexes := ∅
  clock := 0
  lag := 0

-- The write time a backend reports for a saved index: none before the epoch.
def savedAt (time : Int) : Option Int := if 0 ≤ time then some time else none

def handle : (op : GitOp Oid) → Repository Oid → op.Res × Repository Oid
  | .getObject oid, repo =>
    match repo.objects oid with
    | some object => (.ok object, repo)
    | none => (.error (.notFound oid), repo)
  | .objectExists oid, repo => ((repo.objects oid).isSome, repo)
  | .putObject oid object, repo =>
    ((), { repo with objects := Function.update repo.objects oid (some object) })
  | .readRef refName, repo => (repo.refs.lookup refName, repo)
  | .listRefs, repo => (repo.refs.entries.map fun entry => (entry.1, entry.2), repo)
  | .lockRef refName, repo => ((), { repo with refLocks := refName :: repo.refLocks })
  | .unlockRef refName, repo => ((), { repo with refLocks := repo.refLocks.erase refName })
  | .replaceRef refName oid, repo => ((), { repo with refs := repo.refs.insert refName oid })
  | .stat path, repo => (repo.workTree.stat path, repo)
  | .readFile path, repo => (repo.workTree.read path, repo)
  | .treeDirectory path, repo => (repo.workTree.treeDirectory path, repo)
  | .readDir path, repo => (repo.workTree.readDir path, repo)
  | .writeFile path data, repo =>
    let written := repo.workTree.write repo.clock path data
    (written.1, { repo with workTree := written.2 })
  | .mkdir path, repo =>
    let made := repo.workTree.mkdir repo.clock path
    (made.1, { repo with workTree := made.2 })
  | .removeFile path, repo =>
    let removed := repo.workTree.remove path
    (removed.1, { repo with workTree := removed.2 })
  | .loadIndex branch, repo =>
    ((repo.indexes.lookup branch).map fun saved => { saved.1 with savedAtNs := savedAt saved.2 }, repo)
  | .saveIndex branch index, repo =>
    ((), { repo with indexes := repo.indexes.insert branch (index, repo.clock + repo.lag) })
  | .now, repo => (repo.clock, repo)

end Repository

abbrev GitM (Oid : Type) (α : Type) := ExceptT (GitError Oid) (Prog (GitOp Oid) GitOp.Res) α

namespace GitM

variable {α β : Type}

def call (op : GitOp Oid) : GitM Oid op.Res := ExceptT.lift (Prog.perform op)

-- Run a service function alone on a repository.
def exec (program : GitM Oid α) (repo : Repository Oid) : Except (GitError Oid) α × Repository Oid :=
  Prog.exec Repository.handle program repo

@[simp] theorem exec_pure (value : α) (repo : Repository Oid) :
    (pure value : GitM Oid α).exec repo = (.ok value, repo) := rfl

@[simp] theorem exec_throw (error : GitError Oid) (repo : Repository Oid) :
    (throw error : GitM Oid α).exec repo = (.error error, repo) := rfl

@[simp] theorem exec_call (op : GitOp Oid) (repo : Repository Oid) :
    (call op).exec repo = (.ok (Repository.handle op repo).1, (Repository.handle op repo).2) := by
  simp [call, exec]

theorem exec_bind (program : GitM Oid α) (next : α → GitM Oid β) (repo : Repository Oid) :
    (program >>= next).exec repo =
      match program.exec repo with
      | (.ok value, after) => (next value).exec after
      | (.error error, after) => (.error error, after) := by
  simp only [exec, Prog.exec_bind]
  rcases Prog.exec Repository.handle program repo with ⟨error | value, after⟩ <;> rfl

section

variable {program : GitM Oid α} {next : α → GitM Oid β} {repo after : Repository Oid}

theorem exec_bind_ok {value : α} (success : program.exec repo = (.ok value, after)) :
    (program >>= next).exec repo = (next value).exec after :=
  Prog.exec_bind_ok _ success

theorem exec_bind_error {error : GitError Oid}
    (failure : program.exec repo = (.error error, after)) :
    (program >>= next).exec repo = (.error error, after) :=
  Prog.exec_bind_error _ failure

end

theorem exec_call_bind (op : GitOp Oid) (next : op.Res → GitM Oid β) (repo : Repository Oid) :
    (call op >>= next).exec repo =
      (next (Repository.handle op repo).1).exec (Repository.handle op repo).2 :=
  exec_bind_ok (exec_call op repo)

end GitM

def Addressed [ObjectHash Oid] (objects : Oid → Option (GitObject Oid)) : Prop :=
  ∀ oid object, objects oid = some object → computeHash object = oid

def Extends (before after : Oid → Option (GitObject Oid)) : Prop :=
  ∀ oid object, before oid = some object → after oid = some object

namespace Extends

theorem refl (objects : Oid → Option (GitObject Oid)) : Extends objects objects :=
  fun _ _ found => found

theorem trans {first second third : Oid → Option (GitObject Oid)} (left : Extends first second)
    (right : Extends second third) : Extends first third :=
  fun oid object found => right oid object (left oid object found)

end Extends

section ObjectStore

variable [ObjectHash Oid]

def readObject (oid : Oid) : GitM Oid (GitObject Oid) := do
  match ← GitM.call (.getObject oid) with
  | .ok object => pure object
  | .error error => throw (.objectStore error)

def writeObject (object : GitObject Oid) : GitM Oid Oid := do
  let oid := computeHash object
  GitM.call (.putObject oid object)
  pure oid

def writeObjectIfAbsent (object : GitObject Oid) : GitM Oid Oid := do
  let oid := computeHash object
  if ← GitM.call (.objectExists oid) then pure oid
  else
    GitM.call (.putObject oid object)
    pure oid

def Repository.store (repo : Repository Oid) (object : GitObject Oid) : Repository Oid :=
  { repo with objects := Function.update repo.objects (computeHash object) (some object) }

@[simp] theorem exec_writeObject (object : GitObject Oid) (repo : Repository Oid) :
    (writeObject object).exec repo = (.ok (computeHash object), repo.store object) := by
  rw [writeObject, GitM.exec_call_bind]
  rfl

variable {repo : Repository Oid}

theorem Repository.store_extends (addressed : Addressed repo.objects)
    (object : GitObject Oid) : Extends repo.objects (repo.store object).objects := by
  intro oid other found
  by_cases same : oid = computeHash object
  · have : other = object := ObjectHash.computeHash_injective ((addressed oid other found).trans same)
    simp [store, same, this]
  · simp [store, Function.update_of_ne same, found]

theorem Repository.store_addressed (addressed : Addressed repo.objects)
    (object : GitObject Oid) : Addressed (repo.store object).objects := by
  intro oid other found
  by_cases same : oid = computeHash object
  · subst same
    simp only [store, Function.update_self, Option.some.injEq] at found
    rw [found]
  · simp only [store, Function.update_of_ne same] at found
    exact addressed oid other found

theorem Repository.store_present {object : GitObject Oid}
    (present : repo.objects (computeHash object) = some object) : repo.store object = repo := by
  simp [store, ← present]

theorem exec_writeObjectIfAbsent (addressed : Addressed repo.objects)
    (object : GitObject Oid) :
    (writeObjectIfAbsent object).exec repo = (.ok (computeHash object), repo.store object) := by
  rw [writeObjectIfAbsent, GitM.exec_call_bind]
  rcases found : repo.objects (computeHash object) with _ | other
  · simp only [Repository.handle, found, Option.isSome_none, Bool.false_eq_true, if_false]
    rw [GitM.exec_call_bind]
    rfl
  · have same : other = object :=
      ObjectHash.computeHash_injective (addressed _ other found)
    rw [same] at found
    simp [Repository.handle, found, Repository.store_present found]

theorem exec_readObject {oid : Oid} {object : GitObject Oid}
    (found : repo.objects oid = some object) : (readObject oid).exec repo = (.ok object, repo) := by
  rw [readObject, GitM.exec_call_bind]
  simp [Repository.handle, found]

end ObjectStore

end LoginomDock.Git
