import LoginomDock.Git.Restore
import LoginomDock.Library.FileTree
import LoginomDock.Library.Interleave

namespace LoginomDock.Git

variable {Oid : Type} [DecidableEq Oid]

-- A path as `Path` reads it: empty components and dots go, and a dot at the end asks for a directory.
structure RefPath where
  parts : List Text
  dotted : Bool

def refPath (account refName : Text) : RefPath where
  parts := account :: refName.components.filter fun part => part ≠ [] ∧ part ≠ ['.']
  dotted := refName.components.getLast? = some ['.']

-- What is before the last dot, except where nothing is before it
def fileStem (name : Text) : Text :=
  let before := (name.reverse.dropWhile (· ≠ '.')).drop 1
  if before = [] then name else before.reverse

def withExtension (extension : Text) (parts : List Text) : List Text :=
  match parts.getLast? with
  | none => []
  | some last => parts.dropLast ++ [fileStem last ++ '.' :: extension]

def tempPath (path : RefPath) : List Text := withExtension "tmp" path.parts

def isWhiteSpace (char : Char) : Bool :=
  char.toNat ∈ [0x09, 0x0a, 0x0b, 0x0c, 0x0d, 0x20, 0x85, 0xa0, 0x1680, 0x2028, 0x2029, 0x202f, 0x205f, 0x3000] ||
    (0x2000 ≤ char.toNat && char.toNat ≤ 0x200a)

def trim (text : Text) : Text := ((text.dropWhile isWhiteSpace).reverse.dropWhile isWhiteSpace).reverse

abbrev RefTree := FileTree Text Text

inductive RefFileOp where
  | lock (refName : Text)
  | unlock (refName : Text)
  | readToString (path : RefPath)
  | createDirAll (path : List Text)
  | write (path : List Text) (content : Text)
  | rename (source : List Text) (target : RefPath)

namespace RefFileOp

@[reducible] def Res : RefFileOp → Type
  | .readToString _ => Except IoError Text
  | .lock _ | .unlock _ => Unit
  | _ => Except IoError Unit

def Updates : RefFileOp → Prop
  | .write _ _ | .rename _ _ => True
  | _ => False

instance (op : RefFileOp) : Decidable op.Updates :=
  match op with
  | .write _ _ | .rename _ _ => .isTrue trivial
  | .lock _ | .unlock _ | .readToString _ | .createDirAll _ => .isFalse id

end RefFileOp

-- A fault makes a call fail; the number says how far the call gets.
structure RefDisk where
  tree : RefTree
  locks : List Text
  faults : List (Option Nat)

def readAt (path : RefPath) (tree : RefTree) : Except IoError Text :=
  match tree.look path.parts with
  | .ok (.file content) => if path.dotted then .error .notADirectory else .ok content
  | .ok (.directory _) => .error .isADirectory
  | .error error => .error error

def settle (tree : RefTree) (fault : Bool) : Except IoError RefTree → Except IoError Unit × RefTree
  | .ok after => (if fault then .error .failed else .ok (), after)
  | .error error => (.error error, tree)

namespace RefDisk

def fault (disk : RefDisk) : Option Nat := disk.faults.head?.join

def next (disk : RefDisk) (tree : RefTree) : RefDisk := { disk with tree := tree, faults := disk.faults.tail }

def createDirAll (path : List Text) (disk : RefDisk) : Except IoError Unit × RefTree :=
  match disk.fault with
  | some made => settle disk.tree true (disk.tree.makeDirs (path.take made))
  | none => settle disk.tree false (disk.tree.makeDirs path)

def write (path : List Text) (content : Text) (disk : RefDisk) : Except IoError Unit × RefTree :=
  match disk.fault with
  | some 0 => (.error .failed, disk.tree)
  | some (written + 1) => settle disk.tree true (FileTree.writeFile (content.take written) path disk.tree)
  | none => settle disk.tree false (FileTree.writeFile content path disk.tree)

-- No name can be given to a path that ends in a dot.
def rename (source : List Text) (target : RefPath) (disk : RefDisk) : Except IoError Unit × RefTree :=
  match disk.fault with
  | some _ => (.error .failed, disk.tree)
  | none => if target.dotted then (.error .busy, disk.tree) else settle disk.tree false (disk.tree.rename source target.parts)

def handle : (op : RefFileOp) → RefDisk → op.Res × RefDisk
  | .lock refName, disk => ((), { disk with locks := refName :: disk.locks })
  | .unlock refName, disk => ((), { disk with locks := disk.locks.filter (· ≠ refName) })
  | .readToString path, disk =>
    (if disk.fault.isSome then .error .failed else readAt path disk.tree, disk.next disk.tree)
  | .createDirAll path, disk => ((disk.createDirAll path).1, disk.next (disk.createDirAll path).2)
  | .write path content, disk => ((disk.write path content).1, disk.next (disk.write path content).2)
  | .rename source target, disk => ((disk.rename source target).1, disk.next (disk.rename source target).2)

end RefDisk

def refMachine : Machine RefFileOp RefFileOp.Res RefDisk where
  handle := RefDisk.handle
  enabled
    | .lock refName, disk => refName ∉ disk.locks
    | _, _ => True

inductive RefFileError (Oid : Type) where
  | store (error : RefStoreError Oid)
  | backend (trimmed : Text)
  | io (error : IoError)
  deriving DecidableEq

abbrev RefM (Oid α : Type) := ExceptT (RefFileError Oid) (Prog RefFileOp RefFileOp.Res) α

def orIo {α : Type} : Except IoError α → RefM Oid α
  | .ok value => pure value
  | .error error => throw (.io error)

def ofStore {α : Type} : Except (RefStoreError Oid) α → RefM Oid α
  | .ok value => pure value
  | .error error => throw (.store error)

def locked {α : Type} (refName : Text) (body : RefM Oid α) : RefM Oid α := ExceptT.mk do
  Prog.perform (RefFileOp.lock refName)
  let result ← body.run
  Prog.perform (RefFileOp.unlock refName)
  pure result

namespace LocalRefStore

variable [OidText Oid]

def parseRef (content : Except IoError Text) : RefM Oid (Option Oid) :=
  match content with
  | .ok content =>
    match fromHex (trim content) with
    | some oid => pure (some oid)
    | none => throw (.backend (trim content))
  | .error .notFound => pure none
  | .error error => throw (.io error)

def readRefOpt (path : RefPath) : RefM Oid (Option Oid) := do
  let content ← ExceptT.lift (Prog.perform (RefFileOp.readToString path))
  parseRef content

def read (account refName : Text) : RefM Oid Oid := do
  ofStore (validateRefName refName)
  match ← readRefOpt (refPath account refName) with
  | some oid => pure oid
  | none => throw (.store (.notFound refName))

def replaceFile (path : RefPath) (new : Oid) : RefM Oid Unit := do
  let made ← ExceptT.lift (Prog.perform (RefFileOp.createDirAll path.parts.dropLast))
  orIo made
  let written ← ExceptT.lift (Prog.perform (RefFileOp.write (tempPath path) (toHex new ++ ['\n'])))
  orIo written
  let renamed ← ExceptT.lift (Prog.perform (RefFileOp.rename (tempPath path) path))
  orIo renamed

def compareAndReplace (path : RefPath) (expected : Option Oid) (new : Oid) : RefM Oid Unit := do
  let actual ← readRefOpt path
  if actual ≠ expected then throw (.store (.conflict expected actual)) else replaceFile path new

def casUpdate (account refName : Text) (expected : Option Oid) (new : Oid) : RefM Oid Unit := do
  ofStore (validateRefName refName)
  locked refName (compareAndReplace (refPath account refName) expected new)

def shownRef (account refName : Text) (tree : RefTree) : Except (RefFileError Oid) Oid :=
  (Prog.exec RefDisk.handle (read account refName) { tree := tree, locks := [], faults := [] }).1

end LocalRefStore

end LoginomDock.Git
