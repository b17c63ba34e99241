import LoginomDock.Library.Table
import LoginomDock.Library.Text

namespace LoginomDock.MemFs

abbrev Bytes := List UInt8

structure FileEntry where
  data : Bytes
  mode : UInt32
  modTime : Nat
  isDir : Bool
  deriving DecidableEq, Repr

inductive WriteFlag where
  | create
  | createNew
  | append
  | truncate
  | none
  deriving DecidableEq, Repr

inductive Error where
  | notFound (path : Text)
  | alreadyExists (path : Text)
  | notADirectory (path : Text)
  | isADirectory (path : Text)
  deriving DecidableEq, Repr

-- How a call ends. A panic unwinds without a result.
inductive Outcome where
  | done (written : Option Nat)
  | failed (error : Error)
  | panicked
  deriving DecidableEq, Repr

abbrev Entries := Table Text FileEntry

structure KeyOrder where
  keys : Entries → List Text
  perm : ∀ entries, (keys entries).Perm entries.keys

def KeyOrder.stored : KeyOrder := ⟨fun entries => entries.keys, fun _ => List.Perm.refl _⟩

namespace FileEntry

def newFile (mode : UInt32) (now : Nat) : FileEntry := ⟨[], mode, now, false⟩

def newDir (mode : UInt32) (now : Nat) : FileEntry := ⟨[], mode, now, true⟩

def touch (entry : FileEntry) (now : Nat) : FileEntry := { entry with modTime := now }

end FileEntry

/-- `MemFileSystem::new`. -/
def new (now : Nat) : Entries := (∅ : Entries).insert ['/'] (FileEntry.newDir 0o755 now)

def normalizePath (path : Text) : Text :=
  if path = [] ∨ path = ['/'] then ['/']
  else
    let normalized := if ['/'] <+: path then path else '/' :: path
    -- only one trailing slash goes
    if 1 < normalized.length ∧ normalized.getLast? = some '/' then normalized.dropLast else normalized

def parentPath (path : Text) : Option Text :=
  if path = ['/'] then none
  else
    let parts := Text.components (normalizePath path)
    if parts.length ≤ 2 then some ['/'] else some (Text.joined parts.dropLast)

def checkParent (normalized : Text) (entries : Entries) : Except Error Unit :=
  match parentPath normalized with
  | none => .ok ()
  | some parent =>
    match entries.lookup parent with
    | some entry => if entry.isDir then .ok () else .error (.notADirectory parent)
    | none => .error (.notFound parent)

/-- `create` and `mkdir` differ in the entry they insert. -/
def addEntry (path : Text) (entry : FileEntry) (entries : Entries) : Outcome × Entries :=
  let normalized := normalizePath path
  if normalized ∈ entries then (.failed (.alreadyExists normalized), entries)
  else
    match checkParent normalized entries with
    | .error error => (.failed error, entries)
    | .ok () => (.done none, entries.insert normalized entry)

def create (path : Text) (now : Nat) (entries : Entries) : Outcome × Entries :=
  addEntry path (FileEntry.newFile 0o644 now) entries

def mkdir (path : Text) (mode : UInt32) (now : Nat) (entries : Entries) : Outcome × Entries :=
  addEntry path (FileEntry.newDir mode now) entries

def remove (path : Text) (entries : Entries) : Outcome × Entries :=
  let normalized := normalizePath path
  match entries.lookup normalized with
  | some entry =>
    if entry.isDir then (.failed (.isADirectory normalized), entries)
    else (.done none, entries.erase normalized)
  | none => (.failed (.notFound normalized), entries)

def removeAll (order : KeyOrder) (path : Text) (entries : Entries) : Outcome × Entries :=
  let normalized := normalizePath path
  if normalized ∈ entries then
    -- for the root the tested prefix is "//"
    let toRemove := (order.keys entries).filter fun key => key = normalized ∨ (normalized ++ ['/']) <+: key
    (.done none, toRemove.foldl (fun rest key => rest.erase key) entries)
  else (.failed (.notFound normalized), entries)

/-- The data of a file after a write at an offset, and whether the write came to its end. Offsets
are added in `usize`, which wraps; `Vec::resize` panics above `isize::MAX` bytes and the slice
`[offset..end]` when `offset` is greater than `end`. -/
def writeAt (old data : Bytes) (offset : UInt64) : Bytes × Bool :=
  let start := offset.toNat
  let finish := (start + data.length) % 2 ^ 64
  if old.length < finish ∧ 2 ^ 63 ≤ finish then (old, false)
  else
    let resized := if old.length < finish then old ++ List.replicate (finish - old.length) 0 else old
    if finish < start then (resized, false)
    else (resized.take start ++ data ++ resized.drop finish, true)

def write (path : Text) (data : Bytes) (offset : UInt64) (flags : WriteFlag) (now : Nat) (entries : Entries) :
    Outcome × Entries :=
  let normalized := normalizePath path
  match entries.lookup normalized with
  | some entry =>
    if entry.isDir then (.failed (.isADirectory normalized), entries)
    else
      -- the entry is touched in place before the flags are looked at
      let touched := entry.touch now
      match flags with
      | .create | .truncate =>
        (.done (some data.length), entries.insert normalized { touched with data := data })
      | .createNew => (.failed (.alreadyExists normalized), entries.insert normalized touched)
      | .append =>
        (.done (some data.length), entries.insert normalized { touched with data := entry.data ++ data })
      | .none =>
        let (after, completed) := writeAt entry.data data offset
        (if completed then .done (some data.length) else .panicked,
          entries.insert normalized { touched with data := after })
  | none =>
    if flags = .create ∨ flags = .createNew then
      match checkParent normalized entries with
      | .error error => (.failed error, entries)
      | .ok () =>
        (.done (some data.length),
          entries.insert normalized { FileEntry.newFile 0o644 now with data := data })
    else (.failed (.notFound normalized), entries)

def movedPath (oldPrefix newPrefix path : Text) : Text := newPrefix ++ path.drop oldPrefix.length

def collectMoves (oldNormalized newNormalized : Text) (entries : Entries) : List Text → Except Error (List Text)
  | [] => .ok []
  | path :: rest =>
    let oldPrefix := Text.dirPrefix oldNormalized
    if path = oldNormalized ∨ ¬ oldPrefix <+: path then
      collectMoves oldNormalized newNormalized entries rest
    else
      let newChildPath := movedPath oldPrefix (Text.dirPrefix newNormalized) path
      if newChildPath ∈ entries then .error (.alreadyExists newChildPath)
      else (collectMoves oldNormalized newNormalized entries rest).map (path :: ·)

def moveChild (oldPrefix newPrefix : Text) (entries : Entries) (path : Text) : Entries :=
  entries.moveKey (movedPath oldPrefix newPrefix) path

def rename (order : KeyOrder) (oldPath newPath : Text) (entries : Entries) : Outcome × Entries :=
  let oldNormalized := normalizePath oldPath
  let newNormalized := normalizePath newPath
  match entries.lookup oldNormalized with
  | none => (.failed (.notFound oldNormalized), entries)
  | some entry =>
    if newNormalized ∈ entries then (.failed (.alreadyExists newNormalized), entries)
    else
      match checkParent newNormalized entries with
      | .error error => (.failed error, entries)
      | .ok () =>
        match collectMoves oldNormalized newNormalized entries (order.keys entries) with
        | .error error => (.failed error, entries)
        | .ok toMove =>
          let moved := (entries.erase oldNormalized).insert newNormalized entry
          (.done none,
            toMove.foldl (moveChild (Text.dirPrefix oldNormalized) (Text.dirPrefix newNormalized)) moved)

inductive Call where
  | create (path : Text)
  | mkdir (path : Text) (mode : UInt32)
  | write (path : Text) (data : Bytes) (offset : UInt64) (flags : WriteFlag)
  | remove (path : Text)
  | removeAll (path : Text)
  | rename (oldPath newPath : Text)
  deriving DecidableEq, Repr

-- A call and what the clock reads while it runs.
structure Request where
  call : Call
  now : Nat
  deriving DecidableEq, Repr

def perform (order : KeyOrder) (request : Request) (entries : Entries) : Outcome × Entries :=
  match request.call with
  | .create path => create path request.now entries
  | .mkdir path mode => mkdir path mode request.now entries
  | .write path data offset flags => write path data offset flags request.now entries
  | .remove path => remove path entries
  | .removeAll path => removeAll order path entries
  | .rename oldPath newPath => rename order oldPath newPath entries

def run (order : KeyOrder) (requests : List Request) (entries : Entries) : Entries :=
  requests.foldl (fun state request => (perform order request state).2) entries

end LoginomDock.MemFs
