import LoginomDock.Library.Table
import LoginomDock.Git.Objects

/-! The account's part of the virtual file system, as `MemFS` keeps it: a table of files and directories in which every
node's parent is a directory. -/

namespace LoginomDock.Git

open List AList Text

inductive FsError where
  | notFound (path : Text)
  | alreadyExists (path : Text)
  | notADirectory (path : Text)
  | isADirectory (path : Text)
  deriving DecidableEq

def FsError.isNotFound : FsError → Bool
  | .notFound _ => true
  | _ => false

inductive Node where
  | file (data : Bytes) (modTime : Int)
  | directory (modTime : Int)
  deriving DecidableEq

structure FileInfo where
  size : Nat
  modTime : Int
  isDir : Bool
  deriving DecidableEq

def Node.info : Node → FileInfo
  | .file data modTime => { size := data.length, modTime, isDir := false }
  | .directory modTime => { size := 0, modTime, isDir := true }

def Node.isDir : Node → Bool
  | .file _ _ => false
  | .directory _ => true

structure WorkTree where
  nodes : Table (List Text) Node
  valid : ∀ path ∈ nodes, IsPath path
  closed : ∀ parent name, parent ++ [name] ∈ nodes → parent ≠ [] →
    ∃ modTime, nodes.lookup parent = some (.directory modTime)

-- The components of an account-relative path, none for the account root itself.
def relativeParts (path : Text) : List Text := if path = [] then [] else path.components

namespace WorkTree

def empty : WorkTree where
  nodes := ∅
  valid := by simp
  closed := by simp

section

variable (disk : WorkTree)

def node (path : List Text) : Option Node :=
  if path = [] then some (.directory 0) else disk.nodes.lookup path

def stat (path : Text) : Except FsError FileInfo :=
  match disk.node (relativeParts path) with
  | some node => .ok node.info
  | none => .error (.notFound path)

def read (path : Text) : Except FsError Bytes :=
  match disk.node (relativeParts path) with
  | some (.file data _) => .ok data
  | some (.directory _) => .error (.isADirectory path)
  | none => .error (.notFound path)

def treeDirectory (path : Text) : Except FsError (List (Text × FileInfo)) :=
  match disk.node (relativeParts path) with
  | some (.directory _) =>
    .ok ((disk.nodes.entries.filter fun entry =>
      relativeParts path <+: entry.1 ∧ relativeParts path ≠ entry.1).map fun entry =>
        (joined entry.1, entry.2.info))
  | some (.file _ _) => .error (.notADirectory path)
  | none => .error (.notFound path)

def readDir (path : Text) : Except FsError (List (Text × FileInfo)) :=
  match disk.node (relativeParts path) with
  | some (.directory _) =>
    .ok ((disk.nodes.entries.filter fun entry => entry.1.dropLast = relativeParts path).map
      fun entry => (joined entry.1, entry.2.info))
  | some (.file _ _) => .error (.notADirectory path)
  | none => .error (.notFound path)

end

section

variable (disk : WorkTree)

include disk

theorem node_nil : disk.node [] = some (.directory 0) := rfl

theorem node_of_ne_nil {path : List Text} (below : path ≠ []) :
    disk.node path = disk.nodes.lookup path := if_neg below

theorem node_parent {parent : List Text} {name : Text} {node : Node}
    (present : disk.node (parent ++ [name]) = some node) :
    ∃ modTime, disk.node parent = some (.directory modTime) := by
  by_cases root : parent = []
  · exact ⟨0, by rw [root, node_nil]⟩
  · rw [node_of_ne_nil disk (by simp)] at present
    obtain ⟨modTime, found⟩ := disk.closed parent name
      (lookup_isSome.mp (by simp [present])) root
    exact ⟨modTime, by rw [node_of_ne_nil disk root, found]⟩

theorem node_ancestor {path below : List Text} {node : Node}
    (more : below ≠ []) (present : disk.node (path ++ below) = some node) :
    ∃ modTime, disk.node path = some (.directory modTime) := by
  induction below using List.reverseRecOn generalizing node with
  | nil => exact absurd rfl more
  | append_singleton before name ih =>
    rw [← append_assoc] at present
    obtain ⟨modTime, parent⟩ := disk.node_parent present
    by_cases last : before = []
    · subst last
      exact ⟨modTime, by simpa using parent⟩
    · exact ih last parent

theorem isPath_of_node {path : List Text} {node : Node}
    (present : disk.node path = some node) (below : path ≠ []) : IsPath path := by
  rw [node_of_ne_nil disk below] at present
  exact disk.valid path (lookup_isSome.mp (by simp [present]))

end

def place (disk : WorkTree) (parent : List Text) (name : Text) (node : Node)
    (isName : IsName name) (isParent : ∃ modTime, disk.node parent = some (.directory modTime))
    (kept : ∀ modTime, disk.node (parent ++ [name]) = some (.directory modTime) → node.isDir) :
    WorkTree where
  nodes := disk.nodes.insert (parent ++ [name]) node
  valid := by
    intro path member
    rcases (mem_insert _).mp member with rfl | old
    · obtain ⟨modTime, present⟩ := isParent
      refine ⟨by simp, ?_⟩
      intro part inside
      rcases mem_append.mp inside with above | last
      · exact (disk.isPath_of_node present (ne_nil_of_mem above)).2 part above
      · rw [mem_singleton.mp last]
        exact isName
    · exact disk.valid path old
  closed := by
    intro above last member below
    rw [Table.lookup_insert_if]
    split
    next same =>
      cases node with
      | directory modTime => exact ⟨modTime, rfl⟩
      | file data modTime =>
        exfalso
        subst same
        rcases (mem_insert _).mp member with equal | old
        · simp at equal
        · obtain ⟨time, found⟩ := disk.closed _ last old (by simp)
          have := kept time (by rw [node_of_ne_nil disk (by simp), found])
          simp [Node.isDir] at this
    next different =>
      rcases (mem_insert _).mp member with equal | old
      · obtain ⟨modTime, present⟩ := isParent
        have : above = parent := (append_inj' equal rfl).1
        subst this
        exact ⟨modTime, by rw [← node_of_ne_nil disk below, present]⟩
      · exact disk.closed above last old below

def take (disk : WorkTree) (path : List Text) (leaf : ∀ name, disk.node (path ++ [name]) = none) :
    WorkTree where
  nodes := disk.nodes.erase path
  valid := fun other member => disk.valid other ((mem_erase).mp member).2
  closed := by
    intro parent name member below
    obtain ⟨modTime, found⟩ := disk.closed parent name ((mem_erase).mp member).2 below
    refine ⟨modTime, ?_⟩
    rw [Table.lookup_erase_if, if_neg ?_, found]
    rintro rfl
    have missing := leaf name
    rw [node_of_ne_nil disk (by simp), lookup_eq_none] at missing
    exact missing ((mem_erase).mp member).2

theorem leaf_of_file (disk : WorkTree) {path : List Text} {data : Bytes} {modTime : Int}
    (present : disk.node path = some (.file data modTime)) (name : Text) :
    disk.node (path ++ [name]) = none := by
  rcases found : disk.node (path ++ [name]) with _ | node
  · rfl
  · obtain ⟨time, parent⟩ := disk.node_parent found
    rw [present] at parent
    cases parent

theorem parts_split {parts : List Text} (named : IsName (parts.getLastD [])) :
    parts.dropLast ++ [parts.getLastD []] = parts := by
  have nonempty : parts ≠ [] := by
    rintro rfl
    exact named.1 rfl
  rw [getLastD_eq_getLast?, getLast?_eq_some_getLast nonempty, Option.getD_some,
    dropLast_concat_getLast nonempty]

/-- Create or replace a file, `WriteFlag::Create` at offset 0. -/
def write (disk : WorkTree) (now : Int) (path : Text) (data : Bytes) : Except FsError Unit × WorkTree :=
  let parts := relativeParts path
  if blocked : (disk.node parts).any Node.isDir then (.error (.isADirectory path), disk)
  else
    match above : disk.node parts.dropLast with
    | some (.directory _) =>
      if named : IsName (parts.getLastD []) then
        (.ok (), disk.place parts.dropLast (parts.getLastD []) (.file data now) named ⟨_, above⟩ (by
          intro modTime clash
          rw [parts_split named] at clash
          simp [clash, Node.isDir] at blocked))
      else (.error (.notFound path), disk)
    | some (.file _ _) => (.error (.notADirectory path), disk)
    | none => (.error (.notFound path), disk)

def mkdir (disk : WorkTree) (now : Int) (path : Text) : Except FsError Unit × WorkTree :=
  let parts := relativeParts path
  match disk.node parts with
  | some _ => (.error (.alreadyExists path), disk)
  | none =>
    match above : disk.node parts.dropLast with
    | some (.directory _) =>
      if named : IsName (parts.getLastD []) then
        (.ok (), disk.place parts.dropLast (parts.getLastD []) (.directory now) named ⟨_, above⟩
          (fun _ _ => rfl))
      else (.error (.notFound path), disk)
    | some (.file _ _) => (.error (.notADirectory path), disk)
    | none => (.error (.notFound path), disk)

def remove (disk : WorkTree) (path : Text) : Except FsError Unit × WorkTree :=
  let parts := relativeParts path
  match present : disk.node parts with
  | some (.file _ _) => (.ok (), disk.take parts (disk.leaf_of_file present))
  | some (.directory _) => (.error (.isADirectory path), disk)
  | none => (.error (.notFound path), disk)

end WorkTree

end LoginomDock.Git
