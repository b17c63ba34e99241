import Mathlib.Data.Char
import Mathlib.Data.List.Lex
import LoginomDock.Library.Text

namespace LoginomDock.Git

abbrev Bytes := List UInt8

inductive EntryKind where
  | tree
  | blob
  | blobExecutable
  | link
  | commit
  deriving DecidableEq, Repr

structure TreeEntry (Oid : Type) where
  mode : EntryKind
  filename : Text
  oid : Oid
  deriving DecidableEq

structure Actor where
  name : Text
  email : Text
  timeSeconds : Int
  tzOffsetSeconds : Int
  deriving DecidableEq

structure Commit (Oid : Type) where
  tree : Oid
  parents : List Oid
  author : Actor
  committer : Actor
  message : Text
  deriving DecidableEq

inductive GitObject (Oid : Type) where
  | blob (data : Bytes)
  | tree (entries : List (TreeEntry Oid))
  | commit (commit : Commit Oid)
  deriving DecidableEq

class ObjectHash (Oid : Type) where
  computeHash : GitObject Oid → Oid
  null : Oid
  computeHash_injective : Function.Injective computeHash
  computeHash_ne_null : ∀ object, computeHash object ≠ null

export ObjectHash (computeHash)

variable {Oid : Type}

/-- `ObjectId::empty_tree`: the well-known id of the tree without entries. -/
def emptyTree [ObjectHash Oid] : Oid := computeHash (.tree [])

def TreeEntry.isTree (entry : TreeEntry Oid) : Bool := entry.mode = .tree

def TreeEntry.sortKey (entry : TreeEntry Oid) : Text :=
  if entry.isTree then entry.filename ++ ['/'] else entry.filename

-- The entries of a tree: distinct, non-empty, slash-free names in git's order.
structure WellFormedEntries (entries : List (TreeEntry Oid)) : Prop where
  distinct : (entries.map TreeEntry.filename).Nodup
  names : ∀ entry ∈ entries, Text.IsName entry.filename
  sorted : entries.Pairwise fun first second => first.sortKey ≤ second.sortKey

inductive Digest where
  | null
  | leaf (number : Nat)
  | node (left right : Digest)
  deriving DecidableEq

namespace Digest

def ofList {α : Type} (encode : α → Digest) : List α → Digest
  | [] => .leaf 0
  | value :: rest => .node (encode value) (ofList encode rest)

theorem ofList_injective {α : Type} {encode : α → Digest} (correct : Function.Injective encode) :
    Function.Injective (ofList encode) := by
  intro first
  induction first with
  | nil =>
    intro second same
    cases second with
    | nil => rfl
    | cons => cases same
  | cons value rest ih =>
    intro second same
    cases second with
    | nil => cases same
    | cons other more =>
      simp only [ofList, node.injEq] at same
      rw [correct same.1, ih same.2]

def ofText (text : Text) : Digest := ofList (fun char => .leaf char.toNat) text

theorem ofText_injective : Function.Injective ofText := by
  apply ofList_injective
  intro first second same
  simp only [leaf.injEq] at same
  exact Char.ext (UInt32.toNat_inj.mp same)

def ofInt : Int → Digest
  | .ofNat number => .node (.leaf 0) (.leaf number)
  | .negSucc number => .node (.leaf 1) (.leaf number)

theorem ofInt_injective : Function.Injective ofInt := by
  intro first second same
  cases first <;> cases second <;> simp_all [ofInt]

def ofKind : EntryKind → Digest
  | .tree => .leaf 0
  | .blob => .leaf 1
  | .blobExecutable => .leaf 2
  | .link => .leaf 3
  | .commit => .leaf 4

theorem ofKind_injective : Function.Injective ofKind := by
  intro first second same
  cases first <;> cases second <;> simp_all [ofKind]

def ofEntry (entry : TreeEntry Digest) : Digest :=
  .node (ofKind entry.mode) (.node (ofText entry.filename) entry.oid)

theorem ofEntry_injective : Function.Injective ofEntry := by
  rintro ⟨mode, filename, oid⟩ ⟨mode', filename', oid'⟩ same
  simp only [ofEntry, node.injEq] at same
  rw [ofKind_injective same.1, ofText_injective same.2.1, same.2.2]

def ofActor (actor : Actor) : Digest :=
  .node (.node (ofText actor.name) (ofText actor.email))
    (.node (ofInt actor.timeSeconds) (ofInt actor.tzOffsetSeconds))

theorem ofActor_injective : Function.Injective ofActor := by
  rintro ⟨name, email, time, zone⟩ ⟨name', email', time', zone'⟩ same
  simp only [ofActor, node.injEq] at same
  rw [ofText_injective same.1.1, ofText_injective same.1.2, ofInt_injective same.2.1,
    ofInt_injective same.2.2]

def ofObject : GitObject Digest → Digest
  | .blob data => .node (.leaf 0) (ofList (fun byte => .leaf byte.toNat) data)
  | .tree entries => .node (.leaf 1) (ofList ofEntry entries)
  | .commit commit =>
    .node (.leaf 2) (.node (.node commit.tree (ofList id commit.parents))
      (.node (.node (ofActor commit.author) (ofActor commit.committer)) (ofText commit.message)))

theorem ofObject_injective : Function.Injective ofObject := by
  have bytes : Function.Injective (ofList fun byte : UInt8 => .leaf byte.toNat) := by
    apply ofList_injective
    intro first second same
    exact UInt8.toNat_inj.mp (by simpa using same)
  intro first second same
  cases first with
  | blob data =>
    cases second <;> simp only [ofObject, node.injEq, leaf.injEq] at same <;> simp_all [bytes.eq_iff]
  | tree entries =>
    cases second <;> simp only [ofObject, node.injEq, leaf.injEq] at same <;>
      simp_all [(ofList_injective ofEntry_injective).eq_iff]
  | commit commit =>
    cases second with
    | commit other =>
      obtain ⟨tree, parents, author, committer, message⟩ := commit
      obtain ⟨tree', parents', author', committer', message'⟩ := other
      simp only [ofObject, node.injEq, true_and] at same
      obtain ⟨⟨trees, family⟩, ⟨authors, committers⟩, messages⟩ := same
      rw [trees, ofList_injective Function.injective_id family, ofActor_injective authors,
        ofActor_injective committers, ofText_injective messages]
    | _ => simp [ofObject] at same

instance : ObjectHash Digest where
  computeHash := ofObject
  null := .null
  computeHash_injective := ofObject_injective
  computeHash_ne_null := by
    intro object
    cases object <;> simp [ofObject]

end Digest

end LoginomDock.Git
