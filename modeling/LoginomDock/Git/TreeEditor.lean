import Mathlib.Data.List.Sort
import LoginomDock.Git.Repository

namespace LoginomDock.Git

variable {Oid : Type} [DecidableEq Oid] [ObjectHash Oid]

abbrev TreeEntries (Oid : Type) := Table Text (TreeEntry Oid)

structure TreeEditor (Oid : Type) where
  root : TreeEntries Oid
  subtrees : Table (List Text) (TreeEntries Oid)

def loadTree (oid : Oid) : GitM Oid (List (TreeEntry Oid)) := do
  match ← readObject oid with
  | .tree entries => pure entries
  | _ => throw (.corruptedObject "invalid tree")

def collectEntries (entries : List (TreeEntry Oid)) : TreeEntries Oid :=
  entries.foldl (fun table entry => table.insert entry.filename entry) ∅

def loadTreeEntries (oid : Oid) : GitM Oid (TreeEntries Oid) := do
  let entries ← loadTree oid
  pure (collectEntries entries)

/-- The order of `Vec::sort` on tree entries. -/
def sortEntries (entries : List (TreeEntry Oid)) : List (TreeEntry Oid) :=
  entries.insertionSort fun first second => first.sortKey ≤ second.sortKey

def splitPath (path : Text) : GitM Oid (List Text) :=
  if path = [] then throw (.other "empty path")
  else if path.components.any (· = []) then throw (.other "empty path component")
  else pure path.components

namespace TreeEditor

def empty : TreeEditor Oid := { root := ∅, subtrees := ∅ }

section

variable (editor : TreeEditor Oid) (dir : List Text)

def level : Option (TreeEntries Oid) :=
  if dir = [] then some editor.root else editor.subtrees.lookup dir

def setLevel (entries : TreeEntries Oid) : TreeEditor Oid :=
  if dir = [] then { editor with root := entries }
  else { editor with subtrees := editor.subtrees.insert dir entries }

def insertSubtree (entries : TreeEntries Oid) :
    TreeEditor Oid :=
  { editor with subtrees := editor.subtrees.insert dir entries }

end

inductive Action (Oid : Type) where
  | load (oid : Oid)
  | empty
  | missing

def action (parent : TreeEntries Oid) (dirName : Text) : Action Oid :=
  match parent.lookup dirName with
  | some entry =>
    if entry.isTree then
      if entry.oid = ObjectHash.null ∨ entry.oid = emptyTree then .empty else .load entry.oid
    else .missing
  | none => .missing

def newDirectory (dirName : Text) : TreeEntry Oid :=
  { mode := .tree, filename := dirName, oid := ObjectHash.null }

/-- `above` has been walked, `dirs` is still to be loaded below it. -/
def ensurePathLoaded (createMissing : Bool) :
    (above dirs : List Text) → TreeEditor Oid → GitM Oid (Bool × TreeEditor Oid)
  | _, [], editor => pure (true, editor)
  | above, dirName :: dirs, editor => do
      let childKey := above ++ [dirName]
      if childKey ∈ editor.subtrees then
        ensurePathLoaded createMissing childKey dirs editor
      else
        match editor.level above with
        | none => throw (.other ("subtree not loaded: " ++ String.ofList (Text.joined above)))
        | some parent =>
          match action parent dirName with
          | .load oid => do
              let entries ← loadTreeEntries oid
              ensurePathLoaded createMissing childKey dirs (editor.insertSubtree childKey entries)
          | .empty =>
            ensurePathLoaded createMissing childKey dirs (editor.insertSubtree childKey ∅)
          | .missing =>
            if createMissing then
              ensurePathLoaded createMissing childKey dirs
                ((editor.setLevel above (parent.insert dirName (newDirectory dirName))).insertSubtree
                  childKey ∅)
            else pure (false, editor)

/-- The level of a directory that has just been loaded (`entry(..).or_insert_with(..)`). -/
def levelOrEmpty (editor : TreeEditor Oid) (dir : List Text) : TreeEntries Oid :=
  (editor.level dir).getD ∅

def leafEntry (mode : EntryKind) (filename : Text) (oid : Oid) : TreeEntry Oid := { mode, filename, oid }

section

variable (editor : TreeEditor Oid)

def upsert (path : Text) (oid : Oid) : GitM Oid (TreeEditor Oid) := do
  let components ← splitPath path
  let parentDirs := components.dropLast
  let filename := components.getLastD []
  let (_, loaded) ← ensurePathLoaded true [] parentDirs editor
  pure (loaded.setLevel parentDirs
    ((loaded.levelOrEmpty parentDirs).insert filename (leafEntry .blob filename oid)))

def remove (path : Text) : GitM Oid (TreeEditor Oid) := do
  let components ← splitPath path
  let parentDirs := components.dropLast
  let filename := components.getLastD []
  let (present, loaded) ← ensurePathLoaded false [] parentDirs editor
  if present then
    match loaded.level parentDirs with
    | some entries => pure (loaded.setLevel parentDirs (entries.erase filename))
    | none => pure loaded
  else pure loaded

def dropBelow (parts : List Text) : TreeEditor Oid :=
  { editor with subtrees := editor.subtrees.retain fun key => ¬ parts <+: key }

def upsertSubtree (path : Text) (subtreeOid : Oid) :
    GitM Oid (TreeEditor Oid) := do
  let components ← splitPath path
  let parentDirs := components.dropLast
  let dirname := components.getLastD []
  let (_, loaded) ← ensurePathLoaded true [] parentDirs editor
  let placed := loaded.setLevel parentDirs
    ((loaded.levelOrEmpty parentDirs).insert dirname (leafEntry .tree dirname subtreeOid))
  pure (placed.dropBelow components)

end

def fromTree (treeOid : Oid) : GitM Oid (TreeEditor Oid) := do
  let root ← loadTreeEntries treeOid
  pure { root, subtrees := ∅ }

/-- The entries of one directory as they are written, its loaded children written by `child`. -/
def writeEntries (child : List Text → GitM Oid Oid) (editor : TreeEditor Oid) (dir : List Text) :
    List (Sigma fun _ : Text => TreeEntry Oid) → GitM Oid (List (TreeEntry Oid))
  | [] => pure []
  | ⟨name, entry⟩ :: rest =>
    if entry.isTree then
      match editor.subtrees.lookup (dir ++ [name]) with
      | some entries =>
        if entries.entries = [] then writeEntries child editor dir rest
        else do
          let childOid ← child (dir ++ [name])
          let written ← writeEntries child editor dir rest
          pure (leafEntry .tree name childOid :: written)
      | none => do
          let written ← writeEntries child editor dir rest
          pure (entry :: written)
    else do
      let written ← writeEntries child editor dir rest
      pure (entry :: written)

def writeSubtree (editor : TreeEditor Oid) : Nat → List Text → GitM Oid Oid
  | 0, _ => throw .unfinished
  | fuel + 1, dir =>
    match editor.level dir with
    | none => throw (.other ("subtree not found: " ++ String.ofList (Text.joined dir)))
    | some entries => do
        let written ← writeEntries (writeSubtree editor fuel) editor dir entries.entries
        writeObject (.tree (sortEntries written))

def depth (editor : TreeEditor Oid) : Nat := (editor.subtrees.keys.map List.length).foldr max 0

def write (editor : TreeEditor Oid) : GitM Oid Oid := writeSubtree editor (editor.depth + 1) []

end TreeEditor

def editorOf : Option Oid → GitM Oid (TreeEditor Oid)
  | none => pure TreeEditor.empty
  | some tree => TreeEditor.fromTree tree

section Flatten

def shouldDescend (pathFilter : Option (List Text)) (path : Text) : Bool :=
  match pathFilter with
  | none => true
  | some filters => filters.any fun filter => filter <+: path || path <+: filter

def shouldInclude (pathFilter : Option (List Text)) (path : Text) : Bool :=
  match pathFilter with
  | none => true
  | some filters => filters.any fun filter => filter <+: path

def entryPath (above : Text) (filename : Text) : Text :=
  if above = [] then filename else above ++ '/' :: filename

def visitEntry (pathFilter : Option (List Text)) (above : Text)
    (state : List (Text × Oid) × List (Text × Oid)) (entry : TreeEntry Oid) :
    List (Text × Oid) × List (Text × Oid) :=
  let path := entryPath above entry.filename
  if entry.isTree then
    if shouldDescend pathFilter path then ((path, entry.oid) :: state.1, state.2) else state
  else
    if shouldInclude pathFilter path then (state.1, state.2 ++ [(path, entry.oid)]) else state

def flattenLoop (pathFilter : Option (List Text)) :
    Nat → List (Text × Oid) → List (Text × Oid) → GitM Oid (List (Text × Oid))
  | _, [], result => pure result
  | 0, _ :: _, _ => throw .unfinished
  | fuel + 1, (above, oid) :: stack, result => do
      let entries ← loadTree oid
      let state := entries.foldl (visitEntry pathFilter above) (stack, result)
      flattenLoop pathFilter fuel state.1 state.2

/-- `fuel` bounds the directories that are opened. -/
def flatten (fuel : Nat) (treeOid : Oid) (pathFilter : Option (List Text)) :
    GitM Oid (List (Text × Oid)) := do
  let result ← flattenLoop pathFilter fuel [([], treeOid)] []
  pure (result.insertionSort fun first second => first.1 ≤ second.1)

end Flatten

section Lookup

abbrev TreeLookupCache (Oid : Type) := Table Oid (TreeEntries Oid)

def lookupStep (treeOid : Oid) (cache : TreeLookupCache Oid) :
    GitM Oid (TreeEntries Oid × TreeLookupCache Oid) :=
  match cache.lookup treeOid with
  | some entries => pure (entries, cache)
  | none => do
      let loaded ← loadTreeEntries treeOid
      pure (loaded, cache.insert treeOid loaded)

def lookupParts : List Text → Oid → TreeLookupCache Oid →
    GitM Oid (Option (Oid × EntryKind) × TreeLookupCache Oid)
  | [], _, cache => pure (none, cache)
  | component :: rest, treeOid, cache =>
    if component = [] then throw (.other "empty path component")
    else do
      let (entries, cache) ← lookupStep treeOid cache
      match entries.lookup component with
      | some entry =>
        if rest = [] then pure (some (entry.oid, entry.mode), cache)
        else if entry.isTree then lookupParts rest entry.oid cache
        else pure (none, cache)
      | none => pure (none, cache)

def lookupCached (treeOid : Oid) (path : Text) (cache : TreeLookupCache Oid) :
    GitM Oid (Option (Oid × EntryKind) × TreeLookupCache Oid) :=
  if path = [] then throw (.other "empty path") else lookupParts path.components treeOid cache

def lookup (treeOid : Oid) (path : Text) : GitM Oid (Option (Oid × EntryKind)) := do
  let (found, _) ← lookupCached treeOid path ∅
  pure found

end Lookup

end LoginomDock.Git
