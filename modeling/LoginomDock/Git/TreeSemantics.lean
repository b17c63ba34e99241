import LoginomDock.Library.PathMap
import LoginomDock.Git.TreeEditor

/-! `storedLeaves` reads a stored tree as a map from paths to its non-directory entries, and `TreeEditor.leaves` does so
for an editor. -/

namespace LoginomDock.Git

open List

variable {Oid : Type} [DecidableEq Oid] [ObjectHash Oid]

abbrev Objects (Oid : Type) := Oid → Option (GitObject Oid)

abbrev LeafMap (Oid : Type) := PathMap Text (TreeEntry Oid)

def fileMap (leaves : LeafMap Oid) : PathMap Text Oid := PathMap.mapValues TreeEntry.oid leaves

def storedEntries (objects : Objects Oid) (oid : Oid) : TreeEntries Oid :=
  match objects oid with
  | some (.tree entries) => collectEntries entries
  | _ => ∅

def storedLeaves (objects : Objects Oid) : Oid → LeafMap Oid
  | _, [] => none
  | oid, name :: rest =>
    match (storedEntries objects oid).lookup name with
    | none => none
    | some entry =>
      if entry.isTree then storedLeaves objects entry.oid rest
      else if rest = [] then some entry else none

inductive TreeStored (objects : Objects Oid) : Oid → Prop where
  | intro (oid : Oid) (entries : List (TreeEntry Oid)) (found : objects oid = some (.tree entries))
      (wellFormed : WellFormedEntries entries)
      (below : ∀ entry ∈ entries, entry.isTree → TreeStored objects entry.oid) :
      TreeStored objects oid

def Inherited (objects : Objects Oid) (trusted : Oid → Prop) : Prop :=
  ∀ oid name entry, trusted oid → (storedEntries objects oid).lookup name = some entry →
    entry.isTree → trusted entry.oid

section Entries

theorem lookup_foldl_insert (entries : List (TreeEntry Oid)) (table : TreeEntries Oid) (name : Text)
    (distinct : (entries.map TreeEntry.filename).Nodup) :
    (entries.foldl (fun table entry => table.insert entry.filename entry) table).lookup name =
      match entries.find? fun entry => entry.filename = name with
      | some entry => some entry
      | none => table.lookup name := by
  induction entries generalizing table with
  | nil => rfl
  | cons entry rest ih =>
    simp only [map_cons, nodup_cons] at distinct
    rw [foldl_cons, ih _ distinct.2, find?_cons]
    by_cases same : entry.filename = name
    · have absent : rest.find? (fun other => other.filename = name) = none := by
        rw [find?_eq_none]
        intro other member equal
        apply distinct.1
        rw [same, ← of_decide_eq_true equal]
        exact mem_map_of_mem member
      simp [absent, same]
    · have other : name ≠ entry.filename := fun equal => same equal.symm
      simp [same, other]

theorem lookup_collectEntries {entries : List (TreeEntry Oid)} {name : Text} {entry : TreeEntry Oid}
    (distinct : (entries.map TreeEntry.filename).Nodup) :
    (collectEntries entries).lookup name = some entry ↔ entry ∈ entries ∧ entry.filename = name := by
  rw [collectEntries, lookup_foldl_insert entries ∅ name distinct]
  constructor
  · intro found
    split at found
    next other located =>
      cases found
      exact ⟨mem_of_find?_eq_some located, by simpa using find?_some located⟩
    next => simp at found
  · rintro ⟨member, named⟩
    have located : entries.find? (fun other => other.filename = name) = some entry := by
      rcases result : entries.find? (fun other => other.filename = name) with _ | other
      · rw [find?_eq_none] at result
        exact absurd (by simpa using named) (result entry member)
      · have same : other.filename = name := by simpa using find?_some result
        have equal := inj_on_of_nodup_map distinct (mem_of_find?_eq_some result) member
          (same.trans named.symm)
        rw [result, equal]
    rw [located]

end Entries

namespace TreeStored

variable {before after : Objects Oid} {oid : Oid}

theorem mono (extend : Extends before after)
    (stored : TreeStored before oid) : TreeStored after oid := by
  induction stored with
  | intro oid entries found wellFormed _ ih =>
    exact .intro oid entries (extend _ _ found) wellFormed ih

variable {objects : Objects Oid}

theorem lookup_iff {entries : List (TreeEntry Oid)}
    (found : objects oid = some (.tree entries)) (wellFormed : WellFormedEntries entries) (name : Text)
    (entry : TreeEntry Oid) :
    (storedEntries objects oid).lookup name = some entry ↔ entry ∈ entries ∧ entry.filename = name := by
  simp only [storedEntries, found]
  exact lookup_collectEntries wellFormed.distinct

section

variable (stored : TreeStored objects oid) {name : Text} {entry : TreeEntry Oid}
  (found : (storedEntries objects oid).lookup name = some entry)

include stored found

theorem lookup_named :
    entry.filename = name ∧ Text.IsName name := by
  cases stored with
  | intro _ entries present wellFormed _ =>
    obtain ⟨member, named⟩ := (lookup_iff present wellFormed _ _).mp found
    exact ⟨named, named ▸ wellFormed.names entry member⟩

theorem lookup_tree (isTree : entry.isTree) : TreeStored objects entry.oid := by
  cases stored with
  | intro _ entries present wellFormed below =>
    exact below entry ((lookup_iff present wellFormed _ _).mp found).1 isTree

end

theorem inherited (objects : Objects Oid) : Inherited objects (TreeStored objects) :=
  fun _ _ _ stored found isTree => stored.lookup_tree found isTree

theorem storedEntries_mono (extend : Extends before after)
    (stored : TreeStored before oid) : storedEntries after oid = storedEntries before oid := by
  cases stored with
  | intro _ entries found _ _ => simp only [storedEntries, found, extend _ _ found]

theorem storedLeaves_mono (extend : Extends before after)
    (stored : TreeStored before oid) : storedLeaves after oid = storedLeaves before oid := by
  funext path
  induction path generalizing oid with
  | nil => rfl
  | cons name rest ih =>
    simp only [storedLeaves, storedEntries_mono extend stored]
    rcases found : (storedEntries before oid).lookup name with _ | entry
    · rfl
    · by_cases isTree : entry.isTree
      · simp only [isTree, if_true]
        exact ih (stored.lookup_tree found isTree)
      · simp only [isTree, Bool.false_eq_true, if_false]

end TreeStored

theorem exec_loadTree {repo : Repository Oid} {oid : Oid} {entries : List (TreeEntry Oid)}
    (found : repo.objects oid = some (.tree entries)) : (loadTree oid).exec repo = (.ok entries, repo) := by
  rw [loadTree, GitM.exec_bind_ok (exec_readObject found)]
  rfl

theorem exec_loadTreeEntries {repo : Repository Oid} {oid : Oid} (stored : TreeStored repo.objects oid) :
    (loadTreeEntries oid).exec repo = (.ok (storedEntries repo.objects oid), repo) := by
  cases stored with
  | intro _ entries found _ _ =>
    rw [loadTreeEntries, GitM.exec_bind_ok (exec_loadTree found)]
    simp [storedEntries, found]

theorem storedEntries_emptyTree {objects : Objects Oid} (addressed : Addressed objects)
    (stored : TreeStored objects emptyTree) : storedEntries objects (emptyTree : Oid) = ∅ := by
  cases stored with
  | intro _ entries found _ _ =>
    have same : GitObject.tree entries = GitObject.tree [] :=
      ObjectHash.computeHash_injective (addressed _ _ found)
    cases same
    simp [storedEntries, found, collectEntries]

theorem not_treeStored_null {objects : Objects Oid} (addressed : Addressed objects) :
    ¬ TreeStored objects (ObjectHash.null : Oid) := by
  intro stored
  cases stored with
  | intro _ entries found _ _ => exact ObjectHash.computeHash_ne_null _ (addressed _ _ found)

namespace TreeEditor

def entryAt (editor : TreeEditor Oid) (dir : List Text) (name : Text) : Option (TreeEntry Oid) :=
  (editor.level dir).bind fun entries => entries.lookup name

def leavesFrom (objects : Objects Oid) (editor : TreeEditor Oid) : List Text → LeafMap Oid
  | _, [] => none
  | dir, name :: rest =>
    match editor.entryAt dir name with
    | none => none
    | some entry =>
      if entry.isTree then
        if dir ++ [name] ∈ editor.subtrees then leavesFrom objects editor (dir ++ [name]) rest
        else storedLeaves objects entry.oid rest
      else if rest = [] then some entry else none

def leaves (objects : Objects Oid) (editor : TreeEditor Oid) : LeafMap Oid := leavesFrom objects editor []

section

variable (editor : TreeEditor Oid)

/-- A directory that `write` reaches: every step of the way is in memory and listed as a directory. -/
def Visible (dir : List Text) : Prop :=
  ∀ above name, above ++ [name] <+: dir →
    above ++ [name] ∈ editor.subtrees ∧ ∃ entry, editor.entryAt above name = some entry ∧ entry.isTree

def Listed (dir : List Text) : Prop :=
  ∀ above name, above ++ [name] <+: dir → above ++ [name] ∈ editor.subtrees →
    ∃ entry, editor.entryAt above name = some entry ∧ entry.isTree

-- An in-memory directory that its parent no longer lists as a directory.
def Stale (key : List Text) : Prop :=
  ∃ above name, key = above ++ [name] ∧ key ∈ editor.subtrees ∧
    ∀ entry, editor.entryAt above name = some entry → ¬ entry.isTree

end

-- The directories that are not in memory are all trusted.
def Unloaded (trusted : Oid → Prop) (editor : TreeEditor Oid) : Prop :=
  ∀ dir name entry, editor.entryAt dir name = some entry → entry.isTree →
    dir ++ [name] ∉ editor.subtrees → trusted entry.oid

structure Sound (objects : Objects Oid) (editor : TreeEditor Oid) : Prop where
  keys : ∀ dir ∈ editor.subtrees, Text.IsPath dir
  closed : ∀ dir name, dir ++ [name] ∈ editor.subtrees → dir ≠ [] → dir ∈ editor.subtrees
  named : ∀ dir name entry, editor.entryAt dir name = some entry →
    entry.filename = name ∧ Text.IsName name
  stored : Unloaded (TreeStored objects) editor

variable (editor : TreeEditor Oid)

@[simp] theorem level_nil : editor.level [] = some editor.root := rfl

theorem level_of_ne_nil {dir : List Text} (below : dir ≠ []) :
    editor.level dir = editor.subtrees.lookup dir := if_neg below

theorem level_isSome (dir : List Text) :
    (editor.level dir).isSome ↔ dir = [] ∨ dir ∈ editor.subtrees := by
  by_cases root : dir = []
  · simp [root]
  · rw [level_of_ne_nil editor root, AList.lookup_isSome]
    simp [root]

variable (dir other : List Text) (entries : TreeEntries Oid)

theorem level_setLevel :
    (editor.setLevel dir entries).level other = if other = dir then some entries else editor.level other := by
  by_cases root : dir = [] <;> by_cases same : other = dir <;> by_cases otherRoot : other = [] <;>
    simp_all [setLevel, level, Table.lookup_insert_if]

theorem level_insertSubtree {dir : List Text} (below : dir ≠ [])
    (other : List Text) (entries : TreeEntries Oid) :
    (editor.insertSubtree dir entries).level other =
      if other = dir then some entries else editor.level other := by
  have same : editor.insertSubtree dir entries = editor.setLevel dir entries := by
    simp [insertSubtree, setLevel, below]
  rw [same, level_setLevel]

theorem mem_setLevel
    (loaded : (editor.level dir).isSome) :
    other ∈ (editor.setLevel dir entries).subtrees ↔ other ∈ editor.subtrees := by
  by_cases root : dir = []
  · simp [setLevel, root]
  · simp only [setLevel, root, if_false, AList.mem_insert]
    constructor
    · rintro (rfl | old)
      · exact ((level_isSome editor _).mp loaded).resolve_left root
      · exact old
    · exact Or.inr

theorem mem_insertSubtree :
    other ∈ (editor.insertSubtree dir entries).subtrees ↔ other = dir ∨ other ∈ editor.subtrees :=
  AList.mem_insert _

theorem entryAt_setLevel
    (name : Text) :
    (editor.setLevel dir entries).entryAt other name =
      if other = dir then entries.lookup name else editor.entryAt other name := by
  rw [entryAt, level_setLevel]
  split <;> rfl

theorem entryAt_insertSubtree {dir : List Text} (below : dir ≠ [])
    (other : List Text) (entries : TreeEntries Oid) (name : Text) :
    (editor.insertSubtree dir entries).entryAt other name =
      if other = dir then entries.lookup name else editor.entryAt other name := by
  rw [entryAt, level_insertSubtree editor below]
  split <;> rfl

end TreeEditor

end LoginomDock.Git
