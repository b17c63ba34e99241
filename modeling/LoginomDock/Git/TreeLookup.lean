import Mathlib.Logic.Relation
import LoginomDock.Git.TreeLoading

namespace LoginomDock.Git

variable {Oid : Type} [DecidableEq Oid] [ObjectHash Oid]

def storedEntryAt (objects : Objects Oid) : Oid → PathMap Text (TreeEntry Oid)
  | _, [] => none
  | oid, name :: rest =>
    match (storedEntries objects oid).lookup name with
    | none => none
    | some entry =>
      if rest = [] then some entry
      else if entry.isTree then storedEntryAt objects entry.oid rest else none

section StoredEntryAt

variable {objects : Objects Oid}

theorem storedLeaves_eq_entryAt (oid : Oid) (path : List Text) :
    storedLeaves objects oid path = (storedEntryAt objects oid path).filter fun entry => !entry.isTree := by
  induction path generalizing oid with
  | nil => rfl
  | cons name rest ih =>
    simp only [storedLeaves, storedEntryAt]
    rcases (storedEntries objects oid).lookup name with _ | entry
    · rfl
    · by_cases last : rest = []
      · by_cases isTree : entry.isTree <;> simp [last, isTree, storedLeaves, Option.filter]
      · by_cases isTree : entry.isTree <;> simp [last, isTree, ih]

theorem storedEntryAt_of_below {oid : Oid} {path below : List Text} (nonempty : path ≠ [])
    (present : storedLeaves objects oid (path ++ below) ≠ none) :
    storedEntryAt objects oid path ≠ none := by
  induction path generalizing oid with
  | nil => exact absurd rfl nonempty
  | cons name rest ih =>
    simp only [List.cons_append, storedLeaves] at present
    simp only [storedEntryAt]
    rcases found : (storedEntries objects oid).lookup name with _ | entry <;> rw [found] at present
    · exact absurd rfl present
    · by_cases last : rest = []
      · simp [last]
      · by_cases isTree : entry.isTree
        · simp only [isTree, if_true] at present
          simpa [last, isTree] using ih last present
        · simp [isTree, last] at present

theorem storedLeaves_below_leaf {oid : Oid} {path below : List Text} {entry : TreeEntry Oid}
    (leaf : storedLeaves objects oid path = some entry) (more : below ≠ []) :
    storedLeaves objects oid (path ++ below) = none := by
  induction path generalizing oid with
  | nil => cases leaf
  | cons name rest ih =>
    simp only [storedLeaves] at leaf
    simp only [List.cons_append, storedLeaves]
    rcases found : (storedEntries objects oid).lookup name with _ | source
    · rfl
    · by_cases isTree : source.isTree
      · simp only [found, isTree, if_true] at leaf ⊢
        exact ih leaf
      · simp [isTree, more]

end StoredEntryAt

section Acyclic

-- One directory lists the other as a subdirectory.
def Child (objects : Objects Oid) (parent child : Oid) : Prop :=
  ∃ name entry, (storedEntries objects parent).lookup name = some entry ∧ entry.isTree ∧ entry.oid = child

open Relation

theorem TreeStored.not_below_itself {objects : Objects Oid} {oid : Oid} (stored : TreeStored objects oid) :
    ¬ TransGen (Child objects) oid oid := by
  induction stored with
  | intro oid entries found wellFormed _ ih =>
    intro cycle
    obtain ⟨child, step, rest⟩ := TransGen.head'_iff.mp cycle
    obtain ⟨name, entry, present, isTree, rfl⟩ := step
    have member := ((TreeStored.lookup_iff found wellFormed name entry).mp present).1
    exact ih entry member isTree (TransGen.tail' rest ⟨name, entry, present, isTree, rfl⟩)

end Acyclic

section Cached

variable {objects : Objects Oid} {tree : Oid} {dropped : Text → Prop} {repo : Repository Oid}

section

variable (objects : Objects Oid) (tree : Oid) (dropped : Text → Prop)

def EntriesAgree (oid : Oid)
    (entries : TreeEntries Oid) : Prop :=
  ∀ name, entries.lookup name = (storedEntries objects oid).lookup name ∨
    oid = tree ∧ dropped name ∧ entries.lookup name = none

def CacheAgrees (cache : TreeLookupCache Oid) : Prop :=
  ∀ oid entries, cache.lookup oid = some entries → EntriesAgree objects tree dropped oid entries

end

variable {cache : TreeLookupCache Oid}

theorem exec_lookupStep (extend : Extends objects repo.objects) {oid : Oid} (stored : TreeStored objects oid) (agrees : CacheAgrees objects tree dropped cache) :
    ∃ entries next, (lookupStep oid cache).exec repo = (.ok (entries, next), repo) ∧
      EntriesAgree objects tree dropped oid entries ∧ CacheAgrees objects tree dropped next := by
  rw [lookupStep]
  rcases cached : cache.lookup oid with _ | entries
  · have loaded : storedEntries repo.objects oid = storedEntries objects oid :=
      stored.storedEntries_mono extend
    refine ⟨storedEntries objects oid, cache.insert oid (storedEntries objects oid), ?_,
      fun _ => .inl rfl, ?_⟩
    · rw [GitM.exec_bind_ok (exec_loadTreeEntries (stored.mono extend)), loaded]
      rfl
    · intro other entries found
      rw [Table.lookup_insert_if] at found
      split at found
      next same =>
        cases found
        rw [same]
        exact fun _ => .inl rfl
      next => exact agrees other entries found
  · exact ⟨entries, cache, rfl, agrees oid entries cached, agrees⟩

open Relation

section

variable (extend : Extends objects repo.objects) (root : TreeStored objects tree)

include extend root

theorem exec_lookupParts (parts : List Text) (names : ∀ part ∈ parts, part ≠ []) {oid : Oid} (stored : TreeStored objects oid)
    (reached : ReflTransGen (Child objects) tree oid)
    (fits : oid = tree → ∀ name rest, parts = name :: rest → dropped name →
      rest ≠ [] ∧ ∀ entry, (storedEntries objects tree).lookup name = some entry → ¬ entry.isTree) (agrees : CacheAgrees objects tree dropped cache) :
    ∃ next, (lookupParts parts oid cache).exec repo =
        (.ok ((storedEntryAt objects oid parts).map fun entry => (entry.oid, entry.mode), next), repo) ∧
      CacheAgrees objects tree dropped next := by
  induction parts generalizing oid cache with
  | nil => exact ⟨cache, rfl, agrees⟩
  | cons name rest ih =>
    obtain ⟨entries, next, step, right, agreesNext⟩ := exec_lookupStep extend stored agrees
    rw [lookupParts, if_neg (names name (by simp)), GitM.exec_bind_ok step]
    rcases right name with same | ⟨atRoot, missing, absent⟩
    · rw [storedEntryAt, ← same]
      rcases found : entries.lookup name with _ | entry
      · exact ⟨next, by simp [found], agreesNext⟩
      · by_cases last : rest = []
        · exact ⟨next, by simp [found, last], agreesNext⟩
        · by_cases isTree : entry.isTree
          · have child : Child objects oid entry.oid := ⟨name, entry, same ▸ found, isTree, rfl⟩
            have below : TransGen (Child objects) tree entry.oid := TransGen.tail' reached child
            simp only [found, last, isTree, if_false, if_true]
            refine ih (fun part member => names part (by simp [member]))
              (stored.lookup_tree (same ▸ found) isTree) below.to_reflTransGen ?_ agreesNext
            intro atRoot
            exact absurd (atRoot ▸ below) root.not_below_itself
          · exact ⟨next, by simp [found, last, isTree], agreesNext⟩
    · obtain ⟨more, notTree⟩ := fits atRoot name rest rfl missing
      refine ⟨next, ?_, agreesNext⟩
      rw [storedEntryAt, atRoot]
      rcases found : (storedEntries objects tree).lookup name with _ | entry
      · simp [absent]
      · simp [absent, more, notTree entry found]

theorem exec_lookupCached {path : Text} (valid : Text.IsPath path.components)
    (fits : ∀ name rest, path.components = name :: rest → dropped name →
      rest ≠ [] ∧ ∀ entry, (storedEntries objects tree).lookup name = some entry → ¬ entry.isTree) (agrees : CacheAgrees objects tree dropped cache) :
    ∃ next, (lookupCached tree path cache).exec repo =
        (.ok ((storedEntryAt objects tree path.components).map fun entry => (entry.oid, entry.mode), next),
          repo) ∧
      CacheAgrees objects tree dropped next := by
  have nonempty : path ≠ [] := by
    rintro rfl
    exact (valid.2 [] (by simp [Text.components])).1 rfl
  rw [lookupCached, if_neg nonempty]
  exact exec_lookupParts extend root _ (fun part member => (valid.2 part member).1) root .refl
    (fun _ => fits) agrees

end

end Cached

namespace TreeEditor

variable {objects after : Objects Oid} {editor : TreeEditor Oid}

theorem leaves_mono (sound : Sound objects editor) (extend : Extends objects after) :
    leaves after editor = leaves objects editor := by
  have walk : ∀ dir path, leavesFrom after editor dir path = leavesFrom objects editor dir path := by
    intro dir path
    induction path generalizing dir with
    | nil => rfl
    | cons name rest ih =>
      simp only [leavesFrom]
      rcases found : editor.entryAt dir name with _ | entry
      · rfl
      · by_cases isTree : entry.isTree
        · by_cases loaded : dir ++ [name] ∈ editor.subtrees
          · simp only [isTree, loaded, if_true]
            exact ih _
          · simp only [isTree, loaded, if_true, if_false]
            rw [(sound.stored dir name entry found isTree loaded).storedLeaves_mono extend]
        · simp only [isTree, Bool.false_eq_true, if_false]
  funext path
  exact walk [] path

theorem listed_of_no_stale {dir : List Text} (fresh : ∀ key, key <+: dir → ¬ Stale editor key) :
    Listed editor dir := by
  by_contra unlisted
  simp only [Listed] at unlisted
  push Not at unlisted
  obtain ⟨above, name, inside, member, stale⟩ := unlisted
  exact fresh _ inside ⟨above, name, rfl, member, fun entry found => stale entry found⟩

end TreeEditor

end LoginomDock.Git
