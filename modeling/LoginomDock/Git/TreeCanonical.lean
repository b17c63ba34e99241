import LoginomDock.Git.TreeRefinement

namespace LoginomDock.Git

open List Repository TreeEditor Option TreeStored

variable {Oid : Type} [DecidableEq Oid] [ObjectHash Oid]

def NoEmptySubtree (objects : Objects Oid) (oid : Oid) : Prop :=
  ∀ path, path ≠ [] → storedContent objects oid path = some .directory →
    ∃ name, (storedContent objects oid (path ++ [name])).isSome

def Solid (objects : Objects Oid) (oid : Oid) : Prop :=
  NoEmptySubtree objects oid ∧ ∃ name, (storedContent objects oid [name]).isSome

section Stored

variable {objects : Objects Oid} {oid : Oid} {entry : TreeEntry Oid} {name : Text}

theorem storedContent_tree
    (found : (storedEntries objects oid).lookup name = some entry) (isTree : entry.isTree)
    (rest : List Text) : storedContent objects oid (name :: rest) = storedContent objects entry.oid rest := by
  simp [storedContent, found, isTree]

theorem storedContent_leaf
    (found : (storedEntries objects oid).lookup name = some entry) (notTree : ¬ entry.isTree)
    (rest : List Text) :
    storedContent objects oid (name :: rest) = if rest = [] then some (.leaf entry) else none := by
  simp [storedContent, found, notTree]

theorem storedContent_missing (missing : (storedEntries objects oid).lookup name = none)
    (rest : List Text) : storedContent objects oid (name :: rest) = none := by
  simp [storedContent, missing]

theorem storedContent_shorter {path rest : List Text}
    (present : storedContent objects oid (path ++ rest) ≠ none) : storedContent objects oid path ≠ none := by
  induction path generalizing oid with
  | nil => simp [storedContent]
  | cons name path ih =>
    rw [cons_append] at present
    rcases found : (storedEntries objects oid).lookup name with _ | entry
    · rw [storedContent_missing found] at present
      exact absurd rfl present
    · by_cases isTree : entry.isTree
      · rw [storedContent_tree found isTree] at present ⊢
        exact ih present
      · rw [storedContent_leaf found isTree] at present ⊢
        split at present
        next last => simp [(append_eq_nil_iff.mp last).1]
        next => exact absurd rfl present

theorem storedContent_above_leaf {path rest : List Text} (more : rest ≠ [])
    (present : storedLeaves objects oid (path ++ rest) ≠ none) :
    storedContent objects oid path = some .directory := by
  induction path generalizing oid with
  | nil => rfl
  | cons name path ih =>
    rw [cons_append] at present
    simp only [storedLeaves] at present
    rcases found : (storedEntries objects oid).lookup name with _ | entry
    · simp [found] at present
    · by_cases isTree : entry.isTree
      · rw [storedContent_tree found isTree]
        exact ih (by simpa [found, isTree] using present)
      · simp [found, isTree, more] at present

theorem NoEmptySubtree.solid_below (noEmpty : NoEmptySubtree objects oid) (found : (storedEntries objects oid).lookup name = some entry)
    (isTree : entry.isTree) : Solid objects entry.oid := by
  constructor
  · intro path nonempty directory
    obtain ⟨last, present⟩ := noEmpty (name :: path) (by simp) (by
      rw [storedContent_tree found isTree, directory])
    exact ⟨last, by rwa [cons_append, storedContent_tree found isTree] at present⟩
  · obtain ⟨last, present⟩ := noEmpty [name] (by simp) (by
      rw [storedContent_tree found isTree]
      rfl)
    exact ⟨last, by rwa [singleton_append, storedContent_tree found isTree] at present⟩

theorem Solid.inherited (objects : Objects Oid) : Inherited objects (Solid objects) :=
  fun _ _ _ solid found isTree => solid.1.solid_below found isTree

section

variable (stored : TreeStored objects oid)

include stored

theorem TreeStored.leaf_of_solid (solid : Solid objects oid) :
    ∃ path, path ≠ [] ∧ storedLeaves objects oid path ≠ none := by
  induction stored with
  | intro oid entries present wellFormed below ih =>
    obtain ⟨noEmpty, name, listed⟩ := solid
    rcases found : (storedEntries objects oid).lookup name with _ | entry
    · simp [storedContent_missing found] at listed
    · by_cases isTree : entry.isTree
      · have member := ((lookup_iff present wellFormed _ _).mp found).1
        obtain ⟨path, nonempty, leaf⟩ := ih entry member isTree
          (noEmpty.solid_below found isTree)
        exact ⟨name :: path, by simp, by simpa [storedLeaves, found, isTree] using leaf⟩
      · exact ⟨[name], by simp, by simp [storedLeaves, found, isTree]⟩

theorem TreeStored.leaf_below (noEmpty : NoEmptySubtree objects oid)
    {path : List Text} (nonempty : path ≠ []) (directory : storedContent objects oid path = some .directory) :
    ∃ rest, rest ≠ [] ∧ storedLeaves objects oid (path ++ rest) ≠ none := by
  induction path generalizing oid with
  | nil => exact absurd rfl nonempty
  | cons name path ih =>
    rcases found : (storedEntries objects oid).lookup name with _ | entry
    · simp [storedContent_missing found] at directory
    · by_cases isTree : entry.isTree
      · have solid := noEmpty.solid_below found isTree
        have below := stored.lookup_tree found isTree
        rw [storedContent_tree found isTree] at directory
        by_cases last : path = []
        · obtain ⟨rest, more, leaf⟩ := below.leaf_of_solid solid
          exact ⟨rest, more, by simpa [last, storedLeaves, found, isTree] using leaf⟩
        · obtain ⟨rest, more, leaf⟩ := ih below solid.1 last directory
          exact ⟨rest, more, by simpa [storedLeaves, found, isTree] using leaf⟩
      · rw [storedContent_leaf found isTree] at directory
        split at directory <;> cases directory

theorem TreeStored.leaf_filename {path : List Text} (found : storedLeaves objects oid path = some entry) :
    entry.filename = path.getLastD [] := by
  induction path generalizing oid with
  | nil => cases found
  | cons name rest ih =>
    simp only [storedLeaves] at found
    split at found
    · cases found
    next source present =>
      split at found
      next isTree =>
        have deeper := ih (stored.lookup_tree present isTree) found
        have more : rest ≠ [] := by
          rintro rfl
          cases found
        rw [deeper, getLastD_cons, getLastD_eq_getLast?, getLastD_eq_getLast?,
          getLast?_eq_some_getLast more, getD_some, getD_some]
      next =>
        split at found
        next last =>
          cases found
          rw [last]
          exact (stored.lookup_named present).1
        next => cases found

end

end Stored

section Unique

variable {objects other : Objects Oid}

theorem filename_eq_of_sortKey {first second : TreeEntry Oid} (nameFirst : Text.IsName first.filename)
    (nameSecond : Text.IsName second.filename) (same : first.sortKey = second.sortKey) :
    first.filename = second.filename := by
  by_cases left : first.isTree <;> by_cases right : second.isTree <;>
    simp only [TreeEntry.sortKey, left, right, Bool.false_eq_true, if_true, if_false] at same
  · exact append_cancel_right same
  · exact absurd (same ▸ by simp) nameSecond.2
  · exact absurd (same ▸ by simp) nameFirst.2
  · exact same

theorem WellFormedEntries.eq_of_mem_iff {first second : List (TreeEntry Oid)}
    (left : WellFormedEntries first) (right : WellFormedEntries second)
    (same : ∀ entry, entry ∈ first ↔ entry ∈ second) : first = second := by
  have perm : first.Perm second :=
    (perm_ext_iff_of_nodup left.distinct.of_map right.distinct.of_map).mpr same
  refine perm.eq_of_pairwise ?_ left.sorted right.sorted
  intro a b inFirst inSecond forward backward
  apply inj_on_of_nodup_map right.distinct ((same a).mp inFirst) inSecond
  exact filename_eq_of_sortKey (left.names a inFirst) (right.names b inSecond)
    (le_antisymm forward backward)

theorem TreeStored.eq_of_content (addressed : Addressed objects) (otherAddressed : Addressed other)
    {first second : Oid} (stored : TreeStored objects first) (otherStored : TreeStored other second)
    (same : storedContent objects first = storedContent other second) : first = second := by
  induction stored generalizing second with
  | intro first entries found wellFormed below ih =>
    cases otherStored with
    | intro _ others present otherWellFormed otherBelow =>
      have lookup := lookup_iff found wellFormed
      have otherLookup := lookup_iff present otherWellFormed
      -- the two directories list the same entry under each name
      have agree : ∀ name, (storedEntries objects first).lookup name =
          (storedEntries other second).lookup name := by
        intro name
        have here := congrFun same [name]
        rcases left : (storedEntries objects first).lookup name with _ | entry
        · rw [storedContent_missing left] at here
          rcases right : (storedEntries other second).lookup name with _ | source
          · rfl
          · by_cases isTree : source.isTree
            · rw [storedContent_tree right isTree] at here
              cases here
            · rw [storedContent_leaf right isTree] at here
              cases here
        · rcases right : (storedEntries other second).lookup name with _ | source
          · rw [storedContent_missing right] at here
            by_cases isTree : entry.isTree
            · rw [storedContent_tree left isTree] at here
              cases here
            · rw [storedContent_leaf left isTree] at here
              cases here
          · by_cases isTree : entry.isTree
            · by_cases otherTree : source.isTree
              · obtain ⟨listed, filename⟩ := (lookup name entry).mp left
                obtain ⟨otherListed, otherFilename⟩ := (otherLookup name source).mp right
                have oids : entry.oid = source.oid := by
                  apply ih entry listed isTree (otherBelow source otherListed otherTree)
                  funext rest
                  have deeper := congrFun same (name :: rest)
                  rwa [storedContent_tree left isTree, storedContent_tree right otherTree] at deeper
                have modes : entry.mode = source.mode :=
                  (of_decide_eq_true isTree).trans (of_decide_eq_true otherTree).symm
                rw [Option.some.injEq]
                cases entry
                cases source
                simp_all
              · rw [storedContent_tree left isTree, storedContent_leaf right otherTree] at here
                cases here
            · by_cases otherTree : source.isTree
              · rw [storedContent_leaf left isTree, storedContent_tree right otherTree] at here
                cases here
              · rw [storedContent_leaf left isTree, storedContent_leaf right otherTree] at here
                cases here
                rfl
      have members : ∀ entry, entry ∈ entries ↔ entry ∈ others := by
        intro entry
        have left := lookup entry.filename entry
        have right := otherLookup entry.filename entry
        rw [agree] at left
        constructor
        · exact fun member => (right.mp (left.mpr ⟨member, rfl⟩)).1
        · exact fun member => (left.mp (right.mpr ⟨member, rfl⟩)).1
      rw [← addressed first _ found, ← otherAddressed second _ present,
        wellFormed.eq_of_mem_iff otherWellFormed members]

theorem TreeStored.content_unique (addressed : Addressed objects) (otherAddressed : Addressed other)
    {oid : Oid} (stored : TreeStored objects oid) (otherStored : TreeStored other oid) :
    storedContent objects oid = storedContent other oid := by
  induction stored with
  | intro oid entries found wellFormed below ih =>
    cases otherStored with
    | intro _ others present otherWellFormed otherBelow =>
      have equal : entries = others := by
        have := ObjectHash.computeHash_injective
          ((addressed oid _ found).trans (otherAddressed oid _ present).symm)
        exact GitObject.tree.inj this
      subst equal
      have entriesAgree : storedEntries objects oid = storedEntries other oid := by
        simp [storedEntries, found, present]
      funext path
      cases path with
      | nil => rfl
      | cons name rest =>
        simp only [storedContent, ← entriesAgree]
        rcases listed : (storedEntries objects oid).lookup name with _ | entry
        · rfl
        · by_cases isTree : entry.isTree
          · have member := ((lookup_iff found wellFormed _ _).mp listed).1
            simp only [isTree, if_true]
            rw [ih entry member isTree (otherBelow entry member isTree)]
          · simp [isTree]

theorem content_eq_of_leaves {first second : Oid} (stored : TreeStored objects first)
    (otherStored : TreeStored other second) (noEmpty : NoEmptySubtree objects first)
    (otherNoEmpty : NoEmptySubtree other second)
    (same : storedLeaves objects first = storedLeaves other second) :
    storedContent objects first = storedContent other second := by
  have directory : ∀ path, storedContent objects first path = some .directory ↔
      storedContent other second path = some .directory := by
    intro path
    by_cases root : path = []
    · simp [root, storedContent]
    · constructor
      · intro here
        obtain ⟨rest, more, leaf⟩ := stored.leaf_below noEmpty root here
        exact storedContent_above_leaf more (same ▸ leaf)
      · intro here
        obtain ⟨rest, more, leaf⟩ := otherStored.leaf_below otherNoEmpty root here
        exact storedContent_above_leaf more (same ▸ leaf)
  funext path
  have leaves := congrFun same path
  rw [storedLeaves_eq, storedLeaves_eq] at leaves
  have dirs := directory path
  generalize storedContent objects first path = here at leaves dirs ⊢
  generalize storedContent other second path = there at leaves dirs ⊢
  rcases here with _ | _ | entry <;> rcases there with _ | _ | source <;> simp_all [Content.asLeaf]

end Unique

-- An in-memory directory below the root that has entries but no file at any depth.
structure TreeEditor.Hollow (objects : Objects Oid) (editor : TreeEditor Oid) (dir : List Text) : Prop where
  nonroot : dir ≠ []
  visible : editor.Visible dir
  entries : ∃ name entry, editor.entryAt dir name = some entry
  noFiles : ∀ path, editor.leaves objects (dir ++ path) = none

section Hollow

open TreeEditor

variable {objects : Objects Oid} {editor : TreeEditor Oid}

theorem nonempty_of_entryAt {dir : List Text} {entries : TreeEntries Oid} {name : Text}
    {entry : TreeEntry Oid} (loaded : editor.subtrees.lookup dir = some entries) (nonroot : dir ≠ [])
    (found : editor.entryAt dir name = some entry) : entries.entries ≠ [] := by
  intro empty
  have none : entries = ∅ := AList.ext empty
  simp [entryAt, level_of_ne_nil editor nonroot, loaded, none] at found

theorem contentFrom_visible {dir : List Text} (visible : Visible editor dir)
    (entries : ∃ name entry, editor.entryAt dir name = some entry) (path : List Text) :
    contentFrom objects editor [] (dir ++ path) = contentFrom objects editor dir path := by
  induction dir using List.reverseRecOn generalizing path with
  | nil => rfl
  | append_singleton before name ih =>
    obtain ⟨above, loaded, entry, found, isTree⟩ := visible_concat.mp visible
    obtain ⟨child, level⟩ := isSome_iff_exists.mp (AList.lookup_isSome.mpr loaded)
    obtain ⟨last, inner, present⟩ := entries
    have nonempty := nonempty_of_entryAt level (by simp) present
    rw [append_assoc, ih above ⟨name, entry, found⟩]
    simp [contentFrom, found, isTree, level, nonempty]

theorem contentFrom_shorter {dir path : List Text} (rest : List Text)
    (present : contentFrom objects editor dir (path ++ rest) ≠ none) :
    contentFrom objects editor dir path ≠ none := by
  induction path generalizing dir with
  | nil => simp [contentFrom]
  | cons name path ih =>
    simp only [cons_append, contentFrom] at present ⊢
    split at present
    · exact absurd rfl present
    next entry found =>
      split at present
      next isTree =>
        simp only [isTree, if_true]
        split at present
        next entries loaded =>
          split at present
          · exact absurd rfl present
          next nonempty =>
            simp only [nonempty, if_false]
            exact ih present
        next absent => exact storedContent_shorter present
      next notTree =>
        split at present
        next last => simp [notTree, (append_eq_nil_iff.mp last).1]
        next => exact absurd rfl present

theorem child_or_visible (solid : Unloaded (Solid objects) editor) {dir path : List Text}
    (visible : Visible editor dir) (nonempty : path ≠ [])
    (directory : contentFrom objects editor dir path = some .directory) :
    (∃ name, (contentFrom objects editor dir (path ++ [name])).isSome) ∨
      (Visible editor (dir ++ path) ∧ ∃ name entry, editor.entryAt (dir ++ path) name = some entry) := by
  induction path generalizing dir with
  | nil => exact absurd rfl nonempty
  | cons name path ih =>
    simp only [contentFrom] at directory
    split at directory
    · cases directory
    next entry found =>
      split at directory
      next isTree =>
        split at directory
        next entries loaded =>
          split at directory
          · cases directory
          next filled =>
            have present : dir ++ [name] ∈ editor.subtrees := AList.lookup_isSome.mp (by simp [loaded])
            have below : Visible editor (dir ++ [name]) :=
              visible_concat.mpr ⟨visible, present, entry, found, isTree⟩
            by_cases last : path = []
            · subst last
              right
              obtain ⟨item, rest, shape⟩ := exists_cons_of_ne_nil filled
              have listed : entries.lookup item.1 = some item.2 :=
                (Table.mem_entries_iff _ _ _).mp (by rw [shape]; simp)
              exact ⟨below, item.1, item.2, by simp [entryAt, level, loaded, listed]⟩
            · rcases ih below last directory with ⟨child, more⟩ | ⟨deeper, inner⟩
              · left
                exact ⟨child, by simpa [contentFrom, found, isTree, loaded, filled] using more⟩
              · right
                simpa using And.intro deeper inner
        next absent =>
          have trusted := solid dir name entry found isTree (AList.lookup_eq_none.mp absent)
          left
          by_cases last : path = []
          · subst last
            obtain ⟨child, more⟩ := trusted.2
            exact ⟨child, by simpa [contentFrom, found, isTree, absent] using more⟩
          · obtain ⟨child, more⟩ := trusted.1 path last directory
            exact ⟨child, by simpa [contentFrom, found, isTree, absent] using more⟩
      next =>
        split at directory <;> cases directory

theorem noEmptySubtree_iff (solid : Unloaded (Solid objects) editor) {store : Objects Oid} {oid : Oid}
    (stored : TreeStored store oid) (content : storedContent store oid = contentFrom objects editor []) :
    NoEmptySubtree store oid ↔ ∀ dir, ¬ Hollow objects editor dir := by
  have leavesAre := storedLeaves_of_content content
  constructor
  · intro noEmpty dir hollow
    have directory : storedContent store oid dir = some .directory := by
      have walked : contentFrom objects editor [] (dir ++ []) = some .directory :=
        contentFrom_visible hollow.visible hollow.entries []
      rwa [content, ← append_nil dir]
    obtain ⟨rest, -, leaf⟩ := stored.leaf_below noEmpty hollow.nonroot directory
    rw [leavesAre] at leaf
    exact leaf (hollow.noFiles rest)
  · intro noHollow path nonempty directory
    rw [content] at directory ⊢
    by_contra childless
    rcases child_or_visible solid (visible_nil editor) nonempty directory with child | ⟨visible, entries⟩
    · exact childless child
    · refine noHollow path ⟨nonempty, visible, entries, ?_⟩
      intro rest
      rw [leaves, leavesFrom_eq]
      cases rest with
      | nil => simp [directory, Content.asLeaf]
      | cons name rest =>
        rcases inside : contentFrom objects editor [] (path ++ name :: rest) with _ | leaf
        · rfl
        · exfalso
          apply childless
          refine ⟨name, isSome_iff_ne_none.mpr ?_⟩
          apply contentFrom_shorter rest
          simp [inside]

end Hollow

def Edit.Plain : Edit Oid → Prop
  | .upsertSubtree _ _ => False
  | _ => True

theorem exec_editorAfter_solid {repo : Repository Oid} (addressed : Addressed repo.objects)
    {base : Option Oid} (stored : BaseStored repo.objects base)
    (noEmpty : ∀ tree, base = some tree → NoEmptySubtree repo.objects tree) (edits : List (Edit Oid))
    (valid : ∀ edit ∈ edits, Text.IsPath edit.path.components ∧ edit.Plain) :
    ∃ editor, (editorAfter base edits).exec repo = (.ok editor, repo) ∧
      Sound repo.objects editor ∧ Unloaded (Solid repo.objects) editor := by
  induction edits using List.reverseRecOn with
  | nil =>
    obtain ⟨editor, success, sound, -⟩ := exec_editorOf stored
    refine ⟨editor, by rw [editorAfter, GitM.exec_bind_ok success]; rfl, sound, ?_⟩
    intro dir name entry found isTree _
    cases base with
    | none =>
      cases success
      by_cases root : dir = [] <;>
        simp [entryAt, level, root, TreeEditor.empty] at found
    | some tree =>
      rw [editorOf, fromTree, GitM.exec_bind_ok (exec_loadTreeEntries (stored tree rfl))] at success
      cases success
      by_cases root : dir = []
      · exact (noEmpty tree rfl).solid_below
          (by simpa [entryAt, level, root] using found) isTree
      · simp [entryAt, level, root] at found
  | append_singleton edits edit ih =>
    obtain ⟨before, success, sound, solid⟩ := ih fun other member => valid other (by simp [member])
    obtain ⟨isPath, plain⟩ := valid edit (by simp)
    rw [editorAfter_concat, GitM.exec_bind_ok success]
    cases edit with
    | upsert path oid =>
      obtain ⟨after, applied, soundAfter, -, -, unloaded, -⟩ :=
        exec_upsert addressed sound isPath oid
      exact ⟨after, applied, soundAfter, unloaded _ (Solid.inherited _) solid⟩
    | remove path =>
      obtain ⟨after, applied, soundAfter, -, unloaded, -⟩ := exec_remove addressed sound isPath
      exact ⟨after, applied, soundAfter, unloaded _ (Solid.inherited _) solid⟩
    | upsertSubtree => exact absurd plain id

def SameModes (first second : LeafMap Oid) : Prop :=
  ∀ path entry other, first path = some entry → second path = some other → entry.mode = other.mode

section Fresh

end Fresh

end LoginomDock.Git
