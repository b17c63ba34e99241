import LoginomDock.Git.TreeSemantics

/-! `write` stores a tree with exactly the content of the editor, directories included, less the in-memory directories
without entries. -/

namespace LoginomDock.Git

open List TreeEntry

variable {Oid : Type} [DecidableEq Oid] [ObjectHash Oid]

inductive Content (Oid : Type) where
  | directory
  | leaf (entry : TreeEntry Oid)

def Content.asLeaf : Content Oid → Option (TreeEntry Oid)
  | .directory => none
  | .leaf entry => some entry

def storedContent (objects : Objects Oid) : Oid → PathMap Text (Content Oid)
  | _, [] => some .directory
  | oid, name :: rest =>
    match (storedEntries objects oid).lookup name with
    | none => none
    | some entry =>
      if entry.isTree then storedContent objects entry.oid rest
      else if rest = [] then some (.leaf entry) else none

def TreeEditor.contentFrom (objects : Objects Oid) (editor : TreeEditor Oid) :
    List Text → PathMap Text (Content Oid)
  | _, [] => some .directory
  | dir, name :: rest =>
    match editor.entryAt dir name with
    | none => none
    | some entry =>
      if entry.isTree then
        match editor.subtrees.lookup (dir ++ [name]) with
        | some entries =>
          if entries.entries = [] then none else contentFrom objects editor (dir ++ [name]) rest
        | none => storedContent objects entry.oid rest
      else if rest = [] then some (.leaf entry) else none

theorem storedLeaves_eq (objects : Objects Oid) (oid : Oid) (path : List Text) :
    storedLeaves objects oid path = (storedContent objects oid path).bind Content.asLeaf := by
  induction path generalizing oid with
  | nil => rfl
  | cons name rest ih =>
    simp only [storedLeaves, storedContent]
    rcases (storedEntries objects oid).lookup name with _ | entry
    · rfl
    · by_cases isTree : entry.isTree
      · simp only [isTree, if_true]
        exact ih entry.oid
      · by_cases last : rest = [] <;> simp [isTree, last, Content.asLeaf]

theorem TreeEditor.leavesFrom_eq (objects : Objects Oid) (editor : TreeEditor Oid) (dir path : List Text) :
    leavesFrom objects editor dir path = (contentFrom objects editor dir path).bind Content.asLeaf := by
  induction path generalizing dir with
  | nil => rfl
  | cons name rest ih =>
    simp only [leavesFrom, contentFrom]
    rcases editor.entryAt dir name with _ | entry
    · rfl
    · by_cases isTree : entry.isTree
      · rcases loaded : editor.subtrees.lookup (dir ++ [name]) with _ | entries
        · have absent : dir ++ [name] ∉ editor.subtrees := AList.lookup_eq_none.mp loaded
          simp only [isTree, if_true, absent, if_false]
          exact storedLeaves_eq objects entry.oid rest
        · have present : dir ++ [name] ∈ editor.subtrees := AList.lookup_isSome.mp (by simp [loaded])
          simp only [isTree, if_true, present]
          rw [ih]
          by_cases pruned : entries.entries = []
          · simp only [pruned, if_true]
            cases rest with
            | nil => rfl
            | cons next more =>
              have missing : editor.entryAt (dir ++ [name]) next = none := by
                have empty : entries = ∅ := AList.ext pruned
                simp [entryAt, level, loaded, empty]
              simp [contentFrom, missing]
          · simp only [pruned, if_false]
      · by_cases last : rest = [] <;> simp [isTree, last, Content.asLeaf]

theorem TreeStored.storedContent_mono {before after : Objects Oid} (extend : Extends before after)
    {oid : Oid} (stored : TreeStored before oid) : storedContent after oid = storedContent before oid := by
  funext path
  induction path generalizing oid with
  | nil => rfl
  | cons name rest ih =>
    simp only [storedContent, storedEntries_mono extend stored]
    rcases found : (storedEntries before oid).lookup name with _ | entry
    · rfl
    · by_cases isTree : entry.isTree
      · simp only [isTree, if_true]
        exact ih (stored.lookup_tree found isTree)
      · simp only [isTree, Bool.false_eq_true, if_false]

section Sorting

instance : Std.Total fun first second : TreeEntry Oid => first.sortKey ≤ second.sortKey :=
  ⟨fun first second => le_total first.sortKey second.sortKey⟩

instance : IsTrans (TreeEntry Oid) fun first second => first.sortKey ≤ second.sortKey :=
  ⟨fun _ _ _ => le_trans⟩

theorem mem_sortEntries {entries : List (TreeEntry Oid)} {entry : TreeEntry Oid} :
    entry ∈ sortEntries entries ↔ entry ∈ entries :=
  mem_insertionSort _

theorem wellFormed_sortEntries {entries : List (TreeEntry Oid)}
    (distinct : (entries.map filename).Nodup) (names : ∀ entry ∈ entries, Text.IsName entry.filename) :
    WellFormedEntries (sortEntries entries) where
  distinct := ((perm_insertionSort _ entries).map _).nodup_iff.mpr distinct
  names := fun entry member => names entry (mem_sortEntries.mp member)
  sorted := pairwise_insertionSort _ entries

end Sorting

structure Grown (before after : Repository Oid) : Prop where
  addressed : Addressed after.objects
  extend : Extends before.objects after.objects
  frame : after = { before with objects := after.objects }

namespace Grown

theorem refl {repo : Repository Oid} (addressed : Addressed repo.objects) : Grown repo repo :=
  ⟨addressed, Extends.refl _, rfl⟩

theorem trans {first second third : Repository Oid} (left : Grown first second) (right : Grown second third) :
    Grown first third :=
  ⟨right.addressed, left.extend.trans right.extend, by rw [right.frame, left.frame]⟩

theorem store {repo : Repository Oid} (addressed : Addressed repo.objects) (object : GitObject Oid) :
    Grown repo (repo.store object) :=
  ⟨Repository.store_addressed addressed object, Repository.store_extends addressed object, rfl⟩

end Grown

namespace TreeEditor

variable {objects : Objects Oid} {editor : TreeEditor Oid}

def entryContent (objects : Objects Oid) (editor : TreeEditor Oid) (dir : List Text)
    (entry : TreeEntry Oid) : PathMap Text (Content Oid) :=
  match editor.subtrees.lookup (dir ++ [entry.filename]) with
  | some _ => contentFrom objects editor (dir ++ [entry.filename])
  | none => storedContent objects entry.oid

structure WrittenAs (objects : Objects Oid) (editor : TreeEditor Oid) (dir : List Text)
    (store : Objects Oid) (entry out : TreeEntry Oid) : Prop where
  filename : out.filename = entry.filename
  mode : out.isTree = entry.isTree
  leaf : ¬ entry.isTree → out = entry
  stored : entry.isTree → TreeStored store out.oid
  content : entry.isTree → storedContent store out.oid = entryContent objects editor dir entry

theorem WrittenAs.mono {dir : List Text} {store after : Objects Oid} {entry out : TreeEntry Oid}
    (written : WrittenAs objects editor dir store entry out) (extend : Extends store after) :
    WrittenAs objects editor dir after entry out where
  filename := written.filename
  mode := written.mode
  leaf := written.leaf
  stored := fun isTree => (written.stored isTree).mono extend
  content := fun isTree => by
    rw [(written.stored isTree).storedContent_mono extend]
    exact written.content isTree

def Pruned (editor : TreeEditor Oid) (dir : List Text) (entry : TreeEntry Oid) : Prop :=
  entry.isTree ∧ editor.subtrees.lookup (dir ++ [entry.filename]) = some ∅

structure EntriesWritten (objects : Objects Oid) (editor : TreeEditor Oid) (dir : List Text)
    (store : Objects Oid) (entries outs : List (TreeEntry Oid)) : Prop where
  names : (outs.map filename).Sublist (entries.map filename)
  origin : ∀ out ∈ outs, ∃ entry ∈ entries, ¬ Pruned editor dir entry ∧
    WrittenAs objects editor dir store entry out
  covered : ∀ entry ∈ entries, ¬ Pruned editor dir entry →
    ∃ out ∈ outs, WrittenAs objects editor dir store entry out

def WritesDir (objects : Objects Oid) (editor : TreeEditor Oid) (dir : List Text)
    (program : GitM Oid Oid) : Prop :=
  ∀ repo : Repository Oid, Addressed repo.objects → Extends objects repo.objects →
    ∃ oid after, program.exec repo = (.ok oid, after) ∧ Grown repo after ∧
      TreeStored after.objects oid ∧ storedContent after.objects oid = contentFrom objects editor dir

section Write

variable {dir : List Text} {store : Objects Oid} {entries outs : List (TreeEntry Oid)}

theorem EntriesWritten.skip {entry : TreeEntry Oid}
    (written : EntriesWritten objects editor dir store entries outs) (pruned : Pruned editor dir entry) :
    EntriesWritten objects editor dir store (entry :: entries) outs where
  names := by
    rw [map_cons]
    exact written.names.cons _
  origin := fun out member => by
    obtain ⟨source, inside, kept, same⟩ := written.origin out member
    exact ⟨source, by simp [inside], kept, same⟩
  covered := fun source inside kept => by
    rcases mem_cons.mp inside with rfl | rest
    · exact absurd pruned kept
    · exact written.covered source rest kept

theorem EntriesWritten.keep {entry out : TreeEntry Oid} (written : EntriesWritten objects editor dir store entries outs)
    (kept : ¬ Pruned editor dir entry) (as : WrittenAs objects editor dir store entry out) :
    EntriesWritten objects editor dir store (entry :: entries) (out :: outs) where
  names := by
    rw [map_cons, map_cons, as.filename]
    exact written.names.cons_cons _
  origin := fun other member => by
    rcases mem_cons.mp member with rfl | rest
    · exact ⟨entry, by simp, kept, as⟩
    · obtain ⟨source, inside, stays, same⟩ := written.origin other rest
      exact ⟨source, by simp [inside], stays, same⟩
  covered := fun source inside stays => by
    rcases mem_cons.mp inside with rfl | rest
    · exact ⟨out, by simp, as⟩
    · obtain ⟨other, member, same⟩ := written.covered source rest stays
      exact ⟨other, by simp [member], same⟩

theorem exec_writeEntries (child : List Text → GitM Oid Oid)
    (items : List (Sigma fun _ : Text => TreeEntry Oid)) (named : ∀ item ∈ items, item.2.filename = item.1)
    (unloaded : ∀ item ∈ items, item.2.isTree → dir ++ [item.1] ∉ editor.subtrees →
      TreeStored objects item.2.oid)
    (children : ∀ item ∈ items, item.2.isTree → dir ++ [item.1] ∈ editor.subtrees →
      WritesDir objects editor (dir ++ [item.1]) (child (dir ++ [item.1])))
    {repo : Repository Oid} (addressed : Addressed repo.objects) (extend : Extends objects repo.objects) :
    ∃ outs after, (writeEntries child editor dir items).exec repo = (.ok outs, after) ∧ Grown repo after ∧
      EntriesWritten objects editor dir after.objects (items.map Sigma.snd) outs := by
  induction items generalizing repo with
  | nil => exact ⟨[], repo, rfl, .refl addressed, by simp, by simp, by simp⟩
  | cons item rest ih =>
    obtain ⟨name, entry⟩ := item
    have filename : entry.filename = name := named ⟨name, entry⟩ (by simp)
    have later := @ih (fun item member => named item (by simp [member]))
      (fun item member => unloaded item (by simp [member]))
      (fun item member => children item (by simp [member]))
    by_cases isTree : entry.isTree
    · rcases loaded : editor.subtrees.lookup (dir ++ [name]) with _ | entries
      · -- a directory that was never loaded keeps its object id
        obtain ⟨outs, after, success, grown, written⟩ := later addressed extend
        have absent : dir ++ [name] ∉ editor.subtrees := AList.lookup_eq_none.mp loaded
        have stored := unloaded ⟨name, entry⟩ (by simp) isTree absent
        refine ⟨entry :: outs, after, ?_, grown, written.keep ?_ ⟨rfl, rfl, fun _ => rfl, fun _ => ?_, fun _ => ?_⟩⟩
        · simp only [writeEntries, isTree, if_true, loaded]
          rw [GitM.exec_bind_ok success]
          rfl
        · rintro ⟨-, pruned⟩
          rw [filename, loaded] at pruned
          cases pruned
        · exact stored.mono (extend.trans grown.extend)
        · rw [stored.storedContent_mono (extend.trans grown.extend), entryContent, filename, loaded]
      · by_cases empty : entries.entries = []
        · obtain ⟨outs, after, success, grown, written⟩ := later addressed extend
          refine ⟨outs, after, ?_, grown, written.skip ⟨isTree, ?_⟩⟩
          · simp only [writeEntries, isTree, if_true, loaded, empty]
            exact success
          · rw [filename, loaded, show entries = ∅ from AList.ext empty]
        · have present : dir ++ [name] ∈ editor.subtrees := AList.lookup_isSome.mp (by simp [loaded])
          obtain ⟨oid, middle, first, grownFirst, stored, content⟩ :=
            children ⟨name, entry⟩ (by simp) isTree present repo addressed extend
          obtain ⟨outs, after, success, grown, written⟩ :=
            later grownFirst.addressed (extend.trans grownFirst.extend)
          refine ⟨leafEntry .tree name oid :: outs, after, ?_, grownFirst.trans grown, written.keep ?_
            ⟨filename.symm, isTree.symm, fun notTree => absurd isTree notTree, fun _ => ?_, fun _ => ?_⟩⟩
          · simp only [writeEntries, isTree, if_true, loaded, empty, if_false]
            rw [GitM.exec_bind_ok first, GitM.exec_bind_ok success]
            rfl
          · rintro ⟨-, pruned⟩
            rw [filename, loaded, Option.some.injEq] at pruned
            exact empty (by rw [pruned]; rfl)
          · exact stored.mono grown.extend
          · rw [leafEntry, stored.storedContent_mono grown.extend, content, entryContent, filename, loaded]
    · obtain ⟨outs, after, success, grown, written⟩ := later addressed extend
      refine ⟨entry :: outs, after, ?_, grown, written.keep (fun pruned => isTree pruned.1)
        ⟨rfl, rfl, fun _ => rfl, fun tree => absurd tree isTree, fun tree => absurd tree isTree⟩⟩
      simp only [writeEntries, isTree, Bool.false_eq_true, if_false]
      rw [GitM.exec_bind_ok success]
      rfl

theorem EntriesWritten.storedContent_eq {entries : TreeEntries Oid}
    {outs : List (TreeEntry Oid)} {oid : Oid} (level : editor.level dir = some entries)
    (named : ∀ name entry, entries.lookup name = some entry → entry.filename = name)
    (written : EntriesWritten objects editor dir store (entries.entries.map Sigma.snd) outs)
    (lookup : ∀ name out, (storedEntries store oid).lookup name = some out ↔ out ∈ outs ∧ out.filename = name) :
    storedContent store oid = contentFrom objects editor dir := by
  have member : ∀ entry, entry ∈ entries.entries.map Sigma.snd ↔
      entries.lookup entry.filename = some entry := by
    intro entry
    rw [mem_map]
    constructor
    · rintro ⟨⟨name, source⟩, inside, rfl⟩
      have found := (Table.mem_entries_iff entries name source).mp inside
      rw [named name source found, found]
    · intro found
      exact ⟨⟨entry.filename, entry⟩, (Table.mem_entries_iff _ _ _).mpr found, rfl⟩
  have here : ∀ name, editor.entryAt dir name = entries.lookup name := by simp [entryAt, level]
  funext path
  cases path with
  | nil => rfl
  | cons name rest =>
    simp only [contentFrom, here]
    rcases found : entries.lookup name with _ | entry
    · -- nothing is written under a name the directory does not have
      have missing : (storedEntries store oid).lookup name = none := by
        rcases present : (storedEntries store oid).lookup name with _ | out
        · rfl
        · obtain ⟨inside, filename⟩ := (lookup name out).mp present
          obtain ⟨source, listed, -, as⟩ := written.origin out inside
          have := (member source).mp listed
          rw [← as.filename, filename, found] at this
          cases this
      simp [storedContent, missing]
    · have filename := named name entry found
      by_cases pruned : Pruned editor dir entry
      · have missing : (storedEntries store oid).lookup name = none := by
          rcases present : (storedEntries store oid).lookup name with _ | out
          · rfl
          · obtain ⟨inside, outName⟩ := (lookup name out).mp present
            obtain ⟨source, listed, kept, as⟩ := written.origin out inside
            have same := (member source).mp listed
            rw [← as.filename, outName, found, Option.some.injEq] at same
            exact absurd (same ▸ pruned) kept
        obtain ⟨isTree, empty⟩ := pruned
        rw [filename] at empty
        simp [storedContent, missing, isTree, empty]
      · obtain ⟨out, inside, as⟩ := written.covered entry ((member entry).mpr (filename ▸ found)) pruned
        have present : (storedEntries store oid).lookup name = some out :=
          (lookup name out).mpr ⟨inside, as.filename.trans filename⟩
        simp only [storedContent, present]
        by_cases isTree : entry.isTree
        · have below := as.content isTree
          rw [entryContent, filename] at below
          simp only [as.mode, isTree, if_true, below]
          rcases loaded : editor.subtrees.lookup (dir ++ [name]) with _ | child
          · rfl
          · have nonempty : child.entries ≠ [] := by
              intro empty
              exact pruned ⟨isTree, by rw [filename, loaded, show child = ∅ from AList.ext empty]⟩
            simp only [nonempty, if_false]
        · simp only [isTree, Bool.false_eq_true, if_false, as.leaf isTree]

-- With fuel for the directories below it, a directory is written.
theorem writeSubtree_writes (sound : Sound objects editor) (fuel : Nat)
    (loaded : (editor.level dir).isSome) (enough : 0 < fuel)
    (deep : ∀ key ∈ editor.subtrees, dir <+: key → key.length < dir.length + fuel) :
    WritesDir objects editor dir (writeSubtree editor fuel dir) := by
  induction fuel generalizing dir with
  | zero => omega
  | succ fuel ih =>
    intro repo addressed extend
    obtain ⟨entries, level⟩ := Option.isSome_iff_exists.mp loaded
    have here : ∀ name, editor.entryAt dir name = entries.lookup name := by simp [entryAt, level]
    have named : ∀ name entry, entries.lookup name = some entry → entry.filename = name ∧ Text.IsName name :=
      fun name entry found => sound.named dir name entry ((here name).trans found)
    have lookup : ∀ item ∈ entries.entries, entries.lookup item.1 = some item.2 :=
      fun item member => (Table.mem_entries_iff _ _ _).mp member
    obtain ⟨outs, middle, success, grown, written⟩ :=
      exec_writeEntries (writeSubtree editor fuel) entries.entries
        (fun item member => (named _ _ (lookup item member)).1)
        (fun item member => sound.stored dir item.1 item.2 ((here _).trans (lookup item member)))
        (fun item member isTree present => by
          have shallow := deep _ present (prefix_append _ _)
          rw [length_append, length_singleton] at shallow
          apply ih
          · exact (level_isSome _ _).mpr (.inr present)
          · omega
          · intro key inside below
            have := deep key inside ((prefix_append _ _).trans below)
            rw [length_append, length_singleton]
            omega)
        addressed extend
    have keys : (entries.entries.map Sigma.snd).map filename = entries.keys := by
      rw [map_map]
      exact map_congr_left fun item member => (named _ _ (lookup item member)).1
    have distinct : (outs.map filename).Nodup := by
      refine written.names.nodup ?_
      rw [keys]
      exact entries.nodupKeys
    have wellFormed : WellFormedEntries (sortEntries outs) := by
      apply wellFormed_sortEntries distinct
      intro out member
      obtain ⟨entry, inside, -, as⟩ := written.origin out member
      obtain ⟨item, listed, rfl⟩ := mem_map.mp inside
      rw [as.filename, (named _ _ (lookup item listed)).1]
      exact (named _ _ (lookup item listed)).2
    have final : Grown middle (middle.store (.tree (sortEntries outs))) := .store grown.addressed _
    have found : (middle.store (.tree (sortEntries outs))).objects
        (computeHash (.tree (sortEntries outs))) = some (.tree (sortEntries outs)) := by
      simp [Repository.store]
    have kept : EntriesWritten objects editor dir (middle.store (.tree (sortEntries outs))).objects
        (entries.entries.map Sigma.snd) outs :=
      ⟨written.names,
        fun out member => by
          obtain ⟨entry, inside, stays, as⟩ := written.origin out member
          exact ⟨entry, inside, stays, as.mono final.extend⟩,
        fun entry member stays => by
          obtain ⟨out, inside, as⟩ := written.covered entry member stays
          exact ⟨out, inside, as.mono final.extend⟩⟩
    refine ⟨computeHash (.tree (sortEntries outs)), _, ?_, grown.trans final, ?_, ?_⟩
    · simp only [writeSubtree, level]
      rw [GitM.exec_bind_ok success, exec_writeObject]
    · refine .intro _ _ found wellFormed ?_
      intro out member isTree
      obtain ⟨entry, -, -, as⟩ := kept.origin out (mem_sortEntries.mp member)
      exact as.stored (as.mode ▸ isTree)
    · apply kept.storedContent_eq level fun name entry present => (named name entry present).1
      intro name out
      rw [TreeStored.lookup_iff found wellFormed, mem_sortEntries]

theorem length_le_depth {key : List Text} (member : key ∈ editor.subtrees) : key.length ≤ editor.depth := by
  have bound : ∀ lengths : List Nat, ∀ length ∈ lengths, length ≤ lengths.foldr max 0 := by
    intro lengths
    induction lengths with
    | nil => simp
    | cons first rest ih =>
      intro length inside
      rcases mem_cons.mp inside with rfl | later
      · exact le_max_left _ _
      · exact (ih length later).trans (le_max_right _ _)
  exact bound _ _ (mem_map_of_mem (AList.mem_keys.mp member))

theorem exec_write {repo : Repository Oid} (addressed : Addressed repo.objects)
    (sound : Sound repo.objects editor) :
    ∃ oid after, editor.write.exec repo = (.ok oid, after) ∧ Grown repo after ∧
      TreeStored after.objects oid ∧
      storedContent after.objects oid = contentFrom repo.objects editor [] := by
  refine writeSubtree_writes sound (editor.depth + 1) (by simp) (by omega) ?_ repo addressed (Extends.refl _)
  intro key member _
  have := length_le_depth member
  simp only [length_nil]
  omega

theorem storedLeaves_of_content {oid : Oid}
    (content : storedContent store oid = contentFrom objects editor []) :
    storedLeaves store oid = leaves objects editor := by
  funext path
  rw [storedLeaves_eq, content, leaves, leavesFrom_eq]

end Write

end TreeEditor

end LoginomDock.Git
