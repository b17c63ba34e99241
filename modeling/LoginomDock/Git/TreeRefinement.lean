import LoginomDock.Git.TreeEdits
import LoginomDock.Git.TreeFlatten
import LoginomDock.Git.TreeWriting

/-! A sequence of edits refines the same edits on a plain path map exactly as long as no upsert meets an in-memory
directory that its parent no longer lists. -/

namespace LoginomDock.Git

open List PathMap Repository TreeEditor

variable {Oid : Type} [DecidableEq Oid] [ObjectHash Oid]

inductive Edit (Oid : Type) where
  | upsert (path : Text) (oid : Oid)
  | remove (path : Text)
  | upsertSubtree (path : Text) (oid : Oid)

namespace Edit

def path : Edit Oid → Text
  | .upsert path _ => path
  | .remove path => path
  | .upsertSubtree path _ => path

def apply (editor : TreeEditor Oid) : Edit Oid → GitM Oid (TreeEditor Oid)
  | .upsert path oid => editor.upsert path oid
  | .remove path => editor.remove path
  | .upsertSubtree path oid => editor.upsertSubtree path oid

def Valid (objects : Objects Oid) (edit : Edit Oid) : Prop :=
  Text.IsPath edit.path.components ∧ ∀ path oid, edit = .upsertSubtree path oid → TreeStored objects oid

def onFiles (objects : Objects Oid) (files : PathMap Text Oid) : Edit Oid → PathMap Text Oid
  | .upsert path oid => PathMap.set path.components oid files
  | .remove path => delete path.components files
  | .upsertSubtree path oid => graft path.components (treeFiles objects oid) files

def Meets (objects : Objects Oid) (editor : TreeEditor Oid) : Edit Oid → Prop
  | .upsert path _ => editor.Listed path.components.dropLast
  | .remove _ => True
  | .upsertSubtree path oid =>
    editor.Listed path.components.dropLast ∨
      ((∀ parts, treeFiles objects oid parts = none) ∧
        ∀ above, above <+: path.components.dropLast → editor.leaves objects above = none)

end Edit

def applyEdits (editor : TreeEditor Oid) : List (Edit Oid) → GitM Oid (TreeEditor Oid)
  | [] => pure editor
  | edit :: edits => do
      let edited ← edit.apply editor
      applyEdits edited edits

def flattenBase (fuel : Nat) : Option Oid → GitM Oid (List (Text × Oid))
  | none => pure []
  | some tree => flatten fuel tree none

def editAndFlatten (fuel : Nat) (base : Option Oid) (edits : List (Edit Oid)) :
    GitM Oid (List (Text × Oid)) := do
  let editor ← editorOf base
  let edited ← applyEdits editor edits
  let oid ← edited.write
  flatten fuel oid none

def RefinesFiles (repo : Repository Oid) (base : Option Oid) (edits : List (Edit Oid)) : Prop :=
  ∃ bound baseFiles files after,
    (∀ fuel, bound ≤ fuel → (flattenBase fuel base).exec repo = (.ok baseFiles, repo)) ∧
      (∀ fuel, bound ≤ fuel → (editAndFlatten fuel base edits).exec repo = (.ok files, after)) ∧
        listedFiles files = edits.foldl (Edit.onFiles repo.objects) (listedFiles baseFiles)

def editorAfter (base : Option Oid) (edits : List (Edit Oid)) : GitM Oid (TreeEditor Oid) := do
  let editor ← editorOf base
  applyEdits editor edits

theorem applyEdits_concat (editor : TreeEditor Oid) (edits : List (Edit Oid)) (edit : Edit Oid) :
    applyEdits editor (edits ++ [edit]) = applyEdits editor edits >>= fun edited => edit.apply edited := by
  induction edits generalizing editor with
  | nil => simp [applyEdits]
  | cons first rest ih => simp [applyEdits, ih]

theorem editorAfter_concat (base : Option Oid) (edits : List (Edit Oid)) (edit : Edit Oid) :
    editorAfter base (edits ++ [edit]) = editorAfter base edits >>= fun edited => edit.apply edited := by
  simp [editorAfter, applyEdits_concat]

section Steps

open TreeEditor

variable {repo : Repository Oid} {editor : TreeEditor Oid}

theorem leaves_unlisted_below {objects : Objects Oid} (sound : Sound objects editor) {dir : List Text}
    (unlisted : ¬ Listed editor dir) (path : List Text) (more : path ≠ []) : leaves objects editor (dir ++ path) = none := by
  obtain ⟨above, name, ⟨rest, rfl⟩, member, stale⟩ := not_listed_iff.mp unlisted
  rw [append_assoc, append_assoc, singleton_append]
  refine sound.leaves_unlisted ?_ stale (by simp [more])
  rw [level_isSome]
  by_cases root : above = []
  · exact .inl root
  · exact .inr (sound.closed above name member root)

theorem exec_apply (addressed : Addressed repo.objects) (sound : Sound repo.objects editor)
    {edit : Edit Oid} (valid : edit.Valid repo.objects) :
    ∃ after, (edit.apply editor).exec repo = (.ok after, repo) ∧ Sound repo.objects after ∧
      (fileMap (leaves repo.objects after) = edit.onFiles repo.objects (fileMap (leaves repo.objects editor)) ↔
        edit.Meets repo.objects editor) := by
  cases edit with
  | upsert path oid =>
    have isPath : Text.IsPath path.components := valid.1
    obtain ⟨after, success, soundAfter, shown, hidden, -⟩ := exec_upsert addressed sound isPath oid
    refine ⟨after, success, soundAfter, ?_⟩
    by_cases listed : Listed editor path.components.dropLast
    · refine iff_of_true ?_ listed
      rw [shown listed, fileMap, mapValues_set]
      rfl
    · refine iff_of_false ?_ listed
      intro same
      have here := congrFun same path.components
      have missing := leaves_unlisted_below sound listed [path.components.getLastD []] (by simp)
      rw [(split_last isPath).1] at missing
      simp [hidden listed, fileMap, mapValues, missing, Edit.onFiles, PathMap.set] at here
  | remove path =>
    obtain ⟨after, success, soundAfter, deleted, -⟩ := exec_remove addressed sound valid.1
    refine ⟨after, success, soundAfter, iff_of_true ?_ trivial⟩
    rw [deleted, fileMap, mapValues_delete]
    rfl
  | upsertSubtree path oid =>
    have isPath : Text.IsPath path.components := valid.1
    obtain ⟨after, success, soundAfter, shown, hidden⟩ :=
      exec_upsertSubtree addressed sound isPath (valid.2 path oid rfl)
    refine ⟨after, success, soundAfter, ?_⟩
    by_cases listed : Listed editor path.components.dropLast
    · refine iff_of_true ?_ (.inl listed)
      rw [shown listed, fileMap, mapValues_graft]
      rfl
    · have split := (split_last isPath).1
      have below : ∀ rest, leaves repo.objects editor (path.components ++ rest) = none := by
        intro rest
        have missing := leaves_unlisted_below sound listed (path.components.getLastD [] :: rest)
          (by simp)
        rwa [← singleton_append, ← append_assoc, split] at missing
      have notBelow : ∀ above, above <+: path.components.dropLast → ¬ path.components <+: above := by
        intro above inside key
        have short := (key.trans inside).length_le
        have some := length_pos_of_ne_nil isPath.1
        rw [length_dropLast] at short
        omega
      rw [hidden listed]
      constructor
      · intro same
        right
        constructor
        · intro parts
          have here := congrFun same (path.components ++ parts)
          simpa [fileMap, mapValues, below, Edit.onFiles, graft] using here.symm
        · intro above inside
          have here := congrFun same above
          have higher : above <+: path.components := inside.trans (List.dropLast_prefix _)
          simpa [fileMap, mapValues, Edit.onFiles, graft, notBelow above inside, higher]
            using here
      · rintro (impossible | ⟨noFiles, noneAbove⟩)
        · exact absurd impossible listed
        · funext other
          simp only [Edit.onFiles, graft]
          split
          next inside =>
            obtain ⟨rest, rfl⟩ := inside
            simp [fileMap, mapValues, below, noFiles]
          next outside =>
            split
            next higher =>
              have shorter : other <+: path.components.dropLast := by
                rw [← split] at higher outside
                rcases prefix_concat_iff.mp higher with same | shorter
                · exact absurd (by rw [same]) outside
                · exact shorter
              simp [fileMap, mapValues, noneAbove other shorter]
            next => rfl

def BaseStored (objects : Objects Oid) (base : Option Oid) : Prop :=
  ∀ tree, base = some tree → TreeStored objects tree

def baseLeaves (objects : Objects Oid) : Option Oid → LeafMap Oid
  | none => fun _ => none
  | some tree => storedLeaves objects tree

variable {base : Option Oid}

theorem exec_editorOf (stored : BaseStored repo.objects base) :
    ∃ editor, (editorOf base).exec repo = (.ok editor, repo) ∧ Sound repo.objects editor ∧
      leaves repo.objects editor = baseLeaves repo.objects base ∧ editor.subtrees = ∅ ∧
      ∀ tree, base = some tree → editor.root = storedEntries repo.objects tree := by
  cases base with
  | none =>
    refine ⟨empty, rfl, ⟨?_, ?_, ?_, ?_⟩, ?_, rfl, by simp⟩
    · simp [empty]
    · simp [empty]
    · intro dir name entry found
      by_cases root : dir = [] <;> simp [entryAt, level, root, empty] at found
    · intro dir name entry found
      by_cases root : dir = [] <;> simp [entryAt, level, root, empty] at found
    · funext path
      cases path with
      | nil => rfl
      | cons name rest => simp [leaves, leavesFrom, entryAt, level, empty, baseLeaves]
  | some tree =>
    have treeStored := stored tree rfl
    have entries : ∀ dir name entry,
        ({ root := storedEntries repo.objects tree, subtrees := ∅ } : TreeEditor Oid).entryAt dir name =
          some entry → (storedEntries repo.objects tree).lookup name = some entry := by
      intro dir name entry found
      by_cases root : dir = []
      · simpa [entryAt, level, root] using found
      · simp [entryAt, level, root] at found
    refine ⟨{ root := storedEntries repo.objects tree, subtrees := ∅ }, ?_, ⟨?_, ?_, ?_, ?_⟩, ?_, rfl, by simp⟩
    · rw [editorOf, fromTree, GitM.exec_bind_ok (exec_loadTreeEntries treeStored)]
      rfl
    · simp
    · simp
    · exact fun dir name entry found => treeStored.lookup_named (entries dir name entry found)
    · exact fun dir name entry found isTree _ => treeStored.lookup_tree (entries dir name entry found) isTree
    · funext path
      exact leavesFrom_stored (by simp [entryAt, level]) (by simp) path

theorem exec_flattenBase (stored : BaseStored repo.objects base) :
    ∃ bound files, (∀ fuel, bound ≤ fuel → (flattenBase fuel base).exec repo = (.ok files, repo)) ∧
      listedFiles files = fileMap (baseLeaves repo.objects base) := by
  cases base with
  | none =>
    refine ⟨0, [], fun _ _ => rfl, ?_⟩
    funext parts
    simp [listedFiles, fileMap, mapValues, baseLeaves]
  | some tree =>
    obtain ⟨bound, files, success, enumerates⟩ := exec_flatten (stored tree rfl)
    exact ⟨bound, files, success, listedFiles_eq (stored tree rfl) enumerates⟩

section

variable (addressed : Addressed repo.objects) (stored : BaseStored repo.objects base)

include addressed stored

theorem exec_editorAfter (edits : List (Edit Oid))
    (valid : ∀ edit ∈ edits, edit.Valid repo.objects) :
    ∃ editor, (editorAfter base edits).exec repo = (.ok editor, repo) ∧ Sound repo.objects editor := by
  induction edits using List.reverseRecOn with
  | nil =>
    obtain ⟨editor, success, sound, -⟩ := exec_editorOf stored
    exact ⟨editor, by rw [editorAfter, GitM.exec_bind_ok success]; rfl, sound⟩
  | append_singleton edits edit ih =>
    obtain ⟨before, success, sound⟩ := ih fun other member => valid other (by simp [member])
    obtain ⟨after, applied, soundAfter, -⟩ := exec_apply addressed sound (valid edit (by simp))
    exact ⟨after, by rw [editorAfter_concat, GitM.exec_bind_ok success, applied], soundAfter⟩

theorem refinesFiles_iff {edits : List (Edit Oid)}
    (success : (editorAfter base edits).exec repo = (.ok editor, repo)) (sound : Sound repo.objects editor) :
    RefinesFiles repo base edits ↔ fileMap (leaves repo.objects editor) =
      edits.foldl (Edit.onFiles repo.objects) (fileMap (baseLeaves repo.objects base)) := by
  obtain ⟨baseBound, baseFiles, flattened, baseListed⟩ := exec_flattenBase stored
  obtain ⟨oid, after, written, -, treeStored, content⟩ := exec_write addressed sound
  obtain ⟨bound, files, listed, enumerates⟩ := exec_flatten treeStored
  have filesAre : listedFiles files = fileMap (leaves repo.objects editor) := by
    rw [listedFiles_eq treeStored enumerates, treeFiles, storedLeaves_of_content content]
  have whole : ∀ fuel, (editAndFlatten fuel base edits).exec repo = (flatten fuel oid none).exec after := by
    intro fuel
    have regroup : editAndFlatten fuel base edits =
        editorAfter base edits >>= fun edited => edited.write >>= fun oid => flatten fuel oid none := by
      simp [editAndFlatten, editorAfter]
    rw [regroup, GitM.exec_bind_ok success, GitM.exec_bind_ok written]
  constructor
  · rintro ⟨limit, otherBase, otherFiles, final, sameBase, sameFiles, equal⟩
    have baseIs := (flattened _ (le_max_left baseBound limit)).symm.trans
      (sameBase _ (le_max_right baseBound limit))
    have filesAgree := (listed _ (le_max_left bound limit)).symm.trans
      ((whole _).symm.trans (sameFiles _ (le_max_right bound limit)))
    simp only [Prod.mk.injEq, Except.ok.injEq] at baseIs filesAgree
    rw [← filesAre, ← baseListed, baseIs.1, filesAgree.1, equal]
  · intro same
    refine ⟨max baseBound bound, baseFiles, files, after, ?_, ?_, ?_⟩
    · exact fun fuel enough => flattened fuel ((le_max_left _ _).trans enough)
    · exact fun fuel enough => (whole fuel).trans (listed fuel ((le_max_right _ _).trans enough))
    · rw [filesAre, baseListed, same]

end

end Steps

theorem flatten_write_refines_iff (repo : Repository Oid) (addressed : Addressed repo.objects)
    (base : Option Oid) (stored : BaseStored repo.objects base) (edits : List (Edit Oid))
    (valid : ∀ edit ∈ edits, edit.Valid repo.objects) :
    (∀ stage, stage <+: edits → RefinesFiles repo base stage) ↔
      ∀ stage edit, stage ++ [edit] <+: edits →
        ∀ editor, (editorAfter base stage).exec repo = (.ok editor, repo) → edit.Meets repo.objects editor := by
  have validStage : ∀ stage, stage <+: edits → ∀ edit ∈ stage, edit.Valid repo.objects :=
    fun stage inside edit member => valid edit (inside.subset member)
  constructor
  · intro refines stage edit inside editor success
    have shorter : stage <+: edits := (prefix_append _ _).trans inside
    obtain ⟨before, runs, sound⟩ := exec_editorAfter addressed stored stage (validStage stage shorter)
    cases runs.symm.trans success
    obtain ⟨after, applied, soundAfter, exact⟩ := exec_apply addressed sound (valid edit (inside.subset (by simp)))
    have next : (editorAfter base (stage ++ [edit])).exec repo = (.ok after, repo) := by
      rw [editorAfter_concat, GitM.exec_bind_ok success, applied]
    have first := (refinesFiles_iff addressed stored success sound).mp (refines stage shorter)
    have second := (refinesFiles_iff addressed stored next soundAfter).mp (refines _ inside)
    apply exact.mp
    rw [second, first, foldl_append]
    rfl
  · intro meets stage inside
    -- the file maps agree stage by stage, by induction from the base
    have agree : ∀ editor, (editorAfter base stage).exec repo = (.ok editor, repo) →
        fileMap (editor.leaves repo.objects) =
          stage.foldl (Edit.onFiles repo.objects) (fileMap (baseLeaves repo.objects base)) := by
      induction stage using List.reverseRecOn with
      | nil =>
        intro editor success
        obtain ⟨start, opened, -, same, -⟩ := exec_editorOf stored
        have runs : (editorAfter base []).exec repo = (.ok start, repo) := by
          rw [editorAfter, GitM.exec_bind_ok opened]
          rfl
        cases runs.symm.trans success
        rw [same]
        rfl
      | append_singleton before edit ih =>
        intro editor success
        have shorter : before <+: edits := (prefix_append _ _).trans inside
        obtain ⟨middle, runs, sound⟩ := exec_editorAfter addressed stored before (validStage before shorter)
        obtain ⟨after, applied, -, exact⟩ := exec_apply addressed sound (valid edit (inside.subset (by simp)))
        rw [editorAfter_concat, GitM.exec_bind_ok runs, applied] at success
        cases success
        rw [exact.mpr (meets before edit inside middle runs), ih shorter middle runs, foldl_append]
        rfl
    obtain ⟨editor, success, sound⟩ := exec_editorAfter addressed stored stage (validStage stage inside)
    exact (refinesFiles_iff addressed stored success sound).mpr (agree editor success)

section Fresh

theorem fresh_addressed : Addressed (fresh : Repository Digest).objects := by
  intro oid object found
  cases found

theorem fresh_baseStored : BaseStored (fresh : Repository Digest).objects none := by
  intro tree some
  cases some

theorem flatten_write_refines_first_file :
    RefinesFiles (fresh : Repository Digest) none [.upsert ['a'] (.leaf 1)] := by
  refine (flatten_write_refines_iff fresh fresh_addressed none fresh_baseStored
    [.upsert ['a'] (.leaf 1)] ?_).mpr ?_ _ (prefix_refl _)
  · intro edit member
    rw [mem_singleton] at member
    exact member ▸ ⟨by decide, by simp⟩
  · intro stage edit inside editor _
    have single : stage ++ [edit] = [.upsert ['a'] (.leaf 1)] :=
      inside.eq_of_length_le (by simp)
    obtain ⟨-, same⟩ := append_inj' (single.trans (nil_append _).symm) rfl
    cases same
    intro above name shorter
    have root : (Text.components ['a']).dropLast = [] := by decide
    rw [root] at shorter
    simp at shorter

/-- A file is lost: `a/x` is added, `a` removed and `a/y` added. -/
def recreatedDirectory : List (Edit Digest) :=
  [.upsert ['a', '/', 'x'] (.leaf 1), .remove ['a'], .upsert ['a', '/', 'y'] (.leaf 2)]

theorem recreated_directory_not_refined :
    (∀ edit ∈ recreatedDirectory, edit.Valid (fresh : Repository Digest).objects) ∧
      ¬ RefinesFiles (fresh : Repository Digest) none recreatedDirectory := by
  have valid : ∀ edit ∈ recreatedDirectory, edit.Valid (fresh : Repository Digest).objects := by
    intro edit member
    simp only [recreatedDirectory, mem_cons, not_mem_nil, or_false] at member
    rcases member with rfl | rfl | rfl <;> exact ⟨by decide, by simp⟩
  refine ⟨valid, ?_⟩
  obtain ⟨editor, success, sound⟩ :=
    exec_editorAfter fresh_addressed fresh_baseStored recreatedDirectory valid
  rw [refinesFiles_iff fresh_addressed fresh_baseStored success sound]
  intro same
  have root : editor.root = ∅ := by
    have run : ((editorAfter none recreatedDirectory).exec (fresh : Repository Digest)).1.map
        root = .ok ∅ := by rfl
    rw [success] at run
    simpa [Except.map] using run
  have lost : editor.leaves (fresh : Repository Digest).objects [['a'], ['y']] = none := by
    simp [leaves, leavesFrom, entryAt, level, root]
  have expected : recreatedDirectory.foldl (Edit.onFiles (fresh : Repository Digest).objects)
      (fileMap (baseLeaves (fresh : Repository Digest).objects none)) [['a'], ['y']] =
        some (.leaf 2) := by
    decide
  have here := congrFun same [['a'], ['y']]
  rw [expected] at here
  simp [fileMap, mapValues, lost] at here

end Fresh

end LoginomDock.Git
