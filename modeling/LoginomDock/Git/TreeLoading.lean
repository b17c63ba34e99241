import LoginomDock.Git.TreeSemantics

/-! What an editor holds depends only on the entries on the way to each path, and loading a directory changes nothing of
it. -/

namespace LoginomDock.Git

open List PathMap

variable {Oid : Type} [DecidableEq Oid] [ObjectHash Oid]

namespace TreeEditor

variable {objects : Objects Oid} {editor other : TreeEditor Oid}

theorem leavesFrom_congr {dir path : List Text}
    (entries : ∀ above name, above ++ [name] <+: path →
      editor.entryAt (dir ++ above) name = other.entryAt (dir ++ above) name)
    (keys : ∀ below, below <+: path → (dir ++ below ∈ editor.subtrees ↔ dir ++ below ∈ other.subtrees)) :
    leavesFrom objects editor dir path = leavesFrom objects other dir path := by
  induction path generalizing dir with
  | nil => rfl
  | cons name rest ih =>
    have here : editor.entryAt dir name = other.entryAt dir name := by
      simpa using entries [] name (by simp)
    have key : dir ++ [name] ∈ editor.subtrees ↔ dir ++ [name] ∈ other.subtrees :=
      keys [name] (by simp)
    have below : leavesFrom objects editor (dir ++ [name]) rest =
        leavesFrom objects other (dir ++ [name]) rest := by
      apply ih
      · intro above last inside
        simpa using entries (name :: above) last (by simpa using inside)
      · intro part inside
        simpa using keys (name :: part) (by simpa using inside)
    simp only [leavesFrom, here, key, below]

theorem leaves_congr {path : List Text}
    (entries : ∀ above name, above ++ [name] <+: path →
      editor.entryAt above name = other.entryAt above name)
    (keys : ∀ below, below <+: path → (below ∈ editor.subtrees ↔ below ∈ other.subtrees)) :
    leaves objects editor path = leaves objects other path :=
  leavesFrom_congr (by simpa using entries) (by simpa using keys)

theorem visible_nil (editor : TreeEditor Oid) : Visible editor [] := by
  intro above name inside
  simp at inside

variable {dir : List Text}

theorem visible_concat {name : Text} :
    Visible editor (dir ++ [name]) ↔
      Visible editor dir ∧ dir ++ [name] ∈ editor.subtrees ∧
        ∃ entry, editor.entryAt dir name = some entry ∧ entry.isTree := by
  constructor
  · intro visible
    refine ⟨fun above last inside => visible above last (inside.trans (by simp)), ?_⟩
    exact visible dir name (prefix_refl _)
  · rintro ⟨visible, loaded, listed⟩ above last inside
    rcases prefix_concat_iff.mp inside with same | shorter
    · obtain ⟨rfl, equal⟩ := append_inj' same rfl
      cases equal
      exact ⟨loaded, listed⟩
    · exact visible above last shorter

theorem visible_congr (visible : Visible editor dir)
    (entries : ∀ above name, above ++ [name] <+: dir →
      editor.entryAt above name = other.entryAt above name)
    (keys : ∀ below, below <+: dir → (below ∈ editor.subtrees ↔ below ∈ other.subtrees)) :
    Visible other dir := by
  intro above name inside
  obtain ⟨loaded, listed⟩ := visible above name inside
  rw [entries above name inside] at listed
  exact ⟨(keys _ inside).mp loaded, listed⟩

theorem leaves_visible (visible : Visible editor dir) (path : List Text) :
    leaves objects editor (dir ++ path) = leavesFrom objects editor dir path := by
  induction dir using List.reverseRecOn generalizing path with
  | nil => rfl
  | append_singleton before name ih =>
    obtain ⟨above, loaded, entry, found, isTree⟩ := visible_concat.mp visible
    rw [append_assoc, ih above]
    simp [leavesFrom, found, isTree, loaded]

theorem leaves_above_visible {dir path : List Text} (visible : Visible editor dir) (inside : path <+: dir) :
    leaves objects editor path = none := by
  have shorter : Visible editor path := fun above name inner => visible above name (inner.trans inside)
  have walked : leaves objects editor (path ++ []) = none := leaves_visible shorter []
  rwa [append_nil] at walked

theorem visible_of_leaf (path : List Text)
    (loaded : ∀ below, below <+: dir → below ≠ [] → below ∈ editor.subtrees) (more : path ≠ [])
    (present : leaves objects editor (dir ++ path) ≠ none) : Visible editor dir := by
  induction dir using List.reverseRecOn generalizing path with
  | nil => exact visible_nil editor
  | append_singleton before name ih =>
    have above : Visible editor before := by
      apply ih (name :: path)
      · exact fun below inside => loaded below (inside.trans (by simp))
      · simp
      · simpa using present
    have key := loaded (before ++ [name]) (prefix_refl _) (by simp)
    rw [append_assoc, leaves_visible above] at present
    refine visible_concat.mpr ⟨above, key, ?_⟩
    simp only [singleton_append, leavesFrom, more, if_false] at present
    split at present
    · exact absurd rfl present
    next entry found =>
      split at present
      next isTree => exact ⟨entry, found, isTree⟩
      next => exact absurd rfl present

namespace Sound

section

variable (sound : Sound objects editor)

include sound

theorem prefixes {dir below : List Text} (loaded : dir ∈ editor.subtrees)
    (inside : below <+: dir) (nonempty : below ≠ []) : below ∈ editor.subtrees := by
  induction dir using List.reverseRecOn with
  | nil =>
    rw [prefix_nil] at inside
    exact absurd inside nonempty
  | append_singleton before name ih =>
    rcases prefix_concat_iff.mp inside with rfl | shorter
    · exact loaded
    · have more : before ≠ [] := by
        rintro rfl
        exact nonempty (prefix_nil.mp shorter)
      exact ih (sound.closed before name loaded more) shorter

theorem level_prefixes {dir below : List Text}
    (loaded : (editor.level dir).isSome) (inside : below <+: dir) (nonempty : below ≠ []) :
    below ∈ editor.subtrees := by
  rcases (level_isSome editor dir).mp loaded with rfl | key
  · rw [prefix_nil] at inside
    exact absurd inside nonempty
  · exact sound.prefixes key inside nonempty

theorem level_isPath
    (loaded : (editor.level dir).isSome) {name : Text} (isName : Text.IsName name) :
    Text.IsPath (dir ++ [name]) := by
  refine ⟨by simp, ?_⟩
  intro part member
  rcases mem_append.mp member with inside | last
  · rcases (level_isSome editor dir).mp loaded with rfl | key
    · simp at inside
    · exact (sound.keys dir key).2 part inside
  · rw [mem_singleton.mp last]
    exact isName

theorem leaves_unlisted {dir rest : List Text} {name : Text}
    (loaded : (editor.level dir).isSome)
    (unlisted : ∀ entry, editor.entryAt dir name = some entry → ¬ entry.isTree) (more : rest ≠ []) :
    leaves objects editor (dir ++ name :: rest) = none := by
  by_contra present
  have visible : Visible editor dir :=
    visible_of_leaf _ (fun _ inside => sound.level_prefixes loaded inside) (by simp) present
  rw [leaves_visible visible] at present
  simp only [leavesFrom, more, if_false] at present
  split at present
  · exact present rfl
  next entry found => simp [unlisted entry found] at present

theorem mono {after : Objects Oid} (extend : Extends objects after) :
    Sound after editor where
  __ := sound
  stored := fun dir name entry found isTree absent =>
    (sound.stored dir name entry found isTree absent).mono extend

end

end Sound

/-- What opening the directory `name` below `above` makes of an editor. -/
inductive Opened (objects : Objects Oid) (createMissing : Bool) (above : List Text) (name : Text)
    (editor : TreeEditor Oid) : TreeEditor Oid → Prop where
  | already (present : above ++ [name] ∈ editor.subtrees) :
      Opened objects createMissing above name editor editor
  | loaded (absent : above ++ [name] ∉ editor.subtrees) (entry : TreeEntry Oid)
      (found : editor.entryAt above name = some entry) (isTree : entry.isTree) :
      Opened objects createMissing above name editor
        (editor.insertSubtree (above ++ [name]) (storedEntries objects entry.oid))
  | created (absent : above ++ [name] ∉ editor.subtrees) (allowed : createMissing = true)
      (parent : TreeEntries Oid) (level : editor.level above = some parent)
      (unlisted : ∀ entry, editor.entryAt above name = some entry → ¬ entry.isTree) :
      Opened objects createMissing above name editor
        ((editor.setLevel above (parent.insert name (newDirectory name))).insertSubtree
          (above ++ [name]) ∅)

theorem exec_ensurePathLoaded_cons {repo : Repository Oid} (addressed : Addressed repo.objects)
    (sound : Sound repo.objects editor) (createMissing : Bool) (above dirs : List Text) (name : Text)
    (loaded : (editor.level above).isSome) :
    (∃ next, Opened repo.objects createMissing above name editor next ∧
      (ensurePathLoaded createMissing above (name :: dirs) editor).exec repo =
        (ensurePathLoaded createMissing (above ++ [name]) dirs next).exec repo) ∨
    (createMissing = false ∧
      (∀ entry, editor.entryAt above name = some entry → ¬ entry.isTree) ∧
      (ensurePathLoaded createMissing above (name :: dirs) editor).exec repo =
        (.ok (false, editor), repo)) := by
  rw [ensurePathLoaded]
  by_cases present : above ++ [name] ∈ editor.subtrees
  · simp only [present, if_true]
    exact .inl ⟨editor, .already present, rfl⟩
  · obtain ⟨parent, level⟩ := Option.isSome_iff_exists.mp loaded
    have entryHere : editor.entryAt above name = parent.lookup name := by simp [entryAt, level]
    simp only [present, if_false, level, action]
    rcases found : parent.lookup name with _ | entry
    · have unlisted : ∀ entry, editor.entryAt above name = some entry → ¬ entry.isTree := by
        simp [entryHere, found]
      cases createMissing with
      | true => exact .inl ⟨_, .created present rfl parent level unlisted, by simp⟩
      | false => exact .inr ⟨rfl, unlisted, by simp⟩
    · by_cases isTree : entry.isTree
      · have stored := sound.stored above name entry (entryHere.trans found) isTree present
        left
        refine ⟨_, .loaded present entry (entryHere.trans found) isTree, ?_⟩
        have notNull : entry.oid ≠ ObjectHash.null := by
          intro null
          rw [null] at stored
          exact not_treeStored_null addressed stored
        by_cases isEmpty : entry.oid = emptyTree
        · rw [isEmpty] at stored
          simp [isTree, isEmpty, storedEntries_emptyTree addressed stored]
        · simp only [isTree, if_true, notNull, isEmpty, or_self, if_false]
          rw [GitM.exec_bind_ok (exec_loadTreeEntries stored)]
      · have unlisted : ∀ other, editor.entryAt above name = some other → ¬ other.isTree := by
          simp [entryHere, found, isTree]
        cases createMissing with
        | true => exact .inl ⟨_, .created present rfl parent level unlisted, by simp [isTree]⟩
        | false => exact .inr ⟨rfl, unlisted, by simp [isTree]⟩

theorem leavesFrom_stored {oid : Oid}
    (level : ∀ name, editor.entryAt dir name = (storedEntries objects oid).lookup name)
    (untouched : ∀ name, dir ++ [name] ∉ editor.subtrees) (path : List Text) :
    leavesFrom objects editor dir path = storedLeaves objects oid path := by
  cases path with
  | nil => rfl
  | cons name rest => simp only [leavesFrom, storedLeaves, level, untouched, if_false]

namespace Opened

variable {createMissing : Bool} {above : List Text} {name : Text} {next : TreeEditor Oid}

section

variable (opened : Opened objects createMissing above name editor next)

include opened

theorem level_isSome :
    (next.level (above ++ [name])).isSome := by
  cases opened with
  | already present => exact (TreeEditor.level_isSome _ _).mpr (.inr present)
  | loaded => simp [level_insertSubtree]
  | created => simp [level_insertSubtree]

theorem mem_iff (key : List Text) :
    key ∈ next.subtrees ↔ key = above ++ [name] ∨ key ∈ editor.subtrees := by
  cases opened with
  | already present =>
    constructor
    · exact .inr
    · rintro (rfl | old)
      · exact present
      · exact old
  | loaded => exact mem_insertSubtree _ _ _ _
  | created absent allowed parent level unlisted =>
    rw [mem_insertSubtree, mem_setLevel _ _ _ _ (by simp [level])]

theorem entryAt_other
    {other : Text} (elsewhere : dir ≠ above ++ [name]) (notEntry : dir ++ [other] ≠ above ++ [name]) :
    next.entryAt dir other = editor.entryAt dir other := by
  cases opened with
  | already => rfl
  | loaded => rw [entryAt_insertSubtree _ (by simp), if_neg elsewhere]
  | created absent allowed parent level unlisted =>
    rw [entryAt_insertSubtree _ (by simp), if_neg elsewhere, entryAt_setLevel]
    split
    next same =>
      subst same
      have different : other ≠ name := by
        rintro rfl
        exact notEntry rfl
      rw [Table.lookup_insert_if, if_neg different]
      simp [entryAt, level]
    next => rfl

theorem eq_of_present
    (present : above ++ [name] ∈ editor.subtrees) : next = editor := by
  cases opened with
  | already => rfl
  | loaded absent => exact absurd present absent
  | created absent => exact absurd present absent

theorem entryAt_key
    (sound : Sound objects editor) {dir : List Text} {other : Text}
    (loaded : dir ++ [other] ∈ editor.subtrees) : next.entryAt dir other = editor.entryAt dir other := by
  by_cases present : above ++ [name] ∈ editor.subtrees
  · rw [opened.eq_of_present present]
  · apply opened.entryAt_other
    · rintro rfl
      exact present (sound.closed _ other loaded (by simp))
    · intro same
      exact present (same ▸ loaded)

theorem confined
    (sound : Sound objects editor) {key dirs : List Text} (loaded : key ∈ editor.subtrees)
    (inside : key <+: above ++ name :: dirs) {dir : List Text} (outside : ¬ key <+: dir) :
    (∀ other, next.entryAt dir other = editor.entryAt dir other) ∧
      (dir ∈ next.subtrees ↔ dir ∈ editor.subtrees) := by
  by_cases present : above ++ [name] ∈ editor.subtrees
  · rw [opened.eq_of_present present]
    simp
  · have step : above ++ [name] <+: above ++ name :: dirs := by simp
    have shorter : key <+: above := by
      rcases List.prefix_or_prefix_of_prefix inside step with before | after
      · rcases prefix_concat_iff.mp before with same | shorter
        · exact absurd (same ▸ loaded) present
        · exact shorter
      · exact absurd (sound.prefixes loaded after (by simp)) present
    have notOpened : dir ≠ above ++ [name] := by
      rintro rfl
      exact outside (shorter.trans (by simp))
    refine ⟨fun other => opened.entryAt_other notOpened ?_, ?_⟩
    · intro same
      obtain ⟨rfl, -⟩ := append_inj' same rfl
      exact outside shorter
    · rw [opened.mem_iff]
      simp [notOpened]

theorem unloaded {trusted : Oid → Prop}
    (inherited : Inherited objects trusted) (before : Unloaded trusted editor) : Unloaded trusted next := by
  intro dir other entry found isDir absentNext
  rw [opened.mem_iff, not_or] at absentNext
  cases opened with
  | already => exact before dir other entry found isDir absentNext.2
  | loaded absent source present isTree =>
    rw [entryAt_insertSubtree _ (by simp)] at found
    split at found
    · exact inherited _ other entry (before above name source present isTree absent) found isDir
    · exact before dir other entry found isDir absentNext.2
  | created absent allowed parent level unlisted =>
    rw [entryAt_insertSubtree _ (by simp)] at found
    split at found
    · simp at found
    · rw [entryAt_setLevel] at found
      split at found
      next same =>
        subst same
        rw [Table.lookup_insert_if, if_neg (fun equal => absentNext.1 (by rw [equal]))] at found
        exact before dir other entry (by simpa [entryAt, level] using found) isDir absentNext.2
      next => exact before dir other entry found isDir absentNext.2

theorem sound
    (before : Sound objects editor) (loaded : (editor.level above).isSome) (isName : Text.IsName name) :
    Sound objects next where
  keys := by
    intro dir member
    rcases (opened.mem_iff dir).mp member with rfl | old
    · exact before.level_isPath loaded isName
    · exact before.keys dir old
  closed := by
    intro dir last member below
    rw [opened.mem_iff] at member ⊢
    rcases member with same | old
    · obtain ⟨rfl, -⟩ := append_inj' same rfl
      exact .inr (((TreeEditor.level_isSome editor _).mp loaded).resolve_left below)
    · exact .inr (before.closed dir last old below)
  named := by
    intro dir other entry found
    cases opened with
    | already => exact before.named dir other entry found
    | loaded absent source present isTree =>
      rw [entryAt_insertSubtree _ (by simp)] at found
      split at found
      · exact (before.stored above name source present isTree absent).lookup_named found
      · exact before.named dir other entry found
    | created absent allowed parent level unlisted =>
      rw [entryAt_insertSubtree _ (by simp)] at found
      split at found
      · simp at found
      · rw [entryAt_setLevel] at found
        split at found
        next same =>
          rw [Table.lookup_insert_if] at found
          split at found
          next equal =>
            cases found
            exact ⟨equal.symm, equal ▸ isName⟩
          next =>
            subst same
            exact before.named dir other entry (by simpa [entryAt, level] using found)
        next => exact before.named dir other entry found
  stored := opened.unloaded (TreeStored.inherited objects) before.stored

theorem leaves_outside
    {path : List Text} (outside : ¬ above ++ [name] <+: path) :
    leaves objects next path = leaves objects editor path := by
  apply leaves_congr
  · intro dir other inside
    apply opened.entryAt_other
    · rintro rfl
      exact outside ((prefix_append _ _).trans inside)
    · intro same
      exact outside (same ▸ inside)
  · intro below inside
    rw [opened.mem_iff]
    constructor
    · rintro (rfl | old)
      · exact absurd inside outside
      · exact old
    · exact .inr

theorem visible_above :
    Visible next above ↔ Visible editor above := by
  have entries : ∀ dir other, dir ++ [other] <+: above → next.entryAt dir other = editor.entryAt dir other := by
    intro dir other inside
    have shorter := inside.length_le
    apply opened.entryAt_other
    · rintro rfl
      simp only [length_append, length_singleton] at shorter
      omega
    · intro same
      rw [same, length_append, length_singleton] at shorter
      omega
  have keys : ∀ below, below <+: above → (below ∈ next.subtrees ↔ below ∈ editor.subtrees) := by
    intro below inside
    have shorter := inside.length_le
    rw [opened.mem_iff]
    constructor
    · rintro (rfl | old)
      · rw [length_append, length_singleton] at shorter
        omega
      · exact old
    · exact .inr
  constructor
  · exact fun visible => visible_congr visible entries keys
  · exact fun visible => visible_congr visible (fun dir other inside => (entries dir other inside).symm)
      (fun below inside => (keys below inside).symm)

end

theorem leaves_loaded (opened : Opened objects false above name editor next)
    (before : Sound objects editor) (loaded : (editor.level above).isSome) :
    leaves objects next = leaves objects editor := by
  funext path
  by_cases inside : above ++ [name] <+: path
  · cases opened with
    | already => rfl
    | created absent allowed => cases allowed
    | loaded absent entry found isTree =>
      obtain ⟨rest, rfl⟩ := inside
      have opened : Opened objects false above name editor _ := .loaded absent entry found isTree
      have prefixes : ∀ below, below <+: above → below ≠ [] → below ∈ editor.subtrees :=
        fun _ inside => before.level_prefixes loaded inside
      rw [append_assoc]
      by_cases visible : Visible editor above
      · have below : Visible (editor.insertSubtree (above ++ [name]) (storedEntries objects entry.oid))
            (above ++ [name]) := by
          refine visible_concat.mpr ⟨opened.visible_above.mpr visible, ?_, entry, ?_, isTree⟩
          · exact (opened.mem_iff _).mpr (.inl rfl)
          · rw [entryAt_insertSubtree _ (by simp), if_neg (by simp), found]
        rw [← append_assoc, leaves_visible below, append_assoc, leaves_visible visible]
        simp only [singleton_append, leavesFrom, found, isTree, if_true, absent, if_false]
        apply leavesFrom_stored
        · intro other
          rw [entryAt_insertSubtree _ (by simp), if_pos rfl]
        · intro other member
          rcases (opened.mem_iff _).mp member with same | old
          · simp at same
          · exact absent (before.closed _ other old (by simp))
      · have hidden : leaves objects editor (above ++ ([name] ++ rest)) = none := by
          by_contra present
          exact visible (visible_of_leaf _ prefixes (by simp) present)
        rw [hidden]
        by_contra present
        refine visible (opened.visible_above.mp (visible_of_leaf _ ?_ (by simp) present))
        intro below inner nonempty
        exact (opened.mem_iff _).mpr (.inr (prefixes below inner nonempty))
  · exact opened.leaves_outside inside

theorem root_loaded (opened : Opened objects false above name editor next) : next.root = editor.root := by
  cases opened with
  | already => rfl
  | loaded => rfl
  | created absent allowed => cases allowed

section

variable (opened : Opened objects createMissing above name editor next)

include opened

theorem visible (visibleAbove : Visible editor above) (listed : Listed editor (above ++ [name])) :
    Visible next (above ++ [name]) := by
  refine visible_concat.mpr ⟨opened.visible_above.mpr visibleAbove, (opened.mem_iff _).mpr (.inl rfl), ?_⟩
  cases opened with
  | already present => exact listed above name (prefix_refl _) present
  | loaded absent entry found isTree =>
    exact ⟨entry, by rw [entryAt_insertSubtree _ (by simp), if_neg (by simp), found], isTree⟩
  | created =>
    refine ⟨newDirectory name, ?_, rfl⟩
    rw [entryAt_insertSubtree _ (by simp), if_neg (by simp), entryAt_setLevel, if_pos rfl,
      Table.lookup_insert_if, if_pos rfl]

theorem listed (before : Sound objects editor) (visibleAbove : Visible editor above) {dirs : List Text}
    (listed : Listed editor (above ++ name :: dirs)) : Listed next (above ++ [name] ++ dirs) := by
  rw [append_assoc, singleton_append]
  have here : Listed editor (above ++ [name]) :=
    fun dir other inside => listed dir other (inside.trans (by simp))
  intro dir other inside member
  rcases (opened.mem_iff _).mp member with same | old
  · exact (opened.visible visibleAbove here dir other (by rw [same])).2
  · rw [opened.entryAt_key before old]
    exact listed dir other inside old

theorem stale (before : Sound objects editor) {key : List Text} (stale : Stale next key) : Stale editor key := by
  obtain ⟨dir, other, rfl, member, unlisted⟩ := stale
  by_cases old : dir ++ [other] ∈ editor.subtrees
  · rw [opened.entryAt_key before old] at unlisted
    exact ⟨dir, other, rfl, old, unlisted⟩
  · have new := ((opened.mem_iff _).mp member).resolve_right old
    obtain ⟨rfl, same⟩ := append_inj' new rfl
    cases same
    exfalso
    cases opened with
    | already present => exact old present
    | loaded absent entry found isTree =>
      refine unlisted entry ?_ isTree
      rw [entryAt_insertSubtree _ (by simp), if_neg (by simp), found]
    | created =>
      refine unlisted (newDirectory name) ?_ rfl
      rw [entryAt_insertSubtree _ (by simp), if_neg (by simp), entryAt_setLevel, if_pos rfl,
        Table.lookup_insert_if, if_pos rfl]

theorem leaves_cleared (before : Sound objects editor) (visibleAbove : Visible editor above)
    (loaded : (editor.level above).isSome) (listed : Listed editor (above ++ [name])) :
    leaves objects next = clearAbove (above ++ [name]) (leaves objects editor) := by
  have visibleNext := opened.visible visibleAbove listed
  funext path
  simp only [clearAbove]
  split
  next inside => exact leaves_above_visible visibleNext inside
  next notAbove =>
    by_cases inside : above ++ [name] <+: path
    · cases opened with
      | already => rfl
      | loaded absent entry found isTree =>
        exact congrFun (leaves_loaded (.loaded absent entry found isTree) before loaded) path
      | created absent allowed parent level unlisted =>
        obtain ⟨rest, rfl⟩ := inside
        have more : rest ≠ [] := by
          rintro rfl
          simp at notAbove
        rw [leaves_visible visibleNext, append_assoc, singleton_append,
          before.leaves_unlisted loaded unlisted more]
        cases rest with
        | nil => rfl
        | cons first rest =>
          simp only [leavesFrom, entryAt_insertSubtree _ (show above ++ [name] ≠ [] by simp), if_true,
            AList.lookup_empty]
    · exact opened.leaves_outside inside

end

end Opened

section Walk

variable {repo : Repository Oid}

-- What a call of `ensurePathLoaded` keeps, whether or not directories are created.
structure Walked (objects : Objects Oid) (editor after : TreeEditor Oid) (dir : List Text) : Prop where
  sound : Sound objects after
  grown : ∀ key ∈ editor.subtrees, key ∈ after.subtrees
  confined : ∀ key ∈ editor.subtrees, key <+: dir → ∀ other, ¬ key <+: other →
    (∀ name, after.entryAt other name = editor.entryAt other name) ∧
      (other ∈ after.subtrees ↔ other ∈ editor.subtrees)
  unloaded : ∀ trusted, Inherited objects trusted → Unloaded trusted editor → Unloaded trusted after
  keys : ∀ key ∈ after.subtrees, key ∈ editor.subtrees ∨ key <+: dir
  stale : ∀ key, Stale after key → Stale editor key

theorem Walked.refl (sound : Sound objects editor) (dir : List Text) : Walked objects editor editor dir :=
  ⟨sound, fun _ member => member, fun _ _ _ _ _ => ⟨fun _ => rfl, Iff.rfl⟩, fun _ _ before => before,
    fun _ member => .inl member, fun _ stale => stale⟩

theorem Walked.step {createMissing : Bool} {above dirs : List Text} {name : Text}
    {next after : TreeEditor Oid} (opened : Opened objects createMissing above name editor next)
    (sound : Sound objects editor) (walked : Walked objects next after (above ++ [name] ++ dirs)) :
    Walked objects editor after (above ++ name :: dirs) where
  sound := walked.sound
  grown := fun key member => walked.grown key ((opened.mem_iff key).mpr (.inr member))
  confined := by
    intro key member inside other outside
    have first := opened.confined sound member inside outside
    have second := walked.confined key ((opened.mem_iff key).mpr (.inr member))
      (by simpa using inside) other outside
    exact ⟨fun name => (second.1 name).trans (first.1 name), second.2.trans first.2⟩
  unloaded := fun trusted inherited before =>
    walked.unloaded trusted inherited (opened.unloaded inherited before)
  keys := by
    intro key member
    rcases walked.keys key member with old | inside
    · rcases (opened.mem_iff key).mp old with rfl | older
      · exact .inr (by simp)
      · exact .inl older
    · exact .inr (by simpa using inside)
  stale := fun key stale => opened.stale sound (walked.stale key stale)

section

variable (addressed : Addressed repo.objects) (above dirs : List Text) (sound : Sound repo.objects editor)
  (loaded : (editor.level above).isSome) (names : ∀ name ∈ dirs, Text.IsName name)

include addressed above dirs sound loaded names

theorem exec_ensurePathLoaded_create :
    ∃ after, (ensurePathLoaded true above dirs editor).exec repo = (.ok (true, after), repo) ∧
      (after.level (above ++ dirs)).isSome ∧ Walked repo.objects editor after (above ++ dirs) ∧
      (Visible editor above → Listed editor (above ++ dirs) →
        Visible after (above ++ dirs) ∧
          leaves repo.objects after = clearAbove (above ++ dirs) (leaves repo.objects editor)) := by
  induction dirs generalizing above editor with
  | nil =>
    refine ⟨editor, rfl, by simpa using loaded, .refl sound _, ?_⟩
    intro visible _
    rw [append_nil]
    refine ⟨visible, ?_⟩
    funext path
    simp only [clearAbove]
    split
    next inside => exact leaves_above_visible visible inside
    next => rfl
  | cons name dirs ih =>
    rcases exec_ensurePathLoaded_cons addressed sound true above dirs name loaded with
      ⟨next, opened, step⟩ | ⟨impossible, -, -⟩
    · obtain ⟨after, success, level, walked, cleared⟩ :=
        ih _ (opened.sound sound loaded (names name (by simp))) opened.level_isSome
          (fun part member => names part (by simp [member]))
      refine ⟨after, step.trans success, by simpa using level, walked.step opened sound, ?_⟩
      intro visible listed
      have here : Listed editor (above ++ [name]) :=
        fun dir other inside => listed dir other (inside.trans (by simp))
      obtain ⟨visibleAfter, same⟩ :=
        cleared (opened.visible visible here) (opened.listed sound visible listed)
      refine ⟨by simpa using visibleAfter, ?_⟩
      rw [same, opened.leaves_cleared sound visible loaded here]
      funext path
      have shorter : path <+: above ++ [name] → path <+: above ++ name :: dirs :=
        fun inside => inside.trans (by simp)
      simp only [clearAbove, append_assoc, singleton_append]
      split
      · rfl
      next outside => rw [if_neg fun inside => outside (shorter inside)]
    · cases impossible

theorem exec_ensurePathLoaded_keep :
    ∃ present after, (ensurePathLoaded false above dirs editor).exec repo = (.ok (present, after), repo) ∧
      Walked repo.objects editor after (above ++ dirs) ∧
      leaves repo.objects after = leaves repo.objects editor ∧ after.root = editor.root ∧
      (present = true → (after.level (above ++ dirs)).isSome) ∧
      (present = false → ∀ path, path ≠ [] → leaves repo.objects editor (above ++ dirs ++ path) = none) := by
  induction dirs generalizing above editor with
  | nil => exact ⟨true, editor, rfl, .refl sound _, rfl, rfl, fun _ => by simpa using loaded, by simp⟩
  | cons name dirs ih =>
    rcases exec_ensurePathLoaded_cons addressed sound false above dirs name loaded with
      ⟨next, opened, step⟩ | ⟨-, unlisted, stop⟩
    · obtain ⟨present, after, success, walked, same, root, level, missing⟩ :=
        ih _ (opened.sound sound loaded (names name (by simp))) opened.level_isSome
          (fun part member => names part (by simp [member]))
      have kept := opened.leaves_loaded sound loaded
      refine ⟨present, after, step.trans success, walked.step opened sound, same.trans kept,
        root.trans opened.root_loaded, by simpa using level, ?_⟩
      intro absent path more
      rw [← kept]
      simpa using missing absent path more
    · refine ⟨false, editor, stop, .refl sound _, rfl, rfl, by simp, ?_⟩
      intro _ path more
      rw [append_assoc, cons_append]
      exact sound.leaves_unlisted loaded unlisted (by simp [more])

end

end Walk

end TreeEditor

end LoginomDock.Git
