import LoginomDock.Git.TreeLoading

namespace LoginomDock.Git

open List PathMap Table Text TreeEntry

variable {Oid : Type} [DecidableEq Oid] [ObjectHash Oid] {path : Text}

theorem exec_splitPath (valid : IsPath path.components) (repo : Repository Oid) :
    (splitPath path : GitM Oid (List Text)).exec repo = (.ok path.components, repo) := by
  have nonempty : path ≠ [] := by
    rintro rfl
    exact (valid.2 [] (by simp [components])).1 rfl
  have noneEmpty : path.components.any (· = []) = false := by
    rw [any_eq_false]
    intro part member empty
    exact (valid.2 part member).1 (of_decide_eq_true empty)
  simp [splitPath, nonempty, noneEmpty]

theorem split_last {parts : List Text} (valid : IsPath parts) :
    parts.dropLast ++ [parts.getLastD []] = parts ∧ (∀ name ∈ parts.dropLast, IsName name) ∧
      IsName (parts.getLastD []) := by
  have last : parts.getLastD [] = parts.getLast valid.1 := by
    rw [getLastD_eq_getLast?, getLast?_eq_some_getLast valid.1, Option.getD_some]
  rw [last]
  exact ⟨dropLast_concat_getLast valid.1,
    fun name member => valid.2 name (dropLast_subset _ member),
    valid.2 _ (getLast_mem valid.1)⟩

namespace TreeEditor

variable {objects : Objects Oid} {editor after : TreeEditor Oid}

theorem not_listed_iff {dir : List Text} :
    ¬ Listed editor dir ↔ ∃ above name, above ++ [name] <+: dir ∧ above ++ [name] ∈ editor.subtrees ∧
      ∀ entry, editor.entryAt above name = some entry → ¬ entry.isTree := by
  simp only [Listed]
  push Not
  simp only [Bool.not_eq_true]

theorem leaves_hidden {above : List Text} {name : Text} (sound : Sound objects editor)
    (soundAfter : Sound objects after) (loaded : above ++ [name] ∈ editor.subtrees)
    (kept : above ++ [name] ∈ after.subtrees)
    (unlisted : ∀ entry, editor.entryAt above name = some entry → ¬ entry.isTree)
    (confined : ∀ dir, ¬ above ++ [name] <+: dir →
      (∀ other, after.entryAt dir other = editor.entryAt dir other) ∧
        (dir ∈ after.subtrees ↔ dir ∈ editor.subtrees)) :
    leaves objects after = leaves objects editor := by
  have notBelow : ¬ above ++ [name] <+: above := by
    intro inside
    have := inside.length_le
    rw [length_append, length_singleton] at this
    omega
  have level : ∀ {some : TreeEditor Oid}, Sound objects some → above ++ [name] ∈ some.subtrees →
      (some.level above).isSome := by
    intro some sound member
    rw [level_isSome]
    by_cases root : above = []
    · exact .inl root
    · exact .inr (sound.closed above name member root)
  have sameEntry := (confined above notBelow).1 name
  funext path
  by_cases below : above ++ [name] <+: path ∧ path ≠ above ++ [name]
  · obtain ⟨⟨rest, rfl⟩, more⟩ := below
    have nonempty : rest ≠ [] := by
      rintro rfl
      simp at more
    rw [append_assoc, singleton_append,
      soundAfter.leaves_unlisted (level soundAfter kept) (by rw [sameEntry]; exact unlisted) nonempty,
      sound.leaves_unlisted (level sound loaded) unlisted nonempty]
  · have onWay : ∀ dir other, dir ++ [other] <+: path → ¬ above ++ [name] <+: dir := by
      intro dir other inside key
      have length := key.length_le
      refine below ⟨key.trans ((prefix_append _ _).trans inside), ?_⟩
      rintro rfl
      have := inside.length_le
      simp only [length_append, length_singleton] at this length
      omega
    apply leaves_congr
    · intro dir other inside
      exact (confined dir (onWay dir other inside)).1 other
    · intro part inside
      by_cases same : part = above ++ [name]
      · rw [same]
        exact iff_of_true kept loaded
      · refine (confined part ?_).2
        intro key
        refine below ⟨key.trans inside, ?_⟩
        rintro rfl
        exact same (inside.eq_of_length_le key.length_le)

structure EditedAt (editor after : TreeEditor Oid) (dir : List Text) (name : Text) : Prop where
  entries : ∀ above other, above ++ [other] ≠ dir ++ [name] →
    after.entryAt above other = editor.entryAt above other
  keys : ∀ key, key ∈ after.subtrees ↔ key ∈ editor.subtrees

theorem editedAt_setLevel {dir : List Text} {entries changed : TreeEntries Oid} {name : Text}
    (level : editor.level dir = some entries)
    (others : ∀ other, other ≠ name → changed.lookup other = entries.lookup other) :
    EditedAt editor (editor.setLevel dir changed) dir name where
  entries := by
    intro above other different
    rw [entryAt_setLevel]
    split
    next same =>
      subst same
      rw [others other fun equal => different (by rw [equal])]
      simp [entryAt, level]
    next => rfl
  keys := fun key => mem_setLevel editor dir key changed (by simp [level])

namespace EditedAt

variable {dir : List Text} {name : Text}

section

variable (edited : EditedAt editor after dir name)

include edited

theorem leaves_outside {path : List Text}
    (outside : ¬ dir ++ [name] <+: path) : leaves objects after path = leaves objects editor path := by
  apply leaves_congr
  · intro above other inside
    exact edited.entries above other fun same => outside (same ▸ inside)
  · exact fun below _ => edited.keys below

theorem visible_iff : Visible after dir ↔ Visible editor dir := by
  have entries : ∀ above other, above ++ [other] <+: dir →
      after.entryAt above other = editor.entryAt above other := by
    intro above other inside
    apply edited.entries
    intro same
    have := inside.length_le
    rw [same, length_append, length_singleton] at this
    omega
  constructor
  · exact fun visible => visible_congr visible entries fun below _ => edited.keys below
  · exact fun visible => visible_congr visible (fun above other inside => (entries above other inside).symm)
      fun below _ => (edited.keys below).symm

theorem leaves_below (visible : Visible editor dir)
    (rest : List Text) :
    leaves objects after (dir ++ [name] ++ rest) = leavesFrom objects after dir (name :: rest) := by
  rw [append_assoc, leaves_visible (edited.visible_iff.mpr visible), singleton_append]

theorem leaves_invisible (sound : Sound objects editor)
    (loaded : (editor.level dir).isSome) (invisible : ¬ Visible editor dir) (rest : List Text) :
    leaves objects after (dir ++ [name] ++ rest) = none := by
  by_contra present
  rw [append_assoc] at present
  refine invisible (edited.visible_iff.mp (visible_of_leaf _ ?_ (by simp) present))
  exact fun below inside nonempty => (edited.keys below).mpr (sound.level_prefixes loaded inside nonempty)

theorem unloaded {trusted : Oid → Prop}
    (before : Unloaded trusted editor)
    (entry : ∀ entry, after.entryAt dir name = some entry → entry.isTree → trusted entry.oid) :
    Unloaded trusted after := by
  intro above other present found isTree absent
  rw [edited.keys] at absent
  by_cases here : above ++ [other] = dir ++ [name]
  · obtain ⟨rfl, equal⟩ := append_inj' here rfl
    cases equal
    exact entry present found isTree
  · exact before above other present (by rwa [edited.entries above other here] at found) isTree absent

end

theorem stale (edited : EditedAt editor after dir name) {key : List Text} (stale : Stale after key) :
    Stale editor key ∨ key = dir ++ [name] := by
  obtain ⟨above, other, rfl, member, unlisted⟩ := stale
  by_cases here : above ++ [other] = dir ++ [name]
  · exact .inr here
  · rw [edited.entries above other here] at unlisted
    exact .inl ⟨above, other, rfl, (edited.keys _).mp member, unlisted⟩

theorem sound (edited : EditedAt editor after dir name) (before : Sound objects editor)
    (named : ∀ entry, after.entryAt dir name = some entry → entry.filename = name ∧ IsName name)
    (stored : ∀ entry, after.entryAt dir name = some entry → entry.isTree → TreeStored objects entry.oid) :
    Sound objects after where
  keys := fun key member => before.keys key ((edited.keys key).mp member)
  closed := by
    intro above other member below
    rw [edited.keys] at member ⊢
    exact before.closed above other member below
  named := by
    intro above other entry found
    by_cases here : above ++ [other] = dir ++ [name]
    · obtain ⟨rfl, equal⟩ := append_inj' here rfl
      cases equal
      exact named entry found
    · exact before.named above other entry (by rwa [edited.entries above other here] at found)
  stored := edited.unloaded before.stored stored

end EditedAt

section Programs

variable {repo : Repository Oid}

-- What is known once a new entry has been put into the directory of its path.
structure Placed (objects : Objects Oid) (editor after : TreeEditor Oid) (dir : List Text)
    (entry : TreeEntry Oid) : Prop where
  sound : Sound objects after
  found : after.entryAt dir entry.filename = some entry
  shown : Listed editor dir → Visible after dir ∧ ∀ path, ¬ dir ++ [entry.filename] <+: path →
    leaves objects after path = clearAbove dir (leaves objects editor) path
  hidden : ∀ key, key ∈ editor.subtrees → key <+: dir → key ∈ after.subtrees ∧
    ∀ other, ¬ key <+: other →
      (∀ name, after.entryAt other name = editor.entryAt other name) ∧
        (other ∈ after.subtrees ↔ other ∈ editor.subtrees)
  unloaded : ∀ trusted, Inherited objects trusted → (entry.isTree → trusted entry.oid) →
    Unloaded trusted editor → Unloaded trusted after
  stale : ∀ key, Stale after key → Stale editor key ∨ key = dir ++ [entry.filename]

theorem exec_place (addressed : Addressed repo.objects) (sound : Sound repo.objects editor)
    {dir : List Text} (names : ∀ name ∈ dir, IsName name) (entry : TreeEntry Oid)
    (isName : IsName entry.filename) (stored : entry.isTree → TreeStored repo.objects entry.oid) :
    ∃ loaded, (ensurePathLoaded true [] dir editor).exec repo = (.ok (true, loaded), repo) ∧
      Placed repo.objects editor
        (loaded.setLevel dir ((loaded.levelOrEmpty dir).insert entry.filename entry)) dir entry := by
  obtain ⟨loaded, success, level, walked, cleared⟩ :=
    exec_ensurePathLoaded_create addressed [] dir sound (by simp) names
  rw [nil_append] at level walked cleared
  refine ⟨loaded, success, ?_⟩
  obtain ⟨entries, levelIs⟩ := Option.isSome_iff_exists.mp level
  have levelOr : loaded.levelOrEmpty dir = entries := by simp [levelOrEmpty, levelIs]
  rw [levelOr]
  have edited : EditedAt loaded (loaded.setLevel dir (entries.insert entry.filename entry)) dir
      entry.filename := by
    apply editedAt_setLevel levelIs
    intro other different
    rw [lookup_insert_if, if_neg different]
  have here : (loaded.setLevel dir (entries.insert entry.filename entry)).entryAt dir entry.filename =
      some entry := by
    rw [entryAt_setLevel, if_pos rfl, lookup_insert_if, if_pos rfl]
  have entryIs : ∀ {trusted : Oid → Prop}, (entry.isTree → trusted entry.oid) → ∀ other,
      (loaded.setLevel dir (entries.insert entry.filename entry)).entryAt dir entry.filename = some other →
      other.isTree → trusted other.oid := by
    intro trusted given other found isTree
    cases here.symm.trans found
    exact given isTree
  refine ⟨edited.sound walked.sound ?_ (entryIs stored), here, ?_, ?_, ?_,
    fun key stale => (edited.stale stale).imp_left (walked.stale key)⟩
  · intro other found
    cases here.symm.trans found
    exact ⟨rfl, isName⟩
  · intro listed
    obtain ⟨visible, same⟩ := cleared (visible_nil editor) listed
    refine ⟨edited.visible_iff.mpr visible, ?_⟩
    intro path outside
    rw [edited.leaves_outside outside, same]
  · intro key member inside
    refine ⟨(edited.keys key).mpr (walked.grown key member), ?_⟩
    intro other outside
    obtain ⟨sameEntries, sameKeys⟩ := walked.confined key member inside other outside
    refine ⟨?_, (edited.keys other).trans sameKeys⟩
    intro name
    rw [edited.entries other name ?_, sameEntries name]
    intro equal
    obtain ⟨rfl, -⟩ := append_inj' equal rfl
    exact outside inside
  · intro trusted inherited given before
    exact edited.unloaded (walked.unloaded trusted inherited before) (entryIs given)

namespace Placed

variable {dir : List Text} {entry : TreeEntry Oid}

theorem leaves_set (placed : Placed objects editor after dir entry) (listed : Listed editor dir)
    (notTree : ¬ entry.isTree) :
    leaves objects after = PathMap.set (dir ++ [entry.filename]) entry (leaves objects editor) := by
  obtain ⟨visible, outside⟩ := placed.shown listed
  funext path
  by_cases inside : dir ++ [entry.filename] <+: path
  · obtain ⟨rest, rfl⟩ := inside
    rw [append_assoc, leaves_visible visible]
    by_cases last : rest = []
    · simp [leavesFrom, placed.found, notTree, PathMap.set, last]
    · simp [leavesFrom, placed.found, notTree, PathMap.set, last]
  · have different : path ≠ dir ++ [entry.filename] := by
      rintro rfl
      exact inside (prefix_refl _)
    rw [outside path inside]
    simp only [clearAbove, PathMap.set, different, if_false, inside, or_false,
      prefix_concat_iff, false_or]

theorem leaves_kept (placed : Placed objects editor after dir entry) (sound : Sound objects editor)
    (unlisted : ¬ Listed editor dir) : leaves objects after = leaves objects editor := by
  obtain ⟨above, name, inside, member, stale⟩ := not_listed_iff.mp unlisted
  obtain ⟨kept, confined⟩ := placed.hidden _ member inside
  exact leaves_hidden sound placed.sound member kept stale confined

end Placed

theorem exec_upsert (addressed : Addressed repo.objects) (sound : Sound repo.objects editor) (valid : IsPath path.components) (oid : Oid) :
    ∃ after, (upsert editor path oid).exec repo = (.ok after, repo) ∧ Sound repo.objects after ∧
      (Listed editor path.components.dropLast → leaves repo.objects after =
        PathMap.set path.components (leafEntry .blob (path.components.getLastD []) oid)
          (leaves repo.objects editor)) ∧
      (¬ Listed editor path.components.dropLast →
        leaves repo.objects after = leaves repo.objects editor) ∧
      (∀ trusted, Inherited repo.objects trusted → Unloaded trusted editor → Unloaded trusted after) ∧
      (∀ key, Stale after key → Stale editor key ∨ key = path.components) := by
  obtain ⟨split, names, isName⟩ := split_last valid
  obtain ⟨loaded, success, placed⟩ := exec_place addressed sound names
    (leafEntry .blob (path.components.getLastD []) oid) isName (by simp [leafEntry, isTree])
  have stale := placed.stale
  rw [leafEntry, split] at stale
  refine ⟨_, ?_, placed.sound, ?_, placed.leaves_kept sound, fun trusted inherited before =>
    placed.unloaded trusted inherited (by simp [leafEntry, isTree]) before, stale⟩
  · rw [upsert, GitM.exec_bind_ok (exec_splitPath valid repo), GitM.exec_bind_ok success]
    rfl
  · intro listed
    have set := placed.leaves_set listed (by simp [leafEntry, isTree])
    rwa [leafEntry, split] at set

structure RemovedAt (editor after : TreeEditor Oid) (parts : List Text) : Prop where
  keys : ∀ key ∈ after.subtrees, key ∈ editor.subtrees ∨ key <+: parts.dropLast
  stale : ∀ key, Stale after key → Stale editor key ∨ key = parts
  others : ∀ name, parts ≠ [name] → after.root.lookup name = editor.root.lookup name
  gone : ∀ name, parts = [name] → after.root.lookup name = none

theorem exec_remove (addressed : Addressed repo.objects) (sound : Sound repo.objects editor) (valid : IsPath path.components) :
    ∃ after, (remove editor path).exec repo = (.ok after, repo) ∧ Sound repo.objects after ∧
      leaves repo.objects after = delete path.components (leaves repo.objects editor) ∧
      (∀ trusted, Inherited repo.objects trusted → Unloaded trusted editor → Unloaded trusted after) ∧
      RemovedAt editor after path.components := by
  obtain ⟨split, names, isName⟩ := split_last valid
  obtain ⟨present, loaded, success, walked, same, root, level, missing⟩ :=
    exec_ensurePathLoaded_keep addressed [] path.components.dropLast sound (by simp) names
  rw [nil_append] at level missing
  rw [remove, GitM.exec_bind_ok (exec_splitPath valid repo), GitM.exec_bind_ok success]
  cases present with
  | false =>
    refine ⟨loaded, rfl, walked.sound, ?_, walked.unloaded, walked.keys,
      fun key stale => .inl (walked.stale key stale), fun name _ => by rw [root], ?_⟩
    · rw [same]
      funext other
      simp only [delete]
      split
      next inside =>
        obtain ⟨rest, rfl⟩ := inside
        rw [← split, append_assoc]
        exact missing rfl _ (by simp)
      next => rfl
    · intro name single
      rw [single] at success
      cases success
  | true =>
    obtain ⟨entries, levelIs⟩ := Option.isSome_iff_exists.mp (level rfl)
    generalize path.components.getLastD [] = name at split isName ⊢
    have edited : EditedAt loaded (loaded.setLevel path.components.dropLast (entries.erase name))
        path.components.dropLast name := by
      apply editedAt_setLevel levelIs
      intro other different
      rw [lookup_erase_if, if_neg different]
    have gone : (loaded.setLevel path.components.dropLast (entries.erase name)).entryAt
        path.components.dropLast name = none := by
      rw [entryAt_setLevel, if_pos rfl, lookup_erase_if, if_pos rfl]
    refine ⟨_, by simp [levelIs], edited.sound walked.sound (by simp [gone]) (by simp [gone]), ?_,
      fun trusted inherited before =>
        edited.unloaded (walked.unloaded trusted inherited before) (by simp [gone]),
      fun key member => walked.keys key ((edited.keys key).mp member), ?_, ?_, ?_⟩
    · funext other
      simp only [delete]
      split
      next inside =>
        obtain ⟨rest, rfl⟩ := inside
        have whole : path.components ++ rest = path.components.dropLast ++ [name] ++ rest := by rw [split]
        rw [whole]
        by_cases visible : Visible loaded path.components.dropLast
        · rw [edited.leaves_below visible]
          simp [leavesFrom, gone]
        · exact edited.leaves_invisible walked.sound (level rfl) visible rest
      next outside =>
        rw [edited.leaves_outside (by rwa [split]), same]
    · intro key stale
      rw [← split]
      exact (edited.stale stale).imp_left (walked.stale key)
    · intro other different
      rw [← root]
      refine edited.entries [] other fun equal => different ?_
      rw [← split, ← equal, nil_append]
    · intro other single
      rw [single, dropLast_singleton] at gone split ⊢
      cases split
      exact gone

section Drop

variable {parts dir : List Text}

theorem mem_dropBelow (editor : TreeEditor Oid) (key : List Text) :
    key ∈ (editor.dropBelow parts).subtrees ↔ ¬ parts <+: key ∧ key ∈ editor.subtrees := by
  rw [dropBelow, mem_keys_retain]
  simp

theorem entryAt_dropBelow (editor : TreeEditor Oid) (name : Text) (outside : ¬ parts <+: dir) :
    (editor.dropBelow parts).entryAt dir name = editor.entryAt dir name := by
  by_cases root : dir = []
  · simp [entryAt, level, root, dropBelow]
  · simp [entryAt, level, root, dropBelow, lookup_retain, outside]

theorem entryAt_dropped (editor : TreeEditor Oid) (name : Text) (nonempty : parts ≠ [])
    (inside : parts <+: dir) : (editor.dropBelow parts).entryAt dir name = none := by
  have below : dir ≠ [] := by
    rintro rfl
    exact nonempty (prefix_nil.mp inside)
  simp [entryAt, level, below, dropBelow, lookup_retain, inside]

theorem Sound.dropBelow (sound : Sound objects editor) (dir : List Text) (name : Text)
    (stored : ∀ entry, editor.entryAt dir name = some entry → entry.isTree → TreeStored objects entry.oid) :
    Sound objects (editor.dropBelow (dir ++ [name])) where
  keys := fun key member => sound.keys key ((mem_dropBelow _ _).mp member).2
  closed := by
    intro above other member below
    obtain ⟨outside, old⟩ := (mem_dropBelow _ _).mp member
    refine (mem_dropBelow _ _).mpr ⟨?_, sound.closed above other old below⟩
    exact fun inside => outside (inside.trans (prefix_append _ _))
  named := by
    intro above other entry found
    by_cases inside : dir ++ [name] <+: above
    · rw [entryAt_dropped _ _ (by simp) inside] at found
      cases found
    · exact sound.named above other entry (by rwa [entryAt_dropBelow _ _ inside] at found)
  stored := by
    intro above other entry found isTree absent
    by_cases inside : dir ++ [name] <+: above
    · rw [entryAt_dropped _ _ (by simp) inside] at found
      cases found
    · rw [entryAt_dropBelow _ _ inside] at found
      by_cases old : above ++ [other] ∈ editor.subtrees
      · have dropped : dir ++ [name] <+: above ++ [other] := by
          by_contra kept
          exact absent ((mem_dropBelow _ _).mpr ⟨kept, old⟩)
        rcases prefix_concat_iff.mp dropped with same | shorter
        · obtain ⟨rfl, equal⟩ := append_inj' same rfl
          cases equal
          exact stored entry found isTree
        · exact absurd shorter inside
      · exact sound.stored above other entry found isTree old

theorem leaves_dropBelow (editor : TreeEditor Oid) {path : List Text} (outside : ¬ parts <+: path) :
    leaves objects (editor.dropBelow parts) path = leaves objects editor path := by
  apply leaves_congr
  · intro above name inside
    apply entryAt_dropBelow
    exact fun key => outside (key.trans ((prefix_append _ _).trans inside))
  · intro below inside
    rw [mem_dropBelow]
    exact and_iff_right fun key => outside (key.trans inside)

end Drop

namespace Placed

variable {dir : List Text} {name : Text} {oid : Oid}

section

variable (placed : Placed objects editor after dir (leafEntry .tree name oid))

include placed

theorem leaves_graft (listed : Listed editor dir) :
    leaves objects (after.dropBelow (dir ++ [name])) =
      graft (dir ++ [name]) (storedLeaves objects oid) (leaves objects editor) := by
  obtain ⟨visible, outside⟩ := placed.shown listed
  have notInside : ∀ below, below <+: dir → ¬ dir ++ [name] <+: below := by
    intro below inside key
    have := (key.trans inside).length_le
    rw [length_append, length_singleton] at this
    omega
  have visibleAfter : Visible (after.dropBelow (dir ++ [name])) dir := by
    apply visible_congr visible
    · intro above other inside
      rw [entryAt_dropBelow _ _ (notInside above ((prefix_append _ _).trans inside))]
    · intro below inside
      rw [mem_dropBelow]
      exact (and_iff_right (notInside below inside)).symm
  funext path
  by_cases inside : dir ++ [name] <+: path
  · obtain ⟨rest, rfl⟩ := inside
    have found : (after.dropBelow (dir ++ [name])).entryAt dir name = some (leafEntry .tree name oid) := by
      rw [entryAt_dropBelow _ _ (notInside dir (prefix_refl _))]
      exact placed.found
    have absent : dir ++ [name] ∉ (after.dropBelow (dir ++ [name])).subtrees := by
      rw [mem_dropBelow]
      simp
    rw [append_assoc, leaves_visible visibleAfter]
    simp [leavesFrom, found, absent, graft, leafEntry, isTree]
  · have different : path ≠ dir ++ [name] := by
      rintro rfl
      exact inside (prefix_refl _)
    rw [leaves_dropBelow _ inside, outside path inside]
    simp only [graft, clearAbove, inside, if_false, prefix_concat_iff, different,
      false_or]

theorem leaves_dropped_kept (sound : Sound objects editor) (soundAfter : Sound objects (after.dropBelow (dir ++ [name])))
    (unlisted : ¬ Listed editor dir) :
    leaves objects (after.dropBelow (dir ++ [name])) = leaves objects editor := by
  obtain ⟨above, last, inside, member, stale⟩ := not_listed_iff.mp unlisted
  obtain ⟨kept, confined⟩ := placed.hidden _ member inside
  have shorter : ∀ other, ¬ above ++ [last] <+: other → ¬ dir ++ [name] <+: other :=
    fun other outside key => outside (inside.trans ((prefix_append _ _).trans key))
  refine leaves_hidden sound soundAfter member ?_ stale ?_
  · refine (mem_dropBelow _ _).mpr ⟨?_, kept⟩
    intro key
    have := (key.trans inside).length_le
    rw [length_append, length_singleton] at this
    omega
  · intro other outside
    obtain ⟨entries, keys⟩ := confined other outside
    refine ⟨fun name => (entryAt_dropBelow _ _ (shorter other outside)).trans (entries name), ?_⟩
    rw [mem_dropBelow, and_iff_right (shorter other outside), keys]

end

end Placed

theorem exec_upsertSubtree (addressed : Addressed repo.objects) (sound : Sound repo.objects editor) (valid : IsPath path.components) {oid : Oid}
    (stored : TreeStored repo.objects oid) :
    ∃ after, (upsertSubtree editor path oid).exec repo = (.ok after, repo) ∧ Sound repo.objects after ∧
      (Listed editor path.components.dropLast → leaves repo.objects after =
        graft path.components (storedLeaves repo.objects oid) (leaves repo.objects editor)) ∧
      (¬ Listed editor path.components.dropLast →
        leaves repo.objects after = leaves repo.objects editor) := by
  obtain ⟨split, names, isName⟩ := split_last valid
  obtain ⟨loaded, success, placed⟩ := exec_place addressed sound names
    (leafEntry .tree (path.components.getLastD []) oid) isName (fun _ => stored)
  have soundAfter := placed.sound.dropBelow path.components.dropLast
    (path.components.getLastD []) (by
      intro entry present _
      cases placed.found.symm.trans present
      exact stored)
  have shown := placed.leaves_graft
  have hidden := placed.leaves_dropped_kept sound soundAfter
  rw [split] at soundAfter shown hidden
  refine ⟨_, ?_, soundAfter, shown, hidden⟩
  rw [upsertSubtree, GitM.exec_bind_ok (exec_splitPath valid repo), GitM.exec_bind_ok success]
  rfl

end Programs

end TreeEditor

end LoginomDock.Git
