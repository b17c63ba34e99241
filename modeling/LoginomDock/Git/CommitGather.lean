import LoginomDock.Git.CommitLoop

namespace LoginomDock.Git

open List Gathering

variable {Oid : Type} [DecidableEq Oid] [ObjectHash Oid]

open TreeEditor

section Members

variable {α : Type} (keep : α → Prop) {head other : α} {rest : List α}

theorem mem_cons_and_of (holds : keep head) :
    (other = head ∨ other ∈ rest ∧ keep other) ↔ other ∈ head :: rest ∧ keep other := by
  rw [mem_cons, or_and_right]
  refine or_congr_left ⟨?_, And.left⟩
  rintro rfl
  exact ⟨rfl, holds⟩

theorem mem_cons_and_of_not (fails : ¬ keep head) :
    (other ∈ rest ∧ keep other) ↔ other ∈ head :: rest ∧ keep other := by
  rw [mem_cons, or_and_right]
  refine ⟨.inr, ?_⟩
  rintro (⟨rfl, holds⟩ | member)
  · exact absurd holds fails
  · exact member

end Members

def withoutFiles (removed : List Text) (files : PathMap Text Oid) : PathMap Text Oid := fun path =>
  if Text.joined path ∈ removed then none else files path

section Files

variable {objects : Objects Oid} {prevTree : Option Oid} {path : List Text}

theorem isPath_of_baseFiles (stored : BaseStored objects prevTree) {oid : Oid}
    (file : baseFiles objects prevTree path = some oid) : Text.IsPath path := by
  obtain ⟨entry, leaf, -⟩ := baseFiles_eq_some.mp file
  cases prevTree with
  | none => cases leaf
  | some tree => exact isPath_of_storedLeaves (stored tree rfl) leaf

theorem withoutFiles_cons (stored : BaseStored objects prevTree) (removed : List Text) {file : Text} {oid : Oid}
    (present : baseFiles objects prevTree file.components = some oid) :
    PathMap.delete file.components (withoutFiles removed (baseFiles objects prevTree)) =
      withoutFiles (file :: removed) (baseFiles objects prevTree) := by
  funext path
  simp only [PathMap.delete, withoutFiles, mem_cons]
  by_cases same : path = file.components
  · simp [same]
  · by_cases inside : file.components <+: path
    · have nothing : baseFiles objects prevTree path = none := by
        rcases found : baseFiles objects prevTree path with _ | other
        · rfl
        · exact absurd (baseFiles_alone present found (.inl inside)).symm same
      simp [inside, nothing]
    · by_cases joined : Text.joined path = file
      · have nothing : baseFiles objects prevTree path = none := by
          rcases found : baseFiles objects prevTree path with _ | other
          · rfl
          · refine absurd ?_ same
            rw [← joined, Text.components_joined (isPath_of_baseFiles stored found)]
        simp [inside, joined, nothing]
      · simp [inside, joined]

end Files

section Gathered

variable {objects : Objects Oid} {prevTree : Option Oid} {matcher : IgnoreMatcher}
  {listing : List (Text × Oid)}

structure Gathered (objects : Objects Oid) (prevTree : Option Oid) (matcher : IgnoreMatcher)
    (listing : List (Text × Oid)) (state : Gathering Oid) : Prop where
  sound : Sound objects state.editor
  leaves : fileMap (leaves objects state.editor) =
    withoutFiles state.creditedRemoved (baseFiles objects prevTree)
  removed : ∀ path ∈ state.creditedRemoved, shouldTrackPath path matcher = false ∧
    Text.IsPath path.components ∧ ∃ oid, baseFiles objects prevTree path.components = some oid
  keys : ∀ key ∈ state.editor.subtrees, ∃ path oid, baseFiles objects prevTree path = some oid ∧
    key <+: path.dropLast
  stale : ∀ key, ¬ Stale state.editor key
  root : ∀ tree, prevTree = some tree → ∀ name, state.editor.root.lookup name =
    if name ∈ state.creditedRemoved then none else (storedEntries objects tree).lookup name
  counted : state.changed = state.creditedRemoved.length
  prevPaths : ∀ paths, state.prevPaths = some paths → paths = listing

structure Collects (before after : Gathering Oid) (added dropped : Text → Prop) : Prop where
  candidates : ∀ path, path ∈ after.candidates ↔ path ∈ before.candidates ∨ added path
  removed : ∀ path, path ∈ after.creditedRemoved ↔ path ∈ before.creditedRemoved ∨ dropped path

namespace Collects

variable {first second third : Gathering Oid} {added more dropped further : Text → Prop}

theorem refl (state : Gathering Oid) : Collects state state (fun _ => False) fun _ => False :=
  ⟨by simp, by simp⟩

theorem trans (left : Collects first second added dropped) (right : Collects second third more further) :
    Collects first third (fun path => added path ∨ more path) fun path => dropped path ∨ further path :=
  ⟨fun path => by rw [right.candidates, left.candidates, or_assoc],
    fun path => by rw [right.removed, left.removed, or_assoc]⟩

theorem congr (collects : Collects first second added dropped) (sameAdded : ∀ path, added path ↔ more path)
    (sameDropped : ∀ path, dropped path ↔ further path) : Collects first second more further :=
  ⟨fun path => by rw [collects.candidates, sameAdded], fun path => by rw [collects.removed, sameDropped]⟩

end Collects

theorem Gathered.congr {state next : Gathering Oid} (gathered : Gathered objects prevTree matcher listing state)
    (editor : next.editor = state.editor) (removed : next.creditedRemoved = state.creditedRemoved)
    (changed : next.changed = state.changed) (prevPaths : next.prevPaths = state.prevPaths) :
    Gathered objects prevTree matcher listing next := by
  obtain ⟨sound, leaves, gone, keys, stale, root, counted, paths⟩ := gathered
  rw [← editor] at sound leaves keys stale root
  rw [← removed] at leaves gone root counted
  rw [← changed] at counted
  rw [← prevPaths] at paths
  exact ⟨sound, leaves, gone, keys, stale, root, counted, paths⟩

theorem mem_addCandidate (state : Gathering Oid) (path other : Text) :
    other ∈ (state.addCandidate path).candidates ↔ other ∈ state.candidates ∨ other = path := by
  rw [addCandidate]
  split
  next present =>
    constructor
    · exact .inl
    · rintro (old | rfl)
      · exact old
      · exact present
  next => rw [mem_orderedInsert, or_comm]

theorem addCandidate_frame (state : Gathering Oid) (path : Text) :
    (state.addCandidate path).editor = state.editor ∧
      (state.addCandidate path).creditedRemoved = state.creditedRemoved ∧
      (state.addCandidate path).changed = state.changed ∧
      (state.addCandidate path).prevPaths = state.prevPaths := by
  rw [addCandidate]
  split <;> exact ⟨rfl, rfl, rfl, rfl⟩

variable {state : Gathering Oid}

theorem Gathered.addCandidate
    (gathered : Gathered objects prevTree matcher listing state) (path : Text) :
    Gathered objects prevTree matcher listing (state.addCandidate path) ∧
      Collects state (state.addCandidate path) (fun other => other = path) fun _ => False := by
  obtain ⟨editor, removed, changed, prevPaths⟩ := addCandidate_frame state path
  exact ⟨gathered.congr editor removed changed prevPaths, mem_addCandidate state path, by simp [removed]⟩

theorem includePath_spec (matcher : IgnoreMatcher) (path : Text) (state : Gathering Oid) :
    (includePath matcher path state).1 = shouldTrackPath path matcher ∧
      ∀ next, next = (includePath matcher path state).2 →
        next.editor = state.editor ∧ next.creditedRemoved = state.creditedRemoved ∧
        next.changed = state.changed ∧ next.prevPaths = state.prevPaths ∧ next.candidates = state.candidates := by
  rw [includePath]
  by_cases pruned : prunePath path
  · have untracked : shouldTrackPath path matcher = false := by
      by_contra tracked
      rw [not_prunePath_of_tracked (by simpa using tracked)] at pruned
      cases pruned
    simp [pruned, untracked]
  · by_cases tracked : shouldTrackPath path matcher
    · simp [pruned, tracked]
    · simp only [pruned, tracked, Bool.false_eq_true, if_false, Bool.not_false, if_true]
      refine ⟨by simp, ?_⟩
      rintro next rfl
      rw [creditIgnored]
      split <;> exact ⟨rfl, rfl, rfl, rfl, rfl⟩

theorem Gathered.includeListed (gathered : Gathered objects prevTree matcher listing state)
    (paths : List Text) :
    Gathered objects prevTree matcher listing (paths.foldl (includeListed matcher) state) ∧
      Collects state (paths.foldl (includeListed matcher) state)
        (fun path => path ∈ paths ∧ shouldTrackPath path matcher = true) fun _ => False := by
  induction paths generalizing state with
  | nil => exact ⟨gathered, (Collects.refl state).congr (by simp) (by simp)⟩
  | cons path rest ih =>
    have step : Gathered objects prevTree matcher listing (state.includeListed matcher path) ∧
        Collects state (state.includeListed matcher path)
          (fun other => other = path ∧ shouldTrackPath path matcher = true) fun _ => False := by
      obtain ⟨tracked, frame⟩ := includePath_spec matcher path state
      rw [includeListed]
      rcases result : includePath matcher path state with ⟨included, next⟩
      rw [result] at tracked frame
      obtain ⟨editor, removed, changed, prevPaths, candidates⟩ := frame next rfl
      have later := gathered.congr editor removed changed prevPaths
      cases included with
      | true =>
        obtain ⟨added, collects⟩ := later.addCandidate path
        refine ⟨added, ?_, ?_⟩
        · intro other
          rw [collects.candidates, candidates]
          simp [← tracked]
        · intro other
          rw [collects.removed, removed]
      | false =>
        refine ⟨later, ?_, ?_⟩
        · intro other
          simp [candidates, ← tracked]
        · intro other
          simp [removed]
    obtain ⟨final, collects⟩ := ih step.1
    refine ⟨final, (step.2.trans collects).congr ?_ (by simp)⟩
    intro other
    by_cases tracked : shouldTrackPath path matcher
    · rw [and_iff_left tracked]
      exact mem_cons_and_of (fun path => shouldTrackPath path matcher = true) tracked
    · rw [or_iff_right fun here => tracked here.2]
      exact mem_cons_and_of_not (fun path => shouldTrackPath path matcher = true) tracked

section Programs

variable {repo : Repository Oid} (addressed : Addressed repo.objects) (stored : BaseStored repo.objects prevTree)

theorem mem_creditRemoved (state : Gathering Oid) (path other : Text) :
    other ∈ (state.creditRemoved path).creditedRemoved ↔ other ∈ state.creditedRemoved ∨ other = path := by
  rw [creditRemoved]
  split
  next present =>
    constructor
    · exact .inl
    · rintro (old | rfl)
      · exact old
      · exact present
  next => rw [mem_cons, or_comm]

theorem creditRemoved_frame (state : Gathering Oid) (path : Text) :
    (state.creditRemoved path).editor = state.editor ∧
      (state.creditRemoved path).candidates = state.candidates ∧
      (state.creditRemoved path).prevPaths = state.prevPaths ∧
      (state.changed = state.creditedRemoved.length →
        (state.creditRemoved path).changed = (state.creditRemoved path).creditedRemoved.length) := by
  rw [creditRemoved]
  split
  · exact ⟨rfl, rfl, rfl, id⟩
  · refine ⟨rfl, rfl, rfl, fun counted => ?_⟩
    simp [counted]

include addressed stored

-- A file of the previous tree that is tracked no more is dropped.
theorem Gathered.drop (gathered : Gathered repo.objects prevTree matcher listing state)
    {path : Text} (valid : Text.IsPath path.components) (untracked : shouldTrackPath path matcher = false)
    {oid : Oid} (present : baseFiles repo.objects prevTree path.components = some oid) :
    ∃ editor, (state.editor.remove path).exec repo = (.ok editor, repo) ∧
      Gathered repo.objects prevTree matcher listing ({ state with editor }.creditRemoved path) ∧
      Collects state ({ state with editor }.creditRemoved path) (fun _ => False) fun other => other = path := by
  obtain ⟨editor, success, sound, deleted, -, removed⟩ := exec_remove addressed gathered.sound valid
  have members := mem_creditRemoved { state with editor } path
  obtain ⟨sameEditor, sameCandidates, samePaths, counted⟩ := creditRemoved_frame { state with editor } path
  have without : withoutFiles (path :: state.creditedRemoved) (baseFiles repo.objects prevTree) =
      withoutFiles ({ state with editor }.creditRemoved path).creditedRemoved (baseFiles repo.objects prevTree) := by
    funext other
    simp only [withoutFiles, members, mem_cons, or_comm]
  refine ⟨editor, success, ⟨?_, ?_, ?_, ?_, ?_, ?_, counted gathered.counted, ?_⟩, ?_, ?_⟩
  · rw [sameEditor]
    exact sound
  · rw [sameEditor, deleted, fileMap, PathMap.mapValues_delete, ← without, ← withoutFiles_cons stored _ present]
    exact congrArg _ gathered.leaves
  · intro other member
    rcases (members other).mp member with old | rfl
    · exact gathered.removed other old
    · exact ⟨untracked, valid, oid, present⟩
  · intro key member
    rw [sameEditor] at member
    rcases removed.keys key member with old | inside
    · exact gathered.keys key old
    · exact ⟨path.components, oid, present, inside⟩
  · -- the removed path is a file of the previous tree, so it is not above another one
    intro key stale
    rw [sameEditor] at stale
    rcases removed.stale key stale with old | rfl
    · exact gathered.stale key old
    · obtain ⟨above, name, -, member, -⟩ := stale
      have higher : ∃ other otherOid, baseFiles repo.objects prevTree other = some otherOid ∧
          path.components <+: other.dropLast := by
        rcases removed.keys _ member with old | inside
        · exact gathered.keys _ old
        · exact ⟨path.components, oid, present, inside⟩
      obtain ⟨other, otherOid, found, inside⟩ := higher
      have same := baseFiles_alone present found (.inl (inside.trans (List.dropLast_prefix _)))
      have length := inside.length_le
      have positive := length_pos_of_ne_nil valid.1
      rw [← same, length_dropLast] at length
      omega
  · intro tree some name
    rw [sameEditor]
    simp only [members]
    by_cases single : path.components = [name]
    · have joined : name = path := by
        rw [← Text.joined_components path, single, Text.joined_singleton]
      rw [removed.gone name single, if_pos (.inr joined)]
    · rw [removed.others name single, gathered.root tree some name]
      by_cases same : name = path
      · -- a path with a slash in it is no name of the root
        have nothing : (storedEntries repo.objects tree).lookup name = none := by
          rcases found : (storedEntries repo.objects tree).lookup name with _ | entry
          · rfl
          · have isName := ((stored tree some).lookup_named found).2
            exact absurd (same ▸ Text.components_name isName) single
        simp [nothing]
      · simp [same]
  · intro paths found
    rw [samePaths] at found
    exact gathered.prevPaths paths found
  · intro other
    simp [sameCandidates]
  · exact members

theorem exec_examinePrev (inScope : Text → Bool) (entries : List (Text × Oid))
    (files : ∀ path ∈ entries.map Prod.fst, Text.IsPath path.components ∧
      ∃ oid, baseFiles repo.objects prevTree path.components = some oid) (gathered : Gathered repo.objects prevTree matcher listing state) :
    ∃ next, (examinePrev matcher inScope entries state).exec repo = (.ok next, repo) ∧
      Gathered repo.objects prevTree matcher listing next ∧
      Collects state next
        (fun path => path ∈ entries.map Prod.fst ∧ inScope path = true ∧ shouldTrackPath path matcher = true)
        fun path => path ∈ entries.map Prod.fst ∧ inScope path = true ∧ shouldTrackPath path matcher = false := by
  induction entries generalizing state with
  | nil => exact ⟨state, rfl, gathered, (Collects.refl state).congr (by simp) (by simp)⟩
  | cons entry rest ih =>
    obtain ⟨path, oid⟩ := entry
    have later := fun other member => files other (mem_cons_of_mem _ member)
    let admitted := fun path => inScope path = true ∧ shouldTrackPath path matcher = true
    let refused := fun path => inScope path = true ∧ shouldTrackPath path matcher = false
    rw [examinePrev, map_cons]
    by_cases within : inScope path
    · simp only [within, Bool.not_true, Bool.false_eq_true, if_false]
      by_cases tracked : shouldTrackPath path matcher
      · simp only [tracked, if_true]
        obtain ⟨added, first⟩ := gathered.addCandidate path
        obtain ⟨next, success, final, second⟩ := ih later added
        refine ⟨next, success, final, (first.trans second).congr ?_ ?_⟩
        · exact fun other => mem_cons_and_of admitted ⟨within, tracked⟩
        · intro other
          rw [false_or]
          exact mem_cons_and_of_not refused (by simp [refused, tracked])
      · rw [Bool.not_eq_true] at tracked
        simp only [tracked, Bool.false_eq_true, if_false]
        obtain ⟨valid, base, present⟩ := files path (by simp)
        obtain ⟨editor, removed, dropped, first⟩ := gathered.drop addressed stored valid tracked present
        obtain ⟨next, success, final, second⟩ := ih later dropped
        refine ⟨next, ?_, final, (first.trans second).congr ?_ ?_⟩
        · rw [GitM.exec_bind_ok removed, success]
        · intro other
          rw [false_or]
          exact mem_cons_and_of_not admitted (by simp [admitted, tracked])
        · exact fun other => mem_cons_and_of refused ⟨within, tracked⟩
    · simp only [within, Bool.not_false, if_true]
      obtain ⟨next, success, final, collects⟩ := ih later gathered
      refine ⟨next, success, final, collects.congr ?_ ?_⟩
      · exact fun other => mem_cons_and_of_not admitted (by simp [admitted, within])
      · exact fun other => mem_cons_and_of_not refused (by simp [refused, within])

end Programs

end Gathered

end LoginomDock.Git
