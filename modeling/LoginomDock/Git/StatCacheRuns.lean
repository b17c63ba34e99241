import LoginomDock.Git.StatCache
import LoginomDock.Git.CommitSnapshot

namespace LoginomDock.Git

open Repository Table WorkTree GitService

variable {Oid : Type} [DecidableEq Oid] [ObjectHash Oid]

def IndexesSound (repo : Repository Oid) (bound : Int) : Prop :=
  ∀ branch index saved, repo.indexes.lookup branch = some (index, saved) →
    saved ≤ bound ∧ EntriesSound repo saved index.entries

structure CarriesOver (service : GitService Oid) (repo : Repository Oid) (req : CommitRequest) (path : Text)
    (entry : IndexEntry Oid) (saved : Int) : Prop where
  indexed : ∃ index, repo.indexes.lookup req.branch = some (index, saved) ∧
    repo.refs.lookup (refNameOf req.branch) = some index.parentOid ∧ index.entries.lookup path = some entry
  unlisted : ∃ paths, req.paths = some paths ∧ ∀ listed ∈ paths, ¬ Covers repo.workTree listed path
  tracked : ∃ matcher, ((loadIgnoreMatcher service).exec repo).1 = .ok matcher ∧ shouldTrackPath path matcher = true

def LeavesNoStale (service : GitService Oid) (repo : Repository Oid) (req : CommitRequest) : Prop :=
  ∀ path entry saved info, CarriesOver service repo req path entry saved → saved ≤ entry.mtimeNs →
    entry.mtimeNs < repo.clock + repo.lag → repo.workTree.stat path = .ok info → info.size = entry.size →
    info.modTime = entry.mtimeNs → repo.workTree.fileOid (relativeParts path) = some entry.oid

section Commit

variable {indexes : Table Text (CommitIndex Oid × Int)} {service : GitService Oid} {repo after : Repository Oid}
  {req : CommitRequest} {bound : Int}

theorem Grown.keeps (grown : Grown repo after) : Keeps repo after := by
  have frame := grown.frame
  refine ⟨grown.addressed, grown.extend, ?_, ?_, ?_, ?_⟩ <;> rw [frame]

theorem IndexesSound.keeps (sound : IndexesSound repo bound) (keeps : Keeps repo after) :
    IndexesSound after bound := by
  intro branch index saved found
  rw [keeps.indexes] at found
  obtain ⟨past, entries⟩ := sound branch index saved found
  exact ⟨past, entries.keeps keeps.extend keeps.workTree⟩

theorem IndexesSound.later {later : Int} (sound : IndexesSound repo bound) (le : bound ≤ later) :
    IndexesSound repo later :=
  fun branch index saved found => ⟨(sound branch index saved found).1.trans le, (sound branch index saved found).2⟩

theorem Mirrors.bind_quiet {α γ δ : Type} {post : γ → δ → Repository Oid → Prop} {program : GitM Oid α}
    {next : α → GitM Oid γ} {other : α → GitM Oid δ} (quiet : GitM.Quiet program)
    (addressed : Addressed repo.objects)
    (rest : ∀ value after, program.exec repo = (.ok value, after) → Grown repo after →
      Mirrors indexes (next value) (other value) after post) :
    Mirrors indexes (program >>= next) (program >>= other) repo post := by
  refine .bind_same quiet.steady addressed fun value after ran _ => rest value after ran ?_
  have grown := quiet.grown addressed
  rwa [ran] at grown

variable {gathered : Gathering Oid} {matcher : IgnoreMatcher}

theorem seedIndex_carried {prevIndex : Option (CommitIndex Oid)} {paths : Option (List Text)} {path : Text} {entry : IndexEntry Oid}
    (found : (seedIndex (service.withIndexStore true) prevIndex paths gathered matcher).lookup path = some entry) :
    (∃ index, prevIndex = some index ∧ index.entries.lookup path = some entry) ∧
      paths.isSome ∧ ¬ gathered.Cleans path ∧ shouldTrackPath path matcher = true := by
  cases paths with
  | none => simp [seedIndex, withIndexStore, lookup_retain] at found
  | some paths =>
    cases prevIndex with
    | none => simp [seedIndex, withIndexStore, lookup_retain, lookup_foldl_erase] at found
    | some index =>
      simp only [seedIndex, withIndexStore, Option.isSome_some, if_true, lookup_retain,
        lookup_foldl_erase, Option.ite_none_right_eq_some, Option.ite_none_left_eq_some,
        Bool.not_eq_true', List.any_eq_false, decide_eq_true_eq] at found
      obtain ⟨tracked, notBelow, notHere, here⟩ := found
      refine ⟨⟨index, rfl, here⟩, rfl, ?_, tracked⟩
      rintro (exact | ⟨dir, member, above⟩)
      · exact notHere exact
      · exact notBelow dir member above

-- What is left after a commit, or after a part of it.
def Settles (repo after : Repository Oid) : Prop :=
  Addressed after.objects ∧ after.clock = repo.clock ∧ after.lag = repo.lag ∧
    IndexesSound after (repo.clock + repo.lag)

theorem saveIndex_mirrors {entries : Table Text (IndexEntry Oid)} (addressed : Addressed repo.objects)
    (sound : IndexesSound repo repo.clock) (fresh : EntriesSound repo (repo.clock + repo.lag) entries)
    (branch : Text) (parent : Oid) (others : Table Text (IndexEntry Oid)) :
    Mirrors indexes (saveIndex (service.withIndexStore true) branch parent entries)
      (saveIndex (service.withIndexStore false) branch parent others) repo fun _ _ after => Settles repo after := by
  refine .inr ⟨(), (), _, rfl, rfl, addressed, rfl, rfl, ?_⟩
  intro other index saved found
  simp only [handle, lookup_insert_if] at found
  split at found
  · cases found
    exact ⟨le_refl _, fresh.keeps (Extends.refl _) rfl⟩
  · obtain ⟨past, entriesSound⟩ := sound other index saved found
    exact ⟨by omega, entriesSound.keeps (Extends.refl _) rfl⟩

theorem Keeps.settles (keeps : Keeps repo after) (sound : IndexesSound repo repo.clock) : Settles repo after :=
  ⟨keeps.addressed, keeps.clock, keeps.lag, (sound.keeps keeps).later (by omega)⟩

theorem Settles.of_keeps {last : Repository Oid} (keeps : Keeps repo after) (settles : Settles after last) :
    Settles repo last := by
  obtain ⟨addressed, clock, lag, sound⟩ := settles
  rw [keeps.clock, keeps.lag] at sound
  exact ⟨addressed, clock.trans keeps.clock, lag.trans keeps.lag, sound⟩

theorem finishCommit_mirrors {left right : Progress Oid} (addressed : Addressed repo.objects)
    (sound : IndexesSound repo repo.clock) (same : SameProgress repo (repo.clock + repo.lag) left right)
    (prevHead : Option Oid) (ignored : Nat) :
    Mirrors indexes (finishCommit (service.withIndexStore true) req prevHead ignored left)
      (finishCommit (service.withIndexStore false) req prevHead ignored right) repo
        fun response other after => response = other ∧ Settles repo after := by
  obtain ⟨sameEditor, sameChanged, -, fresh⟩ := same
  unfold finishCommit
  rw [sameChanged, sameEditor]
  split
  · cases prevHead with
    | none => exact .pure ⟨rfl, (Keeps.refl addressed).settles sound⟩
    | some parent =>
      exact .bind_pure (saveIndex_mirrors addressed sound fresh _ _ _) fun _ _ after settles => ⟨rfl, settles⟩
  · refine .bind_same (TreeEditor.quiet_write _).steady addressed fun newTree written _ keeps => ?_
    refine .bind_same (quiet_writeCommit _ _ _ _ _).steady keeps.addressed fun commitOid stored _ kept => ?_
    refine .bind_same (steady_advanceRef _ _ _) kept.addressed fun _ moved _ keptOn => ?_
    have all := (keeps.trans kept).trans keptOn
    have soundStill := sound.keeps all
    rw [← all.clock] at soundStill
    have freshStill := fresh.keeps all.extend all.workTree
    rw [← all.clock, ← all.lag] at freshStill
    exact .bind_pure (saveIndex_mirrors all.addressed soundStill freshStill _ _ _)
      fun _ _ after settles => ⟨rfl, settles.of_keeps all⟩

def IsLoaded (repo : Repository Oid) (branch : Text) (prevHead : Option Oid) (prevIndex : Option (CommitIndex Oid)) :
    Prop :=
  ∀ index, prevIndex = some index → ∃ original saved, repo.indexes.lookup branch = some (original, saved) ∧
    prevHead = some original.parentOid ∧ index = { original with savedAtNs := savedAt saved }

theorem loadIndex_mirrors (branch : Text) (prevHead : Option Oid) :
    Mirrors indexes (loadIndex (service.withIndexStore true) branch prevHead)
      (loadIndex (service.withIndexStore false) branch prevHead) repo fun prevIndex other after =>
        after = repo ∧ other = none ∧ IsLoaded repo branch prevHead prevIndex := by
  cases prevHead with
  | none => exact .inr ⟨none, none, repo, rfl, rfl, rfl, rfl, fun index found => by cases found⟩
  | some head =>
    simp only [loadIndex, withIndexStore]
    unfold Mirrors
    rw [GitM.exec_call_bind]
    simp only [handle]
    rcases saved : repo.indexes.lookup branch with _ | ⟨original, time⟩
    · exact .inr ⟨none, none, repo, rfl, rfl, rfl, rfl, fun index found => by cases found⟩
    · refine .inr ⟨_, none, repo, rfl, rfl, rfl, rfl, fun index found => ?_⟩
      split at found
      next same =>
        cases found
        exact ⟨original, time, saved, by rw [← same], rfl⟩
      next => cases found

theorem IsLoaded.sound {branch : Text} {prevHead : Option Oid} {prevIndex : Option (CommitIndex Oid)}
    (loaded : IsLoaded repo branch prevHead prevIndex) (sound : IndexesSound repo bound) :
    LoadedSound repo prevIndex := by
  intro index found
  obtain ⟨original, saved, kept, -, rfl⟩ := loaded index found
  exact ⟨saved, rfl, (sound branch original saved kept).2⟩

theorem readRef_ok {refName : Text} {found : Option Oid} (ran : (readRef refName).exec repo = (.ok found, after)) :
    found = repo.refs.lookup refName := by
  rw [readRef] at ran
  rcases valid : (validateRefName refName : Except (RefStoreError Oid) Unit) with error | _
  · rw [valid] at ran
    cases ran
  · rw [valid] at ran
    cases ran
    rfl

theorem gather_cleans {fuel : Nat} {prevTree : Option Oid} {paths : List Text}
    {editor : TreeEditor Oid}
    (ran : (gather fuel matcher prevTree (some paths) editor).exec repo = (.ok gathered, after)) :
    ∀ listed ∈ paths, ∀ path, Covers repo.workTree listed path → gathered.Cleans path :=
  (exec_gathers (gathers_classifyPaths fuel matcher prevTree paths (.start editor)) ran).2

theorem seedIndex_sound {prevIndex : Option (CommitIndex Oid)} (sound : IndexesSound repo repo.clock)
    (safe : LeavesNoStale service repo req)
    (ignore : ((loadIgnoreMatcher service).exec repo).1 = .ok matcher)
    (loaded : IsLoaded repo req.branch (repo.refs.lookup (refNameOf req.branch)) prevIndex)
    (cleans : ∀ paths, req.paths = some paths → ∀ listed ∈ paths, ∀ path,
      Covers repo.workTree listed path → gathered.Cleans path) :
    EntriesSound repo (repo.clock + repo.lag)
      (seedIndex (service.withIndexStore true) prevIndex req.paths gathered matcher) := by
  intro path entry found
  obtain ⟨⟨index, rfl, here⟩, listed, kept, tracked⟩ := seedIndex_carried found
  obtain ⟨paths, listed⟩ := Option.isSome_iff_exists.mp listed
  obtain ⟨original, saved, indexed, head, rfl⟩ := loaded index rfl
  have entrySound := (sound req.branch original saved indexed).2 path entry here
  have carried : CarriesOver service repo req path entry saved :=
    ⟨⟨original, indexed, head, here⟩,
      ⟨paths, listed, fun other member covers => kept (cleans paths listed other member path covers)⟩,
      ⟨matcher, ignore, tracked⟩⟩
  refine ⟨entrySound.stored, fun info recent present size time => ?_⟩
  by_cases old : entry.mtimeNs < saved
  · exact entrySound.clean info old present size time
  · exact safe path entry saved info carried (by omega) recent present size time

theorem commitImpl_mirrors (fuel : Nat) (addressed : Addressed repo.objects) (sound : IndexesSound repo repo.clock)
    (safe : LeavesNoStale service repo req) :
    Mirrors indexes (commitImpl (service.withIndexStore true) fuel req)
      (commitImpl (service.withIndexStore false) fuel req) repo
        fun response other after => response = other ∧ Settles repo after := by
  unfold commitImpl
  rw [show loadIgnoreMatcher (service.withIndexStore true) = loadIgnoreMatcher service from rfl,
    show loadIgnoreMatcher (service.withIndexStore false) = loadIgnoreMatcher service from rfl]
  refine .bind_quiet (quiet_loadIgnoreMatcher service) addressed fun matcher first ignore grown => ?_
  refine .bind_quiet (quiet_readRef _) grown.addressed fun prevHead second read grownToo => ?_
  obtain rfl := readRef_ok read
  have head : first.refs = repo.refs := by rw [grown.frame]
  rw [head]
  refine .bind_quiet (quiet_prevTreeOf _) grownToo.addressed fun prevTree third _ grownOn => ?_
  have upToHead := (grown.trans grownToo).trans grownOn
  refine .bind (loadIndex_mirrors req.branch _) ?_
  rintro prevIndex _ _ ⟨rfl, rfl, loaded⟩
  refine ⟨.refl upToHead.addressed, ?_⟩
  rw [IsLoaded, upToHead.keeps.indexes] at loaded
  refine .bind_quiet (quiet_editorOf prevTree) upToHead.addressed fun editor fourth _ grownEditor => ?_
  have upToEditor := upToHead.trans grownEditor
  refine .bind_quiet (quiet_gather fuel matcher prevTree req.paths editor) upToEditor.addressed
    fun gathered fifth gatherRan grownGather => ?_
  have keeps := (upToEditor.trans grownGather).keeps
  have cleans : ∀ paths, req.paths = some paths → ∀ listed ∈ paths, ∀ path,
      Covers repo.workTree listed path → gathered.Cleans path := by
    intro paths listed
    rw [listed] at gatherRan
    rw [← upToEditor.keeps.workTree]
    exact gather_cleans gatherRan
  have seeded := seedIndex_sound sound safe (congrArg Prod.fst ignore) loaded cleans
  refine .bind (compareCandidates_mirrors gathered.candidates keeps.addressed
    ((IsLoaded.sound loaded sound).keeps keeps)
    ⟨rfl, rfl, rfl, seeded.keeps keeps.extend keeps.workTree⟩) ?_
  rintro left right last ⟨kept, same⟩
  refine ⟨kept, ?_⟩
  have all := keeps.trans kept
  rw [← all.clock, ← all.lag] at same
  have soundStill := sound.keeps all
  rw [← all.clock] at soundStill
  refine (finishCommit_mirrors all.addressed soundStill same _ _).weaken ?_
  rintro response other final ⟨rfl, settles⟩
  exact ⟨rfl, settles.of_keeps all⟩

theorem liftGit_keeps_state (result : Except (GitError Oid) Unit) : ((liftGit result).exec repo).2 = repo := by
  cases result <;> rfl

theorem validatePaths_keeps_state (paths : List Text) :
    ((validatePaths paths : GitM Oid Unit).exec repo).2 = repo := by
  induction paths with
  | nil => rfl
  | cons path rest ih =>
    rw [validatePaths]
    rcases (validateRelativePath path : Except (GitError Oid) Unit) with error | _
    · rfl
    · exact ih

theorem commit_mirrors (fuel : Nat) (addressed : Addressed repo.objects) (sound : IndexesSound repo repo.clock)
    (safe : LeavesNoStale service repo req) :
    Mirrors indexes (commit (service.withIndexStore true) fuel req)
      (commit (service.withIndexStore false) fuel req) repo
        fun response other after => response = other ∧ Settles repo after := by
  refine .bind_quiet (quiet_liftGit (early_validateAccountId _)) addressed fun _ first ran _ => ?_
  obtain rfl : repo = first := ((congrArg Prod.snd ran).symm.trans (liftGit_keeps_state _)).symm
  refine .bind_quiet (quiet_validatePaths _) addressed fun _ second ran _ => ?_
  obtain rfl : repo = second := ((congrArg Prod.snd ran).symm.trans (validatePaths_keeps_state _)).symm
  exact commitImpl_mirrors fuel addressed sound safe

end Commit

section Runs

-- What happens on one machine: files are written, the clock ticks, and a branch is committed. A commit takes a number
-- of ticks, up to the save of its index.
inductive Event where
  | write (path : Text) (data : Bytes)
  | mkdir (path : Text)
  | remove (path : Text)
  | tick (ticks : Nat)
  | commit (req : CommitRequest) (lag : Nat)

variable (service : GitService Oid) (fuel : Nat)

abbrev Outcome (Oid : Type) := Except (GitError Oid) (CommitResponse Oid) × Option Oid

def happen : Event → Repository Oid → List (Outcome Oid) × Repository Oid
  | .write path data, repo => ([], { repo with workTree := (repo.workTree.write repo.clock path data).2 })
  | .mkdir path, repo => ([], { repo with workTree := (repo.workTree.mkdir repo.clock path).2 })
  | .remove path, repo => ([], { repo with workTree := (repo.workTree.remove path).2 })
  | .tick ticks, repo => ([], { repo with clock := repo.clock + ticks })
  | .commit req lag, repo =>
    let committed := (commit service fuel req).exec { repo with lag }
    ([(committed.1, headTree committed.2 req.branch)],
      { committed.2 with clock := committed.2.clock + lag, lag := 0 })

def outcomes : List Event → Repository Oid → List (Outcome Oid) × Repository Oid
  | [], repo => ([], repo)
  | event :: rest, repo =>
    let happened := happen service fuel event repo
    let further := outcomes rest happened.2
    (happened.1 ++ further.1, further.2)

def NeverStale : List Event → Repository Oid → Prop
  | [], _ => True
  | event :: rest, repo =>
    (∀ req lag, event = .commit req lag → LeavesNoStale service { repo with lag } req) ∧
      NeverStale rest (happen (service.withIndexStore true) fuel event repo).2

variable {service} {fuel} {repo after : Repository Oid} {indexes : Table Text (CommitIndex Oid × Int)}

def Stamped (now : Int) (before after : WorkTree) : Prop :=
  ∀ path node, after.node path = some node → before.node path = some node ∨ node.info.modTime = now

theorem stamped_insert {before after : WorkTree} {here : List Text} {node : Node} {now : Int}
    (inserted : after.nodes = before.nodes.insert here node) (stamp : node.info.modTime = now) :
    Stamped now before after := by
  intro path other found
  by_cases root : path = []
  · subst root
    exact .inl found
  · rw [node_of_ne_nil _ root] at found ⊢
    rw [inserted, lookup_insert_if] at found
    split at found
    · cases found
      exact .inr stamp
    · exact .inl found

theorem stamped_refl (now : Int) (disk : WorkTree) : Stamped now disk disk := fun _ _ found => .inl found

section

variable (disk : WorkTree) (now : Int) (path : Text)

include disk now path

theorem stamped_write (data : Bytes) :
    Stamped now disk (disk.write now path data).2 := by
  unfold write
  simp only
  split
  · exact stamped_refl now disk
  · split
    · split
      · exact stamped_insert rfl rfl
      · exact stamped_refl now disk
    · exact stamped_refl now disk
    · exact stamped_refl now disk

theorem stamped_mkdir : Stamped now disk (disk.mkdir now path).2 := by
  unfold mkdir
  simp only
  split
  · exact stamped_refl now disk
  · split
    · split
      · exact stamped_insert rfl rfl
      · exact stamped_refl now disk
    · exact stamped_refl now disk
    · exact stamped_refl now disk

theorem stamped_remove : Stamped now disk (disk.remove path).2 := by
  unfold remove
  simp only
  split
  · intro other node found
    by_cases root : other = []
    · subst root
      exact .inl found
    · rw [node_of_ne_nil _ root] at found ⊢
      simp only [take, lookup_erase_if] at found
      split at found
      · cases found
      · exact .inl found
  · exact stamped_refl now disk
  · exact stamped_refl now disk

end

theorem IndexesSound.change {disk : WorkTree} (sound : IndexesSound repo repo.clock)
    (stamped : Stamped repo.clock repo.workTree disk) :
    IndexesSound { repo with workTree := disk } repo.clock := by
  intro branch index saved found
  obtain ⟨past, entries⟩ := sound branch index saved found
  refine ⟨past, fun path entry here => ⟨(entries path entry here).stored, ?_⟩⟩
  intro info old present size time
  obtain ⟨node, there, rfl⟩ := node_of_stat present
  rcases stamped _ node there with unchanged | now
  · have statBefore : repo.workTree.stat path = .ok node.info := by
      rw [stat, unchanged]
    have file := (entries path entry here).clean node.info old statBefore size time
    rw [fileOid, unchanged] at file
    simp only
    rw [fileOid, there]
    exact file
  · omega

theorem IndexesSound.timeless {bound : Int} (sound : IndexesSound repo bound) (clock : Int) (lag : Nat) :
    IndexesSound { repo with clock, lag } bound :=
  fun branch index saved found => ⟨(sound branch index saved found).1,
    (sound branch index saved found).2.keeps (Extends.refl _) rfl⟩

structure HappensAlike (service : GitService Oid) (fuel : Nat) (indexes : Table Text (CommitIndex Oid × Int))
    (event : Event) (repo : Repository Oid) : Prop where
  alike : happen (service.withIndexStore false) fuel event (repo.withIndexes indexes) =
    ((happen (service.withIndexStore true) fuel event repo).1,
      (happen (service.withIndexStore true) fuel event repo).2.withIndexes indexes)
  addressed : Addressed (happen (service.withIndexStore true) fuel event repo).2.objects
  sound : IndexesSound (happen (service.withIndexStore true) fuel event repo).2
    (happen (service.withIndexStore true) fuel event repo).2.clock

theorem happensAlike_commit {req : CommitRequest} {lag : Nat} {result : Except (GitError Oid) (CommitResponse Oid)}
    (ran : (commit (service.withIndexStore true) fuel req).exec { repo with lag } = (result, after))
    (ranToo : (commit (service.withIndexStore false) fuel req).exec
      (withIndexes indexes { repo with lag }) = (result, after.withIndexes indexes))
    (settles : Settles { repo with lag } after) : HappensAlike service fuel indexes (.commit req lag) repo := by
  obtain ⟨addressed, clock, -, sound⟩ := settles
  have withStore : happen (service.withIndexStore true) fuel (.commit req lag) repo =
      ([(result, headTree after req.branch)], { after with clock := after.clock + lag, lag := 0 }) := by
    rw [happen, ran]
  have without : happen (service.withIndexStore false) fuel (.commit req lag) (repo.withIndexes indexes) =
      ([(result, headTree after req.branch)],
        withIndexes indexes { after with clock := after.clock + lag, lag := 0 }) := by
    rw [withIndexes] at ranToo
    rw [happen, withIndexes]
    simp only
    rw [ranToo]
    rfl
  refine ⟨by rw [without, withStore], by rw [withStore]; exact addressed, ?_⟩
  rw [withStore]
  simp only [clock]
  exact sound.timeless _ _

theorem happensAlike (event : Event) (addressed : Addressed repo.objects) (sound : IndexesSound repo repo.clock)
    (safe : ∀ req lag, event = .commit req lag → LeavesNoStale service { repo with lag } req) :
    HappensAlike service fuel indexes event repo := by
  cases event with
  | write path data => exact ⟨rfl, addressed, sound.change (stamped_write _ _ _ _)⟩
  | mkdir path => exact ⟨rfl, addressed, sound.change (stamped_mkdir _ _ _)⟩
  | remove path => exact ⟨rfl, addressed, sound.change (stamped_remove _ _ _)⟩
  | tick ticks =>
    refine ⟨rfl, addressed, (sound.timeless _ _).later ?_⟩
    simp only [happen]
    omega
  | commit req lag =>
    have started : IndexesSound { repo with lag } repo.clock := sound.timeless _ _
    have mirrors : Mirrors indexes (commit (service.withIndexStore true) fuel req)
        (commit (service.withIndexStore false) fuel req) { repo with lag }
          fun response other after => response = other ∧ Settles { repo with lag } after :=
      commit_mirrors fuel addressed started (safe req lag rfl)
    rcases mirrors with ⟨error, after, ran, ranToo, keeps⟩ | ⟨response, _, after, ran, ranToo, rfl, settles⟩
    · exact happensAlike_commit ran ranToo (keeps.settles started)
    · exact happensAlike_commit ran ranToo settles

theorem outcomes_alike (events : List Event) (addressed : Addressed repo.objects)
    (sound : IndexesSound repo repo.clock) (safe : NeverStale service fuel events repo) :
    outcomes (service.withIndexStore false) fuel events (repo.withIndexes indexes) =
      ((outcomes (service.withIndexStore true) fuel events repo).1,
        (outcomes (service.withIndexStore true) fuel events repo).2.withIndexes indexes) := by
  induction events generalizing repo with
  | nil => rfl
  | cons event rest ih =>
    have step : HappensAlike service fuel indexes event repo := happensAlike event addressed sound safe.1
    simp only [outcomes]
    rw [step.alike, ih step.addressed step.sound safe.2]

end Runs

theorem indexed_run_commits_same_trees (service : GitService Oid) (fuel : Nat) (events : List Event)
    (repo : Repository Oid) (addressed : Addressed repo.objects) (unindexed : repo.indexes = ∅)
    (safe : NeverStale service fuel events repo) :
    (outcomes (service.withIndexStore true) fuel events repo).1 =
        (outcomes (service.withIndexStore false) fuel events repo).1 ∧
      (outcomes (service.withIndexStore true) fuel events repo).2.withIndexes ∅ =
        (outcomes (service.withIndexStore false) fuel events repo).2 := by
  have sound : IndexesSound repo repo.clock := by
    intro branch index saved found
    simp [unindexed] at found
  have same : repo.withIndexes ∅ = repo := by
    rw [withIndexes, ← unindexed]
  have alike : outcomes (service.withIndexStore false) fuel events (repo.withIndexes ∅) = _ :=
    outcomes_alike events addressed sound safe
  rw [same] at alike
  rw [alike]
  exact ⟨rfl, rfl⟩

section Instances

def rewriteLater : List Event :=
  [.write "a" [1], .write "b" [1], .tick 1, .commit (mainRequest none) 0,
    .write "b" [2], .tick 1, .commit (mainRequest (some ["b"])) 0, .commit (mainRequest none) 0]

def rewriteInTick : List Event :=
  [.write "a" [1], .write "b" [1], .commit (mainRequest none) 0, .write "a" [2],
    .tick 1, .commit (mainRequest (some ["b"])) 0, .commit (mainRequest none) 0]

section

variable {service : GitService Oid} {repo : Repository Oid} {req : CommitRequest}

theorem leavesNoStale_of_none (nothing : repo.indexes.lookup req.branch = none ∨ req.paths = none) : LeavesNoStale service repo req := by
  rintro path entry saved info ⟨⟨index, found, -⟩, ⟨paths, listed, -⟩, -⟩
  rcases nothing with unindexed | full
  · rw [unindexed] at found
    cases found
  · rw [full] at listed
    cases listed

theorem leavesNoStale_of_older {index : CommitIndex Oid} {saved : Int} (indexed : repo.indexes.lookup req.branch = some (index, saved))
    (older : ∀ entry ∈ index.entries.entries, entry.2.mtimeNs < saved) : LeavesNoStale service repo req := by
  rintro path entry time info ⟨⟨other, found, -, here⟩, -, -⟩ late
  rw [indexed] at found
  cases found
  have past : entry.mtimeNs < saved := older _ ((mem_entries_iff _ _ _).mpr here)
  omega

end

theorem rewriteLater_neverStale : NeverStale plainService 2 rewriteLater .fresh := by
  refine ⟨?_, ?_, ?_, ?_, ?_, ?_, ?_, ?_, trivial⟩ <;> rintro req lag ⟨⟩
  · exact leavesNoStale_of_none (.inl (by rfl))
  · exact leavesNoStale_of_older (by rfl) (by decide)
  · exact leavesNoStale_of_none (.inr rfl)

theorem rewrite_later_committed :
    (outcomes (plainService.withIndexStore true) 2 rewriteLater .fresh).1 =
        (outcomes (plainService.withIndexStore false) 2 rewriteLater .fresh).1 ∧
      (outcomes (plainService.withIndexStore true) 2 rewriteLater .fresh).2.withIndexes ∅ =
        (outcomes (plainService.withIndexStore false) 2 rewriteLater .fresh).2 :=
  indexed_run_commits_same_trees plainService 2 rewriteLater .fresh fresh_addressed rfl rewriteLater_neverStale

/-- The rewritten file is not in the last tree of the run with an index store. -/
theorem rewrite_in_tick_lost :
    Addressed (fresh : Repository Digest).objects ∧
      (fresh : Repository Digest).indexes = ∅ ∧
      (outcomes (plainService.withIndexStore true) 2 rewriteInTick .fresh).1.map Prod.snd ≠
        (outcomes (plainService.withIndexStore false) 2 rewriteInTick .fresh).1.map Prod.snd := by
  refine ⟨fresh_addressed, rfl, fun same => ?_⟩
  have decided : ((outcomes (plainService.withIndexStore true) 2 rewriteInTick .fresh).1.map Prod.snd ==
      (outcomes (plainService.withIndexStore false) 2 rewriteInTick .fresh).1.map Prod.snd) = false := by rfl
  simp [same] at decided

end Instances

end LoginomDock.Git
