import LoginomDock.Git.Quiet
import LoginomDock.Git.CommitLoop

/-! The same commit runs side by side with an index store and without one. -/

namespace LoginomDock.Git

open List GitM Prog Repository TreeEditor

variable {Oid : Type} [DecidableEq Oid] [ObjectHash Oid] {α β γ δ : Type}

def Repository.withIndexes (indexes : Table Text (CommitIndex Oid × Int)) (repo : Repository Oid) :
    Repository Oid :=
  { repo with indexes }

section Steady

-- Calls that touch neither the working tree nor an index, and store objects under their hashes.
def GitOp.Steady : GitOp Oid → Prop
  | .lockRef _ => True
  | .unlockRef _ => True
  | .replaceRef _ _ => True
  | op => op.Quiet

theorem GitOp.Quiet.steady {op : GitOp Oid} (quiet : op.Quiet) : op.Steady := by
  cases op <;> first | exact quiet | exact trivial

def GitM.Steady (program : GitM Oid α) : Prop :=
  Does (fun _ _ => True) GitOp.Steady (fun _ => True) (fun _ => True) program

-- Only refs and mutexes have changed, and objects have come in.
structure Keeps (before after : Repository Oid) : Prop where
  addressed : Addressed after.objects
  extend : Extends before.objects after.objects
  workTree : after.workTree = before.workTree
  indexes : after.indexes = before.indexes
  clock : after.clock = before.clock
  lag : after.lag = before.lag

namespace Keeps

theorem refl {repo : Repository Oid} (addressed : Addressed repo.objects) : Keeps repo repo :=
  ⟨addressed, .refl _, rfl, rfl, rfl, rfl⟩

theorem trans {first second third : Repository Oid} (left : Keeps first second) (right : Keeps second third) :
    Keeps first third :=
  ⟨right.addressed, left.extend.trans right.extend, right.workTree.trans left.workTree,
    right.indexes.trans left.indexes, right.clock.trans left.clock, right.lag.trans left.lag⟩

theorem store {repo : Repository Oid} (addressed : Addressed repo.objects) (object : GitObject Oid) :
    Keeps repo (repo.store object) :=
  ⟨store_addressed addressed object, store_extends addressed object, rfl, rfl, rfl, rfl⟩

theorem handle {repo : Repository Oid} (addressed : Addressed repo.objects) {op : GitOp Oid} (steady : op.Steady) :
    Keeps repo (Repository.handle op repo).2 := by
  cases op with
  | putObject oid object =>
    obtain rfl : computeHash object = oid := steady
    exact .store addressed object
  | getObject oid =>
    simp only [Repository.handle]
    split <;> exact .refl addressed
  | objectExists | readRef | listRefs | stat | readFile | treeDirectory | readDir | now => exact .refl addressed
  | lockRef | unlockRef | replaceRef => exact ⟨addressed, .refl _, rfl, rfl, rfl, rfl⟩
  | writeFile | mkdir | removeFile | loadIndex | saveIndex => cases steady

end Keeps

theorem handle_withIndexes (indexes : Table Text (CommitIndex Oid × Int)) {op : GitOp Oid} (repo : Repository Oid)
    (steady : op.Steady) :
    Repository.handle op (repo.withIndexes indexes) =
      ((Repository.handle op repo).1, (Repository.handle op repo).2.withIndexes indexes) := by
  cases op with
  | getObject oid =>
    simp only [Repository.handle, withIndexes]
    split <;> rfl
  | putObject | objectExists | readRef | listRefs | stat | readFile | treeDirectory | readDir | now => rfl
  | lockRef | unlockRef | replaceRef => rfl
  | writeFile | mkdir | removeFile | loadIndex | saveIndex => cases steady

namespace GitM

theorem Quiet.steady {program : GitM Oid α} (quiet : Quiet program) : Steady program :=
  Does.weaken quiet (fun _ allowed => allowed.steady) (fun _ _ => trivial) fun _ _ => trivial

namespace Steady

variable {program : GitM Oid α}

theorem bind {next : α → GitM Oid β} (steady : Steady program) (rest : ∀ value, Steady (next value)) :
    Steady (program >>= next) :=
  Does.bind steady fun value _ => rest value

theorem keeps (steady : Steady program) {repo : Repository Oid} (addressed : Addressed repo.objects) :
    Keeps repo (program.exec repo).2 := by
  have step : ∀ (op : GitOp Oid) (state : Repository Oid), Keeps repo state → op.Steady →
      True ∧ Keeps repo (Repository.handle op state).2 :=
    fun op state kept allowed => ⟨trivial, kept.trans (.handle kept.addressed allowed)⟩
  exact (Within.run step steady (Keeps.refl addressed)).2

theorem exec_withIndexes (steady : Steady program) (indexes : Table Text (CommitIndex Oid × Int))
    (repo : Repository Oid) :
    program.exec (repo.withIndexes indexes) =
      ((program.exec repo).1, (program.exec repo).2.withIndexes indexes) :=
  Within.run_commutes (fun _ state allowed => handle_withIndexes indexes state allowed) steady repo

end Steady

end GitM

theorem steady_advanceRef (refName : Text) (expected : Option Oid) (new : Oid) :
    Steady (advanceRef refName expected new) := by
  have call : ∀ {op : GitOp Oid}, op.Steady → Steady (call op) :=
    fun {op} allowed => Does.perform op allowed
  have swap : Steady (casUpdate refName expected new) := by
    rw [casUpdate.eq_def]
    split
    · exact (Quiet.pure _).steady
    · refine .bind (call trivial) fun _ => .bind (call trivial) fun actual => ?_
      split
      · exact .bind (call trivial) fun _ => (Quiet.pure _).steady
      · exact .bind (call trivial) fun _ => .bind (call trivial) fun _ => (Quiet.pure _).steady
  refine swap.bind fun result => ?_
  split
  · exact (Quiet.pure _).steady
  · exact Does.throw trivial
  · exact Does.throw trivial

end Steady

section Mirrors

def Mirrors (indexes : Table Text (CommitIndex Oid × Int)) (first : GitM Oid α) (second : GitM Oid β)
    (repo : Repository Oid) (post : α → β → Repository Oid → Prop) : Prop :=
  (∃ error after, first.exec repo = (.error error, after) ∧
      second.exec (repo.withIndexes indexes) = (.error error, after.withIndexes indexes) ∧ Keeps repo after) ∨
    ∃ value other after, first.exec repo = (.ok value, after) ∧
      second.exec (repo.withIndexes indexes) = (.ok other, after.withIndexes indexes) ∧ post value other after

namespace Mirrors

variable {indexes : Table Text (CommitIndex Oid × Int)} {repo : Repository Oid} {first : GitM Oid α}
  {second : GitM Oid β} {middle : α → β → Repository Oid → Prop} {post : γ → δ → Repository Oid → Prop}
  {next : α → GitM Oid γ} {other : β → GitM Oid δ}

theorem pure {left : γ} {right : δ} (holds : post left right repo) :
    Mirrors indexes (pure left) (pure right) repo post :=
  .inr ⟨left, right, repo, rfl, rfl, holds⟩

theorem weaken {weaker : α → β → Repository Oid → Prop} (mirrors : Mirrors indexes first second repo middle)
    (weak : ∀ left right after, middle left right after → weaker left right after) :
    Mirrors indexes first second repo weaker := by
  rcases mirrors with failed | ⟨left, right, after, ran, ranToo, holds⟩
  · exact .inl failed
  · exact .inr ⟨left, right, after, ran, ranToo, weak left right after holds⟩

theorem bind (mirrors : Mirrors indexes first second repo middle)
    (rest : ∀ left right after, middle left right after →
      Keeps repo after ∧ Mirrors indexes (next left) (other right) after post) :
    Mirrors indexes (first >>= next) (second >>= other) repo post := by
  rcases mirrors with ⟨error, after, ran, ranToo, keeps⟩ | ⟨left, right, after, ran, ranToo, holds⟩
  · exact .inl ⟨error, after, GitM.exec_bind_error ran, GitM.exec_bind_error ranToo, keeps⟩
  · obtain ⟨keeps, continued⟩ := rest left right after holds
    rcases continued with ⟨error, last, ranOn, ranOnToo, kept⟩ | ⟨value, value', last, ranOn, ranOnToo, ended⟩
    · exact .inl ⟨error, last, by rw [GitM.exec_bind_ok ran, ranOn], by rw [GitM.exec_bind_ok ranToo, ranOnToo],
        keeps.trans kept⟩
    · exact .inr ⟨value, value', last, by rw [GitM.exec_bind_ok ran, ranOn],
        by rw [GitM.exec_bind_ok ranToo, ranOnToo], ended⟩

theorem same {program : GitM Oid α} (steady : Steady program) (addressed : Addressed repo.objects) :
    Mirrors indexes program program repo fun left right after =>
      left = right ∧ program.exec repo = (.ok left, after) ∧ Keeps repo after := by
  have keeps := steady.keeps addressed
  have alike := steady.exec_withIndexes indexes repo
  rcases ran : program.exec repo with ⟨error | value, after⟩ <;> rw [ran] at keeps alike
  · exact .inl ⟨error, after, ran, alike, keeps⟩
  · exact .inr ⟨value, value, after, ran, alike, rfl, rfl, keeps⟩

theorem bind_same {program : GitM Oid α} {next : α → GitM Oid γ} {other : α → GitM Oid δ}
    (steady : Steady program) (addressed : Addressed repo.objects)
    (rest : ∀ value after, program.exec repo = (.ok value, after) → Keeps repo after →
      Mirrors indexes (next value) (other value) after post) :
    Mirrors indexes (program >>= next) (program >>= other) repo post := by
  refine bind (same steady addressed) ?_
  rintro value _ after ⟨rfl, ran, keeps⟩
  exact ⟨keeps, rest value after ran keeps⟩

theorem bind_pure {finish : α → γ} {finishToo : β → δ} (mirrors : Mirrors indexes first second repo middle)
    (rest : ∀ left right after, middle left right after → post (finish left) (finishToo right) after) :
    Mirrors indexes (first >>= fun left => Pure.pure (finish left))
      (second >>= fun right => Pure.pure (finishToo right)) repo post := by
  rcases mirrors with ⟨error, after, ran, ranToo, keeps⟩ | ⟨left, right, after, ran, ranToo, holds⟩
  · exact .inl ⟨error, after, GitM.exec_bind_error ran, GitM.exec_bind_error ranToo, keeps⟩
  · exact .inr ⟨_, _, after, by rw [GitM.exec_bind_ok ran, GitM.exec_pure],
      by rw [GitM.exec_bind_ok ranToo, GitM.exec_pure], rest left right after holds⟩

theorem bind_stat {path : Text} {next : Except FsError FileInfo → GitM Oid γ}
    {other : Except FsError FileInfo → GitM Oid δ}
    (rest : Mirrors indexes (next (repo.workTree.stat path)) (other (repo.workTree.stat path)) repo post) :
    Mirrors indexes (call (.stat path) >>= next) (call (.stat path) >>= other) repo post := by
  unfold Mirrors
  rw [exec_call_bind, exec_call_bind]
  exact rest

end Mirrors

end Mirrors

section Entries

structure EntrySound (repo : Repository Oid) (bound : Int) (path : Text) (entry : IndexEntry Oid) : Prop where
  stored : ∃ data, repo.objects entry.oid = some (.blob data)
  clean : ∀ info, entry.mtimeNs < bound → repo.workTree.stat path = .ok info → info.size = entry.size →
    info.modTime = entry.mtimeNs → repo.workTree.fileOid (relativeParts path) = some entry.oid

def EntriesSound (repo : Repository Oid) (bound : Int) (entries : Table Text (IndexEntry Oid)) : Prop :=
  ∀ path entry, entries.lookup path = some entry → EntrySound repo bound path entry

def LoadedSound (repo : Repository Oid) (prevIndex : Option (CommitIndex Oid)) : Prop :=
  ∀ index, prevIndex = some index →
    ∃ saved, index.savedAtNs = Repository.savedAt saved ∧ EntriesSound repo saved index.entries

variable {repo after : Repository Oid} {bound : Int} {path : Text} {entry : IndexEntry Oid}
  {entries : Table Text (IndexEntry Oid)} {prevIndex : Option (CommitIndex Oid)}

theorem EntrySound.keeps (sound : EntrySound repo bound path entry)
    (extend : Extends repo.objects after.objects) (disk : after.workTree = repo.workTree) :
    EntrySound after bound path entry where
  stored := by
    obtain ⟨data, found⟩ := sound.stored
    exact ⟨data, extend _ _ found⟩
  clean := by
    rw [disk]
    exact sound.clean

theorem EntriesSound.keeps (sound : EntriesSound repo bound entries)
    (extend : Extends repo.objects after.objects) (disk : after.workTree = repo.workTree) :
    EntriesSound after bound entries :=
  fun path entry found => (sound path entry found).keeps extend disk

theorem LoadedSound.keeps (sound : LoadedSound repo prevIndex) (keeps : Keeps repo after) :
    LoadedSound after prevIndex := by
  intro index loaded
  obtain ⟨saved, stamp, entries⟩ := sound index loaded
  exact ⟨saved, stamp, entries.keeps keeps.extend keeps.workTree⟩

theorem EntriesSound.insert (sound : EntriesSound repo bound entries) (fresh : EntrySound repo bound path entry) :
    EntriesSound repo bound (entries.insert path entry) := by
  intro other found member
  rw [Table.lookup_insert_if] at member
  split at member
  next same =>
    cases member
    exact same ▸ fresh
  next => exact sound other found member

theorem EntriesSound.erase (sound : EntriesSound repo bound entries) :
    EntriesSound repo bound (entries.erase path) := by
  intro other found member
  rw [Table.lookup_erase_if] at member
  split at member
  · cases member
  · exact sound other found member

end Entries

def GitService.withIndexStore (service : GitService Oid) (indexStore : Bool) : GitService Oid :=
  { service with indexStore }

section Compare

variable {indexes : Table Text (CommitIndex Oid × Int)} {service : GitService Oid} {prevTree : Option Oid}
  {prevIndex : Option (CommitIndex Oid)} {repo after : Repository Oid} {bound : Int} {path : Text}
  {info : FileInfo} {left right : Progress Oid}

theorem trustedOid_sound {oid : Oid} (loaded : LoadedSound repo prevIndex) (present : repo.workTree.stat path = .ok info)
    (trusted : trustedOid prevIndex path info = some oid) :
    repo.workTree.fileOid (relativeParts path) = some oid ∧ ∃ data, repo.objects oid = some (.blob data) := by
  unfold trustedOid at trusted
  split at trusted
  · cases trusted
  next index =>
    obtain ⟨saved, stamp, sound⟩ := loaded index rfl
    split at trusted
    next entry size mtime stamped found signature savedAt =>
      split at trusted
      next fits =>
        cases trusted
        rw [stamp, Repository.savedAt] at savedAt
        rw [statSignature] at signature
        split at savedAt <;> cases savedAt
        split at signature <;> cases signature
        have entrySound := sound path entry found
        exact ⟨entrySound.clean info (by omega) present (by omega) (by omega), entrySound.stored⟩
      · cases trusted
    · cases trusted

theorem store_blob_present {data other : Bytes} (addressed : Addressed repo.objects)
    (stored : repo.objects (computeHash (.blob data)) = some (.blob other)) : repo.store (.blob data) = repo := by
  have same : (GitObject.blob other : GitObject Oid) = .blob data :=
    ObjectHash.computeHash_injective (addressed _ _ stored)
  rw [same] at stored
  exact store_present stored

theorem blobOid_untrusted (untrusted : trustedOid prevIndex path info = none) :
    blobOid (service.withIndexStore true) prevIndex path info =
      blobOid (service.withIndexStore false) none path info := by
  unfold blobOid
  rw [untrusted]
  rfl

theorem node_of_stat {disk : WorkTree} (present : disk.stat path = .ok info) :
    ∃ node, disk.node (relativeParts path) = some node ∧ node.info = info := by
  rw [WorkTree.stat] at present
  split at present
  next node found => exact ⟨node, found, Except.ok.inj present⟩
  · cases present

theorem blobOid_mirrors (addressed : Addressed repo.objects) (loaded : LoadedSound repo prevIndex)
    (present : repo.workTree.stat path = .ok info) :
    Mirrors indexes (blobOid (service.withIndexStore true) prevIndex path info)
      (blobOid (service.withIndexStore false) none path info) repo fun oid other after =>
        oid = other ∧ Keeps repo after ∧ repo.workTree.fileOid (relativeParts path) = some oid ∧
          ∃ data, after.objects oid = some (.blob data) := by
  rcases trusted : trustedOid prevIndex path info with _ | oid
  · rw [blobOid_untrusted trusted]
    refine (Mirrors.same (quiet_blobOid _ _ _ _).steady addressed).weaken ?_
    rintro oid _ after ⟨rfl, ran, keeps⟩
    refine ⟨rfl, keeps, ?_⟩
    -- A directory cannot be read, so a blob id comes from a file.
    obtain ⟨node, found, -⟩ := node_of_stat present
    cases node with
    | file data modTime =>
      rw [exec_blobOid _ addressed found] at ran
      cases ran
      exact ⟨WorkTree.fileOid_eq_some.mpr ⟨data, modTime, found, rfl⟩, data, by simp [store]⟩
    | directory modTime =>
      rw [exec_blobOid_directory _ found] at ran
      cases ran
  · obtain ⟨file, other, stored⟩ := trustedOid_sound loaded present trusted
    obtain ⟨data, modTime, node, rfl⟩ := WorkTree.fileOid_eq_some.mp file
    refine .inr ⟨_, _, repo, ?_, ?_, rfl, .refl addressed, file, other, stored⟩
    · unfold blobOid
      rw [trusted]
      rfl
    · have same : (repo.withIndexes indexes).store (.blob data) = repo.withIndexes indexes :=
        store_blob_present addressed stored
      have sameAddressed : Addressed (repo.withIndexes indexes).objects := addressed
      rw [exec_blobOid (service.withIndexStore false) sameAddressed node, same]

-- The states of the two loops: they differ in the entries gathered for the next index, which are sound.
structure SameProgress (repo : Repository Oid) (bound : Int) (left right : Progress Oid) : Prop where
  editor : left.editor = right.editor
  changed : left.changed = right.changed
  cache : left.cache = right.cache
  sound : EntriesSound repo bound left.indexEntries

theorem EntriesSound.recordIndex {entries : Table Text (IndexEntry Oid)} {oid : Oid}
    (sound : EntriesSound repo bound entries) (file : repo.workTree.fileOid (relativeParts path) = some oid)
    (stored : ∃ data, repo.objects oid = some (.blob data)) :
    EntriesSound repo bound (recordIndex service path info oid entries) := by
  unfold Git.recordIndex
  split
  · split
    · exact sound.insert ⟨stored, fun _ _ _ _ _ => file⟩
    · exact sound.erase
  · exact sound

theorem EntriesSound.forgetIndex {entries : Table Text (IndexEntry Oid)} (sound : EntriesSound repo bound entries) :
    EntriesSound repo bound (forgetIndex service path entries) := by
  unfold Git.forgetIndex
  split
  · exact sound.erase
  · exact sound

theorem compareCandidate_mirrors (addressed : Addressed repo.objects) (loaded : LoadedSound repo prevIndex)
    (same : SameProgress repo bound left right) :
    Mirrors indexes (compareCandidate (service.withIndexStore true) prevTree prevIndex path left)
      (compareCandidate (service.withIndexStore false) prevTree none path right) repo fun left right after =>
        Keeps repo after ∧ SameProgress after bound left right := by
  obtain ⟨sameEditor, sameChanged, sameCache, sound⟩ := same
  refine .bind_stat ?_
  rcases present : repo.workTree.stat path with error | info
  · simp only
    split
    · rw [sameCache]
      refine .bind_same (quiet_prevEntry prevTree path _).steady addressed fun found after _ keeps => ?_
      have forgotten : EntriesSound after bound (forgetIndex (service.withIndexStore true) path left.indexEntries) :=
        (sound.keeps keeps.extend keeps.workTree).forgetIndex
      split
      · rw [sameEditor, sameChanged]
        refine .bind_same (quiet_remove _ _).steady keeps.addressed fun editor last _ kept => ?_
        exact .pure ⟨keeps.trans kept, rfl, rfl, rfl, forgotten.keeps kept.extend kept.workTree⟩
      · exact .pure ⟨keeps, sameEditor, sameChanged, rfl, forgotten⟩
    · exact .inl ⟨_, repo, rfl, rfl, .refl addressed⟩
  · refine .bind (blobOid_mirrors addressed loaded present) ?_
    rintro oid _ after ⟨rfl, keeps, file, stored⟩
    refine ⟨keeps, ?_⟩
    rw [sameCache]
    have recorded : EntriesSound after bound
        (recordIndex (service.withIndexStore true) path info oid left.indexEntries) :=
      (sound.keeps keeps.extend keeps.workTree).recordIndex (keeps.workTree ▸ file) stored
    refine .bind_same (quiet_prevEntry prevTree path _).steady keeps.addressed fun found last _ kept => ?_
    have recordedStill := recorded.keeps kept.extend kept.workTree
    simp only
    split
    · rw [sameEditor, sameChanged]
      refine .bind_same (quiet_upsert _ _ _).steady kept.addressed fun editor final _ keptOn => ?_
      exact .pure ⟨(keeps.trans kept).trans keptOn, rfl, rfl, rfl, recordedStill.keeps keptOn.extend keptOn.workTree⟩
    · exact .pure ⟨keeps.trans kept, sameEditor, sameChanged, rfl, recordedStill⟩

theorem compareCandidates_mirrors (candidates : List Text) (addressed : Addressed repo.objects)
    (loaded : LoadedSound repo prevIndex) (same : SameProgress repo bound left right) :
    Mirrors indexes (compareCandidates (service.withIndexStore true) prevTree prevIndex candidates left)
      (compareCandidates (service.withIndexStore false) prevTree none candidates right) repo
        fun left right after => Keeps repo after ∧ SameProgress after bound left right := by
  induction candidates generalizing repo left right with
  | nil => exact .pure ⟨.refl addressed, same⟩
  | cons path rest ih =>
    refine .bind (compareCandidate_mirrors addressed loaded same) ?_
    rintro left right after ⟨keeps, same⟩
    refine ⟨keeps, (ih keeps.addressed (loaded.keeps keeps) same).weaken ?_⟩
    rintro left right last ⟨kept, same⟩
    exact ⟨keeps.trans kept, same⟩

end Compare

section Cleanup

-- A listed path makes a commit look at a path again: at itself unless it is a directory, and at what is below it unless
-- it is a file.
def Covers (disk : WorkTree) (listed path : Text) : Prop :=
  match disk.stat listed with
  | .ok info => if info.isDir then listed ++ ['/'] <+: path else path = listed
  | .error _ => path = listed ∨ listed ++ ['/'] <+: path

def Answers (disk : WorkTree) : (op : GitOp Oid) → op.Res → Prop
  | .stat path, answer => answer = disk.stat path
  | _, _ => True

namespace Gathering

-- The entries that are not carried over into the next index.
def Cleans (state : Gathering Oid) (path : Text) : Prop :=
  path ∈ state.cleanupExact ∨ ∃ dir ∈ state.cleanupPrefixes, dir <+: path

def CleansMore (before after : Gathering Oid) : Prop := ∀ path, before.Cleans path → after.Cleans path

theorem CleansMore.of_eq {before after : Gathering Oid} (exact : after.cleanupExact = before.cleanupExact)
    (dirs : after.cleanupPrefixes = before.cleanupPrefixes) : CleansMore before after := by
  intro path
  rw [Cleans, Cleans, exact, dirs]
  exact id

theorem CleansMore.trans {first second third : Gathering Oid} (left : CleansMore first second)
    (right : CleansMore second third) : CleansMore first third :=
  fun path cleans => right path (left path cleans)

theorem cleansMore_addCandidate (state : Gathering Oid) (path : Text) : CleansMore state (state.addCandidate path) := by
  unfold addCandidate
  split <;> exact .of_eq rfl rfl

theorem cleansMore_creditRemoved (state : Gathering Oid) (editor : TreeEditor Oid) (path : Text) :
    CleansMore state ({ state with editor }.creditRemoved path) := by
  unfold creditRemoved
  split <;> exact .of_eq rfl rfl

theorem cleansMore_includePath (matcher : IgnoreMatcher) (path : Text) (state : Gathering Oid) :
    CleansMore state (includePath matcher path state).2 := by
  unfold includePath creditIgnored
  split_ifs <;> exact .of_eq rfl rfl

theorem cleansMore_includeListed (matcher : IgnoreMatcher) (state : Gathering Oid) (path : Text) :
    CleansMore state (state.includeListed matcher path) := by
  have included := cleansMore_includePath matcher path state
  unfold includeListed
  split <;> rename_i found <;> rw [found] at included
  · exact included.trans (cleansMore_addCandidate _ _)
  · exact included

theorem cleansMore_foldl_includeListed (matcher : IgnoreMatcher) (listed : List Text) (state : Gathering Oid) :
    CleansMore state (listed.foldl (includeListed matcher) state) := by
  induction listed generalizing state with
  | nil => exact fun _ => id
  | cons path rest ih => exact (cleansMore_includeListed matcher state path).trans (ih _)

end Gathering

open Gathering

variable {disk : WorkTree} (fuel : Nat) (matcher : IgnoreMatcher) (prevTree : Option Oid)

def Gathers (disk : WorkTree) (post : α → Prop) (program : GitM Oid α) : Prop :=
  Does (Answers disk) GitOp.Quiet post (fun _ => True) program

theorem GitM.Quiet.gathers {program : GitM Oid α} (quiet : Quiet program) :
    Gathers disk (fun _ => True) program :=
  Does.weaken (Within.assume quiet fun _ _ _ => trivial) (fun _ => id) (fun _ => id) fun _ _ => trivial

theorem Gathers.weaken {post weaker : α → Prop} {program : GitM Oid α} (gathers : Gathers disk post program)
    (weak : ∀ value, post value → weaker value) : Gathers disk weaker program :=
  Does.weaken gathers (fun _ => id) weak fun _ => id

theorem gathers_loadPrevPaths (tree : Oid) (state : Gathering Oid) :
    Gathers disk (fun loaded => CleansMore state loaded.2) (loadPrevPaths fuel tree state) := by
  unfold loadPrevPaths
  split
  · exact .pure fun _ => id
  · exact .bind (quiet_flatten fuel tree none).gathers fun _ _ => .pure (.of_eq rfl rfl)

theorem gathers_examinePrev (inScope : Text → Bool) (entries : List (Text × Oid)) (state : Gathering Oid) :
    Gathers disk (CleansMore state) (examinePrev matcher inScope entries state) := by
  induction entries generalizing state with
  | nil => exact .pure fun _ => id
  | cons entry rest ih =>
    obtain ⟨path, oid⟩ := entry
    unfold examinePrev
    split
    · exact ih state
    · split
      · exact (ih _).weaken fun _ => (cleansMore_addCandidate state path).trans
      · refine .bind (quiet_remove _ _).gathers fun editor _ => ?_
        exact (ih _).weaken fun _ => (cleansMore_creditRemoved state editor path).trans

section

variable (path : Text) (state : Gathering Oid)

include path state

theorem gathers_examinePrevUnder :
    Gathers disk (CleansMore state) (examinePrevUnder fuel matcher prevTree path state) := by
  cases prevTree with
  | none => exact .pure fun _ => id
  | some tree =>
    refine .bind (gathers_loadPrevPaths fuel tree state) fun loaded more => ?_
    exact (gathers_examinePrev matcher _ _ _).weaken fun _ => more.trans

theorem gathers_includeOrDrop :
    Gathers disk (CleansMore state) (includeOrDrop fuel matcher prevTree path state) := by
  have included := cleansMore_includePath matcher path state
  rw [includeOrDrop.eq_def]
  split <;> rename_i found <;> rw [found] at included
  · exact .pure (included.trans (cleansMore_addCandidate _ _))
  · cases prevTree with
    | none => exact .pure included
    | some tree =>
      refine .bind (gathers_loadPrevPaths fuel tree _) fun loaded more => ?_
      simp only
      split
      · refine .bind (quiet_remove _ _).gathers fun editor _ => .pure ?_
        exact (included.trans more).trans (cleansMore_creditRemoved _ _ _)
      · exact .pure (included.trans more)

theorem gathers_classifyPath :
    Gathers disk (fun after => CleansMore state after ∧ ∀ other, Covers disk path other → after.Cleans other)
      (classifyPath fuel matcher prevTree path state) := by
  refine .bind (.perform (GitOp.stat path) trivial) fun answer given => ?_
  obtain rfl : answer = disk.stat path := given
  simp only [Covers]
  rcases disk.stat path with error | info
  · simp only
    split
    · refine .bind (gathers_includeOrDrop fuel matcher prevTree path _) fun included more => ?_
      refine (gathers_examinePrevUnder fuel matcher prevTree path included).weaken fun after last => ?_
      refine ⟨fun other cleans => (more.trans last) other ?_, fun other covered => (more.trans last) other ?_⟩
      · exact cleans.imp (mem_cons_of_mem _) fun ⟨dir, member, above⟩ =>
          ⟨dir, mem_append_left _ member, above⟩
      · rcases covered with rfl | below
        · exact .inl mem_cons_self
        · exact .inr ⟨_, mem_append_right _ (mem_singleton_self _), below⟩
    · exact .throw trivial
  · simp only
    split
    · refine .bind (quiet_collectUnder path).gathers fun listed _ => ?_
      have more := cleansMore_foldl_includeListed matcher listed
        { state with cleanupPrefixes := state.cleanupPrefixes ++ [path ++ ['/']] }
      refine (gathers_examinePrevUnder fuel matcher prevTree path _).weaken fun after last => ?_
      refine ⟨fun other cleans => (more.trans last) other ?_, fun other covered => (more.trans last) other ?_⟩
      · exact cleans.imp id fun ⟨dir, member, above⟩ => ⟨dir, mem_append_left _ member, above⟩
      · exact .inr ⟨_, mem_append_right _ (mem_singleton_self _), covered⟩
    · refine (gathers_includeOrDrop fuel matcher prevTree path _).weaken fun after more => ?_
      refine ⟨fun other cleans => more other (cleans.imp_left (mem_cons_of_mem _)), ?_⟩
      rintro other rfl
      exact more _ (.inl mem_cons_self)

end

theorem gathers_classifyPaths (paths : List Text) (state : Gathering Oid) :
    Gathers disk (fun after => CleansMore state after ∧
        ∀ listed ∈ paths, ∀ other, Covers disk listed other → after.Cleans other)
      (classifyPaths fuel matcher prevTree paths state) := by
  induction paths generalizing state with
  | nil => exact .pure ⟨fun _ => id, by simp⟩
  | cons path rest ih =>
    refine .bind (gathers_classifyPath fuel matcher prevTree path state) fun middle first => ?_
    refine (ih middle).weaken fun after last => ⟨first.1.trans last.1, ?_⟩
    intro listed member other covered
    rcases mem_cons.mp member with rfl | later
    · exact last.1 other (first.2 other covered)
    · exact last.2 listed later other covered

theorem exec_gathers {post : α → Prop} {program : GitM Oid α} {repo after : Repository Oid} {value : α}
    (gathers : Gathers repo.workTree post program) (ran : program.exec repo = (.ok value, after)) : post value := by
  have step : ∀ (op : GitOp Oid) (state : Repository Oid), state.workTree = repo.workTree → op.Quiet →
      Answers repo.workTree op (Repository.handle op state).1 ∧
        (Repository.handle op state).2.workTree = repo.workTree := by
    intro op state disk quiet
    cases op with
    | stat path => exact ⟨congrArg (WorkTree.stat · path) disk, disk⟩
    | getObject oid =>
      refine ⟨trivial, ?_⟩
      simp only [Repository.handle]
      split <;> exact disk
    | putObject | objectExists | readRef | listRefs | readFile | treeDirectory | readDir | now =>
      exact ⟨trivial, disk⟩
    | lockRef | unlockRef | replaceRef | writeFile | mkdir | removeFile | loadIndex | saveIndex => cases quiet
  have result := (Within.run step gathers rfl).1
  have success : (program.run.run Repository.handle repo).1 = .ok value := congrArg Prod.fst ran
  rw [success] at result
  exact result

end Cleanup

end LoginomDock.Git
