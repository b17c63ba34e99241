import LoginomDock.Library.Table
import LoginomDock.Library.Text

/-! `execute_write`: the log entry is prepared, the primary writes, the entry is committed or taken back, and the
backups follow. -/

namespace LoginomDock.MultiBackend

inductive SyncOp where
  | create
  | syncFile (size : Nat)
  | mkdir (mode : Nat)
  | chmod (mode : Nat)
  | remove
  | removeAll
  | rename (target : Text)
deriving DecidableEq

structure BackendSyncState where
  ackedSeq : Nat := 0
  retryFailures : Nat := 0
  quarantined : Bool := false
deriving DecidableEq

structure SyncLogEntry where
  latestSeq : Nat
  primaryCommitted : Bool
  op : SyncOp
  backends : Table Text BackendSyncState
deriving DecidableEq

def SyncLogEntry.new (latestSeq : Nat) (op : SyncOp) : SyncLogEntry := { latestSeq, primaryCommitted := false, op, backends := ∅ }

abbrev SyncLogMeta := Table Text SyncLogEntry

inductive Error where
  | internal (message : Text)
  | other (message : Text)

-- What fails when a directory's metadata is read, or is written back.
structure MetaFaults where
  read : Option Error
  write : Option Error

def unchanged (updated original : SyncLogMeta) : Bool :=
  (updated.keys ++ original.keys).all fun name => updated.lookup name = original.lookup name

-- The operations below leave the redirects alone.
def updateDirMeta (faults : MetaFaults) (op : SyncLogMeta → Except Error SyncLogMeta) (syncLog : SyncLogMeta) :
    Except Error Unit × SyncLogMeta :=
  match faults.read, op syncLog with
  | some error, _ => (.error error, syncLog)
  | none, .error error => (.error error, syncLog)
  | none, .ok updated =>
    if unchanged updated syncLog then (.ok (), syncLog)
    else match faults.write with
    | some error => (.error error, syncLog)
    | none => (.ok (), updated)

def fileName (path : Text) : Text := (path.reverse.takeWhile (· ≠ '/')).reverse

-- What a call meets: `second` is the entry that another write of the path prepares before this one is settled.
structure Surroundings where
  ctx : Except Error Unit
  nextSeq : Except Error Nat
  prepare : MetaFaults
  second : Option (Nat × SyncOp)
  settle : MetaFaults
  fanout : SyncLogMeta → Except Error Unit × SyncLogMeta
  refresh : Except Error Unit

inductive Stage where
  | unprepared
  | primaryFailed
  | uncommitted
  | fannedOut
deriving DecidableEq

structure Ending (σ R : Type) where
  result : Except Error R
  primary : σ
  syncLog : SyncLogMeta
  stage : Stage

section ExecuteWrite

variable {σ R : Type} (around : Surroundings) (name : Text)

def prepareEntry (syncOp : Option SyncOp) (syncLog : SyncLogMeta) : Except Error (Option Nat) × SyncLogMeta :=
  match syncOp, around.nextSeq with
  | none, _ => (.ok none, syncLog)
  | some _, .error error => (.error error, syncLog)
  | some op, .ok seq =>
    match updateDirMeta around.prepare (fun syncLog => .ok (syncLog.insert name (.new seq op))) syncLog with
    | (.error error, syncLog) => (.error error, syncLog)
    | (.ok (), syncLog) => (.ok (some seq), syncLog)

def secondPrepare (prepared : Option Nat) (syncLog : SyncLogMeta) : SyncLogMeta :=
  match prepared, around.second with
  | some _, some (seq, op) => syncLog.insert name (.new seq op)
  | _, _ => syncLog

def takeBack (seq : Nat) (syncLog : SyncLogMeta) : Except Error SyncLogMeta :=
  if (syncLog.lookup name).any fun entry => entry.latestSeq = seq && !entry.primaryCommitted then .ok (syncLog.erase name)
  else .ok syncLog

def rollback (prepared : Option Nat) (syncLog : SyncLogMeta) : SyncLogMeta :=
  match prepared with
  | none => syncLog
  | some seq => (updateDirMeta around.settle (takeBack name seq) syncLog).2

def markCommitted (seq : Nat) (syncLog : SyncLogMeta) : Except Error SyncLogMeta :=
  match syncLog.lookup name with
  | none => .error (.internal ("prepared sync log entry missing while committing '" ++ name ++ ['\'']))
  | some entry =>
    if entry.latestSeq ≠ seq then .error (.internal ("prepared sync log entry seq mismatch while committing '" ++ name ++ ['\'']))
    else .ok (syncLog.insert name { entry with primaryCommitted := true })

def commit (prepared : Option Nat) (syncLog : SyncLogMeta) : Except Error Unit × SyncLogMeta :=
  match prepared with
  | none => (.ok (), syncLog)
  | some seq => updateDirMeta around.settle (markCommitted name seq) syncLog

def executeWrite (path : Text) (syncOp : Option SyncOp) (primaryFn : σ → Except Error R × σ) (primary : σ)
    (syncLog : SyncLogMeta) : Ending σ R :=
  match around.ctx, prepareEntry around (fileName path) syncOp syncLog with
  | .error error, _ => { result := .error error, primary, syncLog, stage := .unprepared }
  | .ok (), (.error error, syncLog) => { result := .error error, primary, syncLog, stage := .unprepared }
  | .ok (), (.ok prepared, syncLog) =>
    let syncLog := secondPrepare around (fileName path) prepared syncLog
    match primaryFn primary with
    | (.error error, primary) =>
      { result := .error error, primary, syncLog := rollback around (fileName path) prepared syncLog, stage := .primaryFailed }
    | (.ok result, primary) =>
      match commit around (fileName path) prepared syncLog with
      | (.error error, syncLog) => { result := .error error, primary, syncLog, stage := .uncommitted }
      | (.ok (), syncLog) =>
        let (fanned, syncLog) := around.fanout syncLog
        { result := do around.refresh; fanned; return result
          primary, syncLog, stage := .fannedOut }

end ExecuteWrite

section Kept

def SameEntries (first second : SyncLogMeta) : Prop := ∀ name, first.lookup name = second.lookup name

def Ending.Keeps {σ R : Type} (primary : σ) (syncLog : SyncLogMeta) (ending : Ending σ R) : Prop :=
  (ending.stage = .primaryFailed → SameEntries ending.syncLog syncLog) ∧
    (ending.stage ≠ .fannedOut → ending.primary = primary)

variable {σ R : Type} {around : Surroundings} {name : Text} {syncLog : SyncLogMeta}

theorem unchanged_iff {updated original : SyncLogMeta} : unchanged updated original = true ↔ SameEntries updated original := by
  rw [unchanged, List.all_eq_true]
  constructor
  · intro same other
    by_cases listed : other ∈ updated.keys ++ original.keys
    · exact of_decide_eq_true (same other listed)
    · rw [List.mem_append, not_or, ← AList.mem_keys, ← AList.mem_keys] at listed
      rw [AList.lookup_eq_none.mpr listed.1, AList.lookup_eq_none.mpr listed.2]
  · intro same other _
    exact decide_eq_true (same other)

def Goes (faults : MetaFaults) (changes : Prop) : Prop := faults.read = none ∧ (changes → faults.write = none)

theorem updateDirMeta_cases {faults : MetaFaults} {op : SyncLogMeta → Except Error SyncLogMeta} {updated : SyncLogMeta}
    (done : op syncLog = .ok updated) :
    (Goes faults (¬SameEntries updated syncLog) ∧
        ∃ final, updateDirMeta faults op syncLog = (.ok (), final) ∧ SameEntries final updated) ∨
      ¬Goes faults (¬SameEntries updated syncLog) ∧ ∃ error, updateDirMeta faults op syncLog = (.error error, syncLog) := by
  rw [updateDirMeta, done]
  cases read : faults.read with
  | some error => exact .inr ⟨fun goes => absurd (read.symm.trans goes.1) nofun, error, rfl⟩
  | none =>
    by_cases same : SameEntries updated syncLog
    · exact .inl ⟨⟨read, fun changed => absurd same changed⟩, syncLog, if_pos (unchanged_iff.mpr same), fun other => (same other).symm⟩
    · cases write : faults.write with
      | none => exact .inl ⟨⟨read, fun _ => write⟩, updated, if_neg (mt unchanged_iff.mp same), fun _ => rfl⟩
      | some error => exact .inr ⟨fun goes => absurd (write.symm.trans (goes.2 same)) nofun, error, if_neg (mt unchanged_iff.mp same)⟩

-- The entry at the path when the write is settled
def standing (around : Surroundings) (seq : Nat) (op : SyncOp) : SyncLogEntry :=
  match around.second with
  | none => .new seq op
  | some (second, other) => .new second other

def Stands (name : Text) (entry : SyncLogEntry) (syncLog current : SyncLogMeta) : Prop :=
  ∀ other, current.lookup other = if other = name then some entry else syncLog.lookup other

theorem stands_insert {entry : SyncLogEntry} : Stands name entry syncLog (syncLog.insert name entry) :=
  fun other => Table.lookup_insert_if syncLog name other entry

theorem stands_iff_same {entry : SyncLogEntry} {current : SyncLogMeta} (stands : Stands name entry syncLog current) :
    SameEntries current syncLog ↔ syncLog.lookup name = some entry := by
  constructor
  · intro same
    rw [← same name, stands name, if_pos rfl]
  · intro found other
    rw [stands other]
    split
    next same => rw [same, found]
    next => rfl

theorem secondPrepare_stands {seq : Nat} {op : SyncOp} {current : SyncLogMeta} (stands : Stands name (.new seq op) syncLog current) :
    Stands name (standing around seq op) syncLog (secondPrepare around name (some seq) current) := by
  cases found : around.second with
  | none => simpa [standing, secondPrepare, found] using stands
  | some second =>
    intro other
    simp only [standing, secondPrepare, found]
    rw [Table.lookup_insert_if, stands other]
    split <;> rfl

-- Nothing fails when the write is settled, and the entry found then has its number.
def Settles (around : Surroundings) (seq : Nat) : Prop := (∀ second ∈ around.second, second.1 = seq) ∧ Goes around.settle True

-- The prepared entry is taken back and there was none, or what stands in the end stood there before.
def Restorable (around : Surroundings) (name : Text) (seq : Nat) (op : SyncOp) (syncLog : SyncLogMeta) : Prop :=
  (Settles around seq → syncLog.lookup name = none) ∧ (¬Settles around seq → syncLog.lookup name = some (standing around seq op))

theorem standing_seq {seq : Nat} {op : SyncOp} :
    (standing around seq op).latestSeq = seq ↔ ∀ second ∈ around.second, second.1 = seq := by
  rw [standing]
  cases around.second <;> simp [SyncLogEntry.new]

theorem standing_uncommitted {seq : Nat} {op : SyncOp} : (standing around seq op).primaryCommitted = false := by
  rw [standing]
  cases around.second <;> rfl

section Settled

variable {seq : Nat} {op : SyncOp} {current : SyncLogMeta} (stands : Stands name (standing around seq op) syncLog current)

include stands

theorem lookup_standing : current.lookup name = some (standing around seq op) := by rw [stands name, if_pos rfl]

theorem restorable_unsettled (unsettled : ¬Settles around seq) : SameEntries current syncLog ↔ Restorable around name seq op syncLog :=
  (stands_iff_same stands).trans ⟨fun same => ⟨fun settles => absurd settles unsettled, fun _ => same⟩, fun both => both.2 unsettled⟩

theorem rollback_iff : SameEntries (rollback around name (some seq) current) syncLog ↔ Restorable around name seq op syncLog := by
  have found := lookup_standing stands
  rw [rollback]
  by_cases own : (standing around seq op).latestSeq = seq
  · have taken : takeBack name seq current = .ok (current.erase name) := by
      rw [takeBack, found]
      simp [own, standing_uncommitted]
    have changes : ¬SameEntries (current.erase name) current := by
      intro same
      have gone := same name
      rw [Table.lookup_erase_if, if_pos rfl, found] at gone
      cases gone
    obtain ⟨goes, final, done, same⟩ | ⟨fails, error, failed⟩ := @updateDirMeta_cases _ around.settle _ _ taken
    · rw [eq_true changes] at goes
      rw [done]
      have erased : ∀ other, final.lookup other = if other = name then none else syncLog.lookup other := by
        intro other
        rw [same other, Table.lookup_erase_if, stands other]
        split <;> rfl
      constructor
      · intro kept
        refine ⟨fun _ => ?_, fun fails => absurd ⟨standing_seq.mp own, goes⟩ fails⟩
        rw [← kept name, erased name, if_pos rfl]
      · intro restorable other
        rw [erased other]
        split
        next here => rw [here, restorable.1 ⟨standing_seq.mp own, goes⟩]
        next => rfl
    · rw [eq_true changes] at fails
      rw [failed]
      exact restorable_unsettled stands fun settles => fails settles.2
  · have left : takeBack name seq current = .ok current := by
      rw [takeBack, found]
      simp [own]
    have still : (updateDirMeta around.settle (takeBack name seq) current).2 = current := by
      rw [updateDirMeta, left]
      have same : unchanged current current = true := unchanged_iff.mpr fun _ => rfl
      cases around.settle.read <;> simp [same]
    rw [still]
    exact restorable_unsettled stands fun settles => own (standing_seq.mpr settles.1)

theorem commit_cases : (Settles around seq ∧ ∃ final, commit around name (some seq) current = (.ok (), final)) ∨
    ¬Settles around seq ∧ ∃ error final, commit around name (some seq) current = (.error error, final) := by
  have found := lookup_standing stands
  rw [commit]
  by_cases own : (standing around seq op).latestSeq = seq
  · have marked : markCommitted name seq current =
        .ok (current.insert name { standing around seq op with primaryCommitted := true }) := by
      rw [markCommitted, found]
      simp [own]
    have changes : ¬SameEntries (current.insert name { standing around seq op with primaryCommitted := true }) current := by
      rw [stands_iff_same stands_insert, found, Option.some_inj]
      intro same
      have committed := congrArg SyncLogEntry.primaryCommitted same
      rw [standing_uncommitted] at committed
      cases committed
    obtain ⟨goes, final, done, -⟩ | ⟨fails, error, failed⟩ := @updateDirMeta_cases _ around.settle _ _ marked
    · rw [eq_true changes] at goes
      exact .inl ⟨⟨standing_seq.mp own, goes⟩, final, done⟩
    · rw [eq_true changes] at fails
      exact .inr ⟨fun settles => fails settles.2, error, current, failed⟩
  · refine .inr ⟨fun settles => own (standing_seq.mpr settles.1), ?_⟩
    simp only [updateDirMeta, markCommitted, found, own, ne_eq, not_false_eq_true, if_true]
    cases around.settle.read <;> exact ⟨_, _, rfl⟩

end Settled

-- The primary operation is reached.
def Reached (around : Surroundings) (name : Text) (syncOp : Option SyncOp) (syncLog : SyncLogMeta) : Prop :=
  around.ctx = .ok () ∧ ∀ op ∈ syncOp, ∃ seq, around.nextSeq = .ok seq ∧ Goes around.prepare (syncLog.lookup name ≠ some (.new seq op))

theorem prepareEntry_cases {syncOp : Option SyncOp} (ctx : around.ctx = .ok ()) :
    (¬Reached around name syncOp syncLog ∧ ∃ error current, prepareEntry around name syncOp syncLog = (.error error, current)) ∨
      (syncOp = none ∧ Reached around name syncOp syncLog ∧ prepareEntry around name syncOp syncLog = (.ok none, syncLog)) ∨
      ∃ op seq current, syncOp = some op ∧ around.nextSeq = .ok seq ∧ Reached around name syncOp syncLog ∧
        prepareEntry around name syncOp syncLog = (.ok (some seq), current) ∧ Stands name (.new seq op) syncLog current := by
  cases syncOp with
  | none => exact .inr (.inl ⟨rfl, ⟨ctx, nofun⟩, rfl⟩)
  | some op =>
    cases counted : around.nextSeq with
    | error error =>
      refine .inl ⟨fun reached => ?_, error, syncLog, by simp only [prepareEntry, counted]⟩
      obtain ⟨seq, same, -⟩ := reached.2 op rfl
      cases counted.symm.trans same
    | ok seq =>
      have changes : SameEntries (syncLog.insert name (.new seq op)) syncLog ↔ syncLog.lookup name = some (.new seq op) :=
        stands_iff_same stands_insert
      obtain ⟨goes, final, done, same⟩ | ⟨fails, error, failed⟩ :=
        @updateDirMeta_cases syncLog around.prepare (fun syncLog => .ok (syncLog.insert name (.new seq op))) _ rfl
      · rw [changes] at goes
        refine .inr (.inr ⟨op, seq, final, rfl, rfl, ⟨ctx, ?_⟩, ?_, fun other => (same other).trans (stands_insert other)⟩)
        · rintro _ ⟨⟩
          exact ⟨seq, counted, goes⟩
        · simp only [prepareEntry, counted, done]
      · rw [changes] at fails
        refine .inl ⟨fun reached => ?_, error, syncLog, ?_⟩
        · obtain ⟨number, same, goes⟩ := reached.2 op rfl
          cases counted.symm.trans same
          exact fails goes
        · simp only [prepareEntry, counted, failed]

def KeepsWhen (around : Surroundings) (name : Text) (syncOp : Option SyncOp) (primaryFn : σ → Except Error R × σ) (primary : σ)
    (syncLog : SyncLogMeta) : Prop :=
  Reached around name syncOp syncLog →
    match primaryFn primary with
    | (.error _, after) =>
      after = primary ∧ ∀ op ∈ syncOp, ∀ seq, around.nextSeq = .ok seq → Restorable around name seq op syncLog
    | (.ok _, after) => after = primary ∨ ∀ op ∈ syncOp, ∀ seq, around.nextSeq = .ok seq → Settles around seq

theorem execute_write_keeps_iff (around : Surroundings) (path : Text) (syncOp : Option SyncOp) (primaryFn : σ → Except Error R × σ)
    (primary : σ) (syncLog : SyncLogMeta) : (executeWrite around path syncOp primaryFn primary syncLog).Keeps primary syncLog ↔
      KeepsWhen around (fileName path) syncOp primaryFn primary syncLog := by
  rw [executeWrite, KeepsWhen]
  cases ctx : around.ctx with
  | error error =>
    have unreached : ¬Reached around (fileName path) syncOp syncLog := fun reached => nomatch ctx.symm.trans reached.1
    exact iff_of_true ⟨nofun, fun _ => rfl⟩ fun reached => absurd reached unreached
  | ok =>
    obtain ⟨unreached, error, current, prepared⟩ | ⟨rfl, reached, prepared⟩ | ⟨op, seq, current, rfl, counted, reached, prepared, stands⟩ :=
      @prepareEntry_cases around (fileName path) syncLog syncOp ctx
    · rw [prepared]
      exact iff_of_true ⟨nofun, fun _ => rfl⟩ fun reached => absurd reached unreached
    · simp only [prepared, reached, true_imp_iff]
      obtain ⟨result | result, after⟩ := primaryFn primary
      · exact ⟨fun keeps => ⟨keeps.2 nofun, nofun⟩, fun when => ⟨fun _ _ => rfl, fun _ => when.1⟩⟩
      · exact iff_of_true ⟨nofun, fun early => absurd rfl early⟩ (.inr nofun)
    · have second := @secondPrepare_stands around _ _ _ _ _ stands
      simp only [prepared, reached, true_imp_iff, counted, Option.mem_some_iff, forall_eq', Except.ok.injEq]
      obtain ⟨result | result, after⟩ := primaryFn primary
      · rw [Ending.Keeps, rollback_iff second]
        exact ⟨fun keeps => ⟨keeps.2 nofun, keeps.1 rfl⟩, fun when => ⟨fun _ => when.2, fun _ => when.1⟩⟩
      · obtain ⟨settles, final, done⟩ | ⟨unsettled, error, final, failed⟩ := commit_cases second
        · simp only [done]
          exact iff_of_true ⟨nofun, fun early => absurd rfl early⟩ (.inr settles)
        · simp only [failed]
          exact ⟨fun keeps => .inl (keeps.2 nofun), fun when => ⟨nofun, fun _ => when.resolve_right unsettled⟩⟩

section Example

def calmSurroundings : Surroundings where
  ctx := .ok ()
  nextSeq := .ok 2
  prepare := { read := none, write := none }
  second := none
  settle := { read := none, write := none }
  fanout syncLog := (.ok (), syncLog)
  refresh := .ok ()

def pendingLog : SyncLogMeta := AList.singleton ['f'] { latestSeq := 1, primaryCommitted := true, op := .create, backends := ∅ }

theorem failed_write_loses_pending : ¬∀ (around : Surroundings) (path : Text) (syncOp : Option SyncOp)
    (primaryFn : Unit → Except Error Unit × Unit) (primary : Unit) (syncLog : SyncLogMeta),
    (executeWrite around path syncOp primaryFn primary syncLog).Keeps primary syncLog := by
  intro keeps
  have same := (keeps calmSurroundings "/f" (some (.syncFile 5)) (fun _ => (.error (.other []), ())) () pendingLog).1 rfl ['f']
  revert same
  decide

end Example

end Kept

end LoginomDock.MultiBackend
