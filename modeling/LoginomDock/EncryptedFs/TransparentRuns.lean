import LoginomDock.EncryptedFs.MemoryFiles
import LoginomDock.EncryptedFs.Plaintexts
import LoginomDock.Library.Runs

namespace LoginomDock.EncryptedFs

open EncryptionWrappedFS

abbrev Known (π : Type) := π → Option (Option Bytes)

section Known

variable {σ π : Type} [DecidableEq π] {inner : FileSystem σ} {isControl : Text → Bool}

section

variable (correct : Correct inner isControl π) (known : Known π)

def afterSuccess : Call → Known π
  | .read _ _ _ => known
  | .write path data _ _ _ => Function.update known (correct.place path) (some (some data))
  | .create path _ => Function.update known (correct.place path) (some (some []))
  | .truncate path size _ =>
    Function.update known (correct.place path) ((known (correct.place path)).map fun content => content.map (resized · size.toNat))
  | .remove path => Function.update known (correct.place path) (some none)
  | .rename oldPath newPath => fun place =>
    match correct.origin oldPath newPath place with
    | some origin => known origin
    | none => some none

-- A call that fails or panics adds nothing.
def learn (call : Call) : Outcome (Except Error Reply) → Known π
  | .done (.ok _) => afterSuccess correct known call
  | .done (.error _) => known
  | .panicked => known

end

end Known

section Layer

variable {σ π : Type} [DecidableEq π] (wrapper : EncryptionWrappedFS σ)
  (correct : Correct wrapper.inner shouldPassthroughContent π) (kind : π → Kind) (accountId : Text)

def knownAfter (known : Known π) : List Call → State σ → Known π
  | [], _ => known
  | call :: rest, state =>
    let (outcome, after) := step wrapper (some accountId) call state
    knownAfter (learn correct known call outcome) rest after

-- What a call must give back, and what a write that fails must leave.
structure TransparentAt (known : Known π) (call : Call) (state : State σ) : Prop where
  read_written {path : Text} {offset size : UInt64} {content : Bytes} : call = .read path offset size →
    known (correct.place path) = some (some content) →
    (step wrapper (some accountId) call state).1 = .done (.ok (.bytes (excerpt content offset.toNat size.toNat)))
  read_removed {path : Text} {offset size : UInt64} : call = .read path offset size → known (correct.place path) = some none →
    ∃ error, (step wrapper (some accountId) call state).1 = .done (.error error)
  failed_write {path : Text} {data content : Bytes} {offset : UInt64} {flags : WriteFlag} {around : Surroundings} {error : Error} :
    call = .write path data offset flags around → (step wrapper (some accountId) call state).1 = .done (.error error) →
    known (correct.place path) = some (some content) →
    wrapper.read (some accountId) path 0 0 (step wrapper (some accountId) call state).2 = .done (.ok content)

def Orderly (known : Known π) : Call → Prop
  | .read path offset size => Spelled wrapper correct kind path ∧
      (shouldPassthroughContent path = false → ∀ content, known (correct.place path) = some (some content) → Cuttable content offset size)
  | .write path _ offset flags around => Staged wrapper correct kind path around ∧ offset = 0 ∧ flags.Whole
  | .create path around => Staged wrapper correct kind path around
  | .truncate path _ around => Staged wrapper correct kind path around
  | .remove path => Spelled wrapper correct kind path
  | .rename oldPath newPath => ∀ place origin, correct.origin oldPath newPath place = some origin → kind place = kind origin

end Layer

section Shown

variable {σ π : Type} {wrapper : EncryptionWrappedFS σ} {correct : Correct wrapper.inner shouldPassthroughContent π} {kind : π → Kind}
  {accountId : Text}

def Agrees (wrapper : EncryptionWrappedFS σ) (correct : Correct wrapper.inner shouldPassthroughContent π) (kind : π → Kind)
    (accountId : Text) (known : Known π) (state : State σ) : Prop :=
  ∀ place, kind place ≠ .reserved → ∀ content, known place = some content →
    shown wrapper accountId (kind place) (correct.content state.files place) = content

section Agrees

variable {known : Known π} {before after : State σ}

theorem Agrees.same (agrees : Agrees wrapper correct kind accountId known before)
    (same : ∀ other, kind other ≠ .reserved → correct.content after.files other = correct.content before.files other) :
    Agrees wrapper correct kind accountId known after := by
  intro place open' content knows
  rw [same place open']
  exact agrees place open' content knows

theorem Agrees.update [DecidableEq π] (agrees : Agrees wrapper correct kind accountId known before) {place : π} {news : Option (Option Bytes)}
    (there : ∀ content, news = some content → shown wrapper accountId (kind place) (correct.content after.files place) = content)
    (elsewhere : ∀ other, other ≠ place → kind other ≠ .reserved → correct.content after.files other = correct.content before.files other) :
    Agrees wrapper correct kind accountId (Function.update known place news) after := by
  intro other open' content knows
  by_cases here : other = place
  · subst here
    rw [Function.update_self] at knows
    exact there content knows
  · rw [Function.update_of_ne here] at knows
    rw [elsewhere other here open']
    exact agrees other open' content knows

theorem Agrees.wrote [DecidableEq π] (agrees : Agrees wrapper correct kind accountId known before) {α : Type} {place : π} {data : Bytes}
    {value : α} (wrote : Wrote wrapper correct kind accountId before place data (.ok value) after) :
    Agrees wrapper correct kind accountId (Function.update known place (some (some data))) after := by
  apply agrees.update
  · intro content same
    cases same
    exact wrote.1
  · exact wrote.2

theorem shown_none (kind : Kind) : shown wrapper accountId kind none = none := by
  cases kind <;> rfl

theorem Spelled.seen {path : Text} (spelled : Spelled wrapper correct kind path) : kind (correct.place path) ≠ .reserved := by
  rw [spelled]
  split <;> exact Kind.noConfusion

theorem remove_agrees [DecidableEq π] {known : Known π} {state : State σ} (path : Text) (agrees : Agrees wrapper correct kind accountId known state) :
    Agrees wrapper correct kind accountId
      (learn correct known (.remove path) (step wrapper (some accountId) (.remove path) state).1)
      (step wrapper (some accountId) (.remove path) state).2 := by
  simp only [step, perform, remove, onFiles]
  cases ended : (wrapper.inner.remove path state.files).1 with
  | ok _ =>
    obtain ⟨gone, elsewhere⟩ := correct.remove_ok ended
    apply agrees.update
    · intro content same
      cases same
      change shown wrapper accountId _ (correct.content (wrapper.inner.remove path state.files).2 (correct.place path)) = none
      rw [gone, shown_none]
    · exact fun other apart _ => elsewhere other apart
  | error error => exact agrees.same fun other _ => congrFun (correct.remove_error ended) other

theorem rename_agrees [DecidableEq π] {known : Known π} {state : State σ} {oldPath newPath : Text}
    (agrees : Agrees wrapper correct kind accountId known state)
    (apart : ∀ place origin, correct.origin oldPath newPath place = some origin → kind place = kind origin) :
    Agrees wrapper correct kind accountId
      (learn correct known (.rename oldPath newPath) (step wrapper (some accountId) (.rename oldPath newPath) state).1)
      (step wrapper (some accountId) (.rename oldPath newPath) state).2 := by
  cases allowed : ensureSameEncryptionDomain oldPath newPath with
  | error error =>
    have run : wrapper.rename oldPath newPath state = (.error error, state) := by
      unfold rename
      rw [allowed]
      rfl
    simp only [step, perform, run]
    exact agrees
  | ok _ =>
    have run : wrapper.rename oldPath newPath state = onFiles (wrapper.inner.rename oldPath newPath) state := by
      unfold rename
      rw [allowed]
      rfl
    simp only [step, perform, run, onFiles]
    cases ended : (wrapper.inner.rename oldPath newPath state.files).1 with
    | error error => exact agrees.same fun other _ => congrFun (correct.rename_error ended) other
    | ok _ =>
      -- What a place shows is what its origin showed, as both are of one kind.
      intro place open' content knows
      have moved := correct.rename_ok place ended
      change shown wrapper accountId _ (correct.content (wrapper.inner.rename oldPath newPath state.files).2 place) = content
      rw [moved]
      simp only [Except.map, learn, afterSuccess] at knows
      cases source : correct.origin oldPath newPath place with
      | none =>
        rw [source] at knows
        cases knows
        exact shown_none _
      | some origin =>
        rw [source] at knows
        have same := apart place origin source
        rw [same] at open' ⊢
        exact agrees origin open' content knows

end Agrees

section Run

variable [DecidableEq π] (lawful : wrapper.aes.Lawful) (only : OnlyLockFiles correct kind) {known : Known π} {state : State σ}
include lawful only

section

variable {call : Call} (agrees : Agrees wrapper correct kind accountId known state) (orderly : Orderly wrapper correct kind known call)

include agrees orderly

theorem step_agrees :
    Agrees wrapper correct kind accountId (learn correct known call (step wrapper (some accountId) call state).1)
      (step wrapper (some accountId) call state).2 := by
  cases call with
  | read path offset size =>
    have nothing : learn correct known (.read path offset size) (step wrapper (some accountId) (.read path offset size) state).1 = known := by
      cases (step wrapper (some accountId) (.read path offset size) state).1 with
      | panicked => rfl
      | done result => cases result <;> rfl
    rw [nothing]
    exact agrees
  | write path data offset flags around =>
    obtain ⟨staged, rfl, whole⟩ := orderly
    have wrote := @write_wrote _ _ _ _ _ accountId lawful only _ _ _ data staged whole state
    simp only [step, perform]
    revert wrote
    generalize wrapper.write (some accountId) around path data 0 flags state = ended
    obtain ⟨result, after⟩ := ended
    cases result with
    | ok value => exact fun wrote => agrees.wrote wrote
    | error error => exact fun kept => agrees.same kept
  | create path around =>
    have wrote := @create_wrote _ _ _ _ _ accountId lawful only _ _ orderly state
    simp only [step, perform]
    revert wrote
    generalize wrapper.create (some accountId) around path state = ended
    obtain ⟨result, after⟩ := ended
    cases result with
    | ok value => exact fun wrote => agrees.wrote wrote
    | error error => exact fun kept => agrees.same kept
  | truncate path size around =>
    have cases' := @truncate_cases _ _ _ _ _ accountId lawful only _ _ size orderly state
    simp only [step]
    revert cases'
    generalize wrapper.truncate (some accountId) around path size state = ended
    obtain ⟨outcome, after⟩ := ended
    rintro (⟨content, result, found, rfl, wrote⟩ | ⟨rfl, none⟩)
    · cases result with
      | error error => exact agrees.same wrote
      | ok value =>
        apply agrees.update
        · intro news knows
          obtain ⟨old, knew, rfl⟩ := Option.map_eq_some_iff.mp knows
          have holds := agrees _ orderly.spelled.seen old knew
          cases old with
          | none =>
            obtain ⟨error, failed⟩ := @read_absent _ _ _ _ _ accountId _ 0 0 _ orderly.spelled holds
            rw [failed] at found
            cases found
          | some old =>
            have read := @read_shown _ _ _ _ _ accountId _ _ 0 0 _ orderly.spelled holds fun _ => cuttable_all old
            rw [UInt64.toNat_zero, excerpt_all, found] at read
            cases read
            exact wrote.1
        · exact wrote.2
    · have nothing : learn correct known (.truncate path size around) (replyOf (fun _ => Reply.unit) outcome) = known := by
        cases outcome with
        | panicked => rfl
        | done result =>
          cases result with
          | error _ => rfl
          | ok value => exact absurd rfl (none value)
      rw [nothing]
      exact agrees
  | remove path => exact remove_agrees path agrees
  | rename oldPath newPath => exact rename_agrees agrees orderly

theorem step_transparent : TransparentAt wrapper correct accountId known call state := by
  constructor
  · rintro path offset size content rfl knows
    have holds := agrees _ orderly.1.seen _ knows
    have read := read_shown orderly.1 holds fun inside => orderly.2 inside content knows
    rw [step, read]
    rfl
  · rintro path offset size rfl knows
    have holds := agrees _ orderly.1.seen _ knows
    obtain ⟨error, failed⟩ := @read_absent _ _ _ _ _ accountId _ offset size _ orderly.1 holds
    exact ⟨error, by rw [step, failed]; rfl⟩
  · rintro path data content offset flags around error rfl failed knows
    have later := step_agrees lawful only agrees orderly
    rw [failed] at later
    have holds := later _ orderly.1.spelled.seen _ knows
    have read := @read_shown _ _ _ _ _ accountId _ _ 0 0 _ orderly.1.spelled holds fun _ => cuttable_all content
    rwa [UInt64.toNat_zero, excerpt_all] at read

end

theorem run_transparent {calls : List Call} (agrees : Agrees wrapper correct kind accountId known state)
    (each : AtEach calls fun before call => Orderly wrapper correct kind (knownAfter wrapper correct accountId known before state) call) :
    AtEach calls fun before call => TransparentAt wrapper correct accountId (knownAfter wrapper correct accountId known before state) call
      (stateAfter wrapper (some accountId) before state) := by
  induction calls generalizing known state with
  | nil => exact atEach_nil _
  | cons call rest ih =>
    obtain ⟨here, later⟩ := (atEach_cons call rest _).mp each
    rw [atEach_cons]
    exact ⟨step_transparent lawful only agrees here, ih (step_agrees lawful only agrees here) later⟩

end Run

end Shown

theorem encryption_transparent {σ π : Type} [DecidableEq π] (wrapper : EncryptionWrappedFS σ)
    (correct : Correct wrapper.inner shouldPassthroughContent π) (kind : π → Kind) (accountId : Text) (lawful : wrapper.aes.Lawful)
    (only : OnlyLockFiles correct kind) (calls : List Call) (state : State σ)
    (each : AtEach calls fun before call =>
      Orderly wrapper correct kind (knownAfter wrapper correct accountId (fun _ => none) before state) call) :
    AtEach calls fun before call => TransparentAt wrapper correct accountId
      (knownAfter wrapper correct accountId (fun _ => none) before state) call (stateAfter wrapper (some accountId) before state) :=
  run_transparent lawful only (fun _ _ _ knows => absurd knows nofun) each

namespace Notes

def notes : EncryptionWrappedFS Files where
  inner := tableFiles
  rootKey := ⟨List.replicate 32 7, rfl⟩
  providerType := 1
  pathlockManager := ⟨fun _ _ files => files, fun _ files => files⟩
  backendPrefix := ['/']
  aes := taggingCipher
  hkdfSha256 key _ := key
  overflowChecks := false

def acme : Text := "acme"

def today : Text := "/local/acme/today.md"

def archived : Text := "/local/acme/archive/today.md"

def around (released : Except String Unit) : Surroundings where
  now := 0
  fileKey := ⟨List.replicate 32 1, rfl⟩
  dataIv := ⟨List.replicate 12 2, rfl⟩
  keyIv := ⟨List.replicate 12 3, rfl⟩
  locks := ⟨.ok .acquire, .ok (), released⟩

def noFiles : State Files := ⟨∅, ∅⟩

def first : Call := .write today [97, 98, 99] 0 .create (around (.ok ()))

def kindOf (place : Text) : Kind :=
  if place = encryptedTempPath today then .reserved else if shouldPassthroughContent place then .passed else .sealed

/-- Three bytes are written, cut, moved and read again. -/
theorem notes_transparent :
    AtEach [first, .read today 1 1, .rename today archived, .read archived 0 0] fun before call =>
      TransparentAt notes (tableCorrect _) acme (knownAfter notes (tableCorrect _) acme (fun _ => none) before noFiles) call
        (stateAfter notes (some acme) before noFiles) := by
  apply encryption_transparent notes (tableCorrect _) kindOf acme taggingCipher_lawful ⟨fun _ _ _ _ _ => rfl, fun _ _ _ _ => rfl⟩
  have todayKind : kindOf today = .sealed := by decide
  have archivedKind : kindOf archived = .sealed := by decide
  have outside : shouldPassthroughContent today = false := by decide
  have outside' : shouldPassthroughContent archived = false := by decide
  have spelled : Spelled notes (tableCorrect _) kindOf today := todayKind.trans (by rw [outside]; rfl)
  have spelled' : Spelled notes (tableCorrect _) kindOf archived := archivedKind.trans (by rw [outside']; rfl)
  rw [atEach_cons, atEach_cons, atEach_cons, atEach_cons]
  refine ⟨⟨⟨spelled, fun _ => if_pos rfl, fun _ => rfl⟩, rfl, .inl rfl⟩, ⟨spelled, ?_⟩, ?_, ⟨spelled', ?_⟩, atEach_nil _⟩
  · intro _ _ _ _ _
    decide
  · intro place origin moved
    change tableOrigin today archived place = some origin at moved
    unfold tableOrigin at moved
    split at moved
    · rename_i here
      cases moved
      rw [here, todayKind, archivedKind]
    · split at moved
      · cases moved
      · cases moved
        rfl
  · intro _ _ _ _ _
    decide

/-- After the write a cut that ends past `u64` panics. A write whose locks are not released fails, and the
file holds its bytes all the same. -/
theorem notes_not_transparent :
    (step notes (some acme) (.read today 1 (UInt64.ofNat (2 ^ 64 - 1))) (stateAfter notes (some acme) [first] noFiles)).1 = .panicked ∧
      let second := Call.write today [120] 0 .truncate (around (.error "lost"))
      let before := stateAfter notes (some acme) [first] noFiles
      (step notes (some acme) second before).1 = .done (.error (.internal "encrypted write lock release error: lost")) ∧
        notes.read (some acme) today 0 0 before = .done (.ok [97, 98, 99]) ∧
        notes.read (some acme) today 0 0 (step notes (some acme) second before).2 = .done (.ok [120]) := by
  decide +kernel

end Notes

end LoginomDock.EncryptedFs
