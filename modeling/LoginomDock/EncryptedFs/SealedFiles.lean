import LoginomDock.EncryptedFs.EncryptionWrapper

/-! The layer uses some places for itself: the lock manager's files and the temp files. What a call does is said of the
other places. -/

namespace LoginomDock.EncryptedFs

-- What is at a place: content that passes the layer, an envelope, or a file of the layer's own.
inductive Kind where
  | passed
  | sealed
  | reserved
  deriving DecidableEq

section Rules

variable {σ α : Type} {pre fails : State σ → Prop} {post : α → State σ → Prop}

theorem attains_onFiles {program : σ → Except Error α × σ}
    (ok : ∀ state value, pre state → (program state.files).1 = .ok value → post value { state with files := (program state.files).2 })
    (failed : ∀ state error, pre state → (program state.files).1 = .error error → fails { state with files := (program state.files).2 }) :
    Attains pre (onFiles program) post fails := by
  intro state holds
  cases ended : (program state.files).1 with
  | ok value =>
    have there := ok state value holds ended
    simpa only [onFiles, ExceptT.run, StateT.run, ended] using there
  | error error =>
    have there := failed state _ holds ended
    simpa only [onFiles, ExceptT.run, StateT.run, ended] using there

def Ended (post : α → State σ → Prop) (fails : State σ → Prop) (result : Except Error α) (state : State σ) : Prop :=
  match result with
  | .ok value => post value state
  | .error _ => fails state

theorem attains_attempt {never : State σ → Prop} {program : Action σ α} (attains : Attains pre program post fails) :
    Attains pre (attempt program) (Ended post fails) never := by
  intro state holds
  have there := attains state holds
  cases ended : program state with
  | mk result after =>
    have run : attempt program state = (.ok result, after) := by simp only [attempt, ended]
    simp only [ExceptT.run, StateT.run, ended] at there
    simp only [ExceptT.run, StateT.run, run]
    cases result with
    | ok value => exact there
    | error error => exact there

theorem attains_ofExcept {result : Except Error α} (ok : ∀ state value, pre state → result = .ok value → post value state)
    (failed : ∀ state, pre state → fails state) : Attains pre (ofExcept result) post fails := by
  intro state holds
  cases ended : result with
  | ok value => exact ok state value holds ended
  | error _ => exact failed state holds

theorem attains_changeFiles {change : σ → σ} {after : State σ → Prop}
    (holds : ∀ state, pre state → after { state with files := change state.files }) :
    Attains pre (changeFiles change) (fun _ => after) fails := holds

theorem attains_modify {change : State σ → State σ} {after : State σ → Prop} (holds : ∀ state, pre state → after (change state)) :
    Attains pre (modify change : Action σ Unit) (fun _ => after) fails := holds

end Rules

section Layer

variable {σ π : Type} {wrapper : EncryptionWrappedFS σ} {correct : Correct wrapper.inner shouldPassthroughContent π} {kind : π → Kind}

structure OnlyLockFiles (correct : Correct wrapper.inner shouldPassthroughContent π) (kind : π → Kind) : Prop where
  acquireBatch (requests : List Text) (owner : Option (Text × Text)) (files : σ) {other : π} : kind other ≠ .reserved →
    correct.content (wrapper.pathlockManager.acquireBatch requests owner files) other = correct.content files other
  release (requests : List Text) (files : σ) {other : π} : kind other ≠ .reserved →
    correct.content (wrapper.pathlockManager.release requests files) other = correct.content files other

variable (correct kind)

-- The files are those of the start, apart from the layer's own.
def Kept (start : π → Option Bytes) (state : State σ) : Prop :=
  ∀ other, kind other ≠ .reserved → correct.content state.files other = start other

def Published (start : π → Option Bytes) (place : π) (data : Bytes) (state : State σ) : Prop :=
  correct.content state.files place = some data ∧
    ∀ other, other ≠ place → kind other ≠ .reserved → correct.content state.files other = start other

variable {correct kind} {start : π → Option Bytes}

theorem createTempRoot_attains (now : Nat) (tempRoot : Text) :
    Attains (Kept correct kind start) (wrapper.createTempRoot now tempRoot) (fun _ => Kept correct kind start) (Kept correct kind start) := by
  have ensured : Attains (Kept correct kind start) (onFiles (wrapper.inner.ensureParentDirs (tempRoot ++ "/.probe") 0o755))
      (fun _ => Kept correct kind start) (Kept correct kind start) := by
    apply attains_onFiles
    · intro state _ kept _ other open'
      exact (congrFun (correct.ensure_same _ _ _) other).trans (kept other open')
    · intro state _ kept _ other open'
      exact (congrFun (correct.ensure_same _ _ _) other).trans (kept other open')
  exact Attains.bind ensured fun _ => attains_modify fun _ kept => kept

variable {tempPath : Text}

theorem onFiles_write_attains (envelope : Bytes) (own : kind (correct.place tempPath) = .reserved) :
    Attains (Kept correct kind start) (onFiles (wrapper.inner.write tempPath envelope 0 .create))
      (fun written state => Kept correct kind start state ∧ (written = envelope.length → correct.content state.files (correct.place tempPath) = some envelope))
      (Kept correct kind start) := by
  have elsewhere (state : State σ) (kept : Kept correct kind start state) :
      Kept correct kind start { state with files := (wrapper.inner.write tempPath envelope 0 .create state.files).2 } := by
    intro other open'
    have apart : other ≠ correct.place tempPath := fun same => open' (same ▸ own)
    exact (correct.write_elsewhere envelope .create other apart).trans (kept other open')
  apply attains_onFiles
  · intro state written kept ended
    refine ⟨elsewhere state kept, fun whole => ?_⟩
    rw [whole] at ended
    exact correct.write_whole (.inl rfl) ended
  · intro state _ kept _
    exact elsewhere state kept

theorem onFiles_remove_attains (own : kind (correct.place tempPath) = .reserved) :
    Attains (Kept correct kind start) (onFiles (wrapper.inner.remove tempPath)) (fun _ => Kept correct kind start) (Kept correct kind start) := by
  apply attains_onFiles
  · intro state _ kept ended other open'
    have apart : other ≠ correct.place tempPath := fun same => open' (same ▸ own)
    exact ((correct.remove_ok ended).2 other apart).trans (kept other open')
  · intro state _ kept ended other open'
    exact (congrFun (correct.remove_error ended) other).trans (kept other open')

section

variable (now : Nat) (path : Text) (envelope : Bytes) (own : kind (correct.place tempPath) = .reserved)

include now path envelope own

theorem stage_attains :
    Attains (Kept correct kind start) (wrapper.stage now path tempPath envelope)
      (fun written state => Kept correct kind start state ∧ (written = envelope.length → correct.content state.files (correct.place tempPath) = some envelope))
      (Kept correct kind start) := by
  have again : Attains (Kept correct kind start) (onFiles (wrapper.inner.write tempPath envelope 0 .create)) _ _ := onFiles_write_attains envelope own
  apply Attains.bind (attains_attempt again)
  intro first
  match first with
  | .ok written => exact fun _ held => held
  | .error (.notFound _) => exact Attains.bind (createTempRoot_attains now _) fun _ => again
  | .error (.alreadyExists _) =>
    apply Attains.bind (attains_attempt (onFiles_remove_attains own))
    intro gone
    match gone with
    | .ok () => exact again
    | .error (.notFound _) => exact again
    | .error (.alreadyExists _) => exact fun _ held => held
    | .error (.internal _) => exact fun _ held => held
    | .error (.other _) => exact fun _ held => held
  | .error (.internal _) => exact fun _ held => held
  | .error (.other _) => exact fun _ held => held

theorem encryptedWriteInner_attains :
    Attains (Kept correct kind start) (wrapper.encryptedWriteInner now path tempPath envelope)
      (fun _ state => Kept correct kind start state ∧ correct.content state.files (correct.place tempPath) = some envelope) (Kept correct kind start) := by
  apply Attains.bind (stage_attains now path envelope own)
  intro written
  by_cases whole : written = envelope.length
  · rw [if_neg (not_not.mpr whole)]
    exact fun _ held => ⟨held.1, held.2 whole⟩
  · rw [if_pos whole]
    exact fun _ held => held.1

end

theorem stageAndReplace_attains (now : Nat) {path tempPath : Text} (envelope : Bytes) (own : kind (correct.place tempPath) = .reserved) :
    Attains (Kept correct kind start) (wrapper.stageAndReplace now path tempPath envelope)
      (fun _ => Published correct kind start (correct.place path) envelope) (Kept correct kind start) := by
  apply Attains.bind (encryptedWriteInner_attains now path envelope own)
  intro written
  have replaced : Attains (fun state => Kept correct kind start state ∧ correct.content state.files (correct.place tempPath) = some envelope)
      (onFiles (wrapper.inner.replace tempPath path)) (fun _ => Published correct kind start (correct.place path) envelope)
      (Kept correct kind start) := by
    apply attains_onFiles
    · intro state _ staged ended
      obtain ⟨there, rest⟩ := correct.replace_ok ended
      refine ⟨there.trans staged.2, fun other apart open' => ?_⟩
      have notTemp : other ≠ correct.place tempPath := fun same => open' (same ▸ own)
      exact (rest other notTemp apart).trans (staged.1 other open')
    · intro state _ staged ended other open'
      exact (congrFun (correct.replace_error ended) other).trans (staged.1 other open')
  exact Attains.bind replaced fun _ _ held => held

theorem Kept.of_lock {state : State σ} {change : σ → σ} (kept : Kept correct kind start state)
    (same : ∀ files other, kind other ≠ .reserved → correct.content (change files) other = correct.content files other) :
    Kept correct kind start { state with files := change state.files } :=
  fun other open' => (same state.files other open').trans (kept other open')

theorem ensureTempRoot_attains (now : Nat) (tempRoot : Text) :
    Attains (Kept correct kind start) (wrapper.ensureTempRoot now tempRoot) (fun _ => Kept correct kind start) (Kept correct kind start) := by
  have looked : Attains (Kept correct kind start) (get : Action σ (State σ)) (fun _ => Kept correct kind start) (Kept correct kind start) :=
    fun _ held => held
  apply Attains.bind looked
  intro state
  dsimp only
  split
  · exact fun _ held => held
  · exact createTempRoot_attains now tempRoot

theorem releaseLocks_attains {holds fails : State σ → Prop} (around : Surroundings) (requests : List Text) (guarded : Bool)
    (released : around.locks.released = .ok ())
    (stable : ∀ state, holds state → holds { state with files := wrapper.pathlockManager.release requests state.files }) :
    Attains holds (wrapper.releaseLocks around requests guarded) (fun result state => result = .ok () ∧ holds state) fails := by
  cases guarded with
  | false => exact fun _ held => ⟨rfl, held⟩
  | true =>
    intro state held
    have kept := stable state held
    simp only [EncryptionWrappedFS.releaseLocks, if_true, released]
    exact ⟨rfl, kept⟩

section Locks

variable (only : OnlyLockFiles correct kind)
include only

theorem acquireLocks_attains (around : Surroundings) (requests : List Text) :
    Attains (Kept correct kind start) (wrapper.acquireLocks around requests) (fun _ => Kept correct kind start) (Kept correct kind start) := by
  have owned : Attains (Kept correct kind start) (ofExcept (EncryptionWrappedFS.lockOwner around)) (fun _ => Kept correct kind start) (Kept correct kind start) :=
    attains_ofExcept (fun _ _ held _ => held) fun _ held => held
  apply Attains.bind owned
  intro owner
  cases owner with
  | none => exact fun _ held => held
  | some owner =>
    have taken : Attains (Kept correct kind start) (changeFiles (wrapper.pathlockManager.acquireBatch requests owner))
        (fun _ => Kept correct kind start) (Kept correct kind start) :=
      attains_changeFiles fun _ kept => kept.of_lock fun files _ => only.acquireBatch requests owner files
    apply Attains.bind taken
    intro _
    cases around.locks.acquired with
    | ok _ => exact fun _ held => held
    | error _ => exact fun _ held => held

theorem publish_attains {path : Text} (around : Surroundings) (envelope : Bytes) (own : kind (correct.place (encryptedTempPath path)) = .reserved)
    (seen : kind (correct.place path) ≠ .reserved) (released : around.locks.released = .ok ()) :
    Attains (Kept correct kind start) (wrapper.publish around path envelope)
      (fun _ => Published correct kind start (correct.place path) envelope) (Kept correct kind start) := by
  apply Attains.bind (ensureTempRoot_attains around.now _)
  intro _
  apply Attains.bind (acquireLocks_attains only around _)
  intro guarded
  apply Attains.bind (attains_attempt (stageAndReplace_attains around.now envelope own))
  intro replaceResult
  -- The locks go back whatever came of the write.
  cases replaceResult with
  | error error =>
    apply Attains.bind (releaseLocks_attains around _ guarded released ?_)
    · intro _ _ held
      exact held.2
    · intro state kept
      exact kept.of_lock fun files _ => only.release _ files
  | ok written =>
    apply Attains.bind (releaseLocks_attains around _ guarded released ?_)
    · rintro _ state ⟨rfl, held⟩
      exact held
    · rintro state ⟨there, rest⟩
      refine ⟨(only.release _ state.files seen).trans there, fun other apart open' => ?_⟩
      exact (only.release _ state.files open').trans (rest other apart open')

end Locks

end Layer

end LoginomDock.EncryptedFs
