import LoginomDock.EncryptedFs.SealedFiles

namespace LoginomDock.EncryptedFs

open List EncryptionWrappedFS

/-- The plaintext after `truncate` -/
def resized (content : Bytes) (size : Nat) : Bytes := content.take size ++ List.replicate (size - content.length) 0

section Paths

variable {σ π : Type} (wrapper : EncryptionWrappedFS σ) (correct : Correct wrapper.inner shouldPassthroughContent π) (kind : π → Kind)

def Spelled (path : Text) : Prop :=
  kind (correct.place path) = if shouldPassthroughContent path then .passed else .sealed

structure Staged (path : Text) (around : Surroundings) : Prop where
  spelled : Spelled wrapper correct kind path
  staged : shouldPassthroughContent path = false → kind (correct.place (encryptedTempPath path)) = .reserved
  released : shouldPassthroughContent path = false → around.locks.released = .ok ()

/-- A cut that begins in the file ends within `u64`. -/
def Cuttable (content : Bytes) (offset size : UInt64) : Prop :=
  offset.toNat < content.length → size ≠ 0 → offset.toNat + size.toNat < 2 ^ 64

end Paths

section Shown

variable {σ π : Type} {wrapper : EncryptionWrappedFS σ} {correct : Correct wrapper.inner shouldPassthroughContent π} {kind : π → Kind}
  {accountId : Text}

section

variable (wrapper : EncryptionWrappedFS σ) (accountId : Text)

-- What a whole read makes of stored bytes
def plaintext (data : Bytes) : Option Bytes :=
  match wrapper.decryptEnvelope accountId data with
  | .ok plain => some plain
  | .error _ => if isEncrypted data then none else some data

def shown (kind : Kind) (content : Option Bytes) : Option Bytes :=
  match kind with
  | .sealed => content.bind (plaintext wrapper accountId)
  | _ => content

end

theorem aesGcmEncrypt_ok {key : Sized 32} {iv : Sized 12} {data ciphertext : Bytes}
    (made : wrapper.aesGcmEncrypt key iv data = .ok ciphertext) : wrapper.aes.encrypt key iv data = .ok ciphertext := by
  unfold aesGcmEncrypt at made
  split at made
  · cases made
    assumption
  · cases made

theorem tryInto_val {size : Nat} (bytes : Sized size) (message : String) : tryInto size bytes.1 message = .ok bytes :=
  dif_pos bytes.2

theorem aesGcmDecrypt_sealed (lawful : wrapper.aes.Lawful) {key : Sized 32} {iv : Sized 12} {data ciphertext : Bytes}
    (made : wrapper.aesGcmEncrypt key iv data = .ok ciphertext) : wrapper.aesGcmDecrypt key iv ciphertext = .ok data := by
  rw [aesGcmDecrypt, lawful.decrypt_encrypt (aesGcmEncrypt_ok made)]

theorem decryptEnvelope_sealed (lawful : wrapper.aes.Lawful) {around : Surroundings} {data envelope : Bytes}
    (made : wrapper.sealEnvelope around (wrapper.getAccountKey accountId) data = .ok envelope) :
    wrapper.decryptEnvelope accountId envelope = .ok data := by
  obtain ⟨ct, content, made⟩ := bind_ok_iff.mp made
  obtain ⟨encKey, wrapped, made⟩ := bind_ok_iff.mp made
  cases made
  let parts : Crypto.Envelope := ⟨wrapper.providerType, encKey, around.keyIv.1, around.dataIv.1, ct⟩
  have keyLength : encKey.length = 48 := by
    have length := lawful.length_encrypt (aesGcmEncrypt_ok wrapped)
    rw [around.fileKey.2] at length
    exact length
  have fits : parts.Fits := by
    have keyIv : around.keyIv.1.length = 12 := around.keyIv.2
    have dataIv : around.dataIv.1.length = 12 := around.dataIv.2
    refine ⟨?_, ?_, ?_⟩
    · change encKey.length < 256 ^ 2
      omega
    · change around.keyIv.1.length < 256 ^ 2
      omega
    · change around.dataIv.1.length < 256 ^ 2
      omega
  have parsed : Crypto.Rust.parseEnvelope
      (Crypto.Rust.buildEnvelope wrapper.providerType encKey around.keyIv.1 around.dataIv.1 ct) = .ok parts :=
    (Crypto.rust_round_trip_iff parts).mpr fits
  have taken : parseEnvelope
      (Crypto.Rust.buildEnvelope wrapper.providerType encKey around.keyIv.1 around.dataIv.1 ct) = .ok parts := by
    rw [parseEnvelope, parsed]
  rw [decryptEnvelope, taken, ok_bind, tryInto_val around.keyIv, ok_bind, tryInto_val around.dataIv, ok_bind,
    aesGcmDecrypt_sealed lawful wrapped, ok_bind, tryInto_val around.fileKey, ok_bind]
  exact aesGcmDecrypt_sealed lawful content

theorem sliceBytes_cuttable {content : Bytes} {offset size : UInt64} (cuttable : Cuttable content offset size) :
    wrapper.sliceBytes content offset size = .done (excerpt content offset.toNat size.toNat) := by
  unfold sliceBytes excerpt
  by_cases past : content.length ≤ offset.toNat
  · rw [if_pos past, drop_of_length_le past, take_nil, ite_self]
  · rw [if_neg past]
    by_cases all : size = 0
    · rw [if_pos all, all, if_pos UInt64.toNat_zero]
    · have nonzero : size.toNat ≠ 0 := fun none => all (UInt64.toNat_inj.mp none)
      have small := cuttable (Nat.lt_of_not_le past) all
      have sum : (offset + size).toNat = offset.toNat + size.toNat := by
        rw [UInt64.toNat_add]
        exact Nat.mod_eq_of_lt small
      have inside : ¬ min (offset.toNat + size.toNat) content.length < offset.toNat := by omega
      rw [if_neg all, if_neg nonzero, if_neg fun overflow => Nat.not_le.mpr small overflow.2]
      dsimp only
      rw [sum, if_neg inside]
      congr 1
      apply take_eq_take_iff.mpr
      rw [length_drop]
      omega

theorem cuttable_all (content : Bytes) : Cuttable content 0 0 := fun _ some => absurd rfl some

theorem cut_eq {content : Bytes} {offset size : UInt64} (cuttable : Cuttable content offset size) :
    wrapper.cut content offset size = .done (.ok (excerpt content offset.toNat size.toNat)) := by
  rw [EncryptionWrappedFS.cut, sliceBytes_cuttable cuttable]

theorem read_shown {path : Text} {content : Bytes} {offset size : UInt64} {state : State σ} (spelled : Spelled wrapper correct kind path)
    (holds : shown wrapper accountId (kind (correct.place path)) (correct.content state.files (correct.place path)) = some content)
    (cuttable : shouldPassthroughContent path = false → Cuttable content offset size) :
    wrapper.read (some accountId) path offset size state = .done (.ok (excerpt content offset.toNat size.toNat)) := by
  unfold EncryptionWrappedFS.read
  cases passes : shouldPassthroughContent path with
  | true =>
    rw [spelled, passes] at holds
    rw [if_pos rfl, correct.read_some offset size holds]
  | false =>
    rw [spelled, passes] at holds
    obtain ⟨data, stored, plain⟩ := Option.bind_eq_some_iff.mp holds
    have whole := correct.read_some 0 0 stored
    rw [UInt64.toNat_zero, excerpt_all] at whole
    rw [if_neg Bool.false_ne_true, whole]
    dsimp only [requireAccountId]
    unfold plaintext at plain
    cases decrypted : wrapper.decryptEnvelope accountId data with
    | ok plain' =>
      simp only [decrypted, Option.some.injEq] at plain
      rw [plain]
      exact cut_eq (cuttable passes)
    | error error =>
      simp only [decrypted] at plain
      by_cases marked : isEncrypted data = true
      · rw [if_pos marked] at plain
        cases plain
      · rw [if_neg marked] at plain
        cases plain
        dsimp only
        rw [if_neg marked]
        exact cut_eq (cuttable passes)

theorem read_absent {path : Text} {offset size : UInt64} {state : State σ} (spelled : Spelled wrapper correct kind path)
    (absent : shown wrapper accountId (kind (correct.place path)) (correct.content state.files (correct.place path)) = none) :
    ∃ error, wrapper.read (some accountId) path offset size state = .done (.error error) := by
  unfold EncryptionWrappedFS.read
  cases passes : shouldPassthroughContent path with
  | true =>
    rw [spelled, passes] at absent
    obtain ⟨error, failed⟩ := correct.read_none offset size absent
    exact ⟨error, by rw [if_pos rfl, failed]⟩
  | false =>
    rw [spelled, passes] at absent
    rw [if_neg Bool.false_ne_true]
    cases stored : correct.content state.files (correct.place path) with
    | none =>
      obtain ⟨error, failed⟩ := correct.read_none 0 0 stored
      exact ⟨error, by rw [failed]⟩
    | some data =>
      have whole := correct.read_some 0 0 stored
      rw [UInt64.toNat_zero, excerpt_all] at whole
      rw [stored] at absent
      have undecryptable : plaintext wrapper accountId data = none := absent
      rw [whole]
      dsimp only [requireAccountId]
      unfold plaintext at undecryptable
      cases decrypted : wrapper.decryptEnvelope accountId data with
      | ok plain =>
        simp only [decrypted] at undecryptable
        cases undecryptable
      | error error =>
        simp only [decrypted] at undecryptable
        by_cases marked : isEncrypted data = true
        · exact ⟨error, if_pos marked⟩
        · rw [if_neg marked] at undecryptable
          cases undecryptable

-- A success leaves the plaintext at the place, an error leaves everything as it was.
def Wrote {α : Type} (wrapper : EncryptionWrappedFS σ) (correct : Correct wrapper.inner shouldPassthroughContent π) (kind : π → Kind)
    (accountId : Text) (before : State σ) (place : π) (data : Bytes) (result : Except Error α) (after : State σ) : Prop :=
  match result with
  | .ok _ => shown wrapper accountId (kind place) (correct.content after.files place) = some data ∧
      ∀ other, other ≠ place → kind other ≠ .reserved → correct.content after.files other = correct.content before.files other
  | .error _ => ∀ other, kind other ≠ .reserved → correct.content after.files other = correct.content before.files other

theorem Wrote.map {α β : Type} {before after : State σ} {place : π} {data : Bytes} {result : Except Error α}
    (wrote : Wrote wrapper correct kind accountId before place data result after) (reply : α → β) :
    Wrote wrapper correct kind accountId before place data (result.map reply) after := by
  cases result with
  | ok _ => exact wrote
  | error _ => exact wrote

theorem discard_run {α : Type} (program : Action σ α) (state : State σ) :
    (do let _ ← program; return () : Action σ Unit) state = ((program state).1.map fun _ => (), (program state).2) := by
  simp only [bind, ExceptT.bind, ExceptT.mk, StateT.bind]
  generalize program state = ended
  obtain ⟨result, after⟩ := ended
  cases result with
  | ok _ => rfl
  | error _ => rfl

theorem resize_done {data result : Bytes} {size : UInt64} (done : resize data size = .done result) :
    result = resized data size.toNat := by
  unfold resize at done
  split at done
  · rename_i less
    cases done
    rw [resized, Nat.sub_eq_zero_of_le less, replicate_zero, append_nil]
  · rename_i more
    split at done
    · cases done
    · cases done
      rw [resized, take_of_length_le (by omega)]

section Lawful

variable (lawful : wrapper.aes.Lawful) (only : OnlyLockFiles correct kind)
include lawful only

section

variable {path : Text} {around : Surroundings}

theorem write_sealed_attains {flags : WriteFlag} {start : π → Option Bytes} (data : Bytes)
    (staged : Staged wrapper correct kind path around) (inside : shouldPassthroughContent path = false) (whole : flags.Whole) :
    Attains (Kept correct kind start) (wrapper.write (some accountId) around path data 0 flags)
      (fun _ state => ∃ envelope, plaintext wrapper accountId envelope = some data ∧
        Published correct kind start (correct.place path) envelope state)
      (Kept correct kind start) := by
  have sealed' : kind (correct.place path) = .sealed := by
    have spelled := staged.spelled
    rwa [Spelled, inside] at spelled
  have seen : kind (correct.place path) ≠ .reserved := by
    rw [sealed']
    exact Kind.noConfusion
  have allowed : ¬ (flags ≠ .create ∧ flags ≠ .truncate) := by
    rintro ⟨notCreate, notTruncate⟩
    exact whole.elim notCreate notTruncate
  unfold write
  rw [if_neg (by rw [inside]; exact Bool.false_ne_true), if_neg (not_not.mpr rfl), if_neg allowed]
  have drawn : Attains (Kept correct kind start) (ofExcept (wrapper.sealEnvelope around (wrapper.getAccountKey accountId) data))
      (fun envelope state => plaintext wrapper accountId envelope = some data ∧ Kept correct kind start state) (Kept correct kind start) := by
    apply attains_ofExcept
    · intro state envelope kept made
      refine ⟨?_, kept⟩
      rw [plaintext, decryptEnvelope_sealed lawful made]
    · exact fun _ kept => kept
  apply Attains.bind drawn
  intro envelope state held
  have published : Attains (Kept correct kind start) (wrapper.publish around path envelope)
      (fun _ => Published correct kind start (correct.place path) envelope) (Kept correct kind start) :=
    publish_attains only around envelope (staged.staged inside) seen (staged.released inside)
  have enough : Attains (Kept correct kind start) (wrapper.publish around path envelope)
      (fun _ state => ∃ envelope, plaintext wrapper accountId envelope = some data ∧
        Published correct kind start (correct.place path) envelope state) (Kept correct kind start) :=
    published.entails fun _ _ done => ⟨envelope, held.1, done⟩
  exact enough state held.2

theorem write_wrote {flags : WriteFlag} (data : Bytes) (staged : Staged wrapper correct kind path around)
    (whole : flags.Whole) (state : State σ) :
    Wrote wrapper correct kind accountId state (correct.place path) data
      (wrapper.write (some accountId) around path data 0 flags state).1 (wrapper.write (some accountId) around path data 0 flags state).2 := by
  cases passes : shouldPassthroughContent path with
  | true =>
    have passed : kind (correct.place path) = .passed := by
      have spelled := staged.spelled
      rwa [Spelled, passes] at spelled
    obtain ⟨counted, failed⟩ := @correct.write_control path state.files data flags whole passes
    have elsewhere := @correct.write_elsewhere path state.files data flags
    have complete := @correct.write_whole path state.files data flags whole
    unfold write
    rw [if_pos passes]
    cases ended : (wrapper.inner.write path data 0 flags state.files).1 with
    | ok written =>
      have there := complete (ended.trans (congrArg Except.ok (counted written ended)))
      simp only [onFiles, Wrote, ended, passed]
      exact ⟨there, fun other apart _ => elsewhere other apart⟩
    | error error =>
      have same := failed error ended
      simp only [onFiles, Wrote, ended]
      exact fun other _ => congrFun same other
  | false =>
    have sealed' : kind (correct.place path) = .sealed := by
      have spelled := staged.spelled
      rwa [Spelled, passes] at spelled
    have attained := @write_sealed_attains _ _ _ _ _ accountId lawful only _ _ _ (correct.content state.files) data staged passes whole state
      fun _ _ => rfl
    revert attained
    simp only [ExceptT.run, StateT.run]
    generalize wrapper.write (some accountId) around path data 0 flags state = ended
    obtain ⟨result, after⟩ := ended
    cases result with
    | error error => exact id
    | ok written =>
      rintro ⟨envelope, plain, there, rest⟩
      refine ⟨?_, rest⟩
      rw [sealed', there]
      exact plain

theorem create_wrote (staged : Staged wrapper correct kind path around) (state : State σ) :
    Wrote wrapper correct kind accountId state (correct.place path) []
      (wrapper.create (some accountId) around path state).1 (wrapper.create (some accountId) around path state).2 := by
  cases passes : shouldPassthroughContent path with
  | true =>
    have passed : kind (correct.place path) = .passed := by
      have spelled := staged.spelled
      rwa [Spelled, passes] at spelled
    unfold create
    rw [if_pos passes]
    cases ended : (wrapper.inner.create path state.files).1 with
    | ok _ =>
      obtain ⟨there, elsewhere⟩ := correct.create_ok ended
      simp only [onFiles, Wrote, ended, passed]
      exact ⟨there, fun other apart _ => elsewhere other apart⟩
    | error error =>
      have same := correct.create_error ended
      simp only [onFiles, Wrote, ended]
      exact fun other _ => congrFun same other
  | false =>
    have wrote := @write_wrote _ _ _ _ _ accountId lawful only _ _ _ [] staged (.inl rfl) state
    have mapped := wrote.map fun _ => ()
    have same : wrapper.create (some accountId) around path state =
        ((wrapper.write (some accountId) around path [] 0 .create state).1.map fun _ => (),
          (wrapper.write (some accountId) around path [] 0 .create state).2) := by
      unfold create
      rw [if_neg (by rw [passes]; exact Bool.false_ne_true)]
      exact discard_run _ state
    rw [same]
    exact mapped

theorem truncate_cases (size : UInt64) (staged : Staged wrapper correct kind path around)
    (state : State σ) :
    (∃ content result, wrapper.read (some accountId) path 0 0 state = .done (.ok content) ∧
      (wrapper.truncate (some accountId) around path size state).1 = .done result ∧
      Wrote wrapper correct kind accountId state (correct.place path) (resized content size.toNat) result
        (wrapper.truncate (some accountId) around path size state).2) ∨
    (wrapper.truncate (some accountId) around path size state).2 = state ∧
      ∀ value, (wrapper.truncate (some accountId) around path size state).1 ≠ .done (.ok value) := by
  unfold truncate
  cases found : wrapper.read (some accountId) path 0 0 state with
  | panicked => exact .inr ⟨rfl, fun _ => nofun⟩
  | done read =>
    cases read with
    | error _ => exact .inr ⟨rfl, fun _ => nofun⟩
    | ok content =>
      dsimp only
      cases grown : resize content size with
      | panicked => exact .inr ⟨rfl, fun _ => nofun⟩
      | done data =>
        have wrote := @write_wrote _ _ _ _ _ accountId lawful only _ _ _ data staged (.inr rfl) state
        rw [resize_done grown] at wrote ⊢
        exact .inl ⟨content, _, rfl, rfl, wrote.map _⟩

end

end Lawful

end Shown

end LoginomDock.EncryptedFs
