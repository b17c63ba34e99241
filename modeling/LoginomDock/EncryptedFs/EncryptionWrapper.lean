import LoginomDock.Crypto.EncryptionDomains
import LoginomDock.Crypto.Envelope
import LoginomDock.EncryptedFs.FileSystem
import LoginomDock.Library.Stateful
import LoginomDock.Library.Table

namespace LoginomDock.EncryptedFs

open Crypto (Envelope)
open Access (names)

/-- `[u8; n]` -/
abbrev Sized (size : Nat) := {bytes : Bytes // bytes.length = size}

def tryInto (size : Nat) (bytes : Bytes) (message : String) : Except Error (Sized size) :=
  if fits : bytes.length = size then .ok ⟨bytes, fits⟩ else .error (.internal message)

/-- The ciphers of the crate `aes_gcm`; their errors are texts. -/
structure AesGcm where
  encrypt : Sized 32 → Sized 12 → Bytes → Except String Bytes
  decrypt : Sized 32 → Sized 12 → Bytes → Except String Bytes

structure AesGcm.Lawful (aes : AesGcm) : Prop where
  decrypt_encrypt {key : Sized 32} {iv : Sized 12} {plaintext ciphertext : Bytes} :
    aes.encrypt key iv plaintext = .ok ciphertext → aes.decrypt key iv ciphertext = .ok plaintext
  length_encrypt {key : Sized 32} {iv : Sized 12} {plaintext ciphertext : Bytes} :
    aes.encrypt key iv plaintext = .ok ciphertext → ciphertext.length = plaintext.length + 16

def isHiddenRuntimeLockName (name : Text) : Bool :=
  name = ".path.ovlock" || ".exact.ovlock.".toList.isPrefixOf name

section

variable (path : Text)

def isLockSidecar : Bool := isHiddenRuntimeLockName (path.rtakeWhile (· ≠ '/'))

def shouldPassthroughContent : Bool :=
  path = "/queue" || "/queue/".toList.isPrefixOf path || path = "/serverinfo" ||
    "/serverinfo/".toList.isPrefixOf path || isLockSidecar path

def normalized : Text := if path.head? = some '/' then path else '/' :: path

def encryptedTempRoot : Text :=
  match names (normalized path) with
  | first :: second :: _ =>
    if first = "local" then "/local/" ++ second ++ "/temp/.encrypt_stage"
    else '/' :: first ++ "/temp/.encrypt_stage"
  | _ => "/temp/.encrypt_stage"

def encryptedTempPath : Text :=
  encryptedTempRoot (normalized path) ++ '/' :: hexdigest (normalized path) ++ ".encrypt"

end

-- In milliseconds
def tempRootCacheTtl : Nat := 15 * 60 * 1000

def tempRootCacheCap : Nat := 1024

abbrev TempRoots := Table Text Nat

def tempRootCacheIsFresh (seenAt now : Nat) : Bool := now - seenAt ≤ tempRootCacheTtl

-- The first of the oldest entries, in one of the orders that a hash map may iterate in
def oldestKey : List (Sigma fun _ : Text => Nat) → Option (Text × Nat)
  | [] => none
  | ⟨key, seenAt⟩ :: rest =>
    match oldestKey rest with
    | some (other, older) => if older < seenAt then some (other, older) else some (key, seenAt)
    | none => some (key, seenAt)

/-- The `while` loop; each round takes one entry out. -/
def evictOldest : Nat → TempRoots → TempRoots
  | 0, cache => cache
  | rounds + 1, cache =>
    if tempRootCacheCap < cache.entries.length then
      match oldestKey cache.entries with
      | some (key, _) => evictOldest rounds (cache.erase key)
      | none => cache
    else cache

def pruneTempRootCache (cache : TempRoots) (now : Nat) : TempRoots :=
  let fresh := cache.retain fun root => (cache.lookup root).any (tempRootCacheIsFresh · now)
  evictOldest fresh.entries.length fresh

inductive AutoPathLockAction where
  | disabled
  /-- with the references of the outer lease and of its owner -/
  | covered (leaseRef ownershipRef : Text)
  | acquire

structure LockAnswers where
  action : Except String AutoPathLockAction
  acquired : Except String Unit
  released : Except String Unit

/-- What the lock manager does to the files when it takes locks on paths (all of them `Exact`) and gives them back -/
structure PathLockManager (σ : Type) where
  acquireBatch : List Text → Option (Text × Text) → σ → σ
  release : List Text → σ → σ

structure EncryptionWrappedFS (σ : Type) where
  inner : FileSystem σ
  rootKey : Sized 32
  providerType : UInt8
  pathlockManager : PathLockManager σ
  backendPrefix : Text
  aes : AesGcm
  /-- `crypto::hkdf_sha256` -/
  hkdfSha256 : Sized 32 → Text → Sized 32
  /-- whether the build checks arithmetic for overflow -/
  overflowChecks : Bool

structure State (σ : Type) where
  files : σ
  tempRootReady : TempRoots

-- What one call meets: the time, the random bytes it draws and the answers of the lock manager
structure Surroundings where
  now : Nat
  fileKey : Sized 32
  dataIv : Sized 12
  keyIv : Sized 12
  locks : LockAnswers

-- A panic unwinds without a result.
inductive Outcome (α : Type) where
  | done (value : α)
  | panicked
  deriving DecidableEq

abbrev Action (σ α : Type) := ExceptT Error (StateM (State σ)) α

section Actions

variable {σ α : Type}

def onFiles (program : σ → Except Error α × σ) : Action σ α := fun state =>
  let (result, files) := program state.files
  (result, { state with files })

-- A call whose result is looked at, an error included
def attempt (program : Action σ α) : Action σ (Except Error α) := fun state =>
  let (result, after) := program state
  (.ok result, after)

def changeFiles (change : σ → σ) : Action σ Unit := fun state => (.ok (), { state with files := change state.files })

def ofExcept (result : Except Error α) : Action σ α := fun state => (result, state)

end Actions

namespace EncryptionWrappedFS

variable {σ : Type} (wrapper : EncryptionWrappedFS σ)

def backendLockPath (path : Text) : Text :=
  if wrapper.backendPrefix = [] ∨ wrapper.backendPrefix = ['/'] then '/' :: path.dropWhile (· = '/')
  else wrapper.backendPrefix.rdropWhile (· = '/') ++ '/' :: path.dropWhile (· = '/')

def getAccountKey (accountId : Text) : Sized 32 := wrapper.hkdfSha256 wrapper.rootKey accountId

/-- `FsContextView::current().account_id()` -/
def requireAccountId (account : Option Text) : Except Error Text :=
  match account with
  | some accountId => .ok accountId
  | none => .error (.internal "account_id missing in FsContext")

def aesGcmEncrypt (key : Sized 32) (iv : Sized 12) (plaintext : Bytes) : Except Error Bytes :=
  match wrapper.aes.encrypt key iv plaintext with
  | .ok ciphertext => .ok ciphertext
  | .error e => .error (.internal s!"AES-GCM encryption failed: {e}")

def aesGcmDecrypt (key : Sized 32) (iv : Sized 12) (ciphertext : Bytes) : Except Error Bytes :=
  match wrapper.aes.decrypt key iv ciphertext with
  | .ok plaintext => .ok plaintext
  | .error e => .error (.internal s!"AES-GCM authentication failed: {e}")

def parseEnvelope (data : Bytes) : Except Error Envelope :=
  match Crypto.Rust.parseEnvelope data with
  | .ok envelope => .ok envelope
  | .error (.internal message) => .error (.internal message)

def decryptEnvelope (accountId : Text) (data : Bytes) : Except Error Bytes := do
  let accountKey := wrapper.getAccountKey accountId
  let envelope ← parseEnvelope data
  let keyIv ← tryInto 12 envelope.keyIv "invalid key_iv length in envelope"
  let dataIv ← tryInto 12 envelope.dataIv "invalid data_iv length in envelope"
  let fileKeyBytes ← wrapper.aesGcmDecrypt accountKey keyIv envelope.encryptedFileKey
  let fileKey ← tryInto 32 fileKeyBytes "invalid file key length"
  wrapper.aesGcmDecrypt fileKey dataIv envelope.encryptedContent

def isEncrypted (data : Bytes) : Bool := Crypto.magic.isPrefixOf data

def sliceBytes (data : Bytes) (offset size : UInt64) : Outcome Bytes :=
  let len := data.length
  if len ≤ offset.toNat then .done []
  else
    let start := offset.toNat
    if size = 0 then .done (data.drop start)
    -- `offset + size` is the sum of two `u64`.
    else if wrapper.overflowChecks ∧ 2 ^ 64 ≤ offset.toNat + size.toNat then .panicked
    else
      let stop := min (offset + size).toNat len
      -- `data[start..end]` panics when the range ends before its start.
      if stop < start then .panicked else .done ((data.drop start).take (stop - start))

def cut (data : Bytes) (offset size : UInt64) : Outcome (Except Error Bytes) :=
  match wrapper.sliceBytes data offset size with
  | .done bytes => .done (.ok bytes)
  | .panicked => .panicked

def read (account : Option Text) (path : Text) (offset size : UInt64) (state : State σ) : Outcome (Except Error Bytes) :=
  if shouldPassthroughContent path then .done (wrapper.inner.read path offset size state.files)
  else
    match wrapper.inner.read path 0 0 state.files with
    | .error error => .done (.error error)
    | .ok data =>
      match requireAccountId account with
      | .error error => .done (.error error)
      | .ok accountId =>
        match wrapper.decryptEnvelope accountId data with
        | .ok plaintext => wrapper.cut plaintext offset size
        | .error error =>
          -- plaintext from before encryption was enabled
          if isEncrypted data then .done (.error error) else wrapper.cut data offset size

def createTempRoot (now : Nat) (tempRoot : Text) : Action σ Unit := do
  let probePath := tempRoot ++ "/.probe"
  onFiles (wrapper.inner.ensureParentDirs probePath 0o755)
  modify fun state => { state with tempRootReady := pruneTempRootCache (state.tempRootReady.insert tempRoot now) now }

section

variable (now : Nat) (path tempPath : Text) (envelope : Bytes)

def stage : Action σ Nat := do
  match ← attempt (onFiles (wrapper.inner.write tempPath envelope 0 .create)) with
  | .ok written => return written
  | .error (.notFound _) =>
    wrapper.createTempRoot now (encryptedTempRoot path)
    onFiles (wrapper.inner.write tempPath envelope 0 .create)
  | .error (.alreadyExists _) =>
    match ← attempt (onFiles (wrapper.inner.remove tempPath)) with
    | .ok () | .error (.notFound _) => onFiles (wrapper.inner.write tempPath envelope 0 .create)
    | .error error => throw error
  | .error error => throw error

def encryptedWriteInner : Action σ Nat := do
  let written ← wrapper.stage now path tempPath envelope
  if written ≠ envelope.length then
    throw (.internal s!"encrypted temp write incomplete: wrote {written} of {envelope.length} bytes")
  else return written

end

def sealEnvelope (around : Surroundings) (accountKey : Sized 32) (data : Bytes) : Except Error Bytes := do
  let ct ← wrapper.aesGcmEncrypt around.fileKey around.dataIv data
  let encKey ← wrapper.aesGcmEncrypt accountKey around.keyIv around.fileKey.1
  return Crypto.Rust.buildEnvelope wrapper.providerType encKey around.keyIv.1 around.dataIv.1 ct

def ensureTempRoot (now : Nat) (tempRoot : Text) : Action σ Unit := do
  let ready := (← get).tempRootReady.lookup tempRoot
  if ready.any (tempRootCacheIsFresh · now) then return () else wrapper.createTempRoot now tempRoot

def lockOwner (around : Surroundings) : Except Error (Option (Option (Text × Text))) :=
  match around.locks.action with
  | .error error => .error (.internal s!"encrypted write lock context error: {error}")
  | .ok .disabled => .ok none
  | .ok (.covered leaseRef ownershipRef) => .ok (some (some (leaseRef, ownershipRef)))
  | .ok .acquire => .ok (some none)

def acquireLocks (around : Surroundings) (requests : List Text) : Action σ Bool := do
  match ← ofExcept (lockOwner around) with
  | none => return false
  | some owner =>
    changeFiles (wrapper.pathlockManager.acquireBatch requests owner)
    match around.locks.acquired with
    | .ok () => return true
    | .error error => throw (.internal s!"encrypted write lock error: {error}")

def releaseLocks (around : Surroundings) (requests : List Text) (guarded : Bool) : Action σ (Except Error Unit) :=
  if guarded then do
    changeFiles (wrapper.pathlockManager.release requests)
    match around.locks.released with
    | .ok () => return .ok ()
    | .error error => return .error (.internal s!"encrypted write lock release error: {error}")
  else return .ok ()

def stageAndReplace (now : Nat) (path tempPath : Text) (envelope : Bytes) : Action σ Nat := do
  let written ← wrapper.encryptedWriteInner now path tempPath envelope
  onFiles (wrapper.inner.replace tempPath path)
  return written

def publish (around : Surroundings) (path : Text) (envelope : Bytes) : Action σ Nat := do
  let tempPath := encryptedTempPath path
  wrapper.ensureTempRoot around.now (encryptedTempRoot path)
  let requests := [wrapper.backendLockPath tempPath, wrapper.backendLockPath path]
  let guarded ← wrapper.acquireLocks around requests
  let replaceResult ← attempt (wrapper.stageAndReplace around.now path tempPath envelope)
  let releaseResult ← wrapper.releaseLocks around requests guarded
  match replaceResult with
  | .error error => throw error
  | .ok written =>
    match releaseResult with
    | .ok () => return written
    | .error error => throw error

section

variable (account : Option Text) (around : Surroundings) (path : Text)

def write (data : Bytes) (offset : UInt64) (flags : WriteFlag) :
    Action σ Nat :=
  if shouldPassthroughContent path then onFiles (wrapper.inner.write path data offset flags)
  else if offset ≠ 0 then throw (.internal "encrypted write only supports whole-file write (offset must be 0)")
  else if flags ≠ .create ∧ flags ≠ .truncate then
    throw (.internal "encrypted write requires whole-blob replacement (flags must be Create or Truncate)")
  else do
    let accountId ← ofExcept (requireAccountId account)
    let envelope ← ofExcept (wrapper.sealEnvelope around (wrapper.getAccountKey accountId) data)
    wrapper.publish around path envelope

def create : Action σ Unit :=
  if shouldPassthroughContent path then onFiles (wrapper.inner.create path)
  else do
    let _ ← wrapper.write account around path [] 0 .create
    return ()

end

def remove (path : Text) : Action σ Unit := onFiles (wrapper.inner.remove path)

def ensureSameEncryptionDomain (oldPath newPath : Text) : Except Error Unit :=
  match Crypto.ensureSameEncryptionDomain oldPath newPath with
  | .ok () => .ok ()
  | .error _ =>
    let oldAccount := String.ofList (Crypto.encryptionAccountDomain oldPath)
    let newAccount := String.ofList (Crypto.encryptionAccountDomain newPath)
    .error (.internal s!"cross-account rename is not supported for encrypted blobs: {repr oldAccount} -> {repr newAccount}")

def rename (oldPath newPath : Text) : Action σ Unit := do
  ofExcept (ensureSameEncryptionDomain oldPath newPath)
  onFiles (wrapper.inner.rename oldPath newPath)

/-- `isize::MAX`, which no capacity exceeds -/
def maxCapacity : Nat := 2 ^ 63 - 1

/-- `Vec::resize` -/
def resize (data : Bytes) (size : UInt64) : Outcome Bytes :=
  if size.toNat ≤ data.length then .done (data.take size.toNat)
  else if maxCapacity < size.toNat then .panicked
  else .done (data ++ List.replicate (size.toNat - data.length) 0)

-- The default of the trait, which the layer keeps
def truncate (account : Option Text) (around : Surroundings) (path : Text) (size : UInt64) (state : State σ) :
    Outcome (Except Error Unit) × State σ :=
  match wrapper.read account path 0 0 state with
  | .panicked => (.panicked, state)
  | .done (.error error) => (.done (.error error), state)
  | .done (.ok data) =>
    match resize data size with
    | .panicked => (.panicked, state)
    | .done resized =>
      let (result, after) := wrapper.write account around path resized 0 .truncate state
      (.done (result.map fun _ => ()), after)

end EncryptionWrappedFS

inductive Call where
  | read (path : Text) (offset size : UInt64)
  | write (path : Text) (data : Bytes) (offset : UInt64) (flags : WriteFlag) (around : Surroundings)
  | create (path : Text) (around : Surroundings)
  | truncate (path : Text) (size : UInt64) (around : Surroundings)
  | remove (path : Text)
  | rename (oldPath newPath : Text)

inductive Reply where
  | bytes (data : Bytes)
  | count (written : Nat)
  | unit
  deriving DecidableEq

section Runs

variable {σ : Type} (wrapper : EncryptionWrappedFS σ) (account : Option Text)

def perform {α : Type} (program : Action σ α) (reply : α → Reply) (state : State σ) : Outcome (Except Error Reply) × State σ :=
  let (result, after) := program state
  (.done (result.map reply), after)

def replyOf {α : Type} (reply : α → Reply) : Outcome (Except Error α) → Outcome (Except Error Reply)
  | .done result => .done (result.map reply)
  | .panicked => .panicked

def step (call : Call) (state : State σ) : Outcome (Except Error Reply) × State σ :=
  match call with
  | .read path offset size => (replyOf .bytes (wrapper.read account path offset size state), state)
  | .write path data offset flags around => perform (wrapper.write account around path data offset flags) .count state
  | .create path around => perform (wrapper.create account around path) (fun _ => .unit) state
  | .truncate path size around =>
    let (result, after) := wrapper.truncate account around path size state
    (replyOf (fun _ => .unit) result, after)
  | .remove path => perform (wrapper.remove path) (fun _ => .unit) state
  | .rename oldPath newPath => perform (wrapper.rename oldPath newPath) (fun _ => .unit) state

def stateAfter (calls : List Call) (state : State σ) : State σ :=
  calls.foldl (fun now call => (step wrapper account call now).2) state

end Runs

end LoginomDock.EncryptedFs
