import LoginomDock.CacheFs.CachePaths

/-! `CachedFileSystem` over any backend and over a cache runtime that may lose values and fail calls. -/

namespace LoginomDock.CacheFs

abbrev FileData := List UInt8

structure FileInfo where
  name : Text
  size : Nat
  mode : Nat
  -- nanoseconds since the epoch
  modTime : Int
  isDir : Bool
  deriving DecidableEq

inductive WriteFlag where
  | create
  | createNew
  | append
  | truncate
  | none
  deriving DecidableEq

-- The calls that change a file system.
inductive Mutation where
  | create (path : Text)
  | mkdir (path : Text) (mode : Nat)
  | remove (path : Text)
  | removeAll (path : Text)
  | write (path : Text) (data : FileData) (offset : Nat) (flags : WriteFlag)
  | rename (oldPath newPath : Text)
  | replace (srcPath dstPath : Text)
  | chmod (path : Text) (mode : Nat)
  | truncate (path : Text) (size : Nat)
  | ensureParentDirs (path : Text) (mode : Nat)
  deriving DecidableEq

-- A backend. A write says how many bytes it wrote, and no other change says a number.
structure FileSystem (σ ε : Type) where
  change : Mutation → σ → Except ε Nat × σ
  read : Text → Nat → Nat → σ → Except ε FileData
  readDir : Text → σ → Except ε (List FileInfo)

inductive CacheDecision where
  | bypass
  | cache
  | prefer
  deriving DecidableEq

def CacheDecision.shouldCache (decision : CacheDecision) : Bool := decision ≠ .bypass

structure CachePolicy where
  maxFileSize : Nat := 1024 * 1024
  maxCachedDirEntries : Nat := 4096
  bypassPrefixes : List Text := []

def pathLockFile : Text := ".path.ovlock"

def exactLockFilePrefix : Text := ".exact.ovlock."

def isHiddenRuntimeLockName (name : Text) : Bool := name = pathLockFile || exactLockFilePrefix.isPrefixOf name

def controlNames : List Text :=
  ["enqueue", "dequeue", "peek", "ack", "heartbeat", "lease", "cursor", "offset", "pid"].map String.toList

def lastComponent (path : Text) : Text := (Text.components path).getLastD []

namespace CachePolicy

variable (policy : CachePolicy)

section

variable (path : Text)

def cachePath : Bool :=
  let normalized := normalizePath path
  let name := lastComponent normalized
  !(policy.bypassPrefixes.any fun scope => isSameOrDescendant normalized scope) &&
    !(isHiddenRuntimeLockName name || ".lock".toList.isSuffixOf name || ".lck".toList.isSuffixOf name ||
      controlNames.contains name)

def fileDecision (size : Nat) : CacheDecision :=
  if policy.maxFileSize < size ∨ policy.cachePath path = false then .bypass
  else if lastComponent (normalizePath path) ∈ [".abstract.md".toList, ".overview.md".toList] then .prefer
  else .cache

def directoryDecision : CacheDecision := if policy.cachePath path then .prefer else .bypass

def cacheFile (size : Nat) : Bool := (policy.fileDecision path size).shouldCache

def cacheDirectory : Bool := (policy.directoryDecision path).shouldCache

def cacheDirectoryEntries (entryCount : Nat) : Bool :=
  policy.cacheDirectory path && entryCount ≤ policy.maxCachedDirEntries

end

end CachePolicy

/-- An entry as it is serialised: `systemtime_serde` keeps whole seconds. -/
structure StoredInfo where
  name : Text
  size : Nat
  mode : Nat
  modSeconds : Nat
  isDir : Bool
  deriving DecidableEq

def FileInfo.serialize (info : FileInfo) : Option StoredInfo :=
  if info.modTime < 0 then none
  else some ⟨info.name, info.size, info.mode, (info.modTime / 10 ^ 9).toNat, info.isDir⟩

def StoredInfo.deserialize (info : StoredInfo) : FileInfo :=
  ⟨info.name, info.size, info.mode, info.modSeconds * 10 ^ 9, info.isDir⟩

inductive CacheObjectKind where
  | file
  | directory
  deriving DecidableEq

structure GenerationSnapshot where
  key : Text
  value : BitVec 64
  deriving DecidableEq

inductive CachePayload where
  | file (data : FileData)
  | directory (entries : List StoredInfo)
  deriving DecidableEq

def cacheEnvelopeVersion : Nat := 1

structure CacheEnvelope where
  version : Nat
  kind : CacheObjectKind
  path : Text
  generations : List GenerationSnapshot
  payload : CachePayload
  deriving DecidableEq

-- What stands behind a key: the eight bytes of a generation, or a serialised envelope.
inductive CacheValue where
  | generation (value : BitVec 64)
  | envelope (envelope : CacheEnvelope)
  deriving DecidableEq

inductive CacheError where
  | unavailable
  | invalidData
  deriving DecidableEq

namespace CacheEnvelope

def file (path : Text) (data : FileData) (generations : List GenerationSnapshot) : CacheEnvelope :=
  ⟨cacheEnvelopeVersion, .file, path, generations, .file data⟩

-- The envelope of a listing; serialising it fails with its first time before the epoch.
def directory (path : Text) (entries : List FileInfo) (generations : List GenerationSnapshot) : Option CacheEnvelope :=
  (entries.mapM FileInfo.serialize).map fun stored =>
    ⟨cacheEnvelopeVersion, .directory, path, generations, .directory stored⟩

def decode : CacheValue → Except CacheError CacheEnvelope
  | .generation _ => .error .invalidData
  | .envelope envelope => if envelope.version = cacheEnvelopeVersion then .ok envelope else .error .invalidData

section

variable (envelope : CacheEnvelope)

def isFor (kind : CacheObjectKind) (path : Text) : Bool :=
  envelope.kind = kind && envelope.path = path

def intoFile : Except CacheError FileData :=
  match envelope.payload with
  | .file data => .ok data
  | .directory _ => .error .invalidData

def intoDirectory : Except CacheError (List FileInfo) :=
  match envelope.payload with
  | .directory entries => .ok (entries.map StoredInfo.deserialize)
  | .file _ => .error .invalidData

end

end CacheEnvelope

structure Fault where
  evicted : Text → Bool := fun _ => false
  fails : Bool := false
  -- whether a call that is reported as failed changed the store all the same
  applied : Bool := false

structure World (σ : Type) where
  backend : σ
  store : Text → Option CacheValue
  -- how many calls the runtime has had
  calls : Nat
  bypassScopes : List Text
  -- the wrapper's own record of generations
  generations : Text → Option (BitVec 64)

structure CachedFileSystem (σ ε : Type) where
  backend : FileSystem σ ε
  faults : Nat → Fault
  cacheNamespace : Text
  policy : CachePolicy
  generationEpoch : BitVec 64

def stableHash (bytes : List UInt8) : UInt64 :=
  bytes.foldl (fun hash byte => (hash ^^^ byte.toUInt64) * 0x100000001b3) 0xcbf29ce484222325

/-- `{:016x}` -/
def hexadecimal (number : UInt64) : Text :=
  let digits := Nat.toDigits 16 number.toNat
  List.replicate (16 - digits.length) '0' ++ digits

namespace CachedFileSystem

variable {σ ε : Type} (fs : CachedFileSystem σ ε)

def objectKey (kind path : Text) : Text :=
  "ragfs:v1:" ++ fs.cacheNamespace ++ ':' :: kind ++ ':' ::
    hexadecimal (stableHash (String.ofList (normalizePath path)).toUTF8.data.toList)

def fileKey (path : Text) : Text := fs.objectKey "file" path

def directoryKey (path : Text) : Text := fs.objectKey "dir" path

def generationKey (path : Text) : Text := fs.objectKey "subtree" path

abbrev CacheM (σ : Type) := StateM (World σ)

def markBypass (path : Text) : CacheM σ Unit := modify fun world =>
  let normalized := normalizePath path
  if world.bypassScopes.any fun scope => isSameOrDescendant normalized scope then world
  else { world with
    bypassScopes := (world.bypassScopes.filter fun scope => !isSameOrDescendant scope normalized) ++ [normalized] }

def isRuntimeBypassed (path : Text) : CacheM σ Bool := do
  let world ← get
  return world.bypassScopes.any fun scope => isSameOrDescendant (normalizePath path) scope

def runtimeCall : CacheM σ Fault := do
  let world ← get
  let fault := fs.faults world.calls
  set { world with
    calls := world.calls + 1
    store := fun key => if fault.evicted key then none else world.store key }
  return fault

def setStored (key : Text) (value : Option CacheValue) : CacheM σ Unit :=
  modify fun world => { world with store := Function.update world.store key value }

def cacheGet (key : Text) : CacheM σ (Except CacheError (Option CacheValue)) := do
  let fault ← fs.runtimeCall
  let world ← get
  return if fault.fails then .error .unavailable else .ok (world.store key)

def cacheBatchGet (keys : List Text) : CacheM σ (Except CacheError (List (Option CacheValue))) := do
  if keys = [] then return .ok []
  else
    let fault ← fs.runtimeCall
    let world ← get
    return if fault.fails then .error .unavailable else .ok (keys.map world.store)

def cachePut (key : Text) (value : CacheValue) (affectedPath : Text) : CacheM σ Bool := do
  let fault ← fs.runtimeCall
  if !fault.fails || fault.applied then setStored key (some value)
  if fault.fails then
    markBypass affectedPath
    return false
  else return true

def cacheDelete (key affectedPath : Text) : CacheM σ Unit := do
  let fault ← fs.runtimeCall
  if !fault.fails || fault.applied then setStored key none
  if fault.fails then markBypass affectedPath

def readGenerations (known : Text → Option (BitVec 64)) :
    List (Text × Option CacheValue) → Except CacheError (List (BitVec 64) × List (Text × BitVec 64))
  | [] => .ok ([], [])
  | (key, provided) :: rest =>
    match provided with
    | none => do
        let value := (known key).getD fs.generationEpoch
        let (values, missing) ← readGenerations known rest
        pure (value :: values, (key, value) :: missing)
    | some (.generation value) => do
        let (values, missing) ← readGenerations known rest
        pure (value :: values, missing)
    | some (.envelope _) => .error .invalidData

def putMissingGenerations (missing : List (Text × BitVec 64)) : CacheM σ Unit :=
  missing.forM fun entry => do
    let fault ← fs.runtimeCall
    if !fault.fails || fault.applied then setStored entry.1 (some (.generation entry.2))

def recordGenerations (keys : List Text) (values : List (BitVec 64)) : CacheM σ Unit := modify fun world =>
  { world with
    generations := (keys.zip values).foldl (fun known entry => Function.update known entry.1 (some entry.2)) world.generations }

def currentGenerations (keys : List Text) : CacheM σ (Except CacheError (List (BitVec 64))) := do
  match ← fs.cacheBatchGet keys with
  | .error error => return .error error
  | .ok provided =>
    let world ← get
    match fs.readGenerations world.generations (keys.zip provided) with
    | .error error => return .error error
    | .ok (values, missing) =>
      recordGenerations keys values
      fs.putMissingGenerations missing
      return .ok values

def generationSnapshots (path : Text) : CacheM σ (Except CacheError (List GenerationSnapshot)) := do
  let keys := (ancestorScopes path).map fs.generationKey
  match ← fs.currentGenerations keys with
  | .error error => return .error error
  | .ok values => return .ok (List.zipWith GenerationSnapshot.mk keys values)

def generationsMatch (envelope : CacheEnvelope) : CacheM σ (Except CacheError Bool) := do
  match ← fs.currentGenerations (envelope.generations.map GenerationSnapshot.key) with
  | .error error => return .error error
  | .ok values => return .ok ((envelope.generations.zip values).all fun entry => entry.2 = entry.1.value)

def bumpGeneration (path : Text) : CacheM σ Unit := do
  let key := fs.generationKey path
  match ← fs.currentGenerations [key] with
  | .error _ => markBypass path
  | .ok values =>
    let next := values.headD 0 + 1
    recordGenerations [key] [next]
    let _ ← fs.cachePut key (.generation next) path

def probe (kind : CacheObjectKind) (key path : Text) : CacheM σ (Option CacheEnvelope) := do
  match ← fs.cacheGet key with
  | .error _ =>
    markBypass path
    return none
  | .ok none => return none
  | .ok (some value) =>
    match CacheEnvelope.decode value with
    | .error _ =>
      fs.cacheDelete key path
      return none
    | .ok envelope =>
      if envelope.isFor kind path = false then
        fs.cacheDelete key path
        return none
      else match ← fs.generationsMatch envelope with
        | .ok true => return some envelope
        | .ok false =>
          fs.cacheDelete key path
          return none
        | .error _ =>
          markBypass path
          return none

section

variable (key path : Text)

def probeFile : CacheM σ (Option FileData) := do
  match ← fs.probe .file key path with
  | none => return none
  | some envelope =>
    match envelope.intoFile with
    | .ok data => return some data
    | .error _ =>
      fs.cacheDelete key path
      return none

def probeDirectory : CacheM σ (Option (List FileInfo)) := do
  match ← fs.probe .directory key path with
  | none => return none
  | some envelope =>
    match envelope.intoDirectory with
    | .ok entries =>
      if fs.policy.cacheDirectoryEntries path entries.length then return some entries
      else
        fs.cacheDelete key path
        return none
    | .error _ =>
      fs.cacheDelete key path
      return none

def fillFile (data : FileData) : CacheM σ Unit := do
  if fs.policy.cacheFile path data.length then
    match ← fs.generationSnapshots path with
    | .error _ => return ()
    | .ok generations =>
      let _ ← fs.cachePut key (.envelope (CacheEnvelope.file path data generations)) path

def fillDirectory (entries : List FileInfo) : CacheM σ Unit := do
  if fs.policy.cacheDirectoryEntries path entries.length then
    match ← fs.generationSnapshots path with
    | .error _ => return ()
    | .ok generations =>
      match CacheEnvelope.directory path entries generations with
      | none => return ()
      | some envelope => let _ ← fs.cachePut key (.envelope envelope) path

end

def invalidatePathObjects (path : Text) : CacheM σ Unit := do
  fs.cacheDelete (fs.fileKey path) path
  fs.cacheDelete (fs.directoryKey path) path

def invalidateParentDirectory (path : Text) : CacheM σ Unit :=
  fs.cacheDelete (fs.directoryKey (parentPath path)) (parentPath path)

def change (mutation : Mutation) : CacheM σ (Except ε Nat) := modifyGet fun world =>
  ((fs.backend.change mutation world.backend).1, { world with backend := (fs.backend.change mutation world.backend).2 })

-- The rest of a method runs when the backend's call succeeded.
def afterChange (mutation : Mutation) (invalidate : CacheM σ Unit) : CacheM σ (Except ε Nat) := do
  match ← fs.change mutation with
  | .error error => return .error error
  | .ok done =>
    invalidate
    return .ok done

section

variable (path : Text)

def create : CacheM σ (Except ε Nat) := fs.afterChange (.create path) do
  fs.invalidatePathObjects path
  fs.invalidateParentDirectory path

def mkdir (mode : Nat) : CacheM σ (Except ε Nat) := fs.afterChange (.mkdir path mode) do
  fs.bumpGeneration path
  fs.cacheDelete (fs.directoryKey path) path
  fs.invalidateParentDirectory path

def remove : CacheM σ (Except ε Nat) := fs.afterChange (.remove path) do
  fs.bumpGeneration path
  fs.invalidatePathObjects path
  fs.invalidateParentDirectory path

-- A part of the subtree may be gone although the backend reports an error.
def removeAll : CacheM σ (Except ε Nat) := do
  let result ← fs.change (.removeAll path)
  fs.bumpGeneration path
  fs.invalidatePathObjects path
  fs.invalidateParentDirectory path
  return result

def write (data : FileData) (offset : Nat) (flags : WriteFlag) : CacheM σ (Except ε Nat) :=
  fs.afterChange (.write path data offset flags) do
    let normalized := normalizePath path
    fs.cacheDelete (fs.fileKey normalized) normalized
    if offset = 0 ∧ flags ∈ [.create, .createNew, .truncate] ∧ fs.policy.cacheFile normalized data.length = true then
      if ← isRuntimeBypassed normalized then pure ()
      else fs.fillFile (fs.fileKey normalized) normalized data
    fs.invalidateParentDirectory path

end

def moveInvalidation (fromPath toPath : Text) : CacheM σ Unit := do
  fs.bumpGeneration fromPath
  fs.bumpGeneration toPath
  fs.invalidatePathObjects fromPath
  fs.invalidatePathObjects toPath
  fs.invalidateParentDirectory fromPath
  fs.invalidateParentDirectory toPath

def rename (oldPath newPath : Text) : CacheM σ (Except ε Nat) :=
  fs.afterChange (.rename oldPath newPath) (fs.moveInvalidation oldPath newPath)

def replace (srcPath dstPath : Text) : CacheM σ (Except ε Nat) :=
  fs.afterChange (.replace srcPath dstPath) (fs.moveInvalidation srcPath dstPath)

section

variable (path : Text)

def chmod (mode : Nat) : CacheM σ (Except ε Nat) := fs.afterChange (.chmod path mode) do
  fs.invalidatePathObjects path
  fs.invalidateParentDirectory path

def truncate (size : Nat) : CacheM σ (Except ε Nat) := fs.afterChange (.truncate path size) do
  fs.cacheDelete (fs.fileKey path) path
  fs.invalidateParentDirectory path

def ensureParentDirs (mode : Nat) : CacheM σ (Except ε Nat) :=
  fs.afterChange (.ensureParentDirs path mode) do
    (ancestorScopes (parentPath path)).forM fun scope => fs.cacheDelete (fs.directoryKey scope) scope

def backendRead (offset size : Nat) : CacheM σ (Except ε FileData) := do
  return fs.backend.read path offset size (← get).backend

def backendReadDir : CacheM σ (Except ε (List FileInfo)) := do
  return fs.backend.readDir path (← get).backend

def read (offset size : Nat) : CacheM σ (Except ε FileData) := do
  if offset ≠ 0 ∨ size ≠ 0 ∨ fs.policy.cacheFile path 0 = false then fs.backendRead path offset size
  else if ← isRuntimeBypassed path then fs.backendRead path offset size
  else
    let normalized := normalizePath path
    let key := fs.fileKey normalized
    match ← fs.probeFile key normalized with
    | some data => return .ok data
    | none =>
      let result ← fs.backendRead path 0 0
      match result with
      | .ok data => fs.fillFile key normalized data
      | .error _ => pure ()
      return result

def readDir : CacheM σ (Except ε (List FileInfo)) := do
  if fs.policy.cacheDirectory path = false then fs.backendReadDir path
  else if ← isRuntimeBypassed path then fs.backendReadDir path
  else
    let normalized := normalizePath path
    let key := fs.directoryKey normalized
    match ← fs.probeDirectory key normalized with
    | some entries => return .ok entries
    | none =>
      let result ← fs.backendReadDir path
      match result with
      | .ok entries => fs.fillDirectory key normalized entries
      | .error _ => pure ()
      return result

end

def perform : Mutation → CacheM σ (Except ε Nat)
  | .create path => fs.create path
  | .mkdir path mode => fs.mkdir path mode
  | .remove path => fs.remove path
  | .removeAll path => fs.removeAll path
  | .write path data offset flags => fs.write path data offset flags
  | .rename oldPath newPath => fs.rename oldPath newPath
  | .replace srcPath dstPath => fs.replace srcPath dstPath
  | .chmod path mode => fs.chmod path mode
  | .truncate path size => fs.truncate path size
  | .ensureParentDirs path mode => fs.ensureParentDirs path mode

end CachedFileSystem

end LoginomDock.CacheFs
