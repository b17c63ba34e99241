import LoginomDock.CacheFs.CachedObjects

namespace LoginomDock.CacheFs

open Mutation

namespace Mutation

def paths : Mutation → List Text
  | .create path | .mkdir path _ | .remove path | .removeAll path | .write path .. | .chmod path _ | .truncate path _
  | .ensureParentDirs path _ => [path]
  | .rename fromPath toPath | .replace fromPath toPath => [fromPath, toPath]

end Mutation

def listingOf (path : Text) : CacheObject := (.directory, normalizePath (parentPath path))

open CachedFileSystem (below)

namespace Mutation

def invalidates : Mutation → Set CacheObject
  | .create path | .chmod path _ => {(.file, path), (.directory, path), listingOf path}
  | .mkdir path _ | .remove path | .removeAll path => below path ∪ {listingOf path}
  | .write path .. | .truncate path _ => {(.file, path), listingOf path}
  | .rename fromPath toPath | .replace fromPath toPath =>
    below fromPath ∪ below toPath ∪ {listingOf fromPath, listingOf toPath}
  | .ensureParentDirs path _ => {object | ∃ scope ∈ ancestorScopes (parentPath path), object = (.directory, normalizePath scope)}

-- A failed call drops nothing, except for one that may have removed a part of a tree.
def dropped {ε : Type} (mutation : Mutation) : Except ε Nat → Set CacheObject
  | .ok _ => mutation.invalidates
  | .error _ => match mutation with
    | .removeAll _ => mutation.invalidates
    | _ => ∅

def bumps : Mutation → Nat
  | .mkdir .. | .remove .. | .removeAll .. => 1
  | .rename .. | .replace .. => 2
  | _ => 0

end Mutation

namespace FileSystem

variable {σ ε : Type} (backend : FileSystem σ ε)

def SameAnswer (state later : σ) : CacheObject → Prop
  | (.file, path) => backend.read path 0 0 later = backend.read path 0 0 state
  | (.directory, path) => backend.readDir path later = backend.readDir path state

structure Contained (mutation : Mutation) (state : σ) : Prop where
  normalised : ∀ path ∈ mutation.paths, Normalised path
  elsewhere : ∀ object : CacheObject, Normalised object.2 → object ∉ mutation.dropped (backend.change mutation state).1 →
    backend.SameAnswer state (backend.change mutation state).2 object
  written : ∀ path data flags done, mutation = .write path data 0 flags → flags ∈ [.create, .createNew, .truncate] →
    (backend.change mutation state).1 = .ok done → backend.read path 0 0 (backend.change mutation state).2 = .ok data

end FileSystem

namespace CachedFileSystem

variable {σ ε : Type} {fs : CachedFileSystem σ ε} {dirty : Set CacheObject} {bumps : Nat} {origin world : World σ}

theorem Safe.mono {more : Set CacheObject} {most : Nat} (safe : fs.Safe dirty bumps origin world) (subset : dirty ⊆ more)
    (within : bumps ≤ most) : fs.Safe more most origin world :=
  ⟨safe.1.mono subset within, safe.2⟩

variable {path : Text}

theorem deleteObject_safe (kind : CacheObjectKind) (normalised : Normalised path) :
    Ensures (fs.Safe dirty bumps origin) (fs.cacheDelete (fs.keyOf kind path) path)
      fun _ => fs.Safe (dirty \ {(kind, path)}) bumps origin := by
  have deleted : Ensures (fs.Safe dirty bumps origin) (fs.cacheDelete (fs.keyOf kind path) path)
    fun _ => fs.Safe (dirty \ {(kind, normalizePath path)}) bumps origin := cacheDelete_safe kind path
  rwa [normalizePath_of normalised] at deleted

theorem invalidatePathObjects_safe (normalised : Normalised path) :
    Ensures (fs.Safe dirty bumps origin) (fs.invalidatePathObjects path)
      fun _ => fs.Safe ((dirty \ {(.file, path)}) \ {(.directory, path)}) bumps origin :=
  .seq (deleteObject_safe .file normalised) (deleteObject_safe .directory normalised)

theorem invalidateParentDirectory_safe (path : Text) :
    Ensures (fs.Safe dirty bumps origin) (fs.invalidateParentDirectory path)
      fun _ => fs.Safe (dirty \ {listingOf path}) bumps origin :=
  cacheDelete_safe .directory (parentPath path)

variable (fs) in
-- The steps after a change drop all that the change may show in.
def Drops (mutation : Mutation) (invalidate : CacheM σ Unit) (state : σ) : Prop :=
  ∀ bumps origin, origin.backend = state → bumps + mutation.bumps < 2 ^ 64 →
    Ensures (fs.Safe mutation.invalidates bumps origin) invalidate fun _ => fs.Safe ∅ (bumps + mutation.bumps) origin

theorem all_dropped {α : Type} {pre : World σ → Prop} {program : CacheM σ α} {most : Nat}
    (safe : Ensures pre program fun _ => fs.Safe dirty most origin) (none : ∀ object ∈ dirty, False) :
    Ensures pre program fun _ => fs.Safe ∅ most origin :=
  safe.weaken (fun _ held => held) fun _ _ safe => safe.mono none le_rfl

theorem create_drops (normalised : Normalised path) (state : σ) :
    fs.Drops (.create path) (do fs.invalidatePathObjects path; fs.invalidateParentDirectory path) state := by
  intro bumps origin _ _
  refine all_dropped (.seq (invalidatePathObjects_safe normalised) (invalidateParentDirectory_safe path)) ?_
  rintro object ⟨⟨⟨mem, notFile⟩, notDirectory⟩, notListing⟩
  rcases mem with isFile | isDirectory | isListing
  · exact notFile isFile
  · exact notDirectory isDirectory
  · exact notListing isListing

theorem mkdir_drops (mode : Nat) (normalised : Normalised path) (state : σ) :
    fs.Drops (.mkdir path mode) (do
      fs.bumpGeneration path
      fs.cacheDelete (fs.directoryKey path) path
      fs.invalidateParentDirectory path) state := by
  intro bumps origin _ room
  refine all_dropped (.seq (bumpGeneration_safe normalised room)
    (.seq (deleteObject_safe .directory normalised) (invalidateParentDirectory_safe path))) ?_
  rintro object ⟨⟨⟨mem, notBelow⟩, _⟩, notListing⟩
  exact mem.elim notBelow notListing

theorem remove_drops (normalised : Normalised path) (state : σ) :
    fs.Drops (.remove path) (do
      fs.bumpGeneration path
      fs.invalidatePathObjects path
      fs.invalidateParentDirectory path) state := by
  intro bumps origin _ room
  refine all_dropped (.seq (bumpGeneration_safe normalised room)
    (.seq (invalidatePathObjects_safe normalised) (invalidateParentDirectory_safe path))) ?_
  rintro object ⟨⟨⟨⟨mem, notBelow⟩, _⟩, _⟩, notListing⟩
  exact mem.elim notBelow notListing

theorem moveInvalidation_drops {fromPath toPath : Text} (normalisedFrom : Normalised fromPath)
    (normalisedTo : Normalised toPath) (state : σ) :
    fs.Drops (.rename fromPath toPath) (fs.moveInvalidation fromPath toPath) state := by
  intro bumps origin _ room
  have room' : bumps + 2 < 2 ^ 64 := room
  refine all_dropped (.seq (bumpGeneration_safe normalisedFrom (by omega))
    (.seq (bumpGeneration_safe normalisedTo room') (.seq (invalidatePathObjects_safe normalisedFrom)
      (.seq (invalidatePathObjects_safe normalisedTo)
        (.seq (invalidateParentDirectory_safe fromPath) (invalidateParentDirectory_safe toPath)))))) ?_
  rintro object ⟨⟨⟨⟨⟨⟨⟨⟨mem, notFrom⟩, notTo⟩, _⟩, _⟩, _⟩, _⟩, notFromListing⟩, notToListing⟩
  rcases mem with (isFrom | isTo) | isFromListing | isToListing
  · exact notFrom isFrom
  · exact notTo isTo
  · exact notFromListing isFromListing
  · exact notToListing isToListing

theorem truncate_drops (size : Nat) (normalised : Normalised path) (state : σ) :
    fs.Drops (.truncate path size) (do
      fs.cacheDelete (fs.fileKey path) path
      fs.invalidateParentDirectory path) state := by
  intro bumps origin _ _
  refine all_dropped (.seq (deleteObject_safe .file normalised) (invalidateParentDirectory_safe path)) ?_
  rintro object ⟨⟨mem, notFile⟩, notListing⟩
  exact mem.elim notFile notListing

theorem deleteListings_safe (scopes : List Text) :
    Ensures (fs.Safe {object | ∃ scope ∈ scopes, object = (.directory, normalizePath scope)} bumps origin)
      (scopes.forM fun scope => fs.cacheDelete (fs.directoryKey scope) scope) fun _ => fs.Safe ∅ bumps origin := by
  induction scopes with
  | nil => exact fun _ safe => safe.mono (by rintro object ⟨_, ⟨⟩, _⟩) le_rfl
  | cons scope rest ih =>
    refine .seq ((cacheDelete_safe .directory scope).weaken (fun _ safe => safe) fun _ _ safe => safe.mono ?_ le_rfl) ih
    rintro object ⟨⟨other, mem, isObject⟩, notDeleted⟩
    rcases List.mem_cons.mp mem with rfl | mem
    · exact absurd isObject notDeleted
    · exact ⟨other, mem, isObject⟩

theorem ensureParentDirs_drops (path : Text) (mode : Nat) (state : σ) :
    fs.Drops (.ensureParentDirs path mode)
      ((ancestorScopes (parentPath path)).forM fun scope => fs.cacheDelete (fs.directoryKey scope) scope) state :=
  fun _ _ _ _ => deleteListings_safe _

theorem write_drops {data : FileData} {offset : Nat} {flags : WriteFlag} {state : σ}
    (normalised : Normalised path)
    (written : offset = 0 → flags ∈ [.create, .createNew, .truncate] → fs.backend.read path 0 0 state = .ok data) :
    fs.Drops (.write path data offset flags) (do
      let normalized := normalizePath path
      fs.cacheDelete (fs.fileKey normalized) normalized
      if offset = 0 ∧ flags ∈ [.create, .createNew, .truncate] ∧ fs.policy.cacheFile normalized data.length = true then
        if ← isRuntimeBypassed normalized then pure ()
        else fs.fillFile (fs.fileKey normalized) normalized data
      fs.invalidateParentDirectory path) state := by
  intro bumps origin isState _
  simp only [normalizePath_of normalised]
  refine all_dropped (.seq (deleteObject_safe .file normalised) (.ite (fun fills => ?_) fun _ =>
    invalidateParentDirectory_safe path)) ?_
  · refine .bind (isRuntimeBypassed_ensures path) fun bypassed => .ite (fun _ => ?_) fun _ => ?_
    · exact (invalidateParentDirectory_safe path).weaken (fun _ held => held.1) fun _ _ safe => safe
    · have answers : fs.backend.read path 0 0 origin.backend = .ok data := isState ▸ written fills.1 fills.2.1
      exact .seq ((fillFile_safe normalised answers).weaken (fun _ held => held.1) fun _ _ safe => safe)
        (invalidateParentDirectory_safe path)
  · rintro object ⟨⟨mem, notFile⟩, notListing⟩
    exact mem.elim notFile notListing

theorem Sound.changed {later : σ} (sound : fs.Sound ∅ bumps world)
    (same : ∀ object : CacheObject, Normalised object.2 → object ∉ dirty → fs.backend.SameAnswer world.backend later object) :
    fs.Sound dirty bumps { world with backend := later } where
  placed key envelope stored := by
    obtain ⟨isKey, faithful⟩ := sound.placed key envelope stored
    refine ⟨isKey, faithful.normalised, faithful.kind, faithful.covered, faithful.past, fun free clean isCurrent => ?_⟩
    have answers := faithful.answers free (fun mem => mem) isCurrent
    have unchanged := same _ faithful.normalised clean
    rw [← faithful.kind] at unchanged
    cases payload : envelope.payload with
    | file data =>
      rw [payload] at answers unchanged
      exact Eq.trans unchanged answers
    | directory stored =>
      rw [payload] at answers unchanged
      obtain ⟨entries, isListing, serialised⟩ := answers
      exact ⟨entries, Eq.trans unchanged isListing, serialised⟩
  fallback := sound.fallback
  bounded := sound.bounded

variable (fs) in
def SoundOver (bumps : Nat) (state : σ) (world : World σ) : Prop := fs.Sound ∅ bumps world ∧ world.backend = state

variable {mutation : Mutation} {state : σ}

theorem change_ensures (contained : fs.backend.Contained mutation state) :
    Ensures (fs.SoundOver bumps state) (fs.change mutation) fun result world =>
      result = (fs.backend.change mutation state).1 ∧ world.backend = (fs.backend.change mutation state).2 ∧
        fs.Safe (mutation.dropped (fs.backend.change mutation state).1) bumps world world := by
  rintro world ⟨sound, rfl⟩
  exact ⟨rfl, rfl, sound.changed contained.elsewhere, .refl _⟩

variable (fs) in
-- What a method of a change ends with.
def Carries (mutation : Mutation) (program : CacheM σ (Except ε Nat)) (state : σ) : Prop :=
  ∀ bumps, bumps + mutation.bumps < 2 ^ 64 → Ensures (fs.SoundOver bumps state) program fun result world =>
    result = (fs.backend.change mutation state).1 ∧
      fs.SoundOver (bumps + mutation.bumps) (fs.backend.change mutation state).2 world

variable {invalidate : CacheM σ Unit}

theorem Drops.finish (drops : fs.Drops mutation invalidate state) {now : World σ}
    (isState : now.backend = state) (room : bumps + mutation.bumps < 2 ^ 64)
    (safe : fs.Safe mutation.invalidates bumps now now) :
    Ensures (fun world => now = world) invalidate fun _ => fs.SoundOver (bumps + mutation.bumps) state := by
  rintro _ rfl
  have dropped := drops bumps now isState room now safe
  exact ⟨dropped.1, dropped.2.backend.trans isState⟩

theorem afterChange_carries (contained : fs.backend.Contained mutation state)
    (complete : ∀ path, mutation ≠ .removeAll path)
    (drops : ∀ done, (fs.backend.change mutation state).1 = .ok done →
      fs.Drops mutation invalidate (fs.backend.change mutation state).2) :
    fs.Carries mutation (fs.afterChange mutation invalidate) state := by
  intro bumps room
  refine .bind (change_ensures contained) fun result => ?_
  cases result with
  | error error =>
    refine .pure ?_
    rintro world ⟨isResult, isState, safe⟩
    have none : mutation.dropped (fs.backend.change mutation state).1 = ∅ := by
      rw [← isResult]
      cases mutation with
      | removeAll path => exact absurd rfl (complete path)
      | _ => rfl
    rw [none] at safe
    exact ⟨isResult, (safe.mono (fun _ mem => mem) (Nat.le_add_right ..)).1, isState⟩
  | ok done =>
    refine .fix fun now held => ?_
    obtain ⟨isResult, isState, safe⟩ := held
    rw [← isResult] at safe
    exact .seq ((drops done isResult.symm).finish isState room safe) (.pure fun world sound => ⟨isResult, sound⟩)

theorem removeAll_carries (contained : fs.backend.Contained (.removeAll path) state) :
    fs.Carries (.removeAll path) (fs.removeAll path) state := by
  intro bumps room
  refine .bind (change_ensures contained) fun result => .fix fun now held => ?_
  obtain ⟨isResult, isState, safe⟩ := held
  have all : (Mutation.removeAll path).dropped result = (Mutation.removeAll path).invalidates := by
    cases result <;> rfl
  rw [← isResult, all] at safe
  have normalised := contained.normalised path (List.mem_singleton_self _)
  have drops : fs.Drops (.removeAll path) _ _ := remove_drops normalised (fs.backend.change (.removeAll path) state).2
  have finished := drops.finish isState room safe
  intro world isNow
  exact ⟨isResult, finished world isNow⟩

theorem perform_carries (contained : fs.backend.Contained mutation state) :
    fs.Carries mutation (fs.perform mutation) state := by
  have normalised := contained.normalised
  cases mutation with
  | create path => exact afterChange_carries contained (by simp) fun _ _ => create_drops (normalised path (by simp [paths])) _
  | mkdir path mode => exact afterChange_carries contained (by simp) fun _ _ => mkdir_drops mode (normalised path (by simp [paths])) _
  | remove path => exact afterChange_carries contained (by simp) fun _ _ => remove_drops (normalised path (by simp [paths])) _
  | removeAll path => exact removeAll_carries contained
  | write path data offset flags =>
    refine afterChange_carries contained (by simp) fun done isDone =>
      write_drops (normalised path (by simp [paths])) ?_
    rintro rfl emptied
    exact contained.written path data flags done rfl emptied isDone
  | rename oldPath newPath =>
    exact afterChange_carries contained (by simp) fun _ _ =>
      moveInvalidation_drops (normalised oldPath (by simp [paths])) (normalised newPath (by simp [paths])) _
  | replace srcPath dstPath =>
    exact afterChange_carries contained (by simp) fun _ _ =>
      moveInvalidation_drops (normalised srcPath (by simp [paths])) (normalised dstPath (by simp [paths])) _
  | chmod path mode => exact afterChange_carries contained (by simp) fun _ _ => create_drops (normalised path (by simp [paths])) _
  | truncate path size => exact afterChange_carries contained (by simp) fun _ _ => truncate_drops size (normalised path (by simp [paths])) _
  | ensureParentDirs path mode => exact afterChange_carries contained (by simp) fun _ _ => ensureParentDirs_drops path mode _

end CachedFileSystem

end LoginomDock.CacheFs
