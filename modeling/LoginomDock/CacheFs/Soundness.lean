import LoginomDock.CacheFs.Wrapper
import LoginomDock.Library.Stateful

/-! A stored object carries the generations of every scope over its path. -/

namespace LoginomDock.CacheFs

abbrev CacheObject := CacheObjectKind × Text

def CachePayload.kind : CachePayload → CacheObjectKind
  | .file _ => .file
  | .directory _ => .directory

def World.Bypassed {σ : Type} (world : World σ) (path : Text) : Prop :=
  ∃ scope ∈ world.bypassScopes, isSameOrDescendant path scope = true

namespace CachedFileSystem

variable {σ ε : Type} (fs : CachedFileSystem σ ε)

def keyOf : CacheObjectKind → Text → Text
  | .file => fs.fileKey
  | .directory => fs.directoryKey

def age (generation : BitVec 64) : Nat := (generation - fs.generationEpoch).toNat

def current (world : World σ) (key : Text) : BitVec 64 :=
  match world.store key with
  | some (.generation value) => value
  | _ => (world.generations key).getD fs.generationEpoch

def Answers (state : σ) (path : Text) : CachePayload → Prop
  | .file data => fs.backend.read path 0 0 state = .ok data
  | .directory stored =>
    ∃ entries, fs.backend.readDir path state = .ok entries ∧ entries.mapM FileInfo.serialize = some stored

def IsCurrent (world : World σ) (envelope : CacheEnvelope) : Prop :=
  ∀ snapshot ∈ envelope.generations, fs.current world snapshot.key = snapshot.value

structure Faithful (dirty : Set CacheObject) (world : World σ) (envelope : CacheEnvelope) : Prop where
  normalised : Normalised envelope.path
  kind : envelope.payload.kind = envelope.kind
  covered : ∀ scope ∈ ancestorScopes envelope.path,
    ∃ snapshot ∈ envelope.generations, snapshot.key = fs.generationKey scope
  past : ∀ snapshot ∈ envelope.generations, fs.age snapshot.value ≤ fs.age (fs.current world snapshot.key)
  answers : ¬ world.Bypassed envelope.path → (envelope.kind, envelope.path) ∉ dirty → fs.IsCurrent world envelope →
    fs.Answers world.backend envelope.path envelope.payload

structure Sound (dirty : Set CacheObject) (bumps : Nat) (world : World σ) : Prop where
  placed : ∀ key envelope, world.store key = some (.envelope envelope) →
    key = fs.keyOf envelope.kind envelope.path ∧ fs.Faithful dirty world envelope
  -- a generation of the provider is never ahead of the wrapper's own record of it
  fallback : ∀ key value, world.store key = some (.generation value) →
    ∃ known, world.generations key = some known ∧ fs.age value ≤ fs.age known
  bounded : ∀ key known, world.generations key = some known → fs.age known ≤ bumps

structure Later (world later : World σ) : Prop where
  backend : later.backend = world.backend
  grows : ∀ key, fs.age (fs.current world key) ≤ fs.age (fs.current later key)
  bypassed : ∀ path, Normalised path → world.Bypassed path → later.Bypassed path

variable {fs} {dirty : Set CacheObject} {bumps : Nat} {world : World σ}

theorem age_inj {first second : BitVec 64} (same : fs.age first = fs.age second) : first = second := by
  unfold age at same
  bv_omega

@[simp] theorem age_epoch : fs.age fs.generationEpoch = 0 := by
  simp [age]

theorem age_next {generation : BitVec 64} (room : fs.age generation + 1 < 2 ^ 64) :
    fs.age (generation + 1) = fs.age generation + 1 := by
  unfold age at room ⊢
  bv_omega

theorem normalizePath_of {path : Text} (normalised : Normalised path) : normalizePath path = path := normalised

theorem Later.refl (world : World σ) : fs.Later world world :=
  ⟨rfl, fun _ => le_rfl, fun _ _ bypassed => bypassed⟩

theorem Later.trans {second third : World σ} (first : fs.Later world second) (then' : fs.Later second third) :
    fs.Later world third where
  backend := then'.backend.trans first.backend
  grows key := (first.grows key).trans (then'.grows key)
  bypassed path normalised bypassed := then'.bypassed path normalised (first.bypassed path normalised bypassed)

theorem Faithful.current_before {later : World σ} {envelope : CacheEnvelope}
    (faithful : fs.Faithful dirty world envelope) (follows : fs.Later world later)
    (isCurrent : fs.IsCurrent later envelope) : fs.IsCurrent world envelope := by
  intro snapshot mem
  have after := follows.grows snapshot.key
  rw [isCurrent snapshot mem] at after
  exact age_inj (le_antisymm after (faithful.past snapshot mem))

theorem Faithful.later {later : World σ} {envelope : CacheEnvelope} (faithful : fs.Faithful dirty world envelope)
    (follows : fs.Later world later) : fs.Faithful dirty later envelope where
  __ := faithful
  past snapshot mem := (faithful.past snapshot mem).trans (follows.grows _)
  answers free clean isCurrent := by
    rw [follows.backend]
    exact faithful.answers (fun bypassed => free (follows.bypassed _ faithful.normalised bypassed)) clean
      (faithful.current_before follows isCurrent)

theorem Faithful.cleaned {envelope : CacheEnvelope} {clean : Set CacheObject}
    (faithful : fs.Faithful dirty world envelope)
    (less : (envelope.kind, envelope.path) ∈ dirty → (envelope.kind, envelope.path) ∉ clean →
      ¬ world.Bypassed envelope.path → ¬ fs.IsCurrent world envelope) :
    fs.Faithful clean world envelope where
  __ := faithful
  answers free notClean isCurrent :=
    faithful.answers free (fun isDirty => less isDirty notClean free isCurrent) isCurrent

theorem Sound.mono {more : Set CacheObject} {most : Nat} (sound : fs.Sound dirty bumps world) (subset : dirty ⊆ more)
    (within : bumps ≤ most) : fs.Sound more most world where
  placed key envelope stored :=
    ⟨(sound.placed key envelope stored).1, (sound.placed key envelope stored).2.cleaned
      fun isDirty notMore _ => absurd (subset isDirty) notMore⟩
  fallback := sound.fallback
  bounded key known recorded := (sound.bounded key known recorded).trans within

theorem Sound.current_le {key : Text} (sound : fs.Sound dirty bumps world) :
    fs.age (fs.current world key) ≤ fs.age ((world.generations key).getD fs.generationEpoch) := by
  unfold current
  split
  case h_1 value stored =>
    obtain ⟨known, recorded, le⟩ := sound.fallback key value stored
    simpa [recorded] using le
  case h_2 => exact le_rfl

theorem Sound.current_bounded {key : Text} (sound : fs.Sound dirty bumps world) :
    fs.age (fs.current world key) ≤ bumps := by
  refine sound.current_le.trans ?_
  cases recorded : world.generations key with
  | none => simp
  | some known => exact sound.bounded key known recorded

theorem Sound.advance {later : World σ} {most : Nat} (sound : fs.Sound dirty bumps world)
    (follows : fs.Later world later)
    (stores : ∀ key envelope, later.store key = some (.envelope envelope) →
      world.store key = some (.envelope envelope) ∨
        key = fs.keyOf envelope.kind envelope.path ∧ fs.Faithful dirty later envelope)
    (fallback : ∀ key value, later.store key = some (.generation value) →
      ∃ known, later.generations key = some known ∧ fs.age value ≤ fs.age known)
    (bounded : ∀ key known, later.generations key = some known → fs.age known ≤ most) :
    fs.Sound dirty most later where
  placed key envelope stored := by
    rcases stores key envelope stored with old | new
    · exact ⟨(sound.placed key envelope old).1, (sound.placed key envelope old).2.later follows⟩
    · exact new
  fallback := fallback
  bounded := bounded

end CachedFileSystem

end LoginomDock.CacheFs
