import LoginomDock.CacheFs.Soundness

namespace LoginomDock.CacheFs

open List Function

namespace CachedFileSystem

variable {σ ε : Type} {fs : CachedFileSystem σ ε} {dirty : Set CacheObject} {bumps : Nat} {origin world : World σ}

variable (fs) in
def Safe (dirty : Set CacheObject) (bumps : Nat) (origin world : World σ) : Prop :=
  fs.Sound dirty bumps world ∧ fs.Later origin world

theorem Sound.withStore (sound : fs.Sound dirty bumps world) (store : Text → Option CacheValue) (calls : Nat)
    (generation : ∀ key value, store key = some (.generation value) →
      world.store key = some (.generation value) ∨ world.generations key = some value)
    (envelope : ∀ key envelope, store key = some (.envelope envelope) →
      world.store key = some (.envelope envelope) ∨
        key = fs.keyOf envelope.kind envelope.path ∧ fs.Faithful dirty world envelope) :
    fs.Safe dirty bumps world { world with store := store, calls := calls } := by
  have follows : fs.Later world { world with store := store, calls := calls } := by
    refine ⟨rfl, fun key => ?_, fun _ _ bypassed => bypassed⟩
    conv_rhs => unfold current
    split
    case h_1 value stored =>
      rcases generation key value stored with same | recorded
      · simp [current, same]
      · exact (sound.current_le).trans (by simp [recorded])
    case h_2 => exact sound.current_le
  refine ⟨sound.advance follows ?_ ?_ sound.bounded, follows⟩
  · intro key found stored
    exact (envelope key found stored).imp id fun new => ⟨new.1, new.2.later follows⟩
  · intro key value stored
    rcases generation key value stored with same | recorded
    · exact sound.fallback key value same
    · exact ⟨value, recorded, le_rfl⟩

theorem Sound.withGenerations (sound : fs.Sound dirty bumps world) (generations : Text → Option (BitVec 64)) {most : Nat}
    (within : bumps ≤ most)
    (grows : ∀ key, generations key = world.generations key ∨
      ∃ value, generations key = some value ∧ fs.age (fs.current world key) ≤ fs.age value ∧ fs.age value ≤ most) :
    fs.Safe dirty most world { world with generations := generations } := by
  have follows : fs.Later world { world with generations := generations } := by
    refine ⟨rfl, fun key => ?_, fun _ _ bypassed => bypassed⟩
    rcases grows key with same | ⟨value, isNew, le, _⟩
    · simp [current, same]
    · conv_rhs => unfold current
      split
      case h_1 kept stored =>
          have stored' : world.store key = some (.generation kept) := stored
          simp [current, stored']
      case h_2 => simpa [isNew] using le
  refine ⟨sound.advance follows (fun key found stored => .inl stored) ?_ ?_, follows⟩
  · intro key value stored
    rcases grows key with same | ⟨new, isNew, le, _⟩
    · simpa [same] using sound.fallback key value stored
    · have stored' : world.store key = some (.generation value) := stored
      exact ⟨new, isNew, by simpa [current, stored'] using le⟩
  · intro key known recorded
    rcases grows key with same | ⟨value, isNew, _, le⟩
    · exact (sound.bounded key known (same.symm.trans recorded)).trans within
    · rw [show known = value from Option.some.inj (recorded.symm.trans isNew)]
      exact le

theorem runtimeCall_store (world : World σ) (key : Text) :
    ((fs.runtimeCall).run world).2.store key = none ∨
      ((fs.runtimeCall).run world).2.store key = world.store key := by
  change (if (fs.faults world.calls).evicted key = true then none else world.store key) = none ∨
    (if (fs.faults world.calls).evicted key = true then none else world.store key) = world.store key
  split <;> simp

variable {holds : World σ → Prop}

theorem runtimeCall_ensures
    (loses : ∀ world store calls, holds world → (∀ key, store key = none ∨ store key = world.store key) →
      holds { world with store := store, calls := calls }) :
    Ensures holds fs.runtimeCall fun _ => holds :=
  fun world held => loses world _ _ held (runtimeCall_store world)

variable {store : Text → Option CacheValue}

theorem Safe.loses {calls : Nat} (safe : fs.Safe dirty bumps origin world)
    (fewer : ∀ key, store key = none ∨ store key = world.store key) :
    fs.Safe dirty bumps origin { world with store := store, calls := calls } := by
  have kept : ∀ key value, store key = some value → world.store key = some value := by
    intro key value stored
    rcases fewer key with gone | same
    · simp [gone] at stored
    · exact same.symm.trans stored
  obtain ⟨sound, follows⟩ := safe.1.withStore store calls (fun key value stored => .inl (kept key _ stored))
    (fun key envelope stored => .inl (kept key _ stored))
  exact ⟨sound, safe.2.trans follows⟩

theorem runtimeCall_safe : Ensures (fs.Safe dirty bumps origin) fs.runtimeCall fun _ => fs.Safe dirty bumps origin :=
  runtimeCall_ensures fun _ _ _ => Safe.loses

theorem cacheGet_ensures (called : Ensures holds fs.runtimeCall fun _ => holds) (key : Text) :
    Ensures holds (fs.cacheGet key) fun found world => holds world ∧
      ∀ value, found = .ok (some value) → world.store key = some value := by
  refine .bind called fun fault => .bind .get fun now => .pure ?_
  rintro world ⟨rfl, held⟩
  refine ⟨held, fun value found => ?_⟩
  split at found
  · cases found
  · exact Except.ok.inj found

theorem bypassed_markBypass (path : Text) (world : World σ) {below : Text} (normalised : Normalised below)
    (covered : isSameOrDescendant below (normalizePath path) = true) :
    ((markBypass path).run world).2.Bypassed below := by
  change World.Bypassed (if _ then world else _) below
  split
  case isTrue already =>
    obtain ⟨scope, mem, covers⟩ := any_eq_true.mp already
    exact ⟨scope, mem, isSameOrDescendant_trans normalised covered covers⟩
  case isFalse => exact ⟨normalizePath path, by simp, covered⟩

theorem bypassed_of_markBypass (path : Text) (world : World σ) {other : Text} (normalised : Normalised other)
    (bypassed : world.Bypassed other) : ((markBypass path).run world).2.Bypassed other := by
  obtain ⟨scope, mem, covers⟩ := bypassed
  by_cases dropped : isSameOrDescendant scope (normalizePath path) = true
  · exact bypassed_markBypass path world normalised (isSameOrDescendant_trans normalised covers dropped)
  · change World.Bypassed (if _ then world else _) other
    split
    · exact ⟨scope, mem, covers⟩
    · exact ⟨scope, by simp [mem, dropped], covers⟩

@[simp] theorem markBypass_store (path : Text) (world : World σ) :
    ((markBypass path).run world).2.store = world.store := by
  change World.store (if _ then world else _) = _
  split <;> rfl

@[simp] theorem markBypass_generations (path : Text) (world : World σ) :
    ((markBypass path).run world).2.generations = world.generations := by
  change World.generations (if _ then world else _) = _
  split <;> rfl

@[simp] theorem markBypass_backend (path : Text) (world : World σ) :
    ((markBypass path).run world).2.backend = world.backend := by
  change World.backend (if _ then world else _) = _
  split <;> rfl

theorem Safe.bypass (path : Text) (safe : fs.Safe dirty bumps origin world) :
    fs.Safe dirty bumps origin ((markBypass path).run world).2 := by
  have follows : fs.Later world ((markBypass path).run world).2 :=
    ⟨by simp, fun key => by simp [current], fun _ normalised => bypassed_of_markBypass path world normalised⟩
  refine ⟨safe.1.advance follows ?_ ?_ ?_, safe.2.trans follows⟩
  · intro key envelope stored
    exact .inl (by simpa using stored)
  · simpa using safe.1.fallback
  · simpa using safe.1.bounded

theorem markBypass_safe (path : Text) :
    Ensures (fs.Safe dirty bumps origin) (markBypass path) fun _ => fs.Safe dirty bumps origin :=
  fun _ => Safe.bypass path

def HoldsOrBypasses (key path : Text) (value : Option CacheValue) (world : World σ) : Prop :=
  world.store key = value ∨
    ∀ below, Normalised below → isSameOrDescendant below (normalizePath path) = true → world.Bypassed below

variable {key : Text}

theorem setStored_ensures {value : Option CacheValue} (fault : Fault)
    (stores : ∀ world, holds world → holds ((setStored key value).run world).2) {α : Type} {next : Unit → CacheM σ α}
    {post : α → World σ → Prop}
    (rest : Ensures (fun world => holds world ∧ (fault.fails = false → world.store key = value)) (next ()) post) :
    Ensures holds (if (!fault.fails || fault.applied) = true then setStored key value >>= next else next ()) post := by
  refine .whenThen (fun _ world held => ⟨stores world held, fun _ => update_self ..⟩) ?_ rest
  intro skipped world held
  refine ⟨held, fun succeeds => ?_⟩
  simp [succeeds] at skipped

section Writes

variable {path : Text} {value : Option CacheValue} (called : Ensures holds fs.runtimeCall fun _ => holds)
  (stores : ∀ world, holds world → holds ((setStored key value).run world).2)
  (bypasses : ∀ world, holds world → holds ((markBypass path).run world).2)

include called stores bypasses

theorem written_ensures {α : Type} (lost kept : α) :
    Ensures holds (do
      let fault ← fs.runtimeCall
      if !fault.fails || fault.applied then setStored key value
      if fault.fails then
        markBypass path
        return lost
      else return kept) fun _ world => holds world ∧ HoldsOrBypasses key path value world := by
  refine .bind called fun fault => setStored_ensures fault stores (.ite (fun _ => ?_) fun succeeds => ?_)
  · intro world held
    exact ⟨bypasses world held.1, .inr fun below => bypassed_markBypass path world⟩
  · exact .pure fun world held => ⟨held.1, .inl (held.2 (by simpa using succeeds))⟩

end Writes

@[simp] theorem setStored_store (key : Text) (value : Option CacheValue) (world : World σ) :
    ((setStored key value).run world).2.store = Function.update world.store key value := rfl

theorem Safe.erase (key : Text) (safe : fs.Safe dirty bumps origin world) :
    fs.Safe dirty bumps origin ((setStored key none).run world).2 := by
  have fewer : ∀ other, Function.update world.store key none other = none ∨
      Function.update world.store key none other = world.store other := by
    intro other
    by_cases same : other = key <;> simp [same]
  exact safe.loses fewer

theorem objectKey_congr {name path other : Text} (same : normalizePath path = normalizePath other) :
    fs.objectKey name path = fs.objectKey name other := by
  unfold objectKey
  rw [same]

theorem keyOf_normalizePath (kind : CacheObjectKind) (path : Text) :
    fs.keyOf kind (normalizePath path) = fs.keyOf kind path := by
  cases kind with
  | file => exact objectKey_congr (normalised_normalizePath path)
  | directory => exact objectKey_congr (normalised_normalizePath path)

theorem cacheDelete_safe (kind : CacheObjectKind) (path : Text) :
    Ensures (fs.Safe dirty bumps origin) (fs.cacheDelete (fs.keyOf kind path) path)
      fun _ => fs.Safe (dirty \ {(kind, normalizePath path)}) bumps origin := by
  refine (written_ensures runtimeCall_safe (fun _ => Safe.erase _) (fun _ => Safe.bypass path) () ()).weaken
    (fun _ safe => safe) ?_
  rintro - world ⟨⟨sound, follows⟩, gone⟩
  refine ⟨⟨fun key envelope stored => ?_, sound.fallback, sound.bounded⟩, follows⟩
  obtain ⟨isKey, faithful⟩ := sound.placed key envelope stored
  refine ⟨isKey, faithful.cleaned fun isDirty notClean free => ?_⟩
  have same : (envelope.kind, envelope.path) = (kind, normalizePath path) := by
    by_contra other
    exact notClean ⟨isDirty, other⟩
  obtain ⟨isKind, isPath⟩ := Prod.mk.inj same
  rcases gone with deleted | bypassed
  · rw [isKey, isKind, isPath, keyOf_normalizePath, deleted] at stored
    cases stored
  · exact absurd (bypassed _ faithful.normalised (isPath ▸ isSameOrDescendant_refl _)) free

-- The wrapper and the provider agree on the generation, if the provider has it at all.
def Settled (world : World σ) (key : Text) (value : BitVec 64) : Prop :=
  world.generations key = some value ∧ (world.store key = none ∨ world.store key = some (.generation value))

variable {value : BitVec 64}

theorem Settled.current_eq (settled : Settled world key value) :
    fs.current world key = value := by
  obtain ⟨recorded, gone | stored⟩ := settled
  · simp [current, gone, recorded]
  · simp [current, stored]

variable {missing : List (Text × BitVec 64)}

theorem readGenerations_ok {keys : List Text} {values : List (BitVec 64)}
    (reads : fs.readGenerations world.generations (keys.zip (keys.map world.store)) = .ok (values, missing)) :
    values = keys.map (fs.current world) ∧
      (∀ key ∈ keys, world.store key = none ∨ ∃ value, world.store key = some (.generation value)) ∧
      ∀ entry ∈ missing, entry.1 ∈ keys ∧ entry.2 = fs.current world entry.1 := by
  induction keys generalizing values missing with
  | nil =>
    obtain ⟨rfl, rfl⟩ := Prod.mk.inj (Except.ok.inj reads)
    simp
  | cons key rest ih =>
    rw [map_cons, zip_cons_cons] at reads
    cases stored : world.store key with
    | none =>
      rw [stored, readGenerations] at reads
      cases later : fs.readGenerations world.generations (rest.zip (rest.map world.store)) with
      | error error => simp [later, bind, Except.bind] at reads
      | ok found =>
        obtain ⟨isValues, readable, isMissing⟩ := ih later
        simp only [later, bind, Except.bind, pure, Except.pure, Except.ok.injEq, Prod.mk.injEq] at reads
        obtain ⟨rfl, rfl⟩ := reads
        have isCurrent : fs.current world key = (world.generations key).getD fs.generationEpoch := by
          simp [current, stored]
        refine ⟨by simp [isValues, isCurrent], by simpa [stored] using readable, ?_⟩
        intro entry mem
        rcases mem_cons.mp mem with rfl | mem
        · exact ⟨mem_cons_self, isCurrent.symm⟩
        · exact ⟨mem_cons_of_mem _ (isMissing entry mem).1, (isMissing entry mem).2⟩
    | some value =>
      cases value with
      | envelope envelope => simp [stored, readGenerations] at reads
      | generation value =>
        rw [stored, readGenerations] at reads
        cases later : fs.readGenerations world.generations (rest.zip (rest.map world.store)) with
        | error error => simp [later, bind, Except.bind] at reads
        | ok found =>
          obtain ⟨isValues, readable, isMissing⟩ := ih later
          simp only [later, bind, Except.bind, pure, Except.pure, Except.ok.injEq, Prod.mk.injEq] at reads
          obtain ⟨rfl, rfl⟩ := reads
          have isCurrent : fs.current world key = value := by simp [current, stored]
          refine ⟨by simp [isValues, isCurrent], by simpa [stored] using readable, ?_⟩
          exact fun entry mem => ⟨mem_cons_of_mem _ (isMissing entry mem).1, (isMissing entry mem).2⟩

theorem recorded_foldl (keys : List Text) (value : Text → BitVec 64) (known : Text → Option (BitVec 64)) (key : Text) :
    (keys.zip (keys.map value)).foldl
        (fun (known : Text → Option (BitVec 64)) entry => Function.update known entry.1 (some entry.2)) known key =
      if key ∈ keys then some (value key) else known key := by
  induction keys generalizing known with
  | nil => simp
  | cons first rest ih =>
    rw [map_cons, zip_cons_cons, foldl_cons, ih]
    by_cases same : key = first
    · subst same
      simp
    · simp [same]

theorem cacheBatchGet_safe (keys : List Text) :
    Ensures (fs.Safe dirty bumps origin) (fs.cacheBatchGet keys) fun found world => fs.Safe dirty bumps origin world ∧
      ∀ provided, found = .ok provided → provided = keys.map world.store := by
  refine .ite (fun empty => .pure fun world safe => ⟨safe, ?_⟩) fun _ => ?_
  · rintro provided found
    simp [empty, Except.ok.inj found.symm]
  · refine .bind runtimeCall_safe fun fault => .bind .get fun now => .pure ?_
    rintro world ⟨rfl, safe⟩
    refine ⟨safe, fun provided found => ?_⟩
    split at found
    · cases found
    · exact (Except.ok.inj found).symm

theorem recordGenerations_safe (keys : List Text) {now : World σ} (safe : fs.Safe dirty bumps origin now)
    (readable : ∀ key ∈ keys, now.store key = none ∨ ∃ value, now.store key = some (.generation value)) :
    Ensures (fun world => now = world) (recordGenerations keys (keys.map (fs.current now)))
      fun _ world => fs.Safe dirty bumps origin world ∧ ∀ key ∈ keys, Settled world key (fs.current now key) := by
  rintro world rfl
  have recorded := recorded_foldl keys (fs.current now) now.generations
  constructor
  · have grows := safe.1.withGenerations (fun key => if key ∈ keys then some (fs.current now key) else now.generations key)
      le_rfl fun key => by
        split
        · exact .inr ⟨_, rfl, le_rfl, safe.1.current_bounded⟩
        · exact .inl rfl
    rw [← funext recorded] at grows
    exact ⟨grows.1, safe.2.trans grows.2⟩
  · intro key mem
    refine ⟨(recorded key).trans (if_pos mem), ?_⟩
    change now.store key = none ∨ now.store key = _
    rcases readable key mem with gone | ⟨value, stored⟩
    · exact .inl gone
    · exact .inr (by simp [current, stored])

theorem Settled.loses {calls : Nat}
    (settled : Settled world key value) (fewer : ∀ key, store key = none ∨ store key = world.store key) :
    Settled { world with store := store, calls := calls } key value := by
  refine ⟨settled.1, ?_⟩
  rcases fewer key with gone | same
  · exact .inl gone
  · simpa only [same] using settled.2

theorem Safe.putGeneration (safe : fs.Safe dirty bumps origin world)
    (recorded : world.generations key = some value) :
    fs.Safe dirty bumps origin ((setStored key (some (.generation value))).run world).2 := by
  obtain ⟨sound, follows⟩ := safe.1.withStore (Function.update world.store key (some (.generation value))) world.calls
    (fun other found stored => by
      by_cases same : other = key
      · subst same
        rw [update_self, Option.some.injEq, CacheValue.generation.injEq] at stored
        exact .inr (stored ▸ recorded)
      · exact .inl (by simpa [same] using stored))
    (fun other found stored => by
      by_cases same : other = key
      · simp [same] at stored
      · exact .inl (by simpa [same] using stored))
  exact ⟨sound, safe.2.trans follows⟩

theorem putMissingGenerations_safe {keys : List Text} {value : Text → BitVec 64}
    (known : ∀ entry ∈ missing, entry.1 ∈ keys ∧ entry.2 = value entry.1) :
    Ensures (fun world => fs.Safe dirty bumps origin world ∧ ∀ key ∈ keys, Settled world key (value key))
      (fs.putMissingGenerations missing)
      fun _ world => fs.Safe dirty bumps origin world ∧ ∀ key ∈ keys, Settled world key (value key) := by
  refine .forM fun entry mem => ?_
  obtain ⟨isKey, isValue⟩ := known entry mem
  refine .bind (runtimeCall_ensures ?_) fun fault => .ite (fun _ => ?_) fun _ => .pure fun _ held => held
  · rintro world store calls ⟨safe, settled⟩ fewer
    exact ⟨safe.loses fewer, fun key mem => (settled key mem).loses fewer⟩
  · rintro world ⟨safe, settled⟩
    rw [isValue]
    refine ⟨safe.putGeneration (settled _ isKey).1, fun key mem => ⟨(settled key mem).1, ?_⟩⟩
    rw [setStored_store]
    by_cases same : key = entry.1
    · exact .inr (by rw [same, update_self])
    · rw [update_of_ne same]
      exact (settled key mem).2

theorem currentGenerations_safe (keys : List Text) :
    Ensures (fs.Safe dirty bumps origin) (fs.currentGenerations keys) fun found world =>
      fs.Safe dirty bumps origin world ∧ ∀ values, found = .ok values →
        ∃ value : Text → BitVec 64, values = keys.map value ∧ ∀ key ∈ keys, Settled world key (value key) := by
  refine .bind (cacheBatchGet_safe keys) fun found => ?_
  cases found with
  | error error =>
    refine .pure fun world held => ⟨held.1, ?_⟩
    rintro values ⟨⟩
  | ok provided =>
    refine .getThen fun now held => ?_
    obtain rfl := held.2 provided rfl
    split
    case h_1 => exact .pure fun world isNow => ⟨isNow ▸ held.1, by rintro values ⟨⟩⟩
    case h_2 values missing reads =>
      obtain ⟨rfl, readable, isMissing⟩ := readGenerations_ok reads
      refine .seq (recordGenerations_safe keys held.1 readable) (.seq (putMissingGenerations_safe isMissing) (.pure ?_))
      rintro world ⟨later, settled⟩
      refine ⟨later, ?_⟩
      rintro values ⟨⟩
      exact ⟨_, rfl, settled⟩

variable (fs) in
structure Raised (key : Text) (value : BitVec 64) (world : World σ) : Prop where
  next : fs.age value < fs.age (value + 1)
  recorded : world.generations key = some (value + 1)
  old : ∀ place envelope, world.store place = some (.envelope envelope) →
    ∀ snapshot ∈ envelope.generations, snapshot.key = key → fs.age snapshot.value ≤ fs.age value

theorem Raised.fewer {later : World σ} (raised : fs.Raised key value world)
    (same : later.generations = world.generations)
    (stores : ∀ place envelope, later.store place = some (.envelope envelope) →
      world.store place = some (.envelope envelope)) : fs.Raised key value later where
  next := raised.next
  recorded := same ▸ raised.recorded
  old place envelope stored := raised.old place envelope (stores place envelope stored)

def below (path : Text) : Set CacheObject := {object | isSameOrDescendant object.2 path = true}

variable {path : Text}

theorem Safe.cleanBelow (safe : fs.Safe dirty bumps origin world)
    (useless : ∀ place envelope, world.store place = some (.envelope envelope) → Normalised envelope.path →
      isSameOrDescendant envelope.path path = true → ¬ world.Bypassed envelope.path → ¬ fs.IsCurrent world envelope) :
    fs.Safe (dirty \ below path) bumps origin world := by
  obtain ⟨sound, follows⟩ := safe
  refine ⟨⟨fun key envelope stored => ?_, sound.fallback, sound.bounded⟩, follows⟩
  obtain ⟨isKey, faithful⟩ := sound.placed key envelope stored
  refine ⟨isKey, faithful.cleaned fun isDirty notClean => useless key envelope stored faithful.normalised ?_⟩
  by_contra outside
  exact notClean ⟨isDirty, outside⟩

theorem Safe.recordNext (safe : fs.Safe dirty bumps origin world)
    (room : bumps + 1 < 2 ^ 64) (settled : Settled world key value) :
    fs.Safe dirty (bumps + 1) origin ((recordGenerations [key] [value + 1]).run world).2 ∧
      fs.Raised key value ((recordGenerations [key] [value + 1]).run world).2 := by
  have isCurrent : fs.current world key = value := settled.current_eq
  have within : fs.age (fs.current world key) ≤ bumps := safe.1.current_bounded
  rw [isCurrent] at within
  have next : fs.age (value + 1) = fs.age value + 1 := age_next (by omega)
  constructor
  · obtain ⟨sound, follows⟩ := safe.1.withGenerations (Function.update world.generations key (some (value + 1)))
      (Nat.le_succ bumps) fun other => by
        by_cases same : other = key
        · subst same
          exact .inr ⟨value + 1, by simp, by rw [isCurrent]; omega, by omega⟩
        · exact .inl (by simp [same])
    exact ⟨sound, safe.2.trans follows⟩
  · refine ⟨by omega, update_self .., fun place envelope stored snapshot mem isKey => ?_⟩
    have past := (safe.1.placed place envelope stored).2.past snapshot mem
    rwa [isKey, isCurrent] at past

theorem putNext_safe (normalised : Normalised path) :
    Ensures (fun world => fs.Safe dirty bumps origin world ∧ fs.Raised (fs.generationKey path) value world)
      (fs.cachePut (fs.generationKey path) (.generation (value + 1)) path)
      fun _ => fs.Safe (dirty \ below path) bumps origin := by
  refine (written_ensures (runtimeCall_ensures ?_) ?_ ?_ false true).weaken (fun _ held => held) ?_
  · rintro world store calls ⟨safe, raised⟩ fewer
    refine ⟨safe.loses fewer, raised.fewer rfl fun place envelope stored => ?_⟩
    rcases fewer place with gone | same
    · cases gone.symm.trans stored
    · exact same.symm.trans stored
  · rintro world ⟨safe, raised⟩
    refine ⟨safe.putGeneration raised.recorded, raised.fewer rfl fun place envelope stored => ?_⟩
    by_cases same : place = fs.generationKey path
    · simp [same] at stored
    · simpa [same] using stored
  · rintro world ⟨safe, raised⟩
    exact ⟨safe.bypass path, raised.fewer (by simp) (by simp)⟩
  · rintro _ world ⟨⟨safe, raised⟩, done⟩
    refine safe.cleanBelow fun place envelope stored isNormalised covered free isCurrent => ?_
    rcases done with holds | bypassed
    · obtain ⟨snapshot, mem, isKey⟩ := (safe.1.placed place envelope stored).2.covered path
        (mem_ancestorScopes isNormalised normalised covered)
      have old := raised.old place envelope stored snapshot mem isKey
      have new : fs.current world (fs.generationKey path) = value + 1 := by
        simp [current, holds]
      rw [← isCurrent snapshot mem, isKey, new] at old
      exact absurd raised.next (by omega)
    · exact free (bypassed _ isNormalised (normalised.symm ▸ covered))

theorem bumpGeneration_safe (normalised : Normalised path) (room : bumps + 1 < 2 ^ 64) :
    Ensures (fs.Safe dirty bumps origin) (fs.bumpGeneration path)
      fun _ => fs.Safe (dirty \ below path) (bumps + 1) origin := by
  refine .bind (currentGenerations_safe [fs.generationKey path]) fun found => ?_
  cases found with
  | error error =>
    rintro world ⟨safe, -⟩
    have bypassed := safe.bypass path
    refine Safe.cleanBelow ⟨bypassed.1.mono (fun _ mem => mem) (Nat.le_succ bumps), bypassed.2⟩ ?_
    intro place envelope _ isNormalised covered free
    exact absurd (bypassed_markBypass path world isNormalised (normalised.symm ▸ covered)) free
  | ok values =>
    rintro world ⟨safe, read⟩
    obtain ⟨value, rfl, settled⟩ := read values rfl
    have raised := safe.recordNext room (settled _ (mem_singleton_self _))
    exact putNext_safe normalised _ raised

end CachedFileSystem

end LoginomDock.CacheFs
