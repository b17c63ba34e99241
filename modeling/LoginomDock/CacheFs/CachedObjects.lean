import LoginomDock.CacheFs.Generations

namespace LoginomDock.CacheFs

open List

namespace CachedFileSystem

variable {σ ε : Type} {fs : CachedFileSystem σ ε} {dirty : Set CacheObject} {bumps : Nat} {origin world : World σ}

theorem Safe.after {middle : World σ} (safe : fs.Safe dirty bumps middle world) (follows : fs.Later origin middle) :
    fs.Safe dirty bumps origin world :=
  ⟨safe.1, follows.trans safe.2⟩

theorem Safe.fresh (safe : fs.Safe dirty bumps origin world) : fs.Safe dirty bumps world world :=
  ⟨safe.1, .refl world⟩

theorem cacheDelete_keeps (key path : Text) :
    Ensures (fs.Safe dirty bumps origin) (fs.cacheDelete key path) fun _ => fs.Safe dirty bumps origin :=
  (written_ensures runtimeCall_safe (fun _ => Safe.erase _) (fun _ => Safe.bypass path) () ()).weaken
    (fun _ safe => safe) fun _ _ held => held.1

theorem isRuntimeBypassed_ensures {holds : World σ → Prop} (path : Text) :
    Ensures holds (isRuntimeBypassed path) fun found world =>
      holds world ∧ (found = true ↔ world.Bypassed (normalizePath path)) := by
  refine .getThen fun now held => .pure ?_
  rintro _ rfl
  exact ⟨held, by simp [World.Bypassed]⟩

theorem generationsMatch_safe (envelope : CacheEnvelope) :
    Ensures (fs.Safe dirty bumps origin) (fs.generationsMatch envelope) fun found world =>
      fs.Safe dirty bumps origin world ∧ (found = .ok true → fs.IsCurrent world envelope) := by
  refine .bind (currentGenerations_safe _) fun found => ?_
  cases found with
  | error error => exact .pure fun world held => ⟨held.1, by rintro ⟨⟩⟩
  | ok values =>
    refine .pure ?_
    rintro world ⟨safe, read⟩
    obtain ⟨value, rfl, settled⟩ := read values rfl
    refine ⟨safe, fun isMatch snapshot mem => ?_⟩
    rw [(settled _ (mem_map_of_mem mem)).current_eq]
    have all := all_eq_true.mp (Except.ok.inj isMatch) (snapshot, value snapshot.key) ?_
    · simpa using all
    · rw [map_map, ← map_prod_left_eq_zip]
      exact mem_map.mpr ⟨snapshot, mem, rfl⟩

-- Whatever passes the checks is what the backend would answer.
theorem probe_safe (kind : CacheObjectKind) (key : Text) {path : Text} :
    Ensures (fun world => fs.Safe ∅ bumps origin world ∧ ¬ world.Bypassed path) (fs.probe kind key path)
      fun found world => fs.Safe ∅ bumps origin world ∧
        ∀ envelope, found = some envelope →
          envelope.payload.kind = kind ∧ fs.Answers origin.backend path envelope.payload := by
  have deletes : Ensures (fs.Safe ∅ bumps origin) (do fs.cacheDelete key path; pure none : CacheM σ (Option CacheEnvelope))
      fun found world => fs.Safe ∅ bumps origin world ∧
        ∀ envelope, found = some envelope →
          envelope.payload.kind = kind ∧ fs.Answers origin.backend path envelope.payload :=
    .seq (cacheDelete_keeps key path) (.pure fun world safe => ⟨safe, by rintro _ ⟨⟩⟩)
  have bypasses : Ensures (fs.Safe ∅ bumps origin) (do markBypass path; pure none : CacheM σ (Option CacheEnvelope))
      fun found world => fs.Safe ∅ bumps origin world ∧
        ∀ envelope, found = some envelope →
          envelope.payload.kind = kind ∧ fs.Answers origin.backend path envelope.payload :=
    .seq (markBypass_safe path) (.pure fun world safe => ⟨safe, by rintro _ ⟨⟩⟩)
  refine .bind (cacheGet_ensures (runtimeCall_ensures ?_) key) fun found => ?_
  · rintro world store calls ⟨safe, free⟩ fewer
    exact ⟨safe.loses fewer, free⟩
  match found with
  | .error _ => exact bypasses.weaken (fun _ held => held.1.1) fun _ _ held => held
  | .ok none => exact .pure fun world held => ⟨held.1.1, by rintro _ ⟨⟩⟩
  | .ok (some value) =>
    dsimp only
    split
    case h_1 => exact deletes.weaken (fun _ held => held.1.1) fun _ _ held => held
    case h_2 envelope decoded =>
      refine .ite (fun _ => deletes.weaken (fun _ held => held.1.1) fun _ _ held => held) fun isFor => ?_
      refine .fix fun now held => ?_
      obtain ⟨⟨safe, free⟩, found⟩ := held
      have stored : now.store key = some (.envelope envelope) := by
        rw [found value rfl]
        cases value with
        | generation value => cases decoded
        | envelope stored =>
          rw [CacheEnvelope.decode] at decoded
          split at decoded
          · rw [Except.ok.inj decoded]
          · cases decoded
      have faithful := (safe.1.placed key envelope stored).2
      simp only [CacheEnvelope.isFor, Bool.and_eq_false_iff, decide_eq_false_iff_not, not_or, not_not] at isFor
      obtain ⟨isKind, isPath⟩ := isFor
      -- the generations are compared after the object was read, and they only grow
      have compared : Ensures (fun state => now = state) (fs.generationsMatch envelope) fun found world =>
          fs.Safe ∅ bumps now world ∧ (found = .ok true → fs.IsCurrent world envelope) := by
        rintro _ rfl
        exact generationsMatch_safe envelope now safe.fresh
      refine .bind compared fun result => ?_
      match result with
      | .ok true =>
        refine .pure ?_
        rintro world ⟨later, isCurrent⟩
        refine ⟨later.after safe.2, ?_⟩
        rintro _ ⟨⟩
        refine ⟨faithful.kind.trans isKind, ?_⟩
        have answers := faithful.answers (isPath ▸ free) (fun mem => mem)
          (faithful.current_before later.2 (isCurrent rfl))
        rwa [isPath, safe.2.backend] at answers
      | .ok false => exact deletes.weaken (fun _ held => held.1.after safe.2) fun _ _ held => held
      | .error _ => exact bypasses.weaken (fun _ held => held.1.after safe.2) fun _ _ held => held

theorem generationSnapshots_safe (path : Text) :
    Ensures (fs.Safe dirty bumps origin) (fs.generationSnapshots path) fun found world =>
      fs.Safe dirty bumps origin world ∧ ∀ generations, found = .ok generations →
        (∀ scope ∈ ancestorScopes path, ∃ snapshot ∈ generations, snapshot.key = fs.generationKey scope) ∧
          ∀ snapshot ∈ generations, fs.current world snapshot.key = snapshot.value := by
  refine .bind (currentGenerations_safe _) fun found => ?_
  cases found with
  | error error => exact .pure fun world held => ⟨held.1, by rintro _ ⟨⟩⟩
  | ok values =>
    refine .pure ?_
    rintro world ⟨safe, read⟩
    obtain ⟨value, rfl, settled⟩ := read values rfl
    refine ⟨safe, ?_⟩
    rintro _ ⟨⟩
    rw [zipWith_map_right, zipWith_self]
    constructor
    · intro scope mem
      exact ⟨_, mem_map_of_mem (mem_map_of_mem mem), rfl⟩
    · intro snapshot mem
      obtain ⟨key, isKey, rfl⟩ := mem_map.mp mem
      exact (settled key isKey).current_eq

theorem Safe.putEnvelope {envelope : CacheEnvelope} (safe : fs.Safe dirty bumps origin world)
    (faithful : fs.Faithful dirty world envelope) :
    fs.Safe dirty bumps world
      ((setStored (fs.keyOf envelope.kind envelope.path) (some (.envelope envelope))).run world).2 := by
  refine safe.1.withStore _ world.calls (fun other found stored => ?_) fun other found stored => ?_
  · by_cases same : other = fs.keyOf envelope.kind envelope.path
    · simp [same] at stored
    · exact .inl (by simpa [same] using stored)
  · by_cases same : other = fs.keyOf envelope.kind envelope.path
    · subst same
      rw [Function.update_self, Option.some.injEq, CacheValue.envelope.injEq] at stored
      subst stored
      exact .inr ⟨rfl, faithful⟩
    · exact .inl (by simpa [same] using stored)

theorem putEnvelope_safe (envelope : CacheEnvelope) (path : Text) :
    Ensures (fun world => fs.Safe dirty bumps origin world ∧ fs.Faithful dirty world envelope)
      (fs.cachePut (fs.keyOf envelope.kind envelope.path) (.envelope envelope) path)
      fun _ => fs.Safe dirty bumps origin := by
  have carries : ∀ {world later : World σ}, fs.Safe dirty bumps origin world ∧ fs.Faithful dirty world envelope →
      fs.Safe dirty bumps world later → fs.Safe dirty bumps origin later ∧ fs.Faithful dirty later envelope :=
    fun held next => ⟨next.after held.1.2, held.2.later next.2⟩
  refine (written_ensures (runtimeCall_ensures ?_) ?_ ?_ false true).weaken (fun _ held => held) fun _ _ held => held.1.1
  · exact fun world store calls held fewer => carries held (held.1.fresh.loses fewer)
  · exact fun world held => carries held (held.1.putEnvelope held.2)
  · exact fun world held => carries held (held.1.fresh.bypass path)

theorem fillFile_safe {path : Text} {data : FileData} (normalised : Normalised path)
    (answers : fs.backend.read path 0 0 origin.backend = .ok data) :
    Ensures (fs.Safe dirty bumps origin) (fs.fillFile (fs.fileKey path) path data) fun _ => fs.Safe dirty bumps origin := by
  refine .ite (fun _ => ?_) fun _ => .pure fun _ safe => safe
  refine .bind (generationSnapshots_safe path) fun found => ?_
  cases found with
  | error error => exact .pure fun _ held => held.1
  | ok generations =>
    refine .bind ((putEnvelope_safe (CacheEnvelope.file path data generations) path).weaken ?_ fun _ _ safe => safe)
      fun _ => .pure fun _ safe => safe
    rintro world ⟨safe, read⟩
    obtain ⟨covered, isCurrent⟩ := read generations rfl
    refine ⟨safe, normalised, rfl, covered, fun snapshot mem => (congrArg fs.age (isCurrent snapshot mem)).ge, ?_⟩
    intro _ _ _
    change fs.backend.read path 0 0 world.backend = .ok data
    rwa [safe.2.backend]

theorem fillDirectory_safe {path : Text} {entries : List FileInfo} (normalised : Normalised path)
    (answers : fs.backend.readDir path origin.backend = .ok entries) :
    Ensures (fs.Safe dirty bumps origin) (fs.fillDirectory (fs.directoryKey path) path entries)
      fun _ => fs.Safe dirty bumps origin := by
  refine .ite (fun _ => ?_) fun _ => .pure fun _ safe => safe
  refine .bind (generationSnapshots_safe path) fun found => ?_
  cases found with
  | error error => exact .pure fun _ held => held.1
  | ok generations =>
    dsimp only
    split
    case h_1 => exact .pure fun _ held => held.1
    case h_2 envelope made =>
      obtain ⟨stored, serialised, rfl⟩ := Option.map_eq_some_iff.mp made
      refine .bind ((putEnvelope_safe ⟨_, .directory, path, generations, .directory stored⟩ path).weaken ?_
        fun _ _ safe => safe) fun _ => .pure fun _ safe => safe
      rintro world ⟨safe, read⟩
      obtain ⟨covered, isCurrent⟩ := read generations rfl
      refine ⟨safe, normalised, rfl, covered, fun snapshot mem => (congrArg fs.age (isCurrent snapshot mem)).ge, ?_⟩
      intro _ _ _
      exact ⟨entries, by rwa [safe.2.backend], serialised⟩

end CachedFileSystem

end LoginomDock.CacheFs
