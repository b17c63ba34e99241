import LoginomDock.CacheFs.Invalidation
import LoginomDock.Library.Runs

/-! Every call of a run through the wrapper gets the reply that the backend alone would give, as long as each change
shows only where the wrapper drops it and a listing does not lose its times in the cache. -/

namespace LoginomDock.CacheFs

open List

inductive Call where
  | change (mutation : Mutation)
  | read (path : Text) (offset size : Nat)
  | readDir (path : Text)
  deriving DecidableEq

inductive Reply (ε : Type) where
  | changed (result : Except ε Nat)
  | data (result : Except ε FileData)
  | entries (result : Except ε (List FileInfo))

def Call.bumps : Call → Nat
  | .change mutation => mutation.bumps
  | _ => 0

namespace FileSystem

variable {σ ε : Type} (backend : FileSystem σ ε)

def serve : Call → σ → Reply ε × σ
  | .change mutation, state => ((.changed (backend.change mutation state).1), (backend.change mutation state).2)
  | .read path offset size, state => (.data (backend.read path offset size state), state)
  | .readDir path, state => (.entries (backend.readDir path state), state)

def after (state : σ) (calls : List Call) : σ := calls.foldl (fun state call => (backend.serve call state).2) state

end FileSystem

theorem serialize_restores {info : FileInfo} {stored : StoredInfo} (serialised : info.serialize = some stored) :
    0 ≤ info.modTime ∧ (10 ^ 9 ∣ info.modTime → stored.deserialize = info) := by
  rw [FileInfo.serialize] at serialised
  split at serialised
  · cases serialised
  · case isFalse notBefore =>
    obtain rfl := Option.some.inj serialised
    refine ⟨by omega, fun whole => ?_⟩
    simp only [StoredInfo.deserialize]
    congr 1
    omega

theorem listing_restores {entries : List FileInfo} {stored : List StoredInfo}
    (serialised : entries.mapM FileInfo.serialize = some stored) :
    (∀ info ∈ entries, 0 ≤ info.modTime) ∧ stored.length = entries.length ∧
      ((∀ info ∈ entries, 10 ^ 9 ∣ info.modTime) → stored.map StoredInfo.deserialize = entries) := by
  induction entries generalizing stored with
  | nil =>
    obtain rfl := Option.some.inj serialised
    simp
  | cons info rest ih =>
    rw [mapM_cons] at serialised
    obtain ⟨first, isFirst, serialised⟩ := Option.bind_eq_some_iff.mp serialised
    obtain ⟨others, areOthers, serialised⟩ := Option.bind_eq_some_iff.mp serialised
    obtain rfl := Option.some.inj serialised
    obtain ⟨notBefore, restores⟩ := serialize_restores isFirst
    obtain ⟨laterNotBefore, sameLength, laterRestores⟩ := ih areOthers
    refine ⟨?_, by simp [sameLength], fun whole => ?_⟩
    · simpa using ⟨notBefore, laterNotBefore⟩
    · rw [forall_mem_cons] at whole
      rw [map_cons, restores whole.1, laterRestores whole.2]

namespace CachedFileSystem

variable {σ ε : Type} (fs : CachedFileSystem σ ε)

def KeepsTimes (path : Text) (state : σ) : Prop :=
  ∀ entries, fs.backend.readDir path state = .ok entries → fs.policy.cacheDirectoryEntries path entries.length = true →
    (∀ info ∈ entries, 0 ≤ info.modTime) → ∀ info ∈ entries, 10 ^ 9 ∣ info.modTime

def Meets : Call → σ → Prop
  | .change mutation, state => fs.backend.Contained mutation state
  | .read path _ _, _ => Normalised path
  | .readDir path, state => Normalised path ∧ fs.KeepsTimes path state

def serve : Call → CacheM σ (Reply ε)
  | .change mutation => Reply.changed <$> fs.perform mutation
  | .read path offset size => Reply.data <$> fs.read path offset size
  | .readDir path => Reply.entries <$> fs.readDir path

def after (world : World σ) (calls : List Call) : World σ :=
  calls.foldl (fun world call => ((fs.serve call).run world).2) world

end CachedFileSystem

-- The wrapper and its runtime before the first call.
def World.start {σ : Type} (state : σ) : World σ := ⟨state, fun _ => none, 0, [], fun _ => none⟩

namespace CachedFileSystem

variable {σ ε : Type} {fs : CachedFileSystem σ ε} {bumps : Nat} {state : σ} {path : Text}

theorem backendRead_ensures (offset size : Nat) :
    Ensures (fs.SoundOver bumps state) (fs.backendRead path offset size) fun result world =>
      result = fs.backend.read path offset size state ∧ fs.SoundOver bumps state world := by
  refine .getThen fun now held => .pure ?_
  rintro _ rfl
  exact ⟨by rw [held.2], held⟩

theorem backendReadDir_ensures :
    Ensures (fs.SoundOver bumps state) (fs.backendReadDir path) fun result world =>
      result = fs.backend.readDir path state ∧ fs.SoundOver bumps state world := by
  refine .getThen fun now held => .pure ?_
  rintro _ rfl
  exact ⟨by rw [held.2], held⟩

theorem Safe.over {origin world : World σ} (safe : fs.Safe ∅ bumps origin world) (isState : origin.backend = state) :
    fs.SoundOver bumps state world :=
  ⟨safe.1, safe.2.backend.trans isState⟩

theorem SoundOver.safe {world : World σ} (sound : fs.SoundOver bumps state world) : fs.Safe ∅ bumps world world :=
  ⟨sound.1, .refl world⟩

theorem probed_ensures (kind : CacheObjectKind) (key : Text) {now : World σ} (held : fs.SoundOver bumps state now ∧ ¬ now.Bypassed path) :
    Ensures (fun world => now = world) (fs.probe kind key path) fun found world => fs.Safe ∅ bumps now world ∧
      ∀ envelope, found = some envelope → envelope.payload.kind = kind ∧ fs.Answers now.backend path envelope.payload := by
  rintro _ rfl
  exact probe_safe kind key now ⟨held.1.safe, held.2⟩

theorem probeFile_ensures (bumps : Nat) (state : σ) (key : Text) :
    Ensures (fun world => fs.SoundOver bumps state world ∧ ¬ world.Bypassed path) (fs.probeFile key path)
      fun found world => fs.SoundOver bumps state world ∧
        ∀ data, found = some data → fs.backend.read path 0 0 state = .ok data := by
  refine .fix fun now held => ?_
  have isState := held.1.2
  refine .bind (probed_ensures .file key held) fun found => ?_
  cases found with
  | none => exact .pure fun world held => ⟨held.1.over isState, by rintro _ ⟨⟩⟩
  | some envelope =>
    dsimp only
    split
    case h_1 data isData =>
      refine .pure ?_
      rintro world ⟨safe, answers⟩
      refine ⟨safe.over isState, ?_⟩
      rintro _ ⟨⟩
      have answer := (answers envelope rfl).2
      rw [CacheEnvelope.intoFile] at isData
      split at isData
      case h_1 payload =>
        rw [payload, isState] at answer
        rw [← Except.ok.inj isData]
        exact answer
      case h_2 => cases isData
    case h_2 =>
      exact .seq ((cacheDelete_keeps key path).weaken (fun _ held => held.1) fun _ _ safe => safe)
        (.pure fun world safe => ⟨safe.over isState, by rintro _ ⟨⟩⟩)

theorem probeDirectory_ensures (bumps : Nat) (key : Text) (keeps : fs.KeepsTimes path state) :
    Ensures (fun world => fs.SoundOver bumps state world ∧ ¬ world.Bypassed path) (fs.probeDirectory key path)
      fun found world => fs.SoundOver bumps state world ∧
        ∀ entries, found = some entries → fs.backend.readDir path state = .ok entries := by
  refine .fix fun now held => ?_
  have isState := held.1.2
  refine .bind (probed_ensures .directory key held) fun found => ?_
  cases found with
  | none => exact .pure fun world held => ⟨held.1.over isState, by rintro _ ⟨⟩⟩
  | some envelope =>
    dsimp only
    have deletes : Ensures (fun world => fs.Safe ∅ bumps now world ∧ ∀ found, some envelope = some found →
        found.payload.kind = .directory ∧ fs.Answers now.backend path found.payload)
        (do fs.cacheDelete key path; pure none : CacheM σ (Option (List FileInfo))) fun found world =>
        fs.SoundOver bumps state world ∧ ∀ entries, found = some entries → fs.backend.readDir path state = .ok entries :=
      .seq ((cacheDelete_keeps key path).weaken (fun _ held => held.1) fun _ _ safe => safe)
        (.pure fun world safe => ⟨safe.over isState, by rintro _ ⟨⟩⟩)
    split
    case h_1 listing isListing =>
      refine .ite (fun small => .pure ?_) fun _ => deletes
      rintro world ⟨safe, answers⟩
      refine ⟨safe.over isState, ?_⟩
      rintro _ ⟨⟩
      have answer := (answers envelope rfl).2
      rw [CacheEnvelope.intoDirectory] at isListing
      split at isListing
      case h_1 stored payload =>
        obtain rfl := Except.ok.inj isListing
        rw [payload, isState] at answer
        obtain ⟨entries, isEntries, serialised⟩ := answer
        obtain ⟨notBefore, sameLength, restores⟩ := listing_restores serialised
        rw [length_map, sameLength] at small
        rw [restores (keeps entries isEntries small notBefore), isEntries]
      case h_2 => cases isListing
    case h_2 => exact deletes

theorem read_ensures (offset size : Nat) (normalised : Normalised path) :
    Ensures (fs.SoundOver bumps state) (fs.read path offset size) fun result world =>
      result = fs.backend.read path offset size state ∧ fs.SoundOver bumps state world := by
  refine .ite (fun _ => backendRead_ensures offset size) fun whole => ?_
  have isWhole : offset = 0 ∧ size = 0 := by
    simp only [not_or, not_not] at whole
    exact ⟨whole.1, whole.2.1⟩
  obtain ⟨rfl, rfl⟩ := isWhole
  refine .bind (isRuntimeBypassed_ensures path) fun bypassed => .ite (fun _ => ?_) fun free => ?_
  · exact (backendRead_ensures 0 0).weaken (fun _ held => held.1) fun _ _ held => held
  simp only [normalizePath_of normalised]
  refine .bind ((probeFile_ensures bumps state (fs.fileKey path)).weaken ?_ fun _ _ held => held) fun found => ?_
  · rintro world ⟨sound, isBypassed⟩
    exact ⟨sound, fun isByp => free (isBypassed.mpr isByp)⟩
  cases found with
  | some data => exact .pure fun world held => ⟨(held.2 data rfl).symm, held.1⟩
  | none =>
    refine .bind ((backendRead_ensures 0 0).weaken (fun _ held => held.1) fun _ _ held => held) fun result => ?_
    cases result with
    | error error => exact .pure fun world held => held
    | ok data =>
      refine .fix fun now held => ?_
      obtain ⟨isAnswer, sound⟩ := held
      have filled : Ensures (fun world => now = world) (fs.fillFile (fs.fileKey path) path data)
          fun _ => fs.SoundOver bumps state := by
        rintro _ rfl
        exact (fillFile_safe normalised (by rw [sound.2, isAnswer]) now sound.safe).over sound.2
      exact .seq filled (.pure fun world later => ⟨isAnswer, later⟩)

theorem readDir_ensures (normalised : Normalised path) (keeps : fs.KeepsTimes path state) :
    Ensures (fs.SoundOver bumps state) (fs.readDir path) fun result world =>
      result = fs.backend.readDir path state ∧ fs.SoundOver bumps state world := by
  refine .ite (fun _ => backendReadDir_ensures) fun _ => ?_
  refine .bind (isRuntimeBypassed_ensures path) fun bypassed => .ite (fun _ => ?_) fun free => ?_
  · exact backendReadDir_ensures.weaken (fun _ held => held.1) fun _ _ held => held
  simp only [normalizePath_of normalised]
  refine .bind ((probeDirectory_ensures bumps (fs.directoryKey path) keeps).weaken ?_ fun _ _ held => held) fun found => ?_
  · rintro world ⟨sound, isBypassed⟩
    exact ⟨sound, fun isByp => free (isBypassed.mpr isByp)⟩
  cases found with
  | some entries => exact .pure fun world held => ⟨(held.2 entries rfl).symm, held.1⟩
  | none =>
    refine .bind (backendReadDir_ensures.weaken (fun _ held => held.1) fun _ _ held => held) fun result => ?_
    cases result with
    | error error => exact .pure fun world held => held
    | ok entries =>
      refine .fix fun now held => ?_
      obtain ⟨isAnswer, sound⟩ := held
      have filled : Ensures (fun world => now = world) (fs.fillDirectory (fs.directoryKey path) path entries)
          fun _ => fs.SoundOver bumps state := by
        rintro _ rfl
        exact (fillDirectory_safe normalised (by rw [sound.2, isAnswer]) now sound.safe).over sound.2
      exact .seq filled (.pure fun world later => ⟨isAnswer, later⟩)

theorem serve_sound (call : Call) (room : bumps + call.bumps < 2 ^ 64) (meets : fs.Meets call state) :
    Ensures (fs.SoundOver bumps state) (fs.serve call) fun reply world =>
      reply = (fs.backend.serve call state).1 ∧ fs.SoundOver (bumps + call.bumps) (fs.backend.serve call state).2 world := by
  cases call with
  | change mutation =>
    intro world sound
    obtain ⟨isResult, later⟩ := perform_carries meets bumps room world sound
    exact ⟨congrArg Reply.changed isResult, later⟩
  | read path offset size =>
    intro world sound
    obtain ⟨isResult, later⟩ := read_ensures offset size meets world sound
    exact ⟨congrArg Reply.data isResult, later⟩
  | readDir path =>
    intro world sound
    obtain ⟨isResult, later⟩ := readDir_ensures meets.1 meets.2 world sound
    exact ⟨congrArg Reply.entries isResult, later⟩

theorem sound_start (state : σ) : fs.SoundOver 0 state (World.start state) := by
  refine ⟨⟨?_, ?_, ?_⟩, rfl⟩
  · rintro key envelope ⟨⟩
  · rintro key value ⟨⟩
  · rintro key known ⟨⟩

theorem run_transparent (calls : List Call) {world : World σ} (sound : fs.SoundOver bumps state world)
    (room : bumps + (calls.map Call.bumps).sum < 2 ^ 64)
    (meets : AtEach calls fun before call => fs.Meets call (fs.backend.after state before)) :
    AtEach calls fun before call => ((fs.serve call).run (fs.after world before)).1 =
      (fs.backend.serve call (fs.backend.after state before)).1 := by
  induction calls generalizing bumps state world with
  | nil => simp
  | cons call rest ih =>
    rw [map_cons, sum_cons] at room
    obtain ⟨here, later⟩ := (atEach_cons call rest _).mp meets
    obtain ⟨isReply, next⟩ := serve_sound call (by omega) here world sound
    exact (atEach_cons call rest _).mpr ⟨isReply, ih next (by omega) later⟩

/-- Through the wrapper each call of a run gets the reply that the backend alone would give to it. -/
theorem cached_run_transparent (fs : CachedFileSystem σ ε) (state : σ) (calls : List Call)
    (few : (calls.map Call.bumps).sum < 2 ^ 64)
    (meets : AtEach calls fun before call => fs.Meets call (fs.backend.after state before)) :
    AtEach calls fun before call => ((fs.serve call).run (fs.after (World.start state) before)).1 =
      (fs.backend.serve call (fs.backend.after state before)).1 :=
  run_transparent calls (sound_start state) (by omega) meets

def oneFile (modTime : Int) : FileSystem FileData Unit where
  change
    | .write ['/', 'a'] data 0 .truncate, _ => (.ok data.length, data)
    | _, state => (.error (), state)
  read path offset size state :=
    if path = ['/', 'a'] then .ok ((state.drop offset).take (if size = 0 then state.length else size)) else .error ()
  readDir path state :=
    if path = ['/'] then .ok [⟨['a'], state.length, 0o644, modTime, false⟩] else .error ()

def cachedOneFile (modTime : Int) : CachedFileSystem FileData Unit where
  backend := oneFile modTime
  faults _ := {}
  cacheNamespace := ['n']
  policy := {}
  generationEpoch := 7

theorem rewritten_file_is_read :
    AtEach [.read ['/', 'a'] 0 0, .change (.write ['/', 'a'] [1, 2] 0 .truncate), .readDir ['/'], .read ['/', 'a'] 0 0]
      fun before call => (((cachedOneFile 5000000000).serve call).run ((cachedOneFile 5000000000).after (World.start [9]) before)).1 =
        ((oneFile 5000000000).serve call ((oneFile 5000000000).after [9] before)).1 := by
  refine cached_run_transparent (cachedOneFile 5000000000) [9] _ (by decide) ?_
  have keeps : (cachedOneFile 5000000000).KeepsTimes ['/'] [1, 2] := by
    intro entries isEntries _ _ info mem
    obtain rfl := Except.ok.inj isEntries.symm
    obtain rfl := mem_singleton.mp mem
    decide
  have contained : (oneFile 5000000000).Contained (.write ['/', 'a'] [1, 2] 0 .truncate) [9] := by
    refine ⟨forall_mem_singleton.mpr (by decide), ?_, ?_⟩
    · rintro ⟨kind, path⟩ _ outside
      cases kind with
      | file =>
        have other : path ≠ ['/', 'a'] := fun isFile => outside (.inl (by rw [isFile]))
        simp [FileSystem.SameAnswer, oneFile, other]
      | directory =>
        have listing : listingOf ['/', 'a'] = (.directory, ['/']) := by decide
        have other : path ≠ ['/'] := fun isRoot => outside (.inr (by rw [isRoot, ← listing]; rfl))
        simp [FileSystem.SameAnswer, oneFile, other]
    · rintro path data flags done ⟨⟩ _ _
      rfl
  have normalised : Normalised ['/', 'a'] := by decide
  simp only [atEach_cons, atEach_nil, and_true]
  exact ⟨normalised, contained, ⟨by decide, keeps⟩, normalised⟩

theorem listing_time_cut :
    (∀ mutation state error, ((oneFile 1500000000).change mutation state).1 = .error error →
      ((oneFile 1500000000).change mutation state).2 = state) ∧
    ¬ AtEach [.readDir ['/'], .readDir ['/']]
      fun before call => (((cachedOneFile 1500000000).serve call).run ((cachedOneFile 1500000000).after (World.start []) before)).1 =
        ((oneFile 1500000000).serve call ((oneFile 1500000000).after [] before)).1 := by
  refine ⟨fun mutation state error => by simp only [oneFile]; split <;> simp, fun each => ?_⟩
  have second := each [.readDir ['/']] (.readDir ['/']) [] rfl
  have cached : (((cachedOneFile 1500000000).serve (.readDir ['/'])).run
      ((cachedOneFile 1500000000).after (World.start []) [.readDir ['/']])).1 =
      .entries (.ok [⟨['a'], 0, 0o644, 1000000000, false⟩]) := by rfl
  have different := cached.symm.trans second
  simp [FileSystem.serve, oneFile] at different

end CachedFileSystem

end LoginomDock.CacheFs
