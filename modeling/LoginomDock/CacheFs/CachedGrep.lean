import LoginomDock.CacheFs.GrepAgreement
import LoginomDock.CacheFs.Transparency

namespace LoginomDock.CacheFs

open List GrepBackend CacheReader

section Agreement

variable {σ ε : Type} {reader : CacheReader σ ε} {backend : GrepBackend ε} {paths : Set Text} {holds : σ → Prop} {query : GrepQuery}
  {path : Text}

theorem plan_excluded (excluded : query.excluded path = true) : backend.plan query 1 path = some [] := if_pos excluded

theorem both_plan (coherent : reader.Coherent backend paths holds)
    (tree : ∀ info, backend.stat path = .ok info → DirectoryTree backend paths path)
    (comes : query.excluded path = true ∨ ∃ info, backend.stat path = .ok info) {state : σ} (held : holds state) :
    ∃ least events, backend.plan query least path = some events ∧ ∃ bound, ∀ fuel, bound ≤ fuel →
      backend.grepInternal query fuel path .new = some (plainly backend query events .new) ∧
      (reader.visitAll query fuel [{ path := path, isDir := none }] [] .new state).1 = some (inBatches backend query events [] .new) := by
  have going : ∃ least events, backend.plan query least path = some events ∧
      Follows reader backend query paths holds [{ path := path, isDir := none }] events := by
    cases excluded : query.excluded path with
    | true => exact ⟨1, [], plan_excluded excluded, follows_excluded coherent (follows_nil coherent) excluded⟩
    | false =>
      obtain ⟨info, found⟩ := comes.resolve_left (by rw [excluded]; nofun)
      obtain ⟨least, events, planned⟩ := @DirectoryTree.plan_exists ε backend query path paths (tree info found)
      have follows : Follows reader backend query paths holds [{ path := path, isDir := none }] (events ++ []) :=
        follows_plan coherent (follows_nil coherent) (tree info found) planned rfl fun info found => .inr ⟨rfl, info, found, rfl⟩
      rw [append_nil] at follows
      exact ⟨least, events, planned, follows⟩
  obtain ⟨least, events, planned, follows⟩ := going
  obtain ⟨bound, reached⟩ := follows [] .new nofun
  refine ⟨least, events, planned, max least bound, fun fuel enough => ⟨?_, ?_⟩⟩
  · exact grepInternal_plan fuel (plan_mono (by omega) planned) .new
  · exact (reached fuel (by omega) state held).1

theorem plan_none (included : query.excluded path = false) {error : ε} (failed : backend.stat path = .error error) (fuel : Nat) :
    backend.plan query fuel path = none := by
  cases fuel with
  | zero => rfl
  | succ fuel => simp only [plan, included, failed, Bool.false_eq_true, if_false]

theorem both_fail (coherent : reader.Coherent backend paths holds) (known : path ∈ paths) (included : query.excluded path = false)
    {error : ε} (failed : backend.stat path = .error error) {state : σ} (held : holds state) (fuel : Nat) :
    ∃ answer, backend.grepInternal query (fuel + 1) path .new = some answer ∧
      (reader.visitAll query (fuel + 1) [{ path := path, isDir := none }] [] .new state).1 = some answer := by
  cases full : query.full .new with
  | true =>
    refine ⟨.ok .new, by rw [grepInternal, if_pos full], ?_⟩
    simp only [visitAll, full, if_true]
    have flushes : Ensures holds (reader.flushGrepFileBatch query [] .new) fun answer state =>
        answer = flushed backend query [] .new ∧ holds state := flush_ensures coherent (by simp) .new
    exact congrArg some ((flushes state held).1.trans (flushed_full full []))
  | false =>
    refine ⟨.error error, ?_, ?_⟩
    · simp only [grepInternal, full, included, failed, Bool.false_eq_true, if_false]
    · have stops : Ensures holds (reader.visitAll query (fuel + 1) [{ path := path, isDir := none }] [] .new) fun answer state =>
          answer = some (.error error) ∧ holds state := by
        simp only [visitAll, full, included, Bool.false_eq_true, if_false]
        refine .bind (show Ensures holds _ (fun answer state => answer = .error error ∧ holds state) from
          .bind (coherent.stat path known) fun answer => ensures_given fun answered => ?_)
          fun answer => ensures_given fun answered => ?_
        · rw [answered, failed]
          exact .pure fun state held => ⟨rfl, held⟩
        · rw [answered]
          exact .pure fun state held => ⟨rfl, held⟩
      exact (stops state held).1

theorem agree_on_plan (events : List (GrepEvent ε)) :
    inBatches backend query events [] .new = plainly backend query events .new ↔
      ¬ ∃ limit, query.nodeLimit = some limit ∧ Spoilt backend query limit 0 (batches events []) := by
  cases limited : query.nodeLimit with
  | none => exact iff_of_true (inBatches_all limited events [] .new) (by rintro ⟨limit, ⟨⟩, _⟩)
  | some limit =>
    by_cases some : 0 < limit
    · have differ : Spoilt backend query limit 0 (batches events []) ↔
          inBatches backend query events [] .new ≠ plainly backend query events .new := spoilt_iff limited events [] .new some
      constructor
      · rintro same ⟨limit, ⟨⟩, spoilt⟩
        exact differ.mp spoilt same
      · intro sound
        by_contra differs
        exact sound ⟨limit, rfl, differ.mpr differs⟩
    · have full : query.full .new = true := (full_iff limited).mpr (Nat.le_of_not_lt some)
      refine iff_of_true (by rw [inBatches_full full, plainly_full full]) ?_
      rintro ⟨limit, ⟨⟩, spoilt⟩
      exact some spoilt.below

end Agreement

section Requests

variable {σ ε : Type} {reader : CacheReader σ ε} {backend : GrepBackend ε} {paths : Set Text} {holds : σ → Prop}

/-- Both greps end, and they answer alike just when no batch of the plan is spoilt. -/
theorem cached_grep_agrees (coherent : reader.Coherent backend paths holds) (regex : RegexLib ε) (request : GrepRequest)
    (known : normalizePrefixPath request.path ∈ paths)
    (tree : ∀ info, backend.stat (normalizePrefixPath request.path) = .ok info →
      DirectoryTree backend paths (normalizePrefixPath request.path))
    {state : σ} (held : holds state) :
    ∃ bound, ∀ fuel, bound ≤ fuel → ∃ plain cached, backend.grep regex request fuel = some plain ∧
      (reader.grepViaCache regex request fuel state).1 = some cached ∧ (cached = plain ↔ ¬ Spoils backend regex request) := by
  cases compiled : regex.compileGrepRegex request.pattern request.caseInsensitive with
  | error error =>
    refine ⟨0, fun fuel _ => ⟨.error error, .error error, ?_, ?_, iff_of_true rfl ?_⟩⟩
    · rw [grep, compiled]
    · rw [grepViaCache, compiled]
      rfl
    · rintro ⟨limit, isMatch, _, _, _, other, _⟩
      cases compiled.symm.trans other
  | ok isMatch =>
    have plainIs : ∀ fuel, backend.grep regex request fuel =
        backend.grepInternal (request.query isMatch) fuel (normalizePrefixPath request.path) .new := by
      intro fuel
      rw [grep, compiled]
    have cachedIs : ∀ fuel, (reader.grepViaCache regex request fuel state).1 =
        (reader.visitAll (request.query isMatch) fuel [{ path := normalizePrefixPath request.path, isDir := none }] [] .new state).1 := by
      intro fuel
      rw [grepViaCache, compiled]
    by_cases comes : (request.query isMatch).excluded (normalizePrefixPath request.path) = true ∨
        ∃ info, backend.stat (normalizePrefixPath request.path) = .ok info
    · obtain ⟨least, events, planned, bound, both⟩ := both_plan coherent tree comes held
      refine ⟨bound, fun fuel enough => ?_⟩
      obtain ⟨plain, cached⟩ := both fuel enough
      refine ⟨_, _, (plainIs fuel).trans plain, (cachedIs fuel).trans cached, (agree_on_plan events).trans (not_congr ?_)⟩
      constructor
      · rintro ⟨limit, limited, spoilt⟩
        exact ⟨limit, isMatch, least, events, limited, compiled, planned, spoilt⟩
      · rintro ⟨limit, other, fuel, others, limited, recompiled, replanned, spoilt⟩
        cases compiled.symm.trans recompiled
        cases plan_unique planned replanned
        exact ⟨limit, limited, spoilt⟩
    · obtain ⟨excluded, missing⟩ := not_or.mp comes
      have included : (request.query isMatch).excluded (normalizePrefixPath request.path) = false := Bool.eq_false_iff.mpr excluded
      cases found : backend.stat (normalizePrefixPath request.path) with
      | ok info => exact absurd ⟨info, found⟩ missing
      | error error =>
        refine ⟨1, fun fuel enough => ?_⟩
        obtain ⟨more, rfl⟩ := Nat.exists_eq_add_of_le' enough
        obtain ⟨answer, plain, cached⟩ := both_fail coherent known included found held more
        refine ⟨answer, answer, (plainIs _).trans plain, (cachedIs _).trans cached, iff_of_true rfl ?_⟩
        rintro ⟨_, other, fuel, events, _, recompiled, planned, _⟩
        cases compiled.symm.trans recompiled
        cases (plan_none included found fuel).symm.trans planned

end Requests

namespace CachedFileSystem

variable {σ ε : Type} (fs : CachedFileSystem σ ε) (stat : Text → σ → Except ε FileInfo)

def grepReader (order : Nat → List Nat) : CacheReader (World σ) ε where
  stat path := do return stat path (← get).backend
  readDirWithGenerationCache := fs.readDir
  readWithGenerationCache path := fs.read path 0 0
  completed count := return order count

def grepBackend (state : σ) : GrepBackend ε where
  stat path := stat path state
  readDir path := fs.backend.readDir path state
  read path := fs.backend.read path 0 0 state

theorem grepReader_coherent (bumps : Nat) (state : σ) {order : Nat → List Nat} (complete : ∀ count, (order count).Perm (List.range count)) :
    (fs.grepReader stat order).Coherent (fs.grepBackend stat state) { path | Normalised path ∧ fs.KeepsTimes path state }
      (fs.SoundOver bumps state) where
  stat path known := by
    refine .getThen fun now held => .pure ?_
    rintro _ rfl
    exact ⟨by rw [held.2]; rfl, held⟩
  readDir path known := readDir_ensures known.1 known.2
  read path known := read_ensures 0 0 known.1
  completed count := .pure fun world held => ⟨complete count, held⟩

end CachedFileSystem

def brokenPair : FileSystem Unit Unit where
  change _ state := (.error (), state)
  read path _ _ _ := if path = ['/', 'a'] then .ok [120] else .error ()
  readDir path _ :=
    if path = ['/'] then .ok [⟨['a'], 1, 0o644, 5000000000, false⟩, ⟨['b'], 1, 0o644, 5000000000, false⟩] else .error ()

def brokenPairStat (path : Text) (_ : Unit) : Except Unit FileInfo :=
  if path = ['/'] then .ok ⟨[], 0, 0o755, 5000000000, true⟩
  else if path = ['/', 'a'] then .ok ⟨['a'], 1, 0o644, 5000000000, false⟩
  else if path = ['/', 'b'] then .ok ⟨['b'], 1, 0o644, 5000000000, false⟩
  else .error ()

def cachedPair : CachedFileSystem Unit Unit where
  backend := brokenPair
  faults _ := {}
  cacheNamespace := ['n']
  policy := {}
  generationEpoch := 7

-- A pattern without special characters matches where it occurs.
def literalRegex : RegexLib Unit where
  compile pattern := .ok fun line => decide (pattern <:+: line)
  invalidOperation _ := ()

def grepForX (nodeLimit : Option Nat) : GrepRequest where
  path := ['/']
  pattern := ['x']
  recursive := true
  caseInsensitive := false
  nodeLimit := nodeLimit
  excludePath := none
  levelLimit := none

theorem pair_keepsTimes (path : Text) : cachedPair.KeepsTimes path () := by
  intro entries listed _ _ info member
  have shown : brokenPair.readDir path () = .ok entries := listed
  unfold brokenPair at shown
  by_cases isRoot : path = ['/']
  · simp only [isRoot, if_true, Except.ok.injEq] at shown
    subst shown
    rcases mem_pair.mp member with rfl | rfl <;> decide
  · simp only [isRoot, if_false] at shown
    cases shown

theorem pair_tree : DirectoryTree (cachedPair.grepBackend brokenPairStat ()) { path | Normalised path ∧ cachedPair.KeepsTimes path () }
    ['/'] := by
  refine .directory ['/'] _ _ ⟨by decide, pair_keepsTimes _⟩ rfl rfl rfl ?_ ?_
  · intro entry member
    rcases mem_pair.mp member with rfl | rfl <;> exact ⟨_, rfl, rfl⟩
  · intro entry member
    rcases mem_pair.mp member with rfl | rfl
    · exact .file _ _ ⟨by decide, pair_keepsTimes _⟩ rfl rfl
    · exact .file _ _ ⟨by decide, pair_keepsTimes _⟩ rfl rfl

theorem broken_pair_agrees :
    ∃ bound, ∀ fuel, bound ≤ fuel → ∃ plain cached,
      (cachedPair.grepBackend brokenPairStat ()).grep literalRegex (grepForX none) fuel = some plain ∧
      ((cachedPair.grepReader brokenPairStat List.range).grepViaCache literalRegex (grepForX none) fuel (World.start ())).1 = some cached ∧
      (cached = plain ↔ ¬ Spoils (cachedPair.grepBackend brokenPairStat ()) literalRegex (grepForX none)) :=
  cached_grep_agrees (cachedPair.grepReader_coherent brokenPairStat 0 () fun _ => .refl _) literalRegex (grepForX none)
    ⟨by decide, pair_keepsTimes _⟩ (fun _ _ => pair_tree) (CachedFileSystem.sound_start ())

theorem cached_grep_reads_ahead :
    ∃ bound, ∀ fuel, bound ≤ fuel →
      (cachedPair.grepBackend brokenPairStat ()).grep literalRegex (grepForX (some 1)) fuel =
        some (.ok { found := [{ file := ['a'], line := 1, content := ['x'] }], count := 1 }) ∧
      ((cachedPair.grepReader brokenPairStat List.range).grepViaCache literalRegex (grepForX (some 1)) fuel (World.start ())).1 =
        some (.error ()) := by
  obtain ⟨least, events, planned, bound, both⟩ :=
    @both_plan _ _ _ _ _ _ ((grepForX (some 1)).query fun line => decide (['x'] <:+: line)) _
      (cachedPair.grepReader_coherent brokenPairStat 0 () fun _ => .refl _) (fun _ _ => pair_tree) (.inr ⟨_, rfl⟩)
      _ (CachedFileSystem.sound_start ())
  have shown : (cachedPair.grepBackend brokenPairStat ()).plan ((grepForX (some 1)).query fun line => decide (['x'] <:+: line)) 2 ['/'] =
      some [.directory none, .file ['/', 'a'], .file ['/', 'b']] := by rfl
  cases plan_unique planned shown
  exact ⟨bound, fun fuel enough => ⟨(both fuel enough).1, (both fuel enough).2⟩⟩

end LoginomDock.CacheFs
