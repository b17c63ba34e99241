import LoginomDock.CacheFs.GrepBatches

/-! The cached grep reads a whole batch before it looks at the match limit. -/

namespace LoginomDock.CacheFs

open List CacheReader GrepQuery

section Counts

variable {ε : Type} (backend : GrepBackend ε) (query : GrepQuery)

def allMatches (isMatch : Text → Bool) (relFile : Text) : List (Nat × Text) → List GrepMatch
  | [] => []
  | (lineNum, line) :: rest =>
    if isMatch line then { file := relFile, line := lineNum + 1, content := line } :: allMatches isMatch relFile rest
    else allMatches isMatch relFile rest

def matchesIn (path : Text) (content : FileData) : List GrepMatch :=
  allMatches query.isMatch (relativeMatchFile query.basePath path) (GrepQuery.numberedLines content)

def matchCount (path : Text) : Nat :=
  match backend.read path with
  | .ok content => (matchesIn query path content).length
  | .error _ => 0

def Readable (path : Text) : Prop := ∃ content, backend.read path = .ok content

def SpoiltFrom (share room : Nat) (files : List Text) : Prop :=
  ∃ before path error after, files = before ++ path :: after ∧ backend.read path = .error error ∧
    (∀ other ∈ before, Readable backend other) ∧ (before.map fun other => min share (matchCount backend query other)).sum = room

def Spoilt (limit : Nat) : Nat → List (List Text) → Prop
  | _, [] => False
  | count, files :: rest =>
    count < limit ∧ (SpoiltFrom backend query (limit - count) (limit - count) files ∨
      (∀ path ∈ files, Readable backend path) ∧ Spoilt limit (count + (files.map (matchCount backend query)).sum) rest)

def batches : List (GrepEvent ε) → List Text → List (List Text)
  | [], files => [files]
  | .directory none :: rest, files => files :: batches rest []
  | .directory (some _) :: _, files => [files]
  | .file path :: rest, files =>
    if grepCacheFileConcurrency ≤ (files ++ [path]).length then (files ++ [path]) :: batches rest []
    else batches rest (files ++ [path])

def Spoils (regex : RegexLib ε) (request : GrepRequest) : Prop :=
  ∃ limit isMatch fuel events, request.nodeLimit = some limit ∧
    regex.compileGrepRegex request.pattern request.caseInsensitive = .ok isMatch ∧
    backend.plan (request.query isMatch) fuel (normalizePrefixPath request.path) = some events ∧
    Spoilt backend (request.query isMatch) limit 0 (batches events [])

end Counts

section Files

variable {ε : Type} {backend : GrepBackend ε} {query : GrepQuery} {limit : Nat} {result : GrepResult}

def GrepResult.add (result : GrepResult) (items : List GrepMatch) : GrepResult where
  found := result.found ++ items
  count := result.count + items.length

@[simp] theorem GrepResult.add_nil (result : GrepResult) : result.add [] = result := by
  simp [GrepResult.add]

theorem GrepResult.push_add (result : GrepResult) (item : GrepMatch) (items : List GrepMatch) :
    (result.push item).add items = result.add (item :: items) := by
  simp [GrepResult.add, GrepResult.push, Nat.add_assoc, Nat.add_comm 1]

theorem full_iff (limited : query.nodeLimit = some limit) : query.full result = true ↔ limit ≤ result.count := by
  simp [GrepQuery.full, limited]

theorem full_eq_false_iff (limited : query.nodeLimit = some limit) : query.full result = false ↔ result.count < limit := by
  rw [← Bool.not_eq_true, full_iff limited, Nat.not_le]

theorem full_none (unlimited : query.nodeLimit = none) : query.full result = false := by
  simp [GrepQuery.full, unlimited]

theorem addLines_eq (limited : query.nodeLimit = some limit) (relFile : Text) (lines : List (Nat × Text)) (result : GrepResult) :
    query.addLines relFile lines result = result.add ((allMatches query.isMatch relFile lines).take (limit - result.count)) := by
  induction lines generalizing result with
  | nil => simp [addLines, allMatches]
  | cons line rest ih =>
    obtain ⟨lineNum, line⟩ := line
    rw [addLines, allMatches]
    by_cases full : query.full result = true
    · have none := (full_iff limited).mp full
      rw [if_pos full, Nat.sub_eq_zero_of_le none, take_zero, GrepResult.add_nil]
    · have room : result.count < limit := Nat.lt_of_not_le fun none => full ((full_iff limited).mpr none)
      rw [if_neg full]
      by_cases found : query.isMatch line = true
      · have less : limit - result.count = limit - (result.count + 1) + 1 := by omega
        rw [if_pos found, if_pos found, ih, GrepResult.push_add, less, take_succ_cons]
        rfl
      · rw [if_neg found, if_neg found, ih]

theorem addLines_all (unlimited : query.nodeLimit = none) (relFile : Text) (lines : List (Nat × Text)) (result : GrepResult) :
    query.addLines relFile lines result = result.add (allMatches query.isMatch relFile lines) := by
  induction lines generalizing result with
  | nil => simp [addLines, allMatches]
  | cons line rest ih =>
    obtain ⟨lineNum, line⟩ := line
    rw [addLines, allMatches, full_none unlimited]
    by_cases found : query.isMatch line = true
    · simp only [Bool.false_eq_true, if_false, found, if_true, ih, GrepResult.push_add]
    · simp only [Bool.false_eq_true, if_false, found, ih]

theorem matchLines_take (isMatch : Text → Bool) (relFile : Text) (share : Nat) (lines : List (Nat × Text)) (found : List GrepMatch)
    (within : found.length ≤ share) :
    CacheReader.matchLines isMatch relFile (some share) lines found = found ++ (allMatches isMatch relFile lines).take (share - found.length) := by
  induction lines generalizing found with
  | nil => simp [CacheReader.matchLines, allMatches]
  | cons line rest ih =>
    obtain ⟨lineNum, line⟩ := line
    rw [CacheReader.matchLines, allMatches]
    by_cases done : share ≤ found.length
    · simp [done, Nat.sub_eq_zero_of_le done]
    · have less : share - found.length = share - (found.length + 1) + 1 := by omega
      simp only [Option.any_some, done, decide_false, Bool.false_eq_true, if_false]
      by_cases isFound : isMatch line = true
      · rw [if_pos isFound, if_pos isFound, ih _ (by simp only [List.length_append, length_singleton]; omega), less,
          take_succ_cons]
        simp
      · rw [if_neg isFound, if_neg isFound, ih found within]

theorem matchLines_all (isMatch : Text → Bool) (relFile : Text) (lines : List (Nat × Text)) (found : List GrepMatch) :
    CacheReader.matchLines isMatch relFile none lines found = found ++ allMatches isMatch relFile lines := by
  induction lines generalizing found with
  | nil => simp [CacheReader.matchLines, allMatches]
  | cons line rest ih =>
    obtain ⟨lineNum, line⟩ := line
    rw [CacheReader.matchLines, allMatches]
    by_cases isFound : isMatch line = true <;> simp [isFound, ih]

theorem pushItems_take (limited : query.nodeLimit = some limit) (items : List GrepMatch) (result : GrepResult) :
    pushItems query items result = (result.add (items.take (limit - result.count)), decide (limit - result.count < items.length)) := by
  induction items generalizing result with
  | nil => simp [pushItems]
  | cons item rest ih =>
    rw [pushItems]
    by_cases full : query.full result = true
    · have none := (full_iff limited).mp full
      rw [if_pos full, Nat.sub_eq_zero_of_le none]
      simp
    · have room : result.count < limit := Nat.lt_of_not_le fun none => full ((full_iff limited).mpr none)
      have less : limit - result.count = limit - (result.count + 1) + 1 := by omega
      rw [if_neg full, ih, less, take_succ_cons, GrepResult.push_add]
      refine Prod.ext rfl (decide_eq_decide.mpr ?_)
      simp only [length_cons, GrepResult.push]
      omega

theorem pushItems_all (unlimited : query.nodeLimit = none) (items : List GrepMatch) (result : GrepResult) :
    pushItems query items result = (result.add items, false) := by
  induction items generalizing result with
  | nil => simp [pushItems]
  | cons item rest ih => rw [pushItems, full_none unlimited, ih, GrepResult.push_add]; rfl

def plainFiles (backend : GrepBackend ε) (query : GrepQuery) (files : List Text) (result : GrepResult) : Except ε GrepResult :=
  plainly backend query (files.map .file) result

variable {path : Text} {content : FileData} {error : ε} {files : List Text} {share : Nat}

-- The result with as many matches of a file as the limit has room for
def topUp (query : GrepQuery) (limit : Nat) (path : Text) (content : FileData) (result : GrepResult) : GrepResult :=
  result.add ((matchesIn query path content).take (limit - result.count))

theorem grepFile_ok (limited : query.nodeLimit = some limit) (read : backend.read path = .ok content) (result : GrepResult) :
    backend.grepFile query path result = .ok (topUp query limit path content result) := by
  rw [topUp]
  by_cases full : query.full result = true
  · rw [grepFile_full full, Nat.sub_eq_zero_of_le ((full_iff limited).mp full), take_zero, GrepResult.add_nil]
  · rw [GrepBackend.grepFile, if_neg full, read]
    exact congrArg Except.ok (addLines_eq limited _ _ _)

theorem grepFile_error (room : query.full result = false) (failed : backend.read path = .error error) :
    backend.grepFile query path result = .error error := by
  rw [GrepBackend.grepFile, room, failed]
  rfl

theorem spoiltFrom_error (failed : backend.read path = .error error) (room : Nat) :
    SpoiltFrom backend query share room (path :: files) ↔ room = 0 := by
  constructor
  · rintro ⟨before, other, _, after, split, _, readable, sum⟩
    cases before with
    | nil => simpa using sum.symm
    | cons first before =>
      obtain ⟨rfl, _⟩ := List.cons.inj split
      obtain ⟨content, read⟩ := readable path mem_cons_self
      cases failed.symm.trans read
  · rintro rfl
    exact ⟨[], path, error, files, rfl, failed, nofun, rfl⟩

section

variable (read : backend.read path = .ok content)

include read

theorem spoiltFrom_ok (room : Nat) :
    SpoiltFrom backend query share room (path :: files) ↔
      min share (matchCount backend query path) ≤ room ∧
        SpoiltFrom backend query share (room - min share (matchCount backend query path)) files := by
  constructor
  · rintro ⟨before, other, error, after, split, failed, readable, sum⟩
    cases before with
    | nil =>
      obtain ⟨rfl, _⟩ := List.cons.inj split
      cases read.symm.trans failed
    | cons first before =>
      obtain ⟨rfl, rest⟩ := List.cons.inj split
      rw [map_cons, sum_cons] at sum
      exact ⟨by omega, before, other, error, after, rest, failed, fun file member => readable file (mem_cons_of_mem _ member), by omega⟩
  · rintro ⟨fits, before, other, error, after, rest, failed, readable, sum⟩
    refine ⟨path :: before, other, error, after, congrArg (path :: ·) rest, failed, fun file member => ?_, ?_⟩
    · rcases mem_cons.mp member with rfl | later
      · exact ⟨content, read⟩
      · exact readable file later
    · rw [map_cons, sum_cons]
      omega

theorem matchCount_ok : matchCount backend query path = (matchesIn query path content).length := by
  rw [matchCount, read]

theorem count_topUp : (topUp query limit path content result).count =
    result.count + min (limit - result.count) (matchCount backend query path) := by
  rw [topUp, GrepResult.add, length_take, matchCount_ok read]

end

section

variable (limited : query.nodeLimit = some limit)

include limited

theorem plainFiles_cons (read : backend.read path = .ok content) :
    plainFiles backend query (path :: files) result = plainFiles backend query files (topUp query limit path content result) := by
  rw [plainFiles, map_cons, plainly, grepFile_ok limited read]
  rfl

theorem pushFiles_plain (files : List Text) (first : Nat)
    (result : GrepResult) (within : result.count ≤ limit) (fits : limit - result.count ≤ share) :
    (SpoiltFrom backend query share (limit - result.count) files →
      ∃ error after, pushFiles query
          ((files.zipIdx first).map fun file => (file.2, fileItems backend query (some share) file.1)) result = .error error ∧
        plainFiles backend query files result = .ok after ∧ query.full after = true) ∧
    (¬ SpoiltFrom backend query share (limit - result.count) files →
      pushFiles query ((files.zipIdx first).map fun file => (file.2, fileItems backend query (some share) file.1)) result =
        plainFiles backend query files result) := by
  induction files generalizing first result with
  | nil =>
    refine ⟨?_, fun _ => rfl⟩
    rintro ⟨before, path, error, after, split, _⟩
    simp at split
  | cons path files ih =>
    rw [zipIdx_cons, map_cons]
    cases read : backend.read path with
    | error error =>
      have outcome : fileItems backend query (some share) path = .error error := by rw [fileItems, read]; rfl
      rw [spoiltFrom_error read, outcome]
      constructor
      · intro none
        have full : query.full result = true := (full_iff limited).mpr (Nat.le_of_sub_eq_zero none)
        exact ⟨error, result, rfl, plainly_full full _, full⟩
      · intro some
        have room : query.full result = false := (full_eq_false_iff limited).mpr (by omega)
        rw [plainFiles, map_cons, plainly, grepFile_error room read]
        rfl
    | ok content =>
      have outcome : fileItems backend query (some share) path = .ok ((matchesIn query path content).take share) := by
        rw [fileItems, read]
        exact congrArg Except.ok (matchLines_take query.isMatch _ share _ [] (Nat.zero_le share))
      have items : ((matchesIn query path content).take share).take (limit - result.count) =
          (matchesIn query path content).take (limit - result.count) := by
        rw [take_take, Nat.min_eq_left fits]
      rw [spoiltFrom_ok read, plainFiles_cons limited read, outcome, pushFiles, pushItems_take limited, items,
        length_take, ← matchCount_ok read, ← topUp]
      have added : (topUp query limit path content result).count = _ := count_topUp read
      by_cases stops : limit - result.count < min share (matchCount backend query path)
      · -- the limit is reached inside the file
        have full : query.full (topUp query limit path content result) = true := (full_iff limited).mpr (by omega)
        refine ⟨fun spoilt => absurd spoilt.1 (Nat.not_le.mpr stops), fun _ => ?_⟩
        simp only [stops, decide_true]
        exact (plainly_full full _).symm
      · simp only [stops, decide_false]
        have fitting : min share (matchCount backend query path) ≤ limit - result.count := Nat.le_of_not_lt stops
        have next := ih (first + 1) (topUp query limit path content result) (by omega) (by omega)
        have room : limit - (topUp query limit path content result).count =
            limit - result.count - min share (matchCount backend query path) := by omega
        rw [room] at next
        exact ⟨fun spoilt => next.1 spoilt.2, fun sound => next.2 fun spoilt => sound ⟨fitting, spoilt⟩⟩

theorem flushed_plain (room : result.count < limit) (files : List Text) :
    (SpoiltFrom backend query (limit - result.count) (limit - result.count) files →
      ∃ error after, flushed backend query files result = .error error ∧ plainFiles backend query files result = .ok after ∧
        query.full after = true) ∧
    (¬ SpoiltFrom backend query (limit - result.count) (limit - result.count) files →
      flushed backend query files result = plainFiles backend query files result) := by
  have notFull := (full_iff limited).not.mpr (Nat.not_le.mpr room)
  by_cases empty : files = []
  · subst empty
    refine ⟨?_, fun _ => if_pos (.inl rfl)⟩
    rintro ⟨before, path, error, after, split, _⟩
    simp at split
  · have flush : flushed backend query files result =
        pushFiles query (indexedItems backend query (some (limit - result.count)) files) result := by
      rw [flushed, if_neg (not_or.mpr ⟨empty, notFull⟩), limited]
      rfl
    rw [flush]
    exact pushFiles_plain limited files 0 result (Nat.le_of_lt room) (Nat.le_refl _)

end

theorem flushed_all (unlimited : query.nodeLimit = none) (files : List Text) (result : GrepResult) :
    flushed backend query files result = plainFiles backend query files result := by
  have each : ∀ (files : List Text) (first : Nat) (result : GrepResult),
      pushFiles query ((files.zipIdx first).map fun file => (file.2, fileItems backend query none file.1)) result =
        plainFiles backend query files result := by
    intro files
    induction files with
    | nil => exact fun _ _ => rfl
    | cons path files ih =>
      intro first result
      rw [zipIdx_cons, map_cons, plainFiles, map_cons, plainly, GrepBackend.grepFile, full_none unlimited]
      cases read : backend.read path with
      | error error =>
        rw [fileItems, read]
        rfl
      | ok content =>
        have outcome : fileItems backend query none path = .ok (matchesIn query path content) := by
          rw [fileItems, read]
          exact congrArg Except.ok (matchLines_all query.isMatch _ _ [])
        rw [outcome, pushFiles, pushItems_all unlimited]
        simp only [Bool.false_eq_true, if_false, addLines_all unlimited]
        exact ih (first + 1) _
  by_cases empty : files = []
  · subst empty
    exact if_pos (.inl rfl)
  · rw [flushed, if_neg (not_or.mpr ⟨empty, by rw [full_none unlimited]; exact Bool.false_ne_true⟩), unlimited]
    exact each files 0 result

theorem plainFiles_count (limited : query.nodeLimit = some limit) (files : List Text) (result : GrepResult)
    (below : result.count < limit) :
    (∀ after, plainFiles backend query files result = .ok after → query.full after = false →
      (∀ path ∈ files, Readable backend path) ∧ after.count = result.count + (files.map (matchCount backend query)).sum) ∧
    ((∀ path ∈ files, Readable backend path) → result.count + (files.map (matchCount backend query)).sum < limit →
      ∃ after, plainFiles backend query files result = .ok after ∧ after.count = result.count + (files.map (matchCount backend query)).sum) := by
  induction files generalizing result with
  | nil => exact ⟨fun after same _ => ⟨forall_mem_nil _, by cases same; rfl⟩, fun _ _ => ⟨result, rfl, rfl⟩⟩
  | cons path files ih =>
    have room : query.full result = false := (full_eq_false_iff limited).mpr below
    cases read : backend.read path with
    | error error =>
      rw [plainFiles, map_cons, plainly, grepFile_error room read]
      refine ⟨(fun after same => by cases same), fun readable _ => ?_⟩
      obtain ⟨content, found⟩ := readable path mem_cons_self
      cases read.symm.trans found
    | ok content =>
      have added : (topUp query limit path content result).count = _ := count_topUp read
      rw [plainFiles_cons limited read, map_cons, sum_cons]
      by_cases fits : result.count + matchCount backend query path < limit
      · have whole : (topUp query limit path content result).count = result.count + matchCount backend query path := by omega
        obtain ⟨counted, reaches⟩ := ih (topUp query limit path content result) (whole ▸ fits)
        rw [whole] at counted reaches
        constructor
        · intro after same notFull
          obtain ⟨readable, count⟩ := counted after same notFull
          refine ⟨fun file member => ?_, by rw [count, Nat.add_assoc]⟩
          rcases mem_cons.mp member with rfl | later
          · exact ⟨content, read⟩
          · exact readable file later
        · intro readable small
          obtain ⟨after, same, count⟩ := reaches (fun file member => readable file (mem_cons_of_mem _ member)) (by omega)
          exact ⟨after, same, by rw [count, Nat.add_assoc]⟩
      · have full : query.full (topUp query limit path content result) = true := (full_iff limited).mpr (by omega)
        constructor
        · intro after same notFull
          rw [plainFiles, plainly_full full] at same
          cases same
          rw [full] at notFull
          cases notFull
        · intro _ small
          omega

end Files

section Plans

variable {ε : Type} {backend : GrepBackend ε} {query : GrepQuery} {limit : Nat}

theorem plainly_files (files : List Text) (events : List (GrepEvent ε)) (result : GrepResult) :
    plainly backend query (files.map .file ++ events) result = (plainFiles backend query files result).bind (plainly backend query events) :=
  plainly_append _ _ _

theorem inBatches_all (unlimited : query.nodeLimit = none) (events : List (GrepEvent ε)) (files : List Text) (result : GrepResult) :
    inBatches backend query events files result = plainly backend query (files.map .file ++ events) result := by
  induction events generalizing files result with
  | nil =>
    rw [inBatches, flushed_all unlimited, plainly_files]
    cases plainFiles backend query files result <;> rfl
  | cons event rest ih =>
    rw [plainly_files]
    cases event with
    | directory failure =>
      rw [inBatches, full_none unlimited, flushed_all unlimited]
      cases plainFiles backend query files result with
      | error error => rfl
      | ok after =>
        simp only [Bool.false_eq_true, if_false, Except.bind, full_none unlimited]
        cases failure with
        | none => rw [ih, plainly]; rfl
        | some error => rw [plainly, full_none unlimited]; rfl
    | file path =>
      have together : (plainFiles backend query files result).bind (plainly backend query (.file path :: rest)) =
          plainly backend query ((files ++ [path]).map .file ++ rest) result := by
        rw [← plainly_files, map_append, append_assoc]
        rfl
      rw [inBatches, full_none unlimited, together]
      simp only [Bool.false_eq_true, if_false]
      by_cases large : grepCacheFileConcurrency ≤ (files ++ [path]).length
      · rw [if_pos large, flushed_all unlimited, plainly_files]
        exact congrArg _ (funext fun after => ih [] after)
      · rw [if_neg large, ih]

theorem Spoilt.below {count : Nat} {rest : List (List Text)} (spoilt : Spoilt backend query limit count rest) : count < limit := by
  cases rest with
  | nil => cases spoilt
  | cons files rest => exact spoilt.1

theorem batch_then (limited : query.nodeLimit = some limit) {result : GrepResult} (below : result.count < limit) (files : List Text)
    {cached plain : GrepResult → Except ε GrepResult} {rest : List (List Text)}
    (filled : ∀ after, query.full after = true → cached after = .ok after ∧ plain after = .ok after)
    (onwards : ∀ after : GrepResult, after.count < limit →
      (Spoilt backend query limit after.count rest ↔ cached after ≠ plain after)) :
    Spoilt backend query limit result.count (files :: rest) ↔
      (flushed backend query files result).bind cached ≠ (plainFiles backend query files result).bind plain := by
  obtain ⟨spoils, agrees⟩ := @flushed_plain ε backend query limit result limited below files
  obtain ⟨counted, reaches⟩ := @plainFiles_count ε backend query limit limited files result below
  rw [Spoilt]
  by_cases spoilt : SpoiltFrom backend query (limit - result.count) (limit - result.count) files
  · obtain ⟨error, after, failed, stopped, full⟩ := spoils spoilt
    rw [failed, stopped]
    simp only [Except.bind, (filled after full).2]
    exact iff_of_true ⟨below, .inl spoilt⟩ nofun
  · rw [agrees spoilt]
    cases outcome : plainFiles backend query files result with
    | error error =>
      refine iff_of_false ?_ fun differs => differs rfl
      rintro ⟨_, bad | ⟨readable, later⟩⟩
      · exact spoilt bad
      · obtain ⟨after, same, _⟩ := reaches readable later.below
        cases outcome.symm.trans same
    | ok after =>
      simp only [Except.bind]
      cases full : query.full after with
      | true =>
        rw [(filled after full).1, (filled after full).2]
        refine iff_of_false ?_ fun differs => differs rfl
        rintro ⟨_, bad | ⟨readable, later⟩⟩
        · exact spoilt bad
        · obtain ⟨other, same, count⟩ := reaches readable later.below
          cases outcome.symm.trans same
          have reached := (full_iff limited).mp full
          have small := later.below
          omega
      | false =>
        obtain ⟨readable, count⟩ := counted after outcome full
        have small := (full_eq_false_iff limited).mp full
        rw [← onwards after small, count]
        constructor
        · rintro ⟨_, bad | ⟨_, later⟩⟩
          · exact absurd bad spoilt
          · exact later
        · exact fun later => ⟨below, .inr ⟨readable, later⟩⟩

theorem spoilt_iff (limited : query.nodeLimit = some limit) (events : List (GrepEvent ε)) (files : List Text) (result : GrepResult)
    (below : result.count < limit) :
    Spoilt backend query limit result.count (batches events files) ↔
      inBatches backend query events files result ≠ plainly backend query (files.map .file ++ events) result := by
  have room : query.full result = false := (full_eq_false_iff limited).mpr below
  induction events generalizing files result with
  | nil =>
    rw [batches, inBatches, plainly_files]
    have last := @batch_then ε backend query limit limited result below files (fun after => .ok after) (plainly backend query []) []
      (fun after _ => ⟨rfl, rfl⟩) fun after _ => iff_of_false id fun differs => differs rfl
    rw [last]
    cases flushed backend query files result <;> rfl
  | cons event rest ih =>
    have later : ∀ (files : List Text) (after : GrepResult), after.count < limit →
        (Spoilt backend query limit after.count (batches rest files) ↔
          inBatches backend query rest files after ≠ plainly backend query (files.map .file ++ rest) after) := by
      intro files after small
      exact ih files after small ((full_eq_false_iff limited).mpr small)
    cases event with
    | directory failure =>
      rw [inBatches, room, plainly_files]
      simp only [Bool.false_eq_true, if_false]
      cases failure with
      | none =>
        rw [batches]
        refine batch_then limited below files (fun after full => ?_) fun after small => ?_
        · rw [if_pos full]
          exact ⟨rfl, plainly_full full _⟩
        · have notFull := (full_iff limited).not.mpr (Nat.not_le.mpr small)
          rw [if_neg notFull]
          exact later [] after small
      | some error =>
        rw [batches]
        refine batch_then limited below files (fun after full => ?_) fun after small => ?_
        · rw [if_pos full]
          exact ⟨rfl, plainly_full full _⟩
        · have notFull := (full_iff limited).not.mpr (Nat.not_le.mpr small)
          rw [if_neg notFull, plainly, if_neg notFull]
          exact iff_of_false id fun differs => differs rfl
    | file path =>
      have together : plainly backend query (files.map .file ++ .file path :: rest) result =
          plainly backend query ((files ++ [path]).map .file ++ rest) result := by
        rw [map_append, append_assoc]
        rfl
      rw [batches, inBatches, room, together]
      simp only [Bool.false_eq_true, if_false]
      by_cases large : grepCacheFileConcurrency ≤ (files ++ [path]).length
      · rw [if_pos large, if_pos large, plainly_files]
        refine batch_then limited below (files ++ [path]) (fun after full => ?_) fun after small => later [] after small
        exact ⟨inBatches_full full rest [], plainly_full full rest⟩
      · rw [if_neg large, if_neg large]
        exact later (files ++ [path]) result below

end Plans

end LoginomDock.CacheFs
