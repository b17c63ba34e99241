import LoginomDock.Git.ConcurrentCalls

namespace LoginomDock.Git

open List Prog Repository

variable {Oid : Type} [DecidableEq Oid] [ObjectHash Oid]

structure LogRequest where
  account : Text
  branch : Text
  limit : Nat
  paths : Option (List Text)

structure LogEntry (Oid : Type) where
  oid : Oid
  tree : Oid
  parents : List Oid
  author : Actor
  committer : Actor
  message : Text
  deriving DecidableEq

def logEntryFromMeta (oid : Oid) (commit : Commit Oid) : LogEntry Oid where
  oid := oid
  tree := commit.tree
  parents := commit.parents
  author := commit.author
  committer := commit.committer
  message := commit.message

inductive LogError (Oid : Type) where
  | git (error : GitError Oid)
  | logScanLimitExceeded (scanned maxScanned matched requested : Nat)
  | tooManyLogPaths (count limit : Nat)
  | logPathTooDeep (path : Text) (depth limit : Nat)
  deriving DecidableEq

abbrev LogM (Oid α : Type) := ExceptT (LogError Oid) (Prog (GitOp Oid) GitOp.Res) α

def ofGit {α : Type} (program : GitM Oid α) : LogM Oid α := program.adapt LogError.git

def touchesAny (current : Oid) (parent : Option Oid) :
    List Text → TreeLookupCache Oid → TreeLookupCache Oid → GitM Oid Bool
  | [], _, _ => pure false
  | path :: rest, currentCache, parentCache => do
      let (found, currentCache) ← lookupCached current path currentCache
      let (before, parentCache) ← (match parent with
        | some tree => lookupCached tree path parentCache
        | none => pure (none, parentCache) : GitM Oid (Option (Oid × EntryKind) × TreeLookupCache Oid))
      if found ≠ before then pure true else touchesAny current parent rest currentCache parentCache

def commitTouchesAnyPath (current : Oid) (parent : Option Oid) (paths : List Text) : GitM Oid Bool :=
  touchesAny current parent paths ∅ ∅

def loadNext (nextMeta : Option (Commit Oid)) (commitOid : Oid) : GitM Oid (Commit Oid) :=
  match nextMeta with
  | some commit => pure commit
  | none => loadCommitMeta commitOid

def loadParent (paths : Option (List Text)) (parentOid : Option Oid) : GitM Oid (Option (Commit Oid)) :=
  match paths, parentOid with
  | some _, some oid => do
      let commit ← loadCommitMeta oid
      pure (some commit)
  | _, _ => pure none

def includes (paths : Option (List Text)) (commit : Commit Oid) (parent : Option (Commit Oid)) : GitM Oid Bool :=
  match paths with
  | none => pure true
  | some paths => commitTouchesAnyPath commit.tree (parent.map Commit.tree) paths

def logLoop (req : LogRequest) (maxCommitsScanned : Nat) :
    Nat → Oid → Option (Commit Oid) → Nat → List (LogEntry Oid) → LogM Oid (List (LogEntry Oid))
  | 0, _, _, _, _ => throw (.git .unfinished)
  | fuel + 1, commitOid, nextMeta, scanned, out => do
      let commit ← ofGit (loadNext nextMeta commitOid)
      let parentOid := commit.parents.head?
      let parentMeta ← ofGit (loadParent req.paths parentOid)
      let included ← ofGit (includes req.paths commit parentMeta)
      let scanned := if req.paths.isSome then scanned + 1 else scanned
      let out := if included then out ++ [logEntryFromMeta commitOid commit] else out
      if included ∧ req.limit ≤ out.length then pure out
      else
        match parentOid with
        | none => pure out
        | some parent =>
          if req.paths.isSome ∧ maxCommitsScanned ≤ scanned then
            throw (.logScanLimitExceeded scanned maxCommitsScanned out.length req.limit)
          else logLoop req maxCommitsScanned fuel parent parentMeta scanned out

section Service

variable [OidText Oid]

def logWithScanLimit (refFuel fuel : Nat) (req : LogRequest) (maxCommitsScanned : Nat) :
    LogM Oid (List (LogEntry Oid)) := do
  let head ← ofGit (resolveRef refFuel req.branch)
  logLoop req maxCommitsScanned fuel head none 0 []

def maxLogCommitsScanned : Nat := 1000

def maxLogFilterPaths : Nat := 32

def maxLogPathDepth : Nat := 64

def normalizeLogPaths : Option (List Text) → Except (LogError Oid) (Option (List Text))
  | none => .ok none
  | some paths => do
      paths.forM fun path => (validateRelativePath path).mapError LogError.git
      -- The first of equal paths stays.
      let distinct := paths.reverse.dedup.reverse
      if maxLogFilterPaths < distinct.length then .error (.tooManyLogPaths distinct.length maxLogFilterPaths)
      else
        match distinct.find? fun path => maxLogPathDepth < path.components.length with
        | some path => .error (.logPathTooDeep path path.components.length maxLogPathDepth)
        | none => .ok (if distinct = [] then none else some distinct)

def log (refFuel fuel : Nat) (req : LogRequest) : LogM Oid (List (LogEntry Oid)) := do
  (match validateAccountId req.account with
    | .ok _ => pure ()
    | .error error => throw (.git error) : LogM Oid Unit)
  match normalizeLogPaths req.paths with
  | .error error => throw error
  | .ok paths => if req.limit = 0 then pure [] else logWithScanLimit refFuel fuel { req with paths := paths } maxLogCommitsScanned

end Service

section Spec

variable (objects : Objects Oid)

def keyAt (tree : Oid) (path : Text) : Option (Oid × EntryKind) :=
  (storedEntryAt objects tree path.components).map fun entry => (entry.oid, entry.mode)

def commitOf (oid : Oid) : Option (Commit Oid) :=
  match objects oid with
  | some (.commit commit) => some commit
  | _ => none

-- A commit without a parent is compared with nothing.
def Changed (paths : List Text) (tree : Oid) (parent : Option Oid) : Prop :=
  ∃ path ∈ paths, keyAt objects tree path ≠ parent.bind fun tree => keyAt objects tree path

instance (paths : List Text) (tree : Oid) (parent : Option Oid) : Decidable (Changed objects paths tree parent) :=
  inferInstanceAs (Decidable (∃ path ∈ paths, _))

def wanted (paths : Option (List Text)) (tree : Oid) (parent : Option Oid) : Bool :=
  match paths with
  | none => true
  | some paths => Changed objects paths tree parent

-- The commits of a chain that the request asks for, newest first
def matching (paths : Option (List Text)) : List Oid → List (LogEntry Oid)
  | [] => []
  | oid :: older =>
    match commitOf objects oid with
    | none => matching paths older
    | some commit =>
      if wanted objects paths commit.tree ((older.head?.bind (commitOf objects)).map Commit.tree) then
        logEntryFromMeta oid commit :: matching paths older
      else matching paths older

end Spec

section Reading

variable {α β : Type} {repo : Repository Oid}

-- What a reading program returns; it leaves the repository as it is, and no loop of it runs out of fuel.
def Yields (repo : Repository Oid) (program : GitM Oid α) (post : α → Prop) : Prop :=
  (program.exec repo).2 = repo ∧
    match (program.exec repo).1 with
    | .ok value => post value
    | .error error => error ≠ .unfinished

theorem Yields.pure {value : α} {post : α → Prop} (holds : post value) : Yields repo (pure value) post :=
  ⟨rfl, holds⟩

theorem Yields.throw {error : GitError Oid} {post : α → Prop} (other : error ≠ .unfinished) : Yields repo (throw error) post :=
  ⟨rfl, other⟩

theorem Yields.bind {program : GitM Oid α} {next : α → GitM Oid β} {middle : α → Prop} {post : β → Prop}
    (first : Yields repo program middle) (rest : ∀ value, middle value → Yields repo (next value) post) :
    Yields repo (program >>= next) post := by
  obtain ⟨same, holds⟩ := first
  unfold Yields
  rw [GitM.exec_bind]
  rcases ran : program.exec repo with ⟨error | value, after⟩
  · rw [ran] at same holds
    exact ⟨same, holds⟩
  · rw [ran] at same holds
    cases same
    exact rest value holds

theorem yields_readObject (oid : Oid) : Yields repo (readObject oid) fun object => repo.objects oid = some object := by
  unfold Yields
  rw [readObject, GitM.exec_call_bind]
  cases found : repo.objects oid with
  | none => simp [handle, found]
  | some object => simp [handle, found]

theorem yields_loadCommitMeta (oid : Oid) : Yields repo (loadCommitMeta oid) fun commit => commitOf repo.objects oid = some commit := by
  apply (yields_readObject oid).bind
  intro object found
  cases object with
  | commit commit => exact Yields.pure (by rw [commitOf, found])
  | blob data => exact Yields.throw (by simp)
  | tree entries => exact Yields.throw (by simp)

theorem yields_loadTreeEntries (oid : Oid) : Yields repo (loadTreeEntries oid) fun entries => entries = storedEntries repo.objects oid := by
  have loaded : Yields repo (loadTree oid) fun entries => repo.objects oid = some (.tree entries) := by
    apply (yields_readObject oid).bind
    intro object found
    cases object with
    | tree entries => exact Yields.pure found
    | blob data => exact Yields.throw (by simp)
    | commit commit => exact Yields.throw (by simp)
  apply loaded.bind
  intro entries found
  exact Yields.pure (by rw [storedEntries, found])

def CacheExact (objects : Objects Oid) (cache : TreeLookupCache Oid) : Prop :=
  ∀ oid entries, cache.lookup oid = some entries → entries = storedEntries objects oid

theorem cacheExact_empty (objects : Objects Oid) : CacheExact objects ∅ := by
  intro oid entries found
  simp at found

variable {cache : TreeLookupCache Oid}

theorem yields_lookupStep (oid : Oid) (agrees : CacheExact repo.objects cache) :
    Yields repo (lookupStep oid cache) fun answer =>
      answer.1 = storedEntries repo.objects oid ∧ CacheExact repo.objects answer.2 := by
  rw [lookupStep]
  cases cached : cache.lookup oid with
  | some entries => exact Yields.pure ⟨agrees oid entries cached, agrees⟩
  | none =>
    apply (yields_loadTreeEntries oid).bind
    intro entries same
    refine Yields.pure ⟨same, fun other given found => ?_⟩
    rw [Table.lookup_insert_if] at found
    split at found
    next here =>
      cases found
      rw [same, here]
    next => exact agrees other given found

theorem yields_lookupParts (parts : List Text) (oid : Oid) (agrees : CacheExact repo.objects cache) :
    Yields repo (lookupParts parts oid cache) fun answer =>
      answer.1 = (storedEntryAt repo.objects oid parts).map (fun entry => (entry.oid, entry.mode)) ∧
        CacheExact repo.objects answer.2 := by
  induction parts generalizing oid cache with
  | nil => exact Yields.pure ⟨rfl, agrees⟩
  | cons name rest ih =>
    rw [lookupParts, storedEntryAt]
    by_cases blank : name = []
    · rw [if_pos blank]
      exact Yields.throw (by simp)
    · rw [if_neg blank]
      apply (yields_lookupStep oid agrees).bind
      rintro ⟨entries, next⟩ ⟨same, agreesNext⟩
      simp only at same agreesNext ⊢
      rw [same]
      cases found : (storedEntries repo.objects oid).lookup name with
      | none => exact Yields.pure ⟨rfl, agreesNext⟩
      | some entry =>
        by_cases last : rest = []
        · simp only [last, if_true]
          exact Yields.pure ⟨rfl, agreesNext⟩
        · by_cases isTree : entry.isTree
          · simp only [last, isTree, if_true, if_false]
            exact ih entry.oid agreesNext
          · simp only [last, isTree, if_false]
            exact Yields.pure ⟨rfl, agreesNext⟩

theorem yields_lookupCached (oid : Oid) (path : Text) (agrees : CacheExact repo.objects cache) :
    Yields repo (lookupCached oid path cache) fun answer =>
      answer.1 = keyAt repo.objects oid path ∧ CacheExact repo.objects answer.2 := by
  rw [lookupCached]
  by_cases blank : path = []
  · rw [if_pos blank]
    exact Yields.throw (by simp)
  · rw [if_neg blank]
    exact yields_lookupParts path.components oid agrees

theorem yields_touchesAny (current : Oid) (parent : Option Oid) (paths : List Text)
    {currentCache parentCache : TreeLookupCache Oid} (currentAgrees : CacheExact repo.objects currentCache)
    (parentAgrees : CacheExact repo.objects parentCache) :
    Yields repo (touchesAny current parent paths currentCache parentCache) fun touched =>
      touched = decide (Changed repo.objects paths current parent) := by
  induction paths generalizing currentCache parentCache with
  | nil => exact Yields.pure (by simp [Changed])
  | cons path rest ih =>
    unfold touchesAny
    apply (yields_lookupCached current path currentAgrees).bind
    rintro ⟨found, currentNext⟩ ⟨rfl, currentNextAgrees⟩
    have before : Yields repo (match parent with
        | some tree => lookupCached tree path parentCache
        | none => pure (none, parentCache)) fun answer =>
        answer.1 = parent.bind (fun tree => keyAt repo.objects tree path) ∧ CacheExact repo.objects answer.2 := by
      cases parent with
      | none => exact Yields.pure ⟨rfl, parentAgrees⟩
      | some tree => exact yields_lookupCached tree path parentAgrees
    apply before.bind
    rintro ⟨older, parentNext⟩ ⟨rfl, parentNextAgrees⟩
    have either : Changed repo.objects (path :: rest) current parent ↔
        keyAt repo.objects current path ≠ parent.bind (fun tree => keyAt repo.objects tree path) ∨
          Changed repo.objects rest current parent := by
      simp [Changed]
    by_cases differs : keyAt repo.objects current path = parent.bind (fun tree => keyAt repo.objects tree path)
    · simp only [differs, ne_eq, not_true_eq_false, if_false]
      simpa [either, differs] using ih currentNextAgrees parentNextAgrees
    · simp only [ne_eq, differs, not_false_eq_true, if_true]
      exact Yields.pure (by simp [either, differs])

theorem yields_loadNext {nextMeta : Option (Commit Oid)} {oid : Oid}
    (carried : ∀ commit, nextMeta = some commit → commitOf repo.objects oid = some commit) :
    Yields repo (loadNext nextMeta oid) fun commit => commitOf repo.objects oid = some commit := by
  cases nextMeta with
  | none => exact yields_loadCommitMeta oid
  | some commit => exact Yields.pure (carried commit rfl)

theorem yields_loadParent (paths : Option (List Text)) (parentOid : Option Oid) :
    Yields repo (loadParent paths parentOid) fun parent =>
      parent = if paths.isSome then parentOid.bind (commitOf repo.objects) else none := by
  cases paths with
  | none => exact Yields.pure rfl
  | some paths =>
    cases parentOid with
    | none => exact Yields.pure rfl
    | some oid =>
      apply (yields_loadCommitMeta oid).bind
      intro commit found
      exact Yields.pure (by simp [found])

theorem yields_includes (paths : Option (List Text)) (commit : Commit Oid) {parent older : Option (Commit Oid)}
    (loaded : parent = if paths.isSome then older else none) :
    Yields repo (includes paths commit parent) fun included =>
      included = wanted repo.objects paths commit.tree (older.map Commit.tree) := by
  cases paths with
  | none => exact Yields.pure rfl
  | some paths =>
    simp only [Option.isSome_some, if_true] at loaded
    rw [loaded]
    exact yields_touchesAny _ _ paths (cacheExact_empty _) (cacheExact_empty _)

theorem Yields.ofGit_bind {program : GitM Oid α} {middle : α → Prop} {next : α → LogM Oid β}
    {good : Except (LogError Oid) β → Prop} (first : Yields repo program middle)
    (failed : ∀ error, error ≠ .unfinished → good (.error (.git error)))
    (rest : ∀ value, middle value → good (exec handle (next value) repo).1) :
    good (exec handle (ofGit program >>= next) repo).1 := by
  obtain ⟨same, holds⟩ := first
  rw [exec_bind, ofGit, exec_adapt]
  change (GitM.exec program repo).2 = repo at same
  rcases ran : GitM.exec program repo with ⟨error | value, after⟩
  · rw [ran] at holds
    rw [show exec handle program repo = (.error error, after) from ran]
    exact failed error holds
  · rw [ran] at same holds
    rw [show exec handle program repo = (.ok value, repo) from ran.trans (congrArg _ same)]
    exact rest value holds

end Reading

section Walk

variable {objects : Objects Oid} {req : LogRequest} {repo : Repository Oid}

structure Exceeded (objects : Objects Oid) (req : LogRequest) (chain : List Oid) (start : Nat) (out : List (LogEntry Oid))
    (scanned maxScanned matched requested : Nat) : Prop where
  filtered : req.paths.isSome
  few : matched < req.limit
  asked : requested = req.limit
  reached : scanned = maxScanned
  remains : ∃ newer older found, chain = newer ++ older ∧ older ≠ [] ∧ start + newer.length = maxScanned ∧
    matching objects req.paths chain = found ++ matching objects req.paths older ∧ matched = out.length + found.length

def Complete (objects : Objects Oid) (req : LogRequest) (maxScanned fuel : Nat) (chain : List Oid) (start : Nat)
    (out : List (LogEntry Oid)) : Except (LogError Oid) (List (LogEntry Oid)) → Prop
  | .ok all => all = (out ++ matching objects req.paths chain).take req.limit
  | .error (.logScanLimitExceeded scanned most matched requested) =>
    most = maxScanned ∧ Exceeded objects req chain start out scanned most matched requested
  | .error (.git .unfinished) => fuel < chain.length
  | .error _ => True

variable {paths : Option (List Text)}

theorem matching_cons {oid : Oid} {older : List Oid} {commit : Commit Oid}
    (found : commitOf objects oid = some commit) :
    matching objects paths (oid :: older) =
      (if wanted objects paths commit.tree ((older.head?.bind (commitOf objects)).map Commit.tree) then
        [logEntryFromMeta oid commit] else []) ++ matching objects paths older := by
  rw [matching]
  simp only [found]
  split <;> rfl

-- One commit is examined; the walk over the older ones starts with what it left.
theorem Complete.older {maxScanned fuel start next : Nat} {oid : Oid} {older : List Oid}
    {out entries : List (LogEntry Oid)} {result : Except (LogError Oid) (List (LogEntry Oid))}
    (first : matching objects req.paths (oid :: older) = entries ++ matching objects req.paths older)
    (advanced : req.paths.isSome → next = start + 1)
    (complete : Complete objects req maxScanned fuel older next (out ++ entries) result) :
    Complete objects req maxScanned (fuel + 1) (oid :: older) start out result := by
  cases result with
  | ok all => simpa [Complete, first] using complete
  | error error =>
    cases error with
    | git error =>
      cases error with
      | unfinished => simpa [Complete] using complete
      | _ => trivial
    | logScanLimitExceeded scanned most matched requested =>
      obtain ⟨same, exceeded⟩ := complete
      obtain ⟨newer, rest, found, split, more, count, shown, counted⟩ := exceeded.remains
      have nextIs := advanced exceeded.filtered
      refine ⟨same, exceeded.filtered, exceeded.few, exceeded.asked, exceeded.reached, oid :: newer, rest, entries ++ found,
        ?_, more, ?_, ?_, ?_⟩
      · rw [split, cons_append]
      · rw [length_cons]
        omega
      · rw [first, shown, append_assoc]
      · rw [counted, List.length_append, List.length_append, Nat.add_assoc]
    | tooManyLogPaths count limit => trivial
    | logPathTooDeep path depth limit => trivial

theorem logLoop_complete (maxScanned fuel : Nat) {oid : Oid} {older : List Oid} (chain : FirstParentChain repo.objects (oid :: older))
    {nextMeta : Option (Commit Oid)} (carried : ∀ commit, nextMeta = some commit → commitOf repo.objects oid = some commit)
    {start : Nat} {out : List (LogEntry Oid)} (room : out.length < req.limit)
    (unscanned : req.paths.isSome → start < maxScanned) :
    Complete repo.objects req maxScanned fuel (oid :: older) start out
      (exec handle (logLoop req maxScanned fuel oid nextMeta start out) repo).1 := by
  induction fuel generalizing oid older nextMeta start out with
  | zero => simp [logLoop, Complete]
  | succ fuel ih =>
    rw [logLoop]
    have failed : ∀ error : GitError Oid, error ≠ .unfinished →
        Complete repo.objects req maxScanned (fuel + 1) (oid :: older) start out (.error (.git error)) := by
      intro error other
      cases error with
      | unfinished => exact absurd rfl other
      | _ => trivial
    apply (yields_loadNext carried).ofGit_bind failed
    intro commit found
    have parents : commit.parents.head? = older.head? := by
      obtain ⟨⟨stored, present, heads⟩, _⟩ := chain
      have same : stored = commit := by simpa [commitOf, present] using found
      rw [← same, heads]
    rw [parents]
    apply (yields_loadParent req.paths older.head?).ofGit_bind failed
    intro parent loaded
    apply (yields_includes req.paths commit loaded).ofGit_bind failed
    rintro included rfl
    have step : matching repo.objects req.paths (oid :: older) = _ := matching_cons found
    -- What follows the commit, whether it was taken or not
    have onwards : ∀ entries, matching repo.objects req.paths (oid :: older) = entries ++ matching repo.objects req.paths older →
        (out ++ entries).length < req.limit → ∀ next, (req.paths.isSome → next = start + 1) →
        Complete repo.objects req maxScanned (fuel + 1) (oid :: older) start out
          (exec handle (match older.head? with
            | none => pure (out ++ entries)
            | some parentOid =>
              if req.paths.isSome ∧ maxScanned ≤ next then
                throw (.logScanLimitExceeded next maxScanned (out ++ entries).length req.limit)
              else logLoop req maxScanned fuel parentOid parent next (out ++ entries)) repo).1 := by
      intro entries first short next advanced
      cases older with
      | nil =>
        have none_left : matching repo.objects req.paths [oid] = entries := by simpa [matching] using first
        change out ++ entries = _
        rw [none_left, take_of_length_le (Nat.le_of_lt short)]
      | cons parentOid older =>
        simp only [head?_cons]
        by_cases full : req.paths.isSome ∧ maxScanned ≤ next
        · rw [if_pos full]
          have before := unscanned full.1
          have nextIs := advanced full.1
          refine ⟨rfl, full.1, short, rfl, by omega, [oid], parentOid :: older, entries, rfl, by simp, ?_, first, by simp⟩
          rw [length_singleton]
          omega
        · rw [if_neg full]
          refine Complete.older first advanced (ih chain.2 ?_ short ?_)
          · intro commit given
            rw [loaded] at given
            split at given
            next => simpa using given
            next => cases given
          · intro filtered
            exact Nat.lt_of_not_le fun reached => full ⟨filtered, reached⟩
    have counts : ∀ next, next = (if req.paths.isSome then start + 1 else start) → req.paths.isSome → next = start + 1 := by
      rintro next rfl filtered
      rw [if_pos filtered]
    cases included : wanted repo.objects req.paths commit.tree ((older.head?.bind (commitOf repo.objects)).map Commit.tree) with
    | false =>
      rw [included] at step
      have passed := onwards [] step (by simpa using room) _ (counts _ rfl)
      simpa using passed
    | true =>
      rw [included] at step
      by_cases full : req.limit ≤ (out ++ [logEntryFromMeta oid commit]).length
      · have exactly : (out ++ [logEntryFromMeta oid commit]).length = req.limit := by
          rw [List.length_append, length_singleton] at full ⊢
          omega
        simp only [if_true, full, and_self]
        change out ++ [logEntryFromMeta oid commit] = _
        rw [step, if_pos rfl, ← append_assoc, take_append_of_le_length full, ← exactly, take_length]
      · have passed := onwards [logEntryFromMeta oid commit] step (Nat.lt_of_not_le full) _ (counts _ rfl)
        simp only [if_true, full, and_false, if_false]
        exact passed

section Service

variable [OidText Oid] {head : Oid} {older : List Oid}

theorem exec_logWithScanLimit (maxScanned : Nat) {refFuel fuel : Nat}
    (resolved : (resolveRef refFuel req.branch).exec repo = (.ok head, repo)) :
    exec handle (logWithScanLimit refFuel fuel req maxScanned) repo =
      exec handle (logLoop req maxScanned fuel head none 0 []) repo := by
  rw [logWithScanLimit, exec_bind, ofGit, exec_adapt]
  rw [show exec handle (resolveRef refFuel req.branch) repo = (.ok head, repo) from resolved]
  rfl

theorem logWithScanLimit_complete (maxScanned : Nat) {refFuel fuel : Nat}
    (chain : FirstParentChain repo.objects (head :: older)) (limited : 0 < req.limit) (scans : 0 < maxScanned)
    (resolved : (resolveRef refFuel req.branch).exec repo = (.ok head, repo)) :
    Complete repo.objects req maxScanned fuel (head :: older) 0 []
      (exec handle (logWithScanLimit refFuel fuel req maxScanned) repo).1 := by
  rw [exec_logWithScanLimit maxScanned resolved]
  exact logLoop_complete maxScanned fuel chain (by simp) limited fun _ => scans

theorem log_complete {refFuel fuel : Nat} (chain : FirstParentChain repo.objects (head :: older))
    (account : (validateAccountId req.account : Except (GitError Oid) Unit) = .ok ())
    (normal : (normalizeLogPaths req.paths : Except (LogError Oid) (Option (List Text))) = .ok paths)
    (resolved : (resolveRef refFuel req.branch).exec repo = (.ok head, repo)) :
    Complete repo.objects { req with paths := paths } maxLogCommitsScanned fuel (head :: older) 0 []
      (exec handle (log refFuel fuel req) repo).1 := by
  rw [log, account, normal]
  by_cases unasked : req.limit = 0
  · simp [unasked, Complete]
  · rw [exec_bind_ok _ rfl]
    simp only [unasked, if_false]
    have entry : exec handle (logWithScanLimit refFuel fuel { req with paths := paths } maxLogCommitsScanned) repo = _ :=
      exec_logWithScanLimit maxLogCommitsScanned resolved
    rw [entry]
    exact logLoop_complete maxLogCommitsScanned fuel chain (by simp) (Nat.pos_of_ne_zero unasked) fun _ => by decide

end Service

end Walk

section Instances

def sameTreeCommit : Commit Digest := { fileCommit with parents := [computeHash (.commit fileCommit)] }

def sameTreeCommitted : Repository Digest :=
  { fileCommitted.store (.commit sameTreeCommit) with
    refs := (∅ : Table Text Digest).insert (refNameOf "main") (computeHash (.commit sameTreeCommit)) }

def sameTreeChain : List Digest := [computeHash (.commit sameTreeCommit), computeHash (.commit fileCommit)]

theorem sameTreeChain_stored : FirstParentChain sameTreeCommitted.objects sameTreeChain :=
  ⟨⟨sameTreeCommit, by rfl, rfl⟩, ⟨fileCommit, by rfl, rfl⟩, trivial⟩

def changesOfFile (limit : Nat) : LogRequest where
  account := "a"
  branch := "main"
  limit := limit
  paths := some ["a"]

theorem sameTree_log_complete :
    Complete sameTreeCommitted.objects (changesOfFile 1) 1000 2 sameTreeChain 0 []
        (.ok [logEntryFromMeta (computeHash (.commit fileCommit)) fileCommit]) := by
  have ran : (exec handle (logWithScanLimit 1 2 (changesOfFile 1) 1000) sameTreeCommitted).1 =
      .ok [logEntryFromMeta (computeHash (.commit fileCommit)) fileCommit] := by rfl
  rw [← ran]
  apply logWithScanLimit_complete 1000 sameTreeChain_stored
  · decide
  · decide
  · rfl

theorem zero_limit_returns_one :
    FirstParentChain fileCommitted.objects [computeHash (.commit fileCommit)] ∧
      (resolveRef 1 (changesOfFile 0).branch).exec fileCommitted = (.ok (computeHash (.commit fileCommit)), fileCommitted) ∧
      ¬ Complete fileCommitted.objects (changesOfFile 0) 1000 1 [computeHash (.commit fileCommit)] 0 []
        (exec handle (logWithScanLimit 1 1 (changesOfFile 0) 1000) fileCommitted).1 := by
  refine ⟨⟨⟨fileCommit, by rfl, rfl⟩, trivial⟩, by rfl, ?_⟩
  have ran : (exec handle (logWithScanLimit 1 1 (changesOfFile 0) 1000) fileCommitted).1 =
      .ok [logEntryFromMeta (computeHash (.commit fileCommit)) fileCommit] := by rfl
  rw [ran]
  intro complete
  cases complete

end Instances

end LoginomDock.Git
