import LoginomDock.CacheFs.Grep

namespace LoginomDock.CacheFs

open List GrepBackend

inductive GrepEvent (ε : Type) where
  | directory (failure : Option ε)
  | file (path : Text)

section Plans

variable {ε : Type} (backend : GrepBackend ε) (query : GrepQuery)

def planEntries (plan : Text → Option (List (GrepEvent ε))) (currentPath : Text) : List FileInfo → Option (List (GrepEvent ε))
  | [] => some []
  | entry :: rest =>
    match plan (entryPath currentPath entry.name), planEntries plan currentPath rest with
    | some first, some others => some (first ++ others)
    | _, _ => none

def GrepBackend.plan : Nat → Text → Option (List (GrepEvent ε))
  | 0, _ => none
  | fuel + 1, currentPath =>
    if query.excluded currentPath then some []
    else
      match backend.stat currentPath with
      | .error _ => none
      | .ok info =>
        if info.isDir then
          if query.skipsDirectory currentPath then some [.directory none]
          else
            match backend.readDir currentPath with
            | .error error => some [.directory (some error)]
            | .ok entries => (planEntries (plan fuel) currentPath entries).map (.directory none :: ·)
        else if query.skipsFile currentPath then some []
        else some [.file currentPath]

inductive DirectoryTree (paths : Set Text) : Text → Prop where
  | file (path : Text) (info : FileInfo) (known : path ∈ paths) (found : backend.stat path = .ok info) (isFile : info.isDir = false) :
      DirectoryTree paths path
  | unlisted (path : Text) (info : FileInfo) (error : ε) (known : path ∈ paths) (found : backend.stat path = .ok info)
      (isDirectory : info.isDir = true) (failed : backend.readDir path = .error error) : DirectoryTree paths path
  | directory (path : Text) (info : FileInfo) (entries : List FileInfo) (known : path ∈ paths) (found : backend.stat path = .ok info)
      (isDirectory : info.isDir = true) (listed : backend.readDir path = .ok entries)
      (agrees : ∀ entry ∈ entries, ∃ child, backend.stat (entryPath path entry.name) = .ok child ∧ child.isDir = entry.isDir)
      (below : ∀ entry ∈ entries, DirectoryTree paths (entryPath path entry.name)) : DirectoryTree paths path

def plainly : List (GrepEvent ε) → GrepResult → Except ε GrepResult
  | [], result => .ok result
  | .directory none :: rest, result => plainly rest result
  | .directory (some error) :: rest, result => if query.full result then plainly rest result else .error error
  | .file path :: rest, result => (backend.grepFile query path result).bind (plainly rest)

end Plans

section Facts

variable {ε : Type} {backend : GrepBackend ε} {query : GrepQuery} {result : GrepResult}

theorem grepFile_full (full : query.full result = true) (path : Text) : backend.grepFile query path result = .ok result :=
  if_pos full

theorem plainly_full (full : query.full result = true) (events : List (GrepEvent ε)) :
    plainly backend query events result = .ok result := by
  induction events with
  | nil => rfl
  | cons event rest ih =>
    cases event with
    | file path => rw [plainly, grepFile_full full, Except.bind, ih]
    | directory failure =>
      cases failure with
      | none => rw [plainly, ih]
      | some error => rw [plainly, if_pos full, ih]

theorem plainly_append (first second : List (GrepEvent ε)) (result : GrepResult) :
    plainly backend query (first ++ second) result = (plainly backend query first result).bind (plainly backend query second) := by
  induction first generalizing result with
  | nil => rfl
  | cons event rest ih =>
    cases event with
    | file path =>
      rw [cons_append, plainly, plainly]
      cases backend.grepFile query path result with
      | error error => rfl
      | ok next => exact ih next
    | directory failure =>
      cases failure with
      | none => exact ih result
      | some error =>
        rw [cons_append, plainly, plainly]
        by_cases full : query.full result = true
        · rw [if_pos full, if_pos full, ih]
        · rw [if_neg full, if_neg full]
          rfl

variable {events : List (GrepEvent ε)}

theorem planEntries_cons {plan : Text → Option (List (GrepEvent ε))} {currentPath : Text} {entry : FileInfo} {rest : List FileInfo} :
    planEntries plan currentPath (entry :: rest) = some events ↔ ∃ first others,
      plan (entryPath currentPath entry.name) = some first ∧ planEntries plan currentPath rest = some others ∧ events = first ++ others := by
  rw [planEntries]
  cases plan (entryPath currentPath entry.name) <;> cases planEntries plan currentPath rest <;> simp [eq_comm]

theorem grepEntries_plan {visit : Text → GrepResult → Option (Except ε GrepResult)} {plan : Text → Option (List (GrepEvent ε))}
    (each : ∀ path events, plan path = some events → ∀ result, visit path result = some (plainly backend query events result))
    (currentPath : Text) (entries : List FileInfo)
    (planned : planEntries plan currentPath entries = some events) (result : GrepResult) :
    grepEntries query visit currentPath entries result = some (plainly backend query events result) := by
  induction entries generalizing events result with
  | nil =>
    cases planned
    rfl
  | cons entry rest ih =>
    obtain ⟨first, others, firstPlan, restPlan, rfl⟩ := planEntries_cons.mp planned
    rw [grepEntries]
    by_cases full : query.full result = true
    · rw [if_pos full, plainly_full full]
    · rw [if_neg full, each _ first firstPlan, plainly_append]
      cases plainly backend query first result with
      | error error => rfl
      | ok next => exact ih restPlan next

variable {path : Text}

theorem grepInternal_plan (fuel : Nat) (planned : backend.plan query fuel path = some events)
    (result : GrepResult) : backend.grepInternal query fuel path result = some (plainly backend query events result) := by
  induction fuel generalizing path events result with
  | zero => cases planned
  | succ fuel ih =>
    rw [plan] at planned
    rw [grepInternal]
    by_cases full : query.full result = true
    · rw [if_pos full, plainly_full full]
    rw [if_neg full]
    by_cases excluded : query.excluded path = true
    · rw [if_pos excluded] at planned ⊢
      cases planned
      rfl
    rw [if_neg excluded] at planned ⊢
    cases found : backend.stat path with
    | error error => simp [found] at planned
    | ok info =>
      simp only [found] at planned ⊢
      by_cases isDir : info.isDir = true
      · rw [if_pos isDir] at planned ⊢
        by_cases skips : query.skipsDirectory path = true
        · rw [if_pos skips] at planned ⊢
          cases planned
          rfl
        rw [if_neg skips] at planned ⊢
        cases listed : backend.readDir path with
        | error error =>
          simp only [listed, Option.some.injEq] at planned ⊢
          subst planned
          rw [plainly, if_neg full]
        | ok entries =>
          simp only [listed] at planned ⊢
          obtain ⟨below, planBelow, rfl⟩ := Option.map_eq_some_iff.mp planned
          exact grepEntries_plan (fun path events planned result => ih planned result) path entries planBelow result
      · rw [if_neg isDir] at planned ⊢
        by_cases skips : query.skipsFile path = true
        · rw [if_pos skips] at planned ⊢
          cases planned
          rfl
        · rw [if_neg skips] at planned ⊢
          cases planned
          rw [plainly]
          cases backend.grepFile query path result <;> rfl

theorem planEntries_mono {plan more : Text → Option (List (GrepEvent ε))}
    (each : ∀ path events, plan path = some events → more path = some events) (currentPath : Text) (entries : List FileInfo) (planned : planEntries plan currentPath entries = some events) :
    planEntries more currentPath entries = some events := by
  induction entries generalizing events with
  | nil => exact planned
  | cons entry rest ih =>
    obtain ⟨first, others, firstPlan, restPlan, rfl⟩ := planEntries_cons.mp planned
    exact planEntries_cons.mpr ⟨first, others, each _ _ firstPlan, ih restPlan, rfl⟩

theorem plan_succ (fuel : Nat) (planned : backend.plan query fuel path = some events) :
    backend.plan query (fuel + 1) path = some events := by
  induction fuel generalizing path events with
  | zero => cases planned
  | succ fuel ih =>
    rw [plan] at planned ⊢
    by_cases excluded : query.excluded path = true
    · rwa [if_pos excluded] at planned ⊢
    rw [if_neg excluded] at planned ⊢
    cases found : backend.stat path with
    | error error => simp [found] at planned
    | ok info =>
      simp only [found] at planned ⊢
      by_cases isDir : info.isDir = true
      · rw [if_pos isDir] at planned ⊢
        by_cases skips : query.skipsDirectory path = true
        · rwa [if_pos skips] at planned ⊢
        rw [if_neg skips] at planned ⊢
        cases listed : backend.readDir path with
        | error error => rwa [listed] at planned
        | ok entries =>
          simp only [listed] at planned ⊢
          obtain ⟨below, planBelow, rfl⟩ := Option.map_eq_some_iff.mp planned
          rw [planEntries_mono (fun path events planned => ih planned) path entries planBelow]
          rfl
      · rwa [if_neg isDir] at planned ⊢

theorem plan_mono {fuel more : Nat} (enough : fuel ≤ more)
    (planned : backend.plan query fuel path = some events) : backend.plan query more path = some events := by
  induction enough with
  | refl => exact planned
  | step _ ih => exact plan_succ _ ih

theorem plan_unique {fuel more : Nat} {events others : List (GrepEvent ε)}
    (planned : backend.plan query fuel path = some events) (again : backend.plan query more path = some others) : events = others := by
  rcases Nat.le_total fuel more with enough | enough
  · exact Option.some.inj ((plan_mono enough planned).symm.trans again)
  · exact Option.some.inj (planned.symm.trans (plan_mono enough again))

variable {paths : Set Text}

theorem planEntries_exists (currentPath : Text) (entries : List FileInfo)
    (each : ∀ entry ∈ entries, ∃ fuel events, backend.plan query fuel (entryPath currentPath entry.name) = some events) :
    ∃ fuel events, planEntries (backend.plan query fuel) currentPath entries = some events := by
  induction entries with
  | nil => exact ⟨0, [], rfl⟩
  | cons entry rest ih =>
    obtain ⟨fuel, first, firstPlan⟩ := each entry mem_cons_self
    obtain ⟨more, others, restPlan⟩ := ih fun other member => each other (mem_cons_of_mem _ member)
    refine ⟨max fuel more, first ++ others, ?_⟩
    rw [planEntries, plan_mono (Nat.le_max_left fuel more) firstPlan,
      planEntries_mono (fun path events planned => plan_mono (Nat.le_max_right fuel more) planned) currentPath rest restPlan]

theorem DirectoryTree.plan_exists (tree : DirectoryTree backend paths path) :
    ∃ fuel events, backend.plan query fuel path = some events := by
  induction tree with
  | file path info known found isFile =>
    refine ⟨1, if query.excluded path then [] else if query.skipsFile path then [] else [.file path], ?_⟩
    simp only [plan, found, isFile, Bool.false_eq_true, if_false]
    split <;> [rfl; split <;> rfl]
  | unlisted path info error known found isDirectory failed =>
    refine ⟨1, if query.excluded path then [] else if query.skipsDirectory path then [.directory none]
      else [.directory (some error)], ?_⟩
    simp only [plan, found, isDirectory, failed, if_true]
    split <;> [rfl; split <;> rfl]
  | directory path info entries known found isDirectory listed agrees below ih =>
    obtain ⟨fuel, events, planned⟩ := planEntries_exists path entries ih
    refine ⟨fuel + 1, if query.excluded path then [] else if query.skipsDirectory path then [.directory none]
      else .directory none :: events, ?_⟩
    simp only [plan, found, isDirectory, listed, planned, if_true, Option.map_some]
    split <;> [rfl; split <;> rfl]

end Facts

end LoginomDock.CacheFs
