import LoginomDock.Git.CommitScoped
import LoginomDock.Git.History

/-! Each commit and each restore keeps the contract of its branch: it changes nothing before its swap, it swaps at most
once, and what it does afterwards leaves the ref alone. -/

namespace LoginomDock.Git

open List GitOp Waiting

variable {Oid ι : Type} [DecidableEq Oid] [ObjectHash Oid] [DecidableEq ι]

section Threads

variable {refName : Text} {initial : List Oid} {thread : ι} {world : GitWorld ι Oid} {α : Type}
  {answer : α → Answer Oid}

theorem respects_trailing {oid : Oid} {program : GitM Oid α}
    (trailing : Prog.Does (fun _ _ => True) Plain (fun value => advancedTo (.ok (answer value)) = some oid)
      (fun error => advancedTo (.error error : Except (GitError Oid) (Answer Oid)) = some oid) program)
    (advanced : Advanced refName thread oid world) :
    (branchContract refName initial).Respects gitMachine thread
      (fun result => Settled refName thread (result.map answer)) program.run world := by
  have ended : (branchContract refName initial).Respects gitMachine thread
      (fun result later => Prog.Ends (fun value => advancedTo (.ok (answer value)) = some oid)
        (fun error => advancedTo (.error error : Except (GitError Oid) (Answer Oid)) = some oid) result ∧
          Advanced refName thread oid later) program.run world :=
    .of_within (fun before later _ moves => Advanced.stable moves)
      (fun op before consistent holds plain _ =>
        ⟨consistent.plain plain, fun other => .plain consistent plain, by
          rw [Advanced, World.after, swapped_plain plain]
          exact holds⟩)
      trailing advanced
  refine ended.weaken fun result later _ holds => ?_
  cases result with
  | ok value => exact holds.2.settled holds.1
  | error error => exact holds.2.settled holds.1

theorem respects_writeObject (object : GitObject Oid) (waiting : Waiting refName thread world) :
    (branchContract refName initial).Respects gitMachine thread
      (fun result later => result = .ok (computeHash object) ∧ Waiting refName thread later ∧
        later.state.objects (computeHash object) = some object) (writeObject object).run world := by
  have put : (putObject (computeHash object) object).Peaceful := ⟨rfl, fun _ => ⟨rfl, rfl⟩⟩
  intro first consistent moves _
  refine ⟨consistent.plain put.1, fun other => .plain consistent put.1, ?_⟩
  have waitingPut := (waiting.stable moves).peaceful put
  intro last _ movesOn
  exact ⟨rfl, waitingPut.stable movesOn, movesOn.extend _ _ (Function.update_self _ _ _)⟩

theorem respects_writeCommit {tree : Oid} {parents : List Oid} {name email message : Text}
    (waiting : Waiting refName thread world) :
    (branchContract refName initial).Respects gitMachine thread
      (fun result later => ∃ oid commit, result = .ok oid ∧ Waiting refName thread later ∧
        later.state.objects oid = some (.commit commit) ∧ commit.parents = parents)
      (writeCommit tree parents name email message).run world := by
  have now : (GitOp.now : GitOp Oid).Peaceful := ⟨trivial, fun _ => ⟨rfl, rfl⟩⟩
  intro first consistent moves _
  refine ⟨consistent.plain now.1, fun other => .plain consistent now.1, ?_⟩
  have waitingNow := (waiting.stable moves).peaceful now
  refine (respects_writeObject _ waitingNow).weaken fun result later _ ⟨success, waitingLater, stored⟩ => ?_
  exact ⟨_, _, success, waitingLater, stored, rfl⟩

theorem respects_commit_and_swap {tree : Oid} {parent : Option Oid} {name email message : Text}
    {next : Oid → GitM Oid α} (waiting : Waiting refName thread world)
    (trailing : ∀ oid, Prog.Does (fun _ _ => True) Plain
      (fun value => advancedTo (.ok (answer value)) = some oid)
      (fun error => advancedTo (.error error : Except (GitError Oid) (Answer Oid)) = some oid) (next oid)) :
    (branchContract refName initial).Respects gitMachine thread
      (fun result => Settled refName thread (result.map answer))
      (do
        let oid ← writeCommit tree parent.toList name email message
        advanceRef refName parent oid
        next oid).run world := by
  have written : (branchContract refName initial).Respects gitMachine thread _
      (writeCommit tree parent.toList name email message).run world := respects_writeCommit waiting
  refine written.bind fun result later _ ⟨oid, commit, success, waitingLater, stored, parents⟩ => ?_
  subst success
  have head : commit.parents.head? = parent := by
    rw [parents]
    cases parent <;> rfl
  have swap : (branchContract refName initial).Respects gitMachine thread _
      (advanceRef refName parent oid).run later := respects_advanceRef waitingLater stored head
  refine swap.bind fun outcome last _ after => ?_
  cases outcome with
  | ok => exact respects_trailing (trailing oid) after
  | error error =>
    intro final _ moves
    refine settled (after.1.stable moves) ?_
    cases error with
    | restoreWritebackPartial report => exact absurd rfl (after.2 report)
    | _ => rfl

end Threads

section Commit

variable {refName : Text} {initial : List Oid} {thread : ι} {world : GitWorld ι Oid}

section

variable (service : GitService Oid)

include service

theorem does_saveIndex (branch : Text) (parent : Oid)
    (entries : Table Text (IndexEntry Oid)) (fails : GitError Oid → Prop) :
    Prog.Does (fun _ _ => True) Peaceful (fun _ => True) fails (saveIndex service branch parent entries) := by
  unfold saveIndex
  split
  · exact Prog.Does.perform (GitOp.saveIndex branch _) ⟨trivial, fun _ => ⟨rfl, rfl⟩⟩
  · exact Prog.Does.pure trivial

theorem peaceful_loadIndex (branch : Text) (prevHead : Option Oid) :
    GitM.Peaceful (loadIndex service branch prevHead) := by
  unfold loadIndex
  split
  · refine Prog.Does.bind (Prog.Does.perform (GitOp.loadIndex branch) ⟨trivial, fun _ => ⟨rfl, rfl⟩⟩) fun loaded _ => ?_
    split <;> exact (GitM.Quiet.pure _).peaceful
  · exact (GitM.Quiet.pure _).peaceful

theorem respects_finishCommit (req : CommitRequest) (prevHead : Option Oid) (ignored : Nat)
    (compared : Progress Oid) (waiting : Waiting (refNameOf req.branch) thread world) :
    (branchContract (refNameOf req.branch) initial).Respects gitMachine thread
      (fun result => Settled (refNameOf req.branch) thread (result.map Answer.committed))
      (finishCommit service req prevHead ignored compared).run world := by
  unfold finishCommit
  split
  · cases prevHead with
    | none => exact fun later _ moves => settled (waiting.stable moves) rfl
    | some parent =>
      refine respects_peaceful_bind (does_saveIndex _ _ _ _ _) waiting fun _ later waitingLater => ?_
      exact fun last _ moves => settled (waitingLater.stable moves) rfl
  · refine respects_peaceful_bind (TreeEditor.quiet_write _).peaceful waiting fun newTree later waitingLater => ?_
    refine respects_commit_and_swap waitingLater fun oid => ?_
    have save := (does_saveIndex service req.branch oid compared.indexEntries fun error =>
      advancedTo (.error error : Except (GitError Oid) (Answer Oid)) = some oid).weaken
        (fun _ => And.left) (fun _ => id) fun _ => id
    exact save.bind fun _ _ => Prog.Does.pure rfl

theorem respects_commit (fuel : Nat) (req : CommitRequest)
    (waiting : Waiting (refNameOf req.branch) thread world) :
    (branchContract (refNameOf req.branch) initial).Respects gitMachine thread
      (fun result => Settled (refNameOf req.branch) thread (result.map Answer.committed))
      (commit service fuel req).run world := by
  refine respects_peaceful_bind (quiet_liftGit (early_validateAccountId _)).peaceful waiting fun _ _ waiting => ?_
  refine respects_peaceful_bind (quiet_validatePaths _).peaceful waiting fun _ _ waiting => ?_
  refine respects_peaceful_bind (quiet_loadIgnoreMatcher service).peaceful waiting fun matcher _ waiting => ?_
  refine respects_peaceful_bind (quiet_readRef _).peaceful waiting fun prevHead _ waiting => ?_
  refine respects_peaceful_bind (quiet_prevTreeOf _).peaceful waiting fun prevTree _ waiting => ?_
  refine respects_peaceful_bind (peaceful_loadIndex _ _ _) waiting fun prevIndex _ waiting => ?_
  refine respects_peaceful_bind (quiet_editorOf _).peaceful waiting fun editor _ waiting => ?_
  refine respects_peaceful_bind (quiet_gather _ _ _ _ _).peaceful waiting fun gathered _ waiting => ?_
  refine respects_peaceful_bind (quiet_compareCandidates _ _ _ _ _).peaceful waiting fun compared _ waiting => ?_
  exact respects_finishCommit service req prevHead gathered.ignored compared waiting

end

end Commit

section Restore

variable {initial : List Oid} {thread : ι} {world : GitWorld ι Oid}

abbrev LeavesRefs {α : Type} (fails : GitError Oid → Prop) (program : GitM Oid α) : Prop :=
  Prog.Does (fun _ _ => True) Plain (fun _ => True) fails program

theorem GitM.Quiet.leavesRefs {α : Type} {program : GitM Oid α} (quiet : GitM.Quiet program) :
    LeavesRefs (fun _ => True) program :=
  Prog.Does.weaken quiet (fun _ allowed => allowed.plain) (fun _ => id) fun _ _ => trivial

theorem leavesRefs_attempt {α : Type} {program : GitM Oid α} (leaves : LeavesRefs (fun _ => True) program)
    (fails : GitError Oid → Prop) : LeavesRefs fails (attempt program) :=
  Prog.Within.bind (show Prog.Within _ _ _ program.run from leaves) fun _ _ => trivial

theorem leavesRefs_makeDirs (dirs : List Text) : LeavesRefs (fun _ => True) (makeDirs dirs : GitM Oid Unit) := by
  induction dirs with
  | nil => exact .pure trivial
  | cons dir rest ih =>
    refine .bind (.perform (mkdir dir) trivial) fun made _ => ?_
    split
    · exact ih
    · exact ih
    · exact .throw trivial

theorem leavesRefs_writeBack (path : Text) (blobOid : Oid) : LeavesRefs (fun _ => True) (writeBack path blobOid) := by
  have payload : GitM.Quiet (readBlobPayload blobOid) := by
    refine .bind (quiet_readObject blobOid) fun object => ?_
    cases object with
    | blob => exact .pure _
    | tree | commit => exact .throw trivial
  refine .bind payload.leavesRefs fun bytes _ => .bind (leavesRefs_makeDirs _) fun _ _ => ?_
  exact .bind (.perform (writeFile path bytes) trivial) fun written _ => (quiet_liftFs written).leavesRefs

theorem leavesRefs_deleteBack (path : Text) : LeavesRefs (fun _ => True) (deleteBack path : GitM Oid Unit) := by
  refine .bind (.perform (removeFile path) trivial) fun removed _ => ?_
  split
  · exact .pure trivial
  · split
    · exact .pure trivial
    · exact .throw trivial

theorem leavesRefs_eachPath {α : Type} {path : α → Text} {program : α → GitM Oid Unit}
    (leaves : ∀ item, LeavesRefs (fun _ => True) (program item)) (fails : GitError Oid → Prop) (items : List α) :
    LeavesRefs fails (eachPath path program items) := by
  induction items with
  | nil => exact .pure trivial
  | cons item rest ih =>
    exact .bind (leavesRefs_attempt (leaves item) fails) fun _ _ => .bind ih fun _ _ => .pure trivial

theorem leavesRefs_pruneDirs (projectDir : Option Text) (fails : GitError Oid → Prop) (dirs : List Text) :
    LeavesRefs fails (pruneDirs projectDir dirs : GitM Oid Unit) := by
  induction dirs with
  | nil => exact .pure trivial
  | cons dir rest ih =>
    refine .bind (.perform (readDir _) trivial) fun listed _ => ?_
    split
    · exact .bind (.perform (removeFile _) trivial) fun _ _ => ih
    · exact ih

theorem does_finishRestore (projectDir : Option Text) (diff : RestoreDiff Oid) (newCommitOid sourceOid headOid : Oid) :
    Prog.Does (fun _ _ => True) Plain
      (fun response => advancedTo (.ok (.restored response)) = some newCommitOid)
      (fun error => advancedTo (.error error : Except (GitError Oid) (Answer Oid)) = some newCommitOid)
      (finishRestore projectDir diff newCommitOid sourceOid headOid) := by
  refine .bind (leavesRefs_eachPath (fun file => leavesRefs_writeBack _ _) _ _) fun writes _ => ?_
  refine .bind (leavesRefs_eachPath (fun rel => leavesRefs_deleteBack _) _ _) fun deletes _ => ?_
  refine .bind (leavesRefs_pruneDirs _ _ _) fun _ _ => ?_
  split
  · exact .throw rfl
  · exact .pure rfl

variable [OidText Oid]

theorem respects_restore (fuel : Nat) (req : RestoreRequest) (waiting : Waiting (refNameOf req.branch) thread world) :
    (branchContract (refNameOf req.branch) initial).Respects gitMachine thread
      (fun result => Settled (refNameOf req.branch) thread (result.map Answer.restored))
      (restore fuel req).run world := by
  refine respects_peaceful_bind (quiet_liftGit (early_validateAccountId _)).peaceful waiting fun _ _ waiting => ?_
  refine respects_peaceful_bind (quiet_validateProjectDirOf _).peaceful waiting fun _ _ waiting => ?_
  refine respects_peaceful_bind (quiet_resolveRef _ _).peaceful waiting fun sourceOid _ waiting => ?_
  refine respects_peaceful_bind (quiet_readHead _).peaceful waiting fun headOid _ waiting => ?_
  refine respects_peaceful_bind (quiet_loadCommitMeta _).peaceful waiting fun sourceMeta _ waiting => ?_
  refine respects_peaceful_bind (quiet_loadCommitMeta _).peaceful waiting fun headMeta _ waiting => ?_
  refine respects_peaceful_bind (quiet_restoredTrees _ _ _ _).peaceful waiting fun trees _ waiting => ?_
  refine respects_peaceful_bind (quiet_flatten _ _ _).peaceful waiting fun sourceEntries _ waiting => ?_
  refine respects_peaceful_bind (quiet_flattenHead _ _).peaceful waiting fun headEntries _ waiting => ?_
  simp only
  split
  · exact fun later _ moves => settled (waiting.stable moves) rfl
  · split
    · exact fun later _ moves => settled (waiting.stable moves) rfl
    · refine respects_peaceful_bind (quiet_restoredTree _ _ _).peaceful waiting fun newTree _ waiting => ?_
      rw [show [headOid] = (some headOid).toList from rfl]
      exact respects_commit_and_swap waiting fun oid => does_finishRestore _ _ oid _ _

end Restore

section Runs

variable [OidText Oid]

theorem Settled.stable {refName : Text} {thread : ι} {world later : GitWorld ι Oid}
    {result : Except (GitError Oid) (Answer Oid)} (moves : Undisturbed refName thread world later)
    (settled : Settled refName thread result world) : Settled refName thread result later :=
  ⟨moves.swaps.trans settled.swaps,
    fun name expected actual lost op member => settled.lost name expected actual lost op (moves.calls op member)⟩

theorem respects_call (call : Call Oid) {initial : List Oid} {thread : ι} {world : GitWorld ι Oid}
    (waiting : Waiting (refNameOf call.branch) thread world) :
    (branchContract (refNameOf call.branch) initial).Respects gitMachine thread
      (Settled (refNameOf call.branch) thread) call.program.run world := by
  cases call with
  | commit service fuel req =>
    refine Contract.Respects.bind (respects_commit service fuel req waiting) fun result later _ settled => ?_
    cases result <;> exact fun last _ moves => settled.stable moves
  | restore fuel req =>
    refine Contract.Respects.bind (respects_restore fuel req waiting) fun result later _ settled => ?_
    cases result <;> exact fun last _ moves => settled.stable moves

structure NoneLost (refName : Text) (initial : List Oid) (pool : GitPool ι Oid) (swaps : List (ι × Oid)) : Prop where
  head : pool.state.refs.lookup refName = (swaps.map Prod.snd ++ initial).head?
  chain : FirstParentChain pool.state.objects (swaps.map Prod.snd ++ initial)
  reported : ∀ thread result oid, pool.threads thread = .done result → advancedTo result = some oid →
    (thread, oid) ∈ swaps ∧ (swaps.map Prod.fst).count thread = 1 ∧ (swaps.map Prod.snd ++ initial).count oid = 1
  unreported : ∀ thread result, pool.threads thread = .done result → advancedTo result = none →
    thread ∉ swaps.map Prod.fst
  lost : ∀ thread name expected actual,
    pool.threads thread = .done (.error (.concurrentCommit name expected actual)) →
      ∀ op, (thread, op) ∈ pool.log → op.Harmless

theorem count_thread (swaps : List (ι × Oid)) (thread : ι) :
    (swaps.map Prod.fst).count thread = (swaps.filter (·.1 = thread)).length := by
  rw [List.count, countP_map, countP_eq_length_filter]
  rfl

theorem noneLost_of_holds {refName : Text} {initial : List Oid} {pool : GitPool ι Oid}
    (holds : (branchContract refName initial).Holds gitMachine (Settled refName) pool) :
    NoneLost refName initial pool (swapped refName pool.log) where
  head := holds.invariant.head
  chain := holds.invariant.chain
  reported := by
    intro thread result oid ended reports
    have own := (holds.finished ended).swaps
    rw [reports] at own
    have member : (thread, oid) ∈ (swapped refName pool.log).filter (·.1 = thread) := by
      rw [own]
      exact mem_singleton_self _
    refine ⟨(mem_filter.mp member).1, by rw [count_thread, own]; rfl, ?_⟩
    refine count_eq_one_of_mem holds.invariant.chain.nodup (mem_append_left _ ?_)
    exact mem_map_of_mem (mem_filter.mp member).1
  unreported := by
    intro thread result ended reports member
    have own := (holds.finished ended).swaps
    rw [reports] at own
    have count := count_pos_iff.mpr member
    rw [count_thread, own] at count
    exact absurd count (by simp)
  lost := fun thread name expected actual ended => (holds.finished ended).lost name expected actual rfl

end Runs

theorem no_commit_lost [OidText Oid] (calls : ι → Call Oid) (branch : Text)
    (sameBranch : ∀ thread, (calls thread).branch = branch) (repo : Repository Oid) (initial : List Oid)
    (addressed : Addressed repo.objects) (chain : FirstParentChain repo.objects initial)
    (head : repo.refs.lookup (refNameOf branch) = initial.head?) (unlocked : refNameOf branch ∉ repo.refLocks)
    (pool : GitPool ι Oid) (reached : Pool.Reaches gitMachine (startPool calls repo) pool) :
    ∃ swaps, NoneLost (refNameOf branch) initial pool swaps := by
  have start : (branchContract (refNameOf branch) initial).Holds gitMachine (Settled (refNameOf branch))
      (startPool calls repo) := by
    refine ⟨⟨addressed, head, chain, ?_⟩, fun thread => ?_⟩
    · simp [startPool, holder, count_eq_zero_of_not_mem unlocked]
    · rw [← sameBranch thread]
      exact respects_call (calls thread) ⟨by simp [startPool, holder], by simp [startPool], rfl⟩
  exact ⟨_, noneLost_of_holds (start.reaches reached)⟩

theorem historyOf_suffix {refName : Text} {initial : List Oid} {earlier log : List (ι × GitOp Oid)}
    (suffix : earlier <:+ log) : historyOf refName initial earlier <:+ historyOf refName initial log := by
  obtain ⟨newer, rfl⟩ := suffix
  induction newer with
  | nil => exact suffix_refl _
  | cons entry newer ih =>
    refine ih.trans ?_
    obtain ⟨thread, op⟩ := entry
    cases op with
    | replaceRef name oid =>
      simp only [cons_append, historyOf, swapped]
      split
      · exact suffix_cons _ _
      · exact suffix_refl _
    | _ => exact suffix_refl _

theorem history_only_grows [OidText Oid] (calls : ι → Call Oid) (branch : Text)
    (sameBranch : ∀ thread, (calls thread).branch = branch) (repo : Repository Oid) (initial : List Oid)
    (addressed : Addressed repo.objects) (chain : FirstParentChain repo.objects initial)
    (head : repo.refs.lookup (refNameOf branch) = initial.head?) (unlocked : refNameOf branch ∉ repo.refLocks)
    {first last : GitPool ι Oid} (reached : Pool.Reaches gitMachine (startPool calls repo) first)
    (onward : Pool.Reaches gitMachine first last) :
    ∃ earlier later, earlier <:+ later ∧
      first.state.refs.lookup (refNameOf branch) = earlier.head? ∧ FirstParentChain first.state.objects earlier ∧
      last.state.refs.lookup (refNameOf branch) = later.head? ∧ FirstParentChain last.state.objects later := by
  have start : (branchContract (refNameOf branch) initial).Holds gitMachine (Settled (refNameOf branch))
      (startPool calls repo) := by
    refine ⟨⟨addressed, head, chain, ?_⟩, fun thread => ?_⟩
    · simp [startPool, holder, count_eq_zero_of_not_mem unlocked]
    · rw [← sameBranch thread]
      exact respects_call (calls thread) ⟨by simp [startPool, holder], by simp [startPool], rfl⟩
  have before := (start.reaches reached).invariant
  have after := (start.reaches (reached.trans onward)).invariant
  exact ⟨_, _, historyOf_suffix (Pool.log_suffix onward), before.head, before.chain, after.head, after.chain⟩

section Instances

instance (op : GitOp Oid) (repo : Repository Oid) : Decidable (gitMachine.enabled op repo) :=
  match op with
  | .lockRef refName => inferInstanceAs (Decidable (refName ∉ repo.refLocks))
  | .getObject _ | .objectExists _ | .putObject _ _ | .readRef _ | .listRefs | .unlockRef _ | .replaceRef _ _
  | .stat _ | .readFile _ | .treeDirectory _ | .readDir _ | .writeFile _ _ | .mkdir _ | .removeFile _
  | .loadIndex _ | .saveIndex _ _ | .now => Decidable.isTrue trivial

/-- No call below spells an id out. -/
instance : OidText Digest where
  toHex _ := []
  fromHex _ := none

def bothCommit (_ : Bool) : Call Digest := .commit plainService 2 (mainRequest none)

-- The first call is ready to swap when the second one runs from start to end.
def overtaken : List Bool := List.replicate 12 false ++ List.replicate 20 true ++ List.replicate 5 false

/-- Of two commits of the same change one is recorded and the other one loses the race. -/
theorem overtaken_commit_not_lost :
    ∃ pool : GitPool Bool Digest, Pool.Reaches gitMachine (startPool bothCommit fileRewritten) pool ∧
      (∃ oid, pool.threads true = .done (.ok (.committed (.created oid 1 0)))) ∧
      (∃ name expected actual, pool.threads false = .done (.error (.concurrentCommit name expected actual))) ∧
      ∃ swaps, NoneLost (refNameOf "main") [computeHash (.commit fileCommit)] pool swaps := by
  refine ⟨_, Pool.reaches_follow gitMachine overtaken _, ⟨_, by rfl⟩, ⟨_, _, _, by rfl⟩, ?_⟩
  refine no_commit_lost bothCommit "main" (fun _ => rfl) fileRewritten [computeHash (.commit fileCommit)]
    fileCommitted_addressed ⟨⟨fileCommit, by rfl, rfl⟩, trivial⟩ (by rfl) (by decide) _
    (Pool.reaches_follow gitMachine overtaken _)

def readyToSwap : GitPool Bool Digest := Pool.follow gitMachine (replicate 12 false) (startPool bothCommit fileRewritten)

def otherCommitted : GitPool Bool Digest := Pool.follow gitMachine (replicate 20 true) readyToSwap

theorem overtaken_history_grows :
    ∃ earlier later, earlier <:+ later ∧
      readyToSwap.state.refs.lookup (refNameOf "main") = earlier.head? ∧ FirstParentChain readyToSwap.state.objects earlier ∧
      otherCommitted.state.refs.lookup (refNameOf "main") = later.head? ∧ FirstParentChain otherCommitted.state.objects later :=
  history_only_grows bothCommit "main" (fun _ => rfl) fileRewritten [computeHash (.commit fileCommit)] fileCommitted_addressed
    ⟨⟨fileCommit, by rfl, rfl⟩, trivial⟩ (by rfl) (by decide) (Pool.reaches_follow _ _ _) (Pool.reaches_follow _ _ _)

end Instances

end LoginomDock.Git
