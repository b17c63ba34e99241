import LoginomDock.Library.Interleave
import LoginomDock.Git.Quiet
import LoginomDock.Git.CommitSnapshot

namespace LoginomDock.Git

open List

variable {Oid ι : Type} [DecidableEq Oid] [ObjectHash Oid] [DecidableEq ι]

section Calls

inductive Call (Oid : Type) where
  | commit (service : GitService Oid) (fuel : Nat) (req : CommitRequest)
  | restore (fuel : Nat) (req : RestoreRequest)

inductive Answer (Oid : Type) where
  | committed (response : CommitResponse Oid)
  | restored (response : RestoreResponse Oid)

def Call.branch : Call Oid → Text
  | .commit _ _ req => req.branch
  | .restore _ req => req.branch

def Call.program [OidText Oid] : Call Oid → GitM Oid (Answer Oid)
  | .commit service fuel req => do
      let response ← Git.commit service fuel req
      pure (.committed response)
  | .restore fuel req => do
      let response ← Git.restore fuel req
      pure (.restored response)

def advancedTo : Except (GitError Oid) (Answer Oid) → Option Oid
  | .ok (.committed (.created commitOid _ _)) => some commitOid
  | .ok (.restored (.applied newCommitOid _ _ _ _ _ _ _)) => some newCommitOid
  | .error (.restoreWritebackPartial report) => some report.newCommitOid
  | _ => none

-- The mutex of a ref is taken only while it is free.
def gitMachine : Machine (GitOp Oid) GitOp.Res (Repository Oid) where
  handle := Repository.handle
  enabled op repo :=
    match op with
    | .lockRef refName => refName ∉ repo.refLocks
    | _ => True

abbrev GitPool (ι Oid : Type) := Pool ι (GitOp Oid) GitOp.Res (Except (GitError Oid) (Answer Oid)) (Repository Oid)

abbrev GitWorld (ι Oid : Type) := World ι (GitOp Oid) (Repository Oid)

def startPool [OidText Oid] (calls : ι → Call Oid) (repo : Repository Oid) : GitPool ι Oid where
  state := repo
  log := []
  threads thread := (calls thread).program.run

end Calls

section Chain

def FirstParentChain (objects : Oid → Option (GitObject Oid)) : List Oid → Prop
  | [] => True
  | oid :: rest =>
    (∃ commit, objects oid = some (.commit commit) ∧ commit.parents.head? = rest.head?) ∧
      FirstParentChain objects rest

namespace FirstParentChain

variable {objects more : Oid → Option (GitObject Oid)} {oid : Oid} {rest other : List Oid}

theorem extend (chain : FirstParentChain objects rest) (extends' : Extends objects more) :
    FirstParentChain more rest := by
  induction rest with
  | nil => exact trivial
  | cons oid rest ih =>
    obtain ⟨⟨commit, found, parent⟩, below⟩ := chain
    exact ⟨⟨commit, extends' oid _ found, parent⟩, ih below⟩

theorem suffix {newer : List Oid} (chain : FirstParentChain objects (newer ++ rest)) :
    FirstParentChain objects rest := by
  induction newer with
  | nil => exact chain
  | cons oid newer ih => exact ih chain.2

theorem unique (first : FirstParentChain objects (oid :: rest)) (second : FirstParentChain objects (oid :: other)) :
    rest = other := by
  induction rest generalizing oid other with
  | nil =>
    obtain ⟨⟨commit, found, parent⟩, -⟩ := first
    obtain ⟨⟨again, foundAgain, sameParent⟩, -⟩ := second
    rw [found] at foundAgain
    cases foundAgain
    rw [parent] at sameParent
    cases other with
    | nil => rfl
    | cons => cases sameParent
  | cons next rest ih =>
    obtain ⟨⟨commit, found, parent⟩, below⟩ := first
    obtain ⟨⟨again, foundAgain, sameParent⟩, belowToo⟩ := second
    rw [found] at foundAgain
    cases foundAgain
    rw [parent] at sameParent
    cases other with
    | nil => cases sameParent
    | cons last other =>
      cases sameParent
      rw [ih below belowToo]

theorem nodup (chain : FirstParentChain objects rest) : rest.Nodup := by
  induction rest with
  | nil => exact nodup_nil
  | cons oid rest ih =>
    refine nodup_cons.mpr ⟨fun member => ?_, ih chain.2⟩
    obtain ⟨newer, older, split⟩ := append_of_mem member
    have below : FirstParentChain objects (oid :: older) := by
      have tail := chain.2
      rw [split] at tail
      exact tail.suffix
    have same := unique chain below
    rw [same] at split
    have size := congrArg List.length split
    simp only [List.length_append, length_cons] at size
    omega

end FirstParentChain

end Chain

section Log

def swapped (refName : Text) : List (ι × GitOp Oid) → List (ι × Oid)
  | [] => []
  | (thread, .replaceRef name oid) :: rest =>
    if name = refName then (thread, oid) :: swapped refName rest else swapped refName rest
  | _ :: rest => swapped refName rest

def holder (refName : Text) : List (ι × GitOp Oid) → Option ι
  | [] => none
  | (thread, .lockRef name) :: rest => if name = refName then some thread else holder refName rest
  | (_, .unlockRef name) :: rest => if name = refName then none else holder refName rest
  | _ :: rest => holder refName rest

-- Calls that leave refs and files as they are.
def GitOp.Harmless (op : GitOp Oid) : Prop :=
  ∀ repo, (Repository.handle op repo).2.refs = repo.refs ∧ (Repository.handle op repo).2.workTree = repo.workTree

def historyOf (refName : Text) (initial : List Oid) (log : List (ι × GitOp Oid)) : List Oid :=
  (swapped refName log).map Prod.snd ++ initial

end Log

section Contract

variable (refName : Text) (initial : List Oid)

structure Consistent (world : GitWorld ι Oid) : Prop where
  addressed : Addressed world.state.objects
  head : world.state.refs.lookup refName = (historyOf refName initial world.log).head?
  chain : FirstParentChain world.state.objects (historyOf refName initial world.log)
  locks : world.state.refLocks.count refName = if (holder refName world.log).isSome then 1 else 0

structure Undisturbed (thread : ι) (before after : GitWorld ι Oid) : Prop where
  extend : Extends before.state.objects after.state.objects
  held : holder refName before.log = some thread →
    holder refName after.log = some thread ∧ after.state.refs.lookup refName = before.state.refs.lookup refName
  free : holder refName before.log ≠ some thread → holder refName after.log ≠ some thread
  calls : ∀ op, (thread, op) ∈ after.log → (thread, op) ∈ before.log
  swaps : (swapped refName after.log).filter (·.1 = thread) = (swapped refName before.log).filter (·.1 = thread)

def branchContract : Contract ι (GitOp Oid) (Repository Oid) where
  invariant := Consistent refName initial
  rely := Undisturbed refName
  refl _ _ := ⟨.refl _, fun held => ⟨held, rfl⟩, id, fun _ => id, rfl⟩
  trans thread first second third left right := by
    refine ⟨left.extend.trans right.extend, fun held => ?_, fun free => right.free (left.free free),
      fun op member => left.calls op (right.calls op member), right.swaps.trans left.swaps⟩
    obtain ⟨heldOn, same⟩ := left.held held
    obtain ⟨heldLast, sameLast⟩ := right.held heldOn
    exact ⟨heldLast, sameLast.trans same⟩

def GitOp.Plain : GitOp Oid → Prop
  | .putObject oid object => computeHash object = oid
  | .lockRef _ => False
  | .unlockRef _ => False
  | .replaceRef _ _ => False
  | _ => True

-- Calls that can come before the swap: they change no ref and no file.
def GitOp.Peaceful (op : GitOp Oid) : Prop := op.Plain ∧ op.Harmless

theorem GitOp.Quiet.plain {op : GitOp Oid} (quiet : op.Quiet) : op.Plain := by
  cases op <;> first | exact quiet | exact trivial

theorem GitOp.Quiet.harmless {op : GitOp Oid} (quiet : op.Quiet) : op.Harmless := by
  intro repo
  cases op with
  | getObject oid =>
    simp only [Repository.handle]
    split <;> exact ⟨rfl, rfl⟩
  | putObject | objectExists | readRef | listRefs | stat | readFile | treeDirectory | readDir | now =>
    exact ⟨rfl, rfl⟩
  | lockRef | unlockRef | replaceRef | writeFile | mkdir | removeFile | loadIndex | saveIndex => cases quiet

variable {refName initial} {world : GitWorld ι Oid} {thread : ι} {op : GitOp Oid}

theorem swapped_plain (plain : op.Plain) (log : List (ι × GitOp Oid)) :
    swapped refName ((thread, op) :: log) = swapped refName log := by
  cases op <;> first | rfl | cases plain

theorem holder_plain (plain : op.Plain) (log : List (ι × GitOp Oid)) :
    holder refName ((thread, op) :: log) = holder refName log := by
  cases op <;> first | rfl | cases plain

-- What a plain call leaves as it is.
structure PlainStep (before after : Repository Oid) : Prop where
  addressed : Addressed after.objects
  extend : Extends before.objects after.objects
  refs : after.refs = before.refs
  locks : after.refLocks = before.refLocks

theorem handle_plain {repo : Repository Oid} (addressed : Addressed repo.objects) (plain : op.Plain) :
    PlainStep repo (Repository.handle op repo).2 := by
  cases op with
  | putObject oid object =>
    obtain rfl : computeHash object = oid := plain
    exact ⟨Repository.store_addressed addressed object, Repository.store_extends addressed object, rfl, rfl⟩
  | getObject oid =>
    simp only [Repository.handle]
    split <;> exact ⟨addressed, .refl _, rfl, rfl⟩
  | objectExists | readRef | listRefs | stat | readFile | treeDirectory | readDir | now =>
    exact ⟨addressed, .refl _, rfl, rfl⟩
  | writeFile | mkdir | removeFile | loadIndex | saveIndex => exact ⟨addressed, .refl _, rfl, rfl⟩
  | lockRef | unlockRef | replaceRef => cases plain

theorem Consistent.plain (consistent : Consistent refName initial world) (plain : op.Plain) :
    Consistent refName initial (world.after gitMachine thread op) := by
  have step := handle_plain consistent.addressed plain
  refine ⟨step.addressed, ?_, ?_, ?_⟩
  · rw [World.after, historyOf, swapped_plain plain]
    exact (congrArg (AList.lookup refName) step.refs).trans consistent.head
  · rw [World.after, historyOf, swapped_plain plain]
    exact consistent.chain.extend step.extend
  · rw [World.after, holder_plain plain]
    exact (congrArg (List.count refName) step.locks).trans consistent.locks

theorem Undisturbed.plain (consistent : Consistent refName initial world) (plain : op.Plain) {other : ι}
    (different : other ≠ thread) : Undisturbed refName other world (world.after gitMachine thread op) := by
  have step := handle_plain consistent.addressed plain
  refine ⟨step.extend, fun held => ⟨?_, ?_⟩, fun free => ?_, fun call member => ?_, ?_⟩
  · rw [World.after, holder_plain plain]
    exact held
  · exact congrArg (AList.lookup refName) step.refs
  · rw [World.after, holder_plain plain]
    exact free
  · rcases mem_cons.mp member with same | before
    · cases same
      exact absurd rfl different
    · exact before
  · rw [World.after, swapped_plain plain]

theorem Undisturbed.of_ref_call {before after : GitWorld ι Oid} {other : ι} (different : other ≠ thread)
    (notHeld : holder refName before.log ≠ some other) (notHeldAfter : holder refName after.log ≠ some other)
    (objects : after.state.objects = before.state.objects) (log : after.log = (thread, op) :: before.log)
    (swaps : (swapped refName after.log).filter (·.1 = other) = (swapped refName before.log).filter (·.1 = other)) :
    Undisturbed refName other before after := by
  refine ⟨objects ▸ .refl _, fun held => absurd held notHeld, fun _ => notHeldAfter, fun call member => ?_, swaps⟩
  rw [log] at member
  rcases mem_cons.mp member with same | earlier
  · cases same
    exact absurd rfl different
  · exact earlier

section

variable (consistent : Consistent refName initial world)

include consistent

theorem Consistent.holder_of_unlocked
    (unlocked : refName ∉ world.state.refLocks) : holder refName world.log = none := by
  have count := consistent.locks
  rw [count_eq_zero_of_not_mem unlocked] at count
  split at count
  · omega
  next free => simpa using free

theorem Consistent.lock
    (unlocked : refName ∉ world.state.refLocks) :
    Consistent refName initial (world.after gitMachine thread (.lockRef refName)) := by
  refine ⟨consistent.addressed, consistent.head, consistent.chain, ?_⟩
  simp [gitMachine, Repository.handle, holder, count_eq_zero_of_not_mem unlocked]

theorem Consistent.unlock
    (held : holder refName world.log = some thread) :
    Consistent refName initial (world.after gitMachine thread (.unlockRef refName)) := by
  refine ⟨consistent.addressed, consistent.head, consistent.chain, ?_⟩
  have count := consistent.locks
  rw [held] at count
  simp [gitMachine, Repository.handle, holder, count]

theorem Consistent.swap {new : Oid} {commit : Commit Oid}
    (stored : world.state.objects new = some (.commit commit))
    (parent : commit.parents.head? = world.state.refs.lookup refName) :
    Consistent refName initial (world.after gitMachine thread (.replaceRef refName new)) := by
  have history : historyOf refName initial (world.after gitMachine thread (.replaceRef refName new)).log =
      new :: historyOf refName initial world.log := by
    simp [historyOf, swapped]
  refine ⟨consistent.addressed, ?_, ?_, consistent.locks⟩
  · rw [history]
    simp [gitMachine, Repository.handle]
  · rw [history]
    exact ⟨⟨commit, stored, parent.trans consistent.head⟩, consistent.chain⟩

end

end Contract

section Threads

variable (refName : Text) (initial : List Oid)

structure Waiting (thread : ι) (world : GitWorld ι Oid) : Prop where
  free : holder refName world.log ≠ some thread
  harmless : ∀ op, (thread, op) ∈ world.log → op.Harmless
  swaps : (swapped refName world.log).filter (·.1 = thread) = []

def Advanced (thread : ι) (oid : Oid) (world : GitWorld ι Oid) : Prop :=
  (swapped refName world.log).filter (·.1 = thread) = [(thread, oid)]

variable {refName initial} {thread : ι} {world later : GitWorld ι Oid}

theorem Waiting.stable (moves : Undisturbed refName thread world later) (waiting : Waiting refName thread world) :
    Waiting refName thread later :=
  ⟨moves.free waiting.free, fun op member => waiting.harmless op (moves.calls op member),
    moves.swaps.trans waiting.swaps⟩

theorem Advanced.stable {oid : Oid} (moves : Undisturbed refName thread world later)
    (advanced : Advanced refName thread oid world) : Advanced refName thread oid later :=
  moves.swaps.trans advanced

theorem harmless_after {op : GitOp Oid} (harmless : op.Harmless)
    (before : ∀ call, (thread, call) ∈ world.log → call.Harmless) :
    ∀ call, (thread, call) ∈ (world.after gitMachine thread op).log → call.Harmless := by
  intro call member
  rcases mem_cons.mp member with same | earlier
  · cases same
    exact harmless
  · exact before call earlier

theorem Waiting.peaceful {op : GitOp Oid} (waiting : Waiting refName thread world) (peaceful : op.Peaceful) :
    Waiting refName thread (world.after gitMachine thread op) := by
  refine ⟨?_, harmless_after peaceful.2 waiting.harmless, ?_⟩
  · rw [World.after, holder_plain peaceful.1]
    exact waiting.free
  · rw [World.after, swapped_plain peaceful.1]
    exact waiting.swaps

theorem validateRefName_ne_conflict (refName : Text) (expected actual : Option Oid) :
    validateRefName refName ≠ .error (.conflict expected actual) := by
  unfold validateRefName
  split_ifs <;> rintro ⟨⟩

variable {new : Oid}

theorem advanceRef_run {expected : Option Oid} (valid : validateRefName refName = (.ok () : Except (RefStoreError Oid) Unit)) :
    (advanceRef refName expected new).run =
      .call (.lockRef refName) fun _ => .call (.readRef refName) fun actual =>
        if actual ≠ expected then
          .call (.unlockRef refName) fun _ => .done (.error (.concurrentCommit refName expected actual))
        else
          .call (.replaceRef refName new) fun _ => .call (.unlockRef refName) fun _ => .done (.ok ()) := by
  unfold advanceRef casUpdate
  rw [valid]
  change Prog.call _ _ = _
  congr 1
  funext _
  change Prog.call _ _ = _
  congr 1
  funext actual
  by_cases same : actual = expected
  · simp only [Prog.bind, Function.comp_apply, ExceptT.bindCont, same, ne_eq, not_true, if_false]
    rfl
  · simp only [Prog.bind, Function.comp_apply, ExceptT.bindCont, same, ne_eq, not_false_iff, if_true]
    rfl

def AfterSwap (refName : Text) (thread : ι) (new : Oid) : Except (GitError Oid) Unit → GitWorld ι Oid → Prop
  | .ok (), world => Advanced refName thread new world
  | .error error, world => Waiting refName thread world ∧ ∀ report, error ≠ .restoreWritebackPartial report

structure Holding (refName : Text) (thread : ι) (world : GitWorld ι Oid) : Prop where
  held : holder refName world.log = some thread
  harmless : ∀ op, (thread, op) ∈ world.log → op.Harmless
  swaps : (swapped refName world.log).filter (·.1 = thread) = []

theorem Holding.stable (moves : Undisturbed refName thread world later) (holding : Holding refName thread world) :
    Holding refName thread later :=
  ⟨(moves.held holding.held).1, fun op member => holding.harmless op (moves.calls op member),
    moves.swaps.trans holding.swaps⟩

theorem undisturbed_lock (consistent : Consistent refName initial world)
    (unlocked : refName ∉ world.state.refLocks) {other : ι} (different : other ≠ thread) :
    Undisturbed refName other world (world.after gitMachine thread (.lockRef refName)) := by
  refine .of_ref_call different ?_ ?_ rfl rfl rfl
  · simp [consistent.holder_of_unlocked unlocked]
  · simpa [holder] using Ne.symm different

theorem undisturbed_held {op : GitOp Oid} (held : holder refName world.log = some thread)
    (objects : (Repository.handle op world.state).2.objects = world.state.objects)
    (still : ∀ other, other ≠ thread → holder refName ((thread, op) :: world.log) ≠ some other)
    (swaps : ∀ other, other ≠ thread → (swapped refName ((thread, op) :: world.log)).filter (·.1 = other) =
      (swapped refName world.log).filter (·.1 = other)) {other : ι} (different : other ≠ thread) :
    Undisturbed refName other world (world.after gitMachine thread op) := by
  refine .of_ref_call different ?_ (still other different) objects rfl (swaps other different)
  rw [held]
  exact fun same => different (Option.some.inj same).symm

section

variable (held : holder refName world.log = some thread) {other : ι} (different : other ≠ thread)

include held different

theorem undisturbed_unlock :
    Undisturbed refName other world (world.after gitMachine thread (.unlockRef refName)) :=
  undisturbed_held held rfl (fun other _ => by simp [holder]) (fun _ _ => rfl) different

theorem undisturbed_swap :
    Undisturbed refName other world (world.after gitMachine thread (.replaceRef refName new)) := by
  refine undisturbed_held held rfl (fun other apart => ?_) (fun other apart => ?_) different
  · change holder refName world.log ≠ some other
    rw [held]
    exact fun same => apart (Option.some.inj same).symm
  · simp [swapped, Ne.symm apart]

end

theorem respects_giveUp {expected actual : Option Oid} (holding : Holding refName thread world) :
    (branchContract refName initial).Respects gitMachine thread (AfterSwap refName thread new)
      (.call (.unlockRef refName) fun _ => .done (.error (.concurrentCommit refName expected actual))) world := by
  intro first consistent moves _
  have holdingFirst := holding.stable moves
  refine ⟨consistent.unlock holdingFirst.held, fun other => undisturbed_unlock holdingFirst.held, ?_⟩
  intro last _ movesOn
  refine ⟨Waiting.stable movesOn ⟨by simp [holder], ?_, holdingFirst.swaps⟩, fun _ same => by cases same⟩
  exact harmless_after (fun _ => ⟨rfl, rfl⟩) holdingFirst.harmless

theorem respects_swap {commit : Commit Oid} (holding : Holding refName thread world)
    (stored : world.state.objects new = some (.commit commit))
    (parent : commit.parents.head? = world.state.refs.lookup refName) :
    (branchContract refName initial).Respects gitMachine thread (AfterSwap refName thread new)
      (.call (.replaceRef refName new) fun _ => .call (.unlockRef refName) fun _ => .done (.ok ())) world := by
  intro first consistent moves _
  have holdingFirst := holding.stable moves
  have parentStill : commit.parents.head? = first.state.refs.lookup refName :=
    parent.trans (moves.held holding.held).2.symm
  refine ⟨consistent.swap (moves.extend _ _ stored) parentStill, fun other => undisturbed_swap holdingFirst.held, ?_⟩
  have advanced : Advanced refName thread new (first.after gitMachine thread (.replaceRef refName new)) := by
    simp [Advanced, swapped, holdingFirst.swaps]
  have held : holder refName (first.after gitMachine thread (.replaceRef refName new)).log = some thread :=
    holdingFirst.held
  intro second consistentSwapped movesOn _
  have heldStill := (movesOn.held held).1
  refine ⟨consistentSwapped.unlock heldStill, fun other => undisturbed_unlock heldStill, ?_⟩
  intro last _ movesLast
  have swappedStill : Advanced refName thread new second := advanced.stable movesOn
  exact Advanced.stable movesLast swappedStill

theorem respects_advanceRef {expected : Option Oid} {commit : Commit Oid}
    (waiting : Waiting refName thread world) (stored : world.state.objects new = some (.commit commit))
    (parent : commit.parents.head? = expected) :
    (branchContract refName initial).Respects gitMachine thread (AfterSwap refName thread new)
      (advanceRef refName expected new).run world := by
  rcases valid : (validateRefName refName : Except (RefStoreError Oid) Unit) with error | _
  · have refused : (advanceRef refName expected new).run = .done (.error (.refStore error)) := by
      unfold advanceRef casUpdate
      rw [valid]
      cases error with
      | notFound | invalidName => rfl
      | conflict => exact absurd valid (validateRefName_ne_conflict _ _ _)
    rw [refused]
    exact fun later _ moves => ⟨waiting.stable moves, fun _ same => by cases same⟩
  · rw [advanceRef_run valid]
    intro first consistent moves unlocked
    have waitingFirst := waiting.stable moves
    refine ⟨consistent.lock unlocked, fun other => undisturbed_lock consistent unlocked, ?_⟩
    have holding : Holding refName thread (first.after gitMachine thread (.lockRef refName)) :=
      ⟨by simp [holder], harmless_after (fun _ => ⟨rfl, rfl⟩) waitingFirst.harmless, waitingFirst.swaps⟩
    have storedFirst := moves.extend _ _ stored
    intro second consistentLocked movesOn _
    have holdingSecond := holding.stable movesOn
    have plain : (GitOp.readRef refName : GitOp Oid).Plain := trivial
    refine ⟨consistentLocked.plain plain, fun other => .plain consistentLocked plain, ?_⟩
    have holdingRead : Holding refName thread (second.after gitMachine thread (.readRef refName)) :=
      ⟨holdingSecond.held, harmless_after (fun _ => ⟨rfl, rfl⟩) holdingSecond.harmless, holdingSecond.swaps⟩
    have read : (gitMachine.handle (.readRef refName) second.state).1 = second.state.refs.lookup refName := rfl
    simp only [read]
    by_cases same : second.state.refs.lookup refName = expected
    · rw [if_neg (not_not.mpr same)]
      exact respects_swap holdingRead (movesOn.extend _ _ storedFirst) (parent.trans same.symm)
    · rw [if_pos same]
      exact respects_giveUp holdingRead

structure Settled (refName : Text) (thread : ι) (result : Except (GitError Oid) (Answer Oid)) (world : GitWorld ι Oid) :
    Prop where
  swaps : (swapped refName world.log).filter (·.1 = thread) = ((advancedTo result).map (thread, ·)).toList
  lost : ∀ name expected actual, result = .error (.concurrentCommit name expected actual) →
    ∀ op, (thread, op) ∈ world.log → op.Harmless

variable {result : Except (GitError Oid) (Answer Oid)}

theorem Waiting.settled (waiting : Waiting refName thread world)
    (none : advancedTo result = none) : Settled refName thread result world :=
  ⟨by rw [waiting.swaps, none]; rfl, fun _ _ _ _ => waiting.harmless⟩

theorem Advanced.settled {oid : Oid}
    (advanced : Advanced refName thread oid world) (reports : advancedTo result = some oid) :
    Settled refName thread result world := by
  refine ⟨by rw [reports]; exact advanced, fun name expected actual lost => ?_⟩
  rw [lost] at reports
  cases reports

def GitM.Peaceful {α : Type} (program : GitM Oid α) : Prop :=
  Prog.Does (fun _ _ => True) GitOp.Peaceful (fun _ => True) GitError.Early program

theorem GitM.Quiet.peaceful {α : Type} {program : GitM Oid α} (quiet : GitM.Quiet program) : GitM.Peaceful program :=
  Prog.Does.weaken quiet (fun _ allowed => ⟨allowed.plain, allowed.harmless⟩) (fun _ => id) fun _ => id

variable {α : Type} {answer : α → Answer Oid}

theorem Early.advancedTo {error : GitError Oid} (early : error.Early) :
    advancedTo (.error error : Except (GitError Oid) (Answer Oid)) = none := by
  cases error <;> first | rfl | cases early

theorem respects_peaceful_bind {β : Type} {program : GitM Oid β} {next : β → GitM Oid α}
    (peaceful : GitM.Peaceful program) (waiting : Waiting refName thread world)
    (rest : ∀ value later, Waiting refName thread later →
      (branchContract refName initial).Respects gitMachine thread
        (fun result => Settled refName thread (result.map answer)) (next value).run later) :
    (branchContract refName initial).Respects gitMachine thread
      (fun result => Settled refName thread (result.map answer)) (program >>= next).run world := by
  have first : (branchContract refName initial).Respects gitMachine thread
      (fun result later => Prog.Ends (fun _ => True) GitError.Early result ∧ Waiting refName thread later)
      program.run world :=
    .of_within (fun before later _ moves => Waiting.stable moves)
      (fun op before consistent holds allowed _ =>
        ⟨consistent.plain allowed.1, fun other => .plain consistent allowed.1, holds.peaceful allowed⟩)
      peaceful waiting
  refine first.bind fun result later _ ends => ?_
  cases result with
  | ok value => exact rest value later ends.2
  | error error =>
    exact fun last _ moves => Waiting.settled (ends.2.stable moves) (Early.advancedTo ends.1)

end Threads

end LoginomDock.Git
