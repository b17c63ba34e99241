import LoginomDock.PathLock.Acquire

/-! While one attempt runs, other owners use the table as they like: they create, refresh and rewrite tokens of their
own, and remove tokens of any owner, as the manager does with stale ones. -/

namespace LoginomDock.PathLock

open Contract List Pool

variable {ι : Type}

abbrev LockWorld (ι : Type) := World ι LockOp LockStore

def owned (owner : Text) (tokens : Table Text LockToken) (path : Text) : Option LockToken :=
  (tokens.lookup path).filter fun token => token.ownerId = owner

def LockOp.By (owner : Text) : LockOp → Prop
  | .tryCreateToken _ token => token.ownerId = owner
  | .compareAndWriteToken _ expected replacement => expected.ownerId = owner ∧ replacement.ownerId = owner
  | .refreshToken _ ownerId _ => ownerId = owner
  | _ => True

-- The calls that only look
def LockOp.Quiet : LockOp → Prop
  | .readToken _ | .scanDescendantLocks _ | .nowNs | .stat _ | .mkdir _ => True
  | _ => False

section Effects

variable {owner other : Text} {op : LockOp} {store : LockStore}

theorem tokens_quiet (quiet : op.Quiet) : (LockStore.handle op store).2.tokens = store.tokens := by
  cases op <;> first | rfl | cases quiet

variable {tokens : Table Text LockToken}

theorem owned_eq_none {path : Text} {token : LockToken} (found : tokens.lookup path = some token)
    (differs : token.ownerId ≠ owner) : owned owner tokens path = none := by
  simp [owned, found, Option.filter, differs]

theorem owned_insert {path place : Text} {token : LockToken} (differs : token.ownerId ≠ owner)
    (before : owned owner tokens place = none) : owned owner (tokens.insert place token) path = owned owner tokens path := by
  by_cases same : path = place
  · rw [same, before]
    exact owned_eq_none (by simp) differs
  · rw [owned, owned, Table.lookup_insert_if, if_neg same]

theorem owned_foreign (by_other : op.By other) (differs : other ≠ owner) (path : Text) :
    owned owner (LockStore.handle op store).2.tokens path = owned owner store.tokens path ∨
      owned owner (LockStore.handle op store).2.tokens path = none ∧ ∃ force, op = .removeToken path owner force := by
  cases op with
  | readToken place => exact .inl rfl
  | scanDescendantLocks root => exact .inl rfl
  | nowNs => exact .inl rfl
  | stat place => exact .inl rfl
  | mkdir place => exact .inl rfl
  | tryCreateToken place token =>
    left
    have foreign : token.ownerId ≠ owner := fun same => differs (by_other.symm.trans same)
    simp only [LockStore.handle, LockStore.withTokens, LockStore.tryCreate]
    cases found : store.tokens.lookup place with
    | some existing => rfl
    | none => exact owned_insert foreign (by simp [owned, found])
  | compareAndWriteToken place expected replacement =>
    left
    obtain ⟨expects, writes⟩ := by_other
    simp only [LockStore.handle, LockStore.withTokens, LockStore.compareAndWrite]
    by_cases found : store.tokens.lookup place = some expected
    · rw [if_pos found]
      exact owned_insert (fun same => differs (writes.symm.trans same))
        (owned_eq_none found fun same => differs (expects.symm.trans same))
    · rw [if_neg found]
  | refreshToken place ownerId timeNs =>
    left
    have foreign : ownerId ≠ owner := fun same => differs (by_other.symm.trans same)
    simp only [LockStore.handle, LockStore.withTokens, LockStore.refresh]
    cases found : store.tokens.lookup place with
    | none => rfl
    | some token =>
      by_cases own : token.ownerId = ownerId
      · simp only [own, if_true]
        exact owned_insert (own ▸ foreign) (owned_eq_none found (own ▸ foreign))
      · simp only [own, if_false]
  | removeToken place ownerId force =>
    simp only [LockStore.handle, LockStore.withTokens, LockStore.remove]
    cases found : store.tokens.lookup place with
    | none => exact .inl rfl
    | some token =>
      by_cases own : token.ownerId = ownerId
      · simp only [own, if_true]
        by_cases same : path = place
        · subst same
          by_cases mine : ownerId = owner
          · right
            subst mine
            exact ⟨by simp [owned], force, rfl⟩
          · left
            rw [owned_eq_none found (own ▸ mine)]
            simp [owned]
        · left
          rw [owned, owned, Table.lookup_erase_if, if_neg same]
      · left
        simp only [own, if_false]

end Effects

def undone (path : Text) : PathLockManager.Acquired → Option LockToken → Option LockToken
  | [], current => current
  | (lockPath, .created) :: older, current => undone path older (if lockPath = path then none else current)
  | (_, .reentrant) :: older, current => undone path older current
  | (lockPath, .upgraded previous _) :: older, current =>
    undone path older (if lockPath = path then some previous else current)

theorem undone_none (path : Text) (acquired : PathLockManager.Acquired) (current : Option LockToken) :
    undone path acquired none = undone path acquired current ∨ undone path acquired none = none := by
  induction acquired generalizing current with
  | nil => exact .inr rfl
  | cons entry older ih =>
    obtain ⟨lockPath, change⟩ := entry
    cases change with
    | created =>
      by_cases here : lockPath = path
      · left
        simp [undone, here]
      · simpa [undone, here] using ih current
    | reentrant => exact ih current
    | upgraded previous replacement =>
      by_cases here : lockPath = path
      · left
        simp [undone, here]
      · simpa [undone, here] using ih current

section Attempt

variable (manager : PathLockManager) (actor : ι) (owner : Text) (start : LockStore)

def Removed (log : List (ι × LockOp)) (path : Text) : Prop :=
  ∃ thread force, thread ≠ actor ∧ (thread, LockOp.removeToken path owner force) ∈ log

def StaleRead (log : List (ι × LockOp)) (path ownerId : Text) : Prop :=
  ∃ between before token, (actor, LockOp.readToken path) :: between <:+ log ∧ (actor, LockOp.nowNs) :: before <:+ between ∧
    (lockMachine.replay start between).tokens.lookup path = some token ∧ token.ownerId = ownerId ∧
      manager.isStale token (LockStore.handle .nowNs (lockMachine.replay start before)).1

def LeavesOthers (op : LockOp) (earlier : List (ι × LockOp)) : Prop :=
  ∀ path token, (lockMachine.replay start earlier).tokens.lookup path = some token → token.ownerId ≠ owner →
    (LockStore.handle op (lockMachine.replay start earlier)).2.tokens.lookup path = some token ∨
      (∃ force, op = .removeToken path token.ownerId force) ∧ StaleRead manager actor start earlier path token.ownerId

structure Sound (world : LockWorld ι) : Prop where
  replayed : world.state = lockMachine.replay start world.log
  polite : ∀ op earlier, (actor, op) :: earlier <:+ world.log → LeavesOthers manager actor owner start op earlier

-- What the calls of the others do meanwhile
structure Follows (before after : LockWorld ι) : Prop where
  log : before.log <:+ after.log
  kept : ∀ path, owned owner after.state.tokens path = owned owner before.state.tokens path ∨
    owned owner after.state.tokens path = none ∧ Removed actor owner after.log path

theorem Removed.later {actor : ι} {owner path : Text} {log more : List (ι × LockOp)} (removed : Removed actor owner log path)
    (suffix : log <:+ more) : Removed actor owner more path := by
  obtain ⟨thread, force, other, member⟩ := removed
  exact ⟨thread, force, other, suffix.subset member⟩

def lockContract : Contract ι LockOp LockStore where
  invariant := Sound manager actor owner start
  rely thread before after := thread = actor → Follows actor owner before after
  refl _ _ _ := ⟨suffix_refl _, fun _ => .inl rfl⟩
  trans thread first second third left right isActor := by
    have before := left isActor
    have after := right isActor
    refine ⟨before.log.trans after.log, fun path => ?_⟩
    rcases after.kept path with same | gone
    · rcases before.kept path with earlier | ⟨nothing, removed⟩
      · exact .inl (same.trans earlier)
      · exact .inr ⟨same.trans nothing, removed.later after.log⟩
    · exact .inr gone

variable {manager actor owner start} {world : LockWorld ι} {op : LockOp}

theorem Sound.call (sound : Sound manager actor owner start world) (thread : ι)
    (leaves : thread = actor → LeavesOthers manager actor owner start op world.log) :
    Sound manager actor owner start (world.after lockMachine thread op) := by
  constructor
  · change (LockStore.handle op world.state).2 = (LockStore.handle op (lockMachine.replay start world.log)).2
    rw [sound.replayed]
  · intro other earlier suffix
    rcases suffix_cons_iff.mp suffix with same | before
    · cases same
      exact leaves rfl
    · exact sound.polite other earlier before

theorem follows_foreign {thread : ι} {other : Text} (elsewhere : thread ≠ actor) (by_other : op.By other) (differs : other ≠ owner) :
    Follows actor owner world (world.after lockMachine thread op) := by
  refine ⟨suffix_cons _ _, fun path => ?_⟩
  rcases owned_foreign by_other differs path with same | ⟨nothing, force, removes⟩
  · exact .inl same
  · exact .inr ⟨nothing, thread, force, elsewhere, removes ▸ mem_cons_self⟩

variable {α : Type} {program : Prog LockOp LockOp.Res α}

theorem respects_others {thread : ι} {other : Text} (elsewhere : thread ≠ actor) (differs : other ≠ owner)
    (within : Prog.Within (fun _ _ => True) (LockOp.By other) (fun _ => True) program) :
    (lockContract manager actor owner start).Respects lockMachine thread (fun _ _ => True) program world := by
  have each : (lockContract manager actor owner start).Respects lockMachine thread (fun _ _ => True ∧ True) program world := by
    refine Respects.of_within (fun _ _ _ _ _ => trivial) ?_ within trivial
    intro op before sound _ allowed _
    refine ⟨Sound.call sound thread fun same => absurd same elsewhere, fun _ _ same => ?_, trivial⟩
    exact follows_foreign elsewhere allowed differs
  exact each.weaken fun _ _ _ _ => trivial

def OwnChanges (owner : Text) (acquired : PathLockManager.Acquired) : Prop :=
  ∀ lockPath previous replacement, (lockPath, AcquisitionChange.upgraded previous replacement) ∈ acquired →
    previous.ownerId = owner ∧ replacement.ownerId = owner

-- What a rollback would leave is what there was at the start, less what others removed.
structure Restores (actor : ι) (owner : Text) (start : LockStore) (acquired : PathLockManager.Acquired) (world : LockWorld ι) :
    Prop where
  own : OwnChanges owner acquired
  back : ∀ path, undone path acquired (owned owner world.state.tokens path) = owned owner start.tokens path ∨
    undone path acquired (owned owner world.state.tokens path) = none ∧ Removed actor owner world.log path

theorem Restores.of_same {acquired before : PathLockManager.Acquired} {later : LockWorld ι}
    (restores : Restores actor owner start before world) (log : world.log <:+ later.log) (own : OwnChanges owner acquired)
    (same : ∀ path, undone path acquired (owned owner later.state.tokens path) =
      undone path before (owned owner world.state.tokens path)) : Restores actor owner start acquired later := by
  refine ⟨own, fun path => ?_⟩
  rw [same]
  rcases restores.back path with kept | ⟨nothing, removed⟩
  · exact .inl kept
  · exact .inr ⟨nothing, removed.later log⟩

theorem Restores.follows {acquired : PathLockManager.Acquired} {later : LockWorld ι} (follows : Follows actor owner world later)
    (restores : Restores actor owner start acquired world) : Restores actor owner start acquired later := by
  refine ⟨restores.own, fun path => ?_⟩
  have before : undone path acquired (owned owner world.state.tokens path) = owned owner start.tokens path ∨
      undone path acquired (owned owner world.state.tokens path) = none ∧ Removed actor owner later.log path := by
    rcases restores.back path with same | ⟨nothing, removed⟩
    · exact .inl same
    · exact .inr ⟨nothing, removed.later follows.log⟩
  rcases follows.kept path with kept | ⟨gone, removed⟩
  · rwa [kept]
  · rw [gone]
    rcases undone_none path acquired (owned owner world.state.tokens path) with same | nothing
    · rwa [same]
    · exact .inr ⟨nothing, removed⟩

theorem leavesOthers_quiet (quiet : op.Quiet) (log : List (ι × LockOp)) : LeavesOthers manager actor owner start op log := by
  intro path token found _
  left
  rwa [tokens_quiet quiet]

theorem respects_call {rest : op.Res → Prog LockOp LockOp.Res α} {post : α → LockWorld ι → Prop}
    (step : ∀ later, Sound manager actor owner start later → Follows actor owner world later →
      LeavesOthers manager actor owner start op later.log ∧
        (lockContract manager actor owner start).Respects lockMachine actor post (rest (LockStore.handle op later.state).1)
          (later.after lockMachine actor op)) :
    (lockContract manager actor owner start).Respects lockMachine actor post (.call op rest) world := by
  intro later sound moves _
  obtain ⟨leaves, continued⟩ := step later sound (moves rfl)
  exact ⟨Sound.call sound actor fun _ => leaves, fun other different same => absurd same different, continued⟩

theorem Restores.quiet {acquired : PathLockManager.Acquired} (quiet : op.Quiet)
    (restores : Restores actor owner start acquired world) :
    Restores actor owner start acquired (world.after lockMachine actor op) := by
  have same : (world.after lockMachine actor op).state.tokens = world.state.tokens := tokens_quiet quiet
  exact restores.of_same (suffix_cons _ _) restores.own fun path => by rw [same]

-- A part of the attempt that only looks
theorem respects_quiet {known : Prop} {acquired : PathLockManager.Acquired}
    {result : α → Prop} (within : Prog.Within (fun _ _ => True) LockOp.Quiet result program)
    (holds : known → Restores actor owner start acquired world) :
    (lockContract manager actor owner start).Respects lockMachine actor
      (fun value later => result value ∧ (known → Restores actor owner start acquired later)) program world := by
  refine Respects.of_within (fun before later _ moves restores given => Restores.follows (moves rfl) (restores given)) ?_ within holds
  intro op before sound restores quiet _
  exact ⟨Sound.call sound actor fun _ => leavesOthers_quiet quiet _, fun other different same => absurd same different,
    fun given => (restores given).quiet quiet⟩

open PathLockManager

variable (manager actor owner start)

abbrev Ends (post : α → LockWorld ι → Prop) (program : Prog LockOp LockOp.Res α) (world : LockWorld ι) : Prop :=
  (lockContract manager actor owner start).Respects lockMachine actor post program world

-- What is acquired in the end is `taken` where the program succeeds, and `acquired` where it fails.
abbrev Takes (acquired : Acquired) (taken : α → Acquired) (program : LockM α) (world : LockWorld ι) : Prop :=
  (lockContract manager actor owner start).Attempts lockMachine actor (fun value => Restores actor owner start (taken value))
    (fun _ => Restores actor owner start acquired) program world

variable {manager actor owner start}

abbrev Looks {α : Type} (program : LockM α) : Prop :=
  Prog.Does (fun _ _ => True) LockOp.Quiet (fun _ => True) (fun _ => True) program

theorem looks_call (quiet : op.Quiet) : Looks (call op) := Prog.Does.perform op quiet

variable {acquired : Acquired}

theorem attempts_looks {program : LockM α} (looks : Looks program)
    (holds : Restores actor owner start acquired world) :
    Takes manager actor owner start acquired (fun _ => acquired) program world := by
  have always : True → Restores actor owner start acquired world := fun _ => holds
  refine Respects.weaken (respects_quiet looks always) fun result later _ ends => ?_
  cases result with
  | ok value => exact ends.2 trivial
  | error error => exact ends.2 trivial

theorem looks_checkEach (nowNs : Nat) (lockPaths : List Text) : Looks (manager.checkEach owner nowNs lockPaths) := by
  induction lockPaths with
  | nil => exact Prog.Does.pure trivial
  | cons lockPath rest ih =>
    refine Prog.Does.bind (looks_call trivial) fun found _ => ?_
    cases found with
    | none => exact ih
    | some token =>
      simp only
      split
      · exact Prog.Does.throw trivial
      · exact ih

theorem looks_checkLockPaths (lockPaths : List Text) : Looks (manager.checkLockPaths lockPaths owner) :=
  Prog.Does.bind (looks_call trivial) fun nowNs _ => looks_checkEach nowNs lockPaths

theorem looks_checkAncestors (nowNs : Nat) (parents : List Text) : Looks (manager.checkAncestors owner nowNs parents) := by
  induction parents with
  | nil => exact Prog.Does.pure trivial
  | cons parent rest ih =>
    refine Prog.Does.bind (looks_call trivial) fun found _ => ?_
    cases found with
    | none => exact ih
    | some token =>
      simp only
      split
      · exact Prog.Does.throw trivial
      · exact ih

theorem looks_checkAncestorTreeLocks (path : Text) : Looks (manager.checkAncestorTreeLocks path owner) :=
  Prog.Does.bind (looks_call trivial) fun nowNs _ => looks_checkAncestors nowNs _

theorem looks_checkDescendantLocks (path : Text) : Looks (manager.checkDescendantLocks path owner) :=
  Prog.Does.bind (looks_call trivial) fun descendants _ => Prog.Does.bind (looks_call trivial) fun nowNs _ =>
    looks_checkEach nowNs descendants

theorem looks_resolveExactPaths (path : Text) : Looks (manager.resolveExactPaths path) :=
  Prog.Does.bind (looks_call trivial) fun _ _ => Prog.Does.pure trivial

theorem looks_resolveExactConflictPaths (path : Text) : Looks (manager.resolveExactConflictPaths path) :=
  Prog.Does.bind (looks_resolveExactPaths path) fun _ _ => Prog.Does.pure trivial

theorem looks_resolveTreeLockPath (path : Text) : Looks (manager.resolveTreeLockPath path) :=
  Prog.Does.bind (looks_call trivial) fun _ _ => Prog.Does.pure trivial

theorem looks_missingDirs (fuel : Nat) (current : Text) : Looks (missingDirs fuel current) := by
  induction fuel generalizing current with
  | zero => exact Prog.Does.pure trivial
  | succ fuel ih =>
    refine Prog.Does.bind (looks_call trivial) fun isDir _ => ?_
    split
    · exact Prog.Does.pure trivial
    · split
      · split
        · exact Prog.Does.bind (ih _) fun _ _ => Prog.Does.pure trivial
        · exact Prog.Does.pure trivial
      · exact Prog.Does.pure trivial

theorem looks_makeDirs (dirs : List Text) : Looks (makeDirs dirs) := by
  induction dirs with
  | nil => exact Prog.Does.pure trivial
  | cons dir rest ih =>
    refine Prog.Does.bind (looks_call trivial) fun made _ => ?_
    cases made with
    | ok value => exact ih
    | error error =>
      refine Prog.Does.bind (looks_call trivial) fun isDir _ => ?_
      split
      · exact ih
      · exact Prog.Does.throw trivial

theorem looks_ensureDir (lockPath : Text) : Looks (ensureDir lockPath) := by
  have ensures : Looks (ensureLockDir lockPath) := by
    rw [ensureLockDir]
    split
    · exact Prog.Does.pure trivial
    · split
      · exact Prog.Does.pure trivial
      · exact Prog.Does.bind (looks_missingDirs _ _) fun missing _ => looks_makeDirs _
  refine Prog.Does.tryCatch ensures fun error _ => ?_
  split <;> exact Prog.Does.throw trivial

theorem looks_verifyRequest (resolutions : Table Text ResolvedExactPaths) (request : PathLockRequest) :
    Looks (manager.verifyRequest owner resolutions request) := by
  rw [verifyRequest]
  split
  · refine Prog.Does.bind (looks_checkAncestorTreeLocks _) fun _ _ => ?_
    split
    · exact looks_checkLockPaths _
    · exact Prog.Does.throw trivial
  · refine Prog.Does.bind (looks_checkAncestorTreeLocks _) fun _ _ => ?_
    refine Prog.Does.bind (looks_resolveExactConflictPaths _) fun _ _ => ?_
    exact Prog.Does.bind (looks_checkLockPaths _) fun _ _ => looks_checkDescendantLocks _

theorem looks_verifyRequests (resolutions : Table Text ResolvedExactPaths) (requests : List PathLockRequest) :
    Looks (manager.verifyRequests owner resolutions requests) := by
  induction requests with
  | nil => exact Prog.Does.pure trivial
  | cons request rest ih => exact Prog.Does.bind (looks_verifyRequest resolutions request) fun _ _ => ih

theorem leavesOthers_by (writes : op.By owner) (removes : ∀ path ownerId force, op = .removeToken path ownerId force → ownerId = owner)
    (log : List (ι × LockOp)) : LeavesOthers manager actor owner start op log := by
  intro path token found foreign
  left
  have held : owned token.ownerId (lockMachine.replay start log).tokens path = some token := by simp [owned, found]
  rcases owned_foreign writes (Ne.symm foreign) path with same | ⟨_, force, removal⟩
  · rw [held, owned] at same
    exact Option.eq_some_of_filter_eq_some same
  · exact absurd (removes _ _ _ removal) foreign

theorem Restores.same {acquired : Acquired} (restores : Restores actor owner start acquired world)
    (same : ∀ path, owned owner (LockStore.handle op world.state).2.tokens path = owned owner world.state.tokens path) :
    Restores actor owner start acquired (world.after lockMachine actor op) :=
  Restores.follows ⟨suffix_cons _ _, fun path => .inl (same path)⟩ restores

variable {lockPath : Text}

theorem attempts_createToken {token : LockToken} (own : token.ownerId = owner)
    (holds : Restores actor owner start acquired world) :
    Takes manager actor owner start acquired (fun change => (lockPath, change) :: acquired) (createToken lockPath token) world := by
  apply respects_call
  intro later sound follows
  have writes : LockOp.By owner (.tryCreateToken lockPath token) := own
  refine ⟨leavesOthers_by writes (fun _ _ _ removal => by cases removal) _, ?_⟩
  have before := holds.follows follows
  cases found : later.state.tokens.lookup lockPath with
  | some existing =>
    have refused : LockStore.tryCreate lockPath token later.state.tokens =
        (.error (.conflict lockPath existing.ownerId existing.lockType), later.state.tokens) := by
      rw [LockStore.tryCreate, found]
    simp only [LockStore.handle, refused]
    refine Attempts.throw fun last moves => ?_
    refine Restores.follows (moves rfl) (before.same fun path => ?_)
    simp [LockStore.handle, LockStore.withTokens, refused]
  | none =>
    have made : LockStore.tryCreate lockPath token later.state.tokens = (.ok (), later.state.tokens.insert lockPath token) := by
      rw [LockStore.tryCreate, found]
    simp only [LockStore.handle, made]
    refine Attempts.pure fun last moves => ?_
    have tokens : (later.after lockMachine actor (.tryCreateToken lockPath token)).state.tokens =
        later.state.tokens.insert lockPath token := by
      simp [lockMachine, LockStore.handle, LockStore.withTokens, made]
    have own : OwnChanges owner ((lockPath, .created) :: acquired) := fun place previous replacement member =>
      before.own place previous replacement (by simpa using member)
    refine Restores.follows (moves rfl) (before.of_same (suffix_cons _ _) own fun path => ?_)
    rw [tokens]
    by_cases here : lockPath = path
    · subst here
      simp [undone, owned, found]
    · rw [undone, if_neg here, owned, owned, Table.lookup_insert_if, if_neg (Ne.symm here)]

variable {existing token : LockToken}

-- The place of the token after a successful swap
theorem undone_upgraded {tokens : Table Text LockToken}
    (found : tokens.lookup lockPath = some existing) (held : existing.ownerId = owner) (path : Text) :
    undone path ((lockPath, .upgraded existing token) :: acquired) (owned owner (tokens.insert lockPath token) path) =
      undone path acquired (owned owner tokens path) := by
  by_cases here : lockPath = path
  · subst here
    simp [undone, owned, found, Option.filter, held]
  · rw [undone, if_neg here, owned, owned, Table.lookup_insert_if, if_neg (Ne.symm here)]

theorem attempts_upgradeToken (held : existing.ownerId = owner)
    (own : token.ownerId = owner) (holds : Restores actor owner start acquired world) :
    Takes manager actor owner start acquired (fun change => (lockPath, change) :: acquired) (upgradeToken lockPath existing token) world := by
  apply respects_call
  intro later sound follows
  have writes : LockOp.By owner (.compareAndWriteToken lockPath existing token) := ⟨held, own⟩
  refine ⟨leavesOthers_by writes (fun _ _ _ removal => by cases removal) _, ?_⟩
  have before := holds.follows follows
  by_cases found : later.state.tokens.lookup lockPath = some existing
  · have made : LockStore.compareAndWrite lockPath existing token later.state.tokens =
        (true, later.state.tokens.insert lockPath token) := by
      rw [LockStore.compareAndWrite, if_pos found]
    simp only [LockStore.handle, made]
    refine Attempts.pure fun last moves => ?_
    have tokens : (later.after lockMachine actor (.compareAndWriteToken lockPath existing token)).state.tokens =
        later.state.tokens.insert lockPath token := by
      simp [lockMachine, LockStore.handle, LockStore.withTokens, made]
    have changes : OwnChanges owner ((lockPath, .upgraded existing token) :: acquired) := by
      intro place previous replacement member
      rcases mem_cons.mp member with same | older
      · cases same
        exact ⟨held, own⟩
      · exact before.own place previous replacement older
    refine Restores.follows (moves rfl) (before.of_same (suffix_cons _ _) changes fun path => ?_)
    rw [tokens, undone_upgraded found held]
  · have refused : LockStore.compareAndWrite lockPath existing token later.state.tokens = (false, later.state.tokens) := by
      rw [LockStore.compareAndWrite, if_neg found]
    simp only [LockStore.handle, refused]
    refine Attempts.throw fun last moves => ?_
    refine Restores.follows (moves rfl) (before.same fun path => ?_)
    simp [LockStore.handle, LockStore.withTokens, refused]

theorem attempts_takeOver {lockPath ownerId : Text} {token : LockToken} (own : token.ownerId = owner)
    (foreign : ownerId ≠ owner) (stale : StaleRead manager actor start world.log lockPath ownerId)
    (holds : Restores actor owner start acquired world) :
    Takes manager actor owner start acquired (fun change => (lockPath, change) :: acquired)
      (do let _ ← call (.removeToken lockPath ownerId true); createToken lockPath token) world := by
  apply respects_call
  intro later sound follows
  have removing : LockOp.By ownerId (.removeToken lockPath ownerId true) := trivial
  constructor
  · intro path other found differs
    have held : owned other.ownerId (lockMachine.replay start later.log).tokens path = some other := by simp [owned, found]
    by_cases same : ownerId = other.ownerId ∧ lockPath = path
    · obtain ⟨rfl, rfl⟩ := same
      obtain ⟨between, before, token, read, looked, rest⟩ := stale
      exact .inr ⟨⟨true, rfl⟩, between, before, token, read.trans follows.log, looked, rest⟩
    · left
      simp only [LockStore.handle, LockStore.withTokens, LockStore.remove]
      cases present : (lockMachine.replay start later.log).tokens.lookup lockPath with
      | none => exact found
      | some existing =>
        by_cases matches_ : existing.ownerId = ownerId
        · simp only [matches_, if_true]
          have elsewhere : path ≠ lockPath := by
            rintro rfl
            rw [found] at present
            cases present
            exact same ⟨matches_.symm, rfl⟩
          rw [Table.lookup_erase_if, if_neg elsewhere]
          exact found
        · simp only [matches_, if_false]
          exact found
  · have after : Restores actor owner start acquired (later.after lockMachine actor (.removeToken lockPath ownerId true)) := by
      refine (holds.follows follows).same fun path => ?_
      rcases owned_foreign removing foreign path with same | ⟨_, force, removal⟩
      · exact same
      · cases removal
        exact absurd rfl foreign
    exact attempts_createToken own after

theorem Restores.reentrant (restores : Restores actor owner start acquired world) (lockPath : Text) :
    Restores actor owner start ((lockPath, .reentrant) :: acquired) world := by
  refine restores.of_same (suffix_refl _) (fun place previous replacement member => ?_) fun path => rfl
  exact restores.own place previous replacement (by simpa using member)

theorem attempts_takeToken (lockPath : Text) (kind : PathLockKind) {nowNs : Nat} {found : Option LockToken}
    (read : ∀ existing, found = some existing → manager.isStale existing nowNs →
      StaleRead manager actor start world.log lockPath existing.ownerId)
    (holds : Restores actor owner start acquired world) :
    Takes manager actor owner start acquired (fun change => (lockPath, change) :: acquired) (manager.takeToken lockPath owner kind nowNs found) world := by
  cases found with
  | none => exact attempts_createToken rfl holds
  | some existing =>
    rw [takeToken]
    by_cases held : existing.ownerId = owner
    · rw [if_pos held]
      split
      · exact attempts_upgradeToken held rfl holds
      · exact Attempts.pure fun last moves => (holds.follows (moves rfl)).reentrant lockPath
    · rw [if_neg held]
      by_cases stale : manager.isStale existing nowNs
      · rw [if_neg (not_not.mpr stale)]
        exact attempts_takeOver rfl held (read existing rfl stale) holds
      · rw [if_pos stale]
        exact Attempts.throw fun last moves => Restores.follows (moves rfl) holds

theorem attempts_tryAcquireOne (lockPath : Text) (kind : PathLockKind)
    (holds : Restores actor owner start acquired world) :
    Takes manager actor owner start acquired (fun change => (lockPath, change) :: acquired) (manager.tryAcquireOne lockPath owner kind) world := by
  apply respects_call
  intro first soundFirst follows
  have looked : LockOp.Quiet .nowNs := trivial
  have holdsFirst := (holds.follows follows).quiet looked
  refine ⟨leavesOthers_quiet looked _, ?_⟩
  apply respects_call
  intro second soundSecond followsSecond
  have reads : LockOp.Quiet (.readToken lockPath) := trivial
  have holdsSecond := (holdsFirst.follows followsSecond).quiet reads
  refine ⟨leavesOthers_quiet reads _, attempts_takeToken lockPath kind (fun existing found stale => ?_) holdsSecond⟩
  refine ⟨second.log, first.log, existing, suffix_refl _, followsSecond.log, ?_, rfl, ?_⟩
  · rw [← soundSecond.replayed]
    exact found
  · rw [← soundFirst.replayed]
    exact stale

theorem attempts_acquireRequest (request : PathLockRequest) (resolutions : Table Text ResolvedExactPaths)
    (holds : Restores actor owner start acquired world) :
    Takes manager actor owner start acquired (fun answer => answer.1 :: acquired)
      (manager.acquireRequest owner request resolutions) world := by
  have stable : ∀ (_ : PathLockError) (before later : LockWorld ι),
      (lockContract manager actor owner start).rely actor before later →
        Restores actor owner start acquired before → Restores actor owner start acquired later :=
    fun _ _ _ moves restores => Restores.follows (moves rfl) restores
  rw [acquireRequest]
  split
  · refine (attempts_looks (looks_checkAncestorTreeLocks _) holds).bind stable fun _ world _ holds => ?_
    refine (attempts_looks (looks_resolveExactPaths _) holds).bind stable fun resolved world _ holds => ?_
    refine (attempts_looks (looks_checkLockPaths _) holds).bind stable fun _ world _ holds => ?_
    refine (attempts_looks (looks_ensureDir _) holds).bind stable fun _ world _ holds => ?_
    refine (attempts_tryAcquireOne _ _ holds).bind stable fun change world _ holds => ?_
    exact Attempts.pure fun last moves => Restores.follows (moves rfl) holds
  · refine (attempts_looks (looks_resolveTreeLockPath _) holds).bind stable fun lockPath world _ holds => ?_
    refine (attempts_looks (looks_checkAncestorTreeLocks _) holds).bind stable fun _ world _ holds => ?_
    refine (attempts_looks (looks_resolveExactConflictPaths _) holds).bind stable fun _ world _ holds => ?_
    refine (attempts_looks (looks_checkLockPaths _) holds).bind stable fun _ world _ holds => ?_
    refine (attempts_looks (looks_checkDescendantLocks _) holds).bind stable fun _ world _ holds => ?_
    refine (attempts_looks (looks_ensureDir _) holds).bind stable fun _ world _ holds => ?_
    refine (attempts_tryAcquireOne _ _ holds).bind stable fun change world _ holds => ?_
    exact Attempts.pure fun last moves => Restores.follows (moves rfl) holds

theorem respects_acquireRequests (requests : List PathLockRequest)
    (resolutions : Table Text ResolvedExactPaths) (holds : Restores actor owner start acquired world) :
    Ends manager actor owner start (fun answer => Restores actor owner start answer.1)
      (manager.acquireRequests owner requests acquired resolutions) world := by
  induction requests generalizing acquired resolutions world with
  | nil => exact fun last _ moves => Restores.follows (moves rfl) holds
  | cons request rest ih =>
    have first : Ends manager actor owner start _
      (manager.acquireRequest owner request resolutions).run world := attempts_acquireRequest request resolutions holds
    refine first.bind fun result later _ ends => ?_
    cases result with
    | ok answer => exact ih answer.2 ends
    | error error => exact fun last _ moves => Restores.follows (moves rfl) ends

theorem undone_created {lockPath path : Text} {before after : Option LockToken}
    (kept : lockPath ≠ path → after = before) (gone : lockPath = path → after = none) :
    undone path acquired after = undone path ((lockPath, .created) :: acquired) before := by
  by_cases here : lockPath = path
  · simp [undone, here, gone here]
  · simp [undone, here, kept here]

theorem Restores.popped {later : LockWorld ι}
    (restores : Restores actor owner start ((lockPath, .created) :: acquired) world) (log : world.log <:+ later.log)
    (gone : owned owner later.state.tokens lockPath = none)
    (kept : ∀ path, lockPath ≠ path → owned owner later.state.tokens path = owned owner world.state.tokens path) :
    Restores actor owner start acquired later := by
  refine restores.of_same log (fun place previous replacement member => ?_) fun path => ?_
  · exact restores.own place previous replacement (mem_cons_of_mem _ member)
  · exact undone_created (kept path) fun here => here ▸ gone

theorem owned_remove (lockPath : Text) (tokens : Table Text LockToken) (path : Text) :
    owned owner (LockStore.remove lockPath owner tokens).2 path =
      if path = lockPath then none else owned owner tokens path := by
  rw [LockStore.remove]
  by_cases here : path = lockPath
  · subst here
    rw [if_pos rfl]
    cases found : tokens.lookup path with
    | none => simp [owned, found]
    | some token =>
      by_cases own : token.ownerId = owner
      · simp [own, owned]
      · simp [own, owned_eq_none found own]
  · rw [if_neg here]
    cases found : tokens.lookup lockPath with
    | none => rfl
    | some token =>
      by_cases own : token.ownerId = owner
      · simp [own, owned, here]
      · simp [own]

theorem respects_removeOwnedToken (known : Prop)
    (holds : known → Restores actor owner start ((lockPath, .created) :: acquired) world) :
    Ends manager actor owner start
      (fun _ later => known → Restores actor owner start acquired later) (removeOwnedToken lockPath owner).run world := by
  apply respects_call
  intro first soundFirst followsFirst
  have removes : LockOp.By owner (.removeToken lockPath owner false) := trivial
  refine ⟨leavesOthers_by removes (fun _ _ _ removal => by cases removal; rfl) _, ?_⟩
  have taken : known → Restores actor owner start acquired (first.after lockMachine actor (.removeToken lockPath owner false)) := by
    intro given
    refine ((holds given).follows followsFirst).popped (suffix_cons _ _) ?_ fun path elsewhere => ?_
    · exact (owned_remove lockPath first.state.tokens lockPath).trans (if_pos rfl)
    · exact (owned_remove lockPath first.state.tokens path).trans (if_neg (Ne.symm elsewhere))
  refine (respects_quiet (show Looks _ from ?_) taken).weaken fun result later _ ends => ends.2
  change Looks (if (LockStore.handle (.removeToken lockPath owner false) first.state).1 = true then pure true
    else call (.readToken lockPath) >>= _ : LockM Bool)
  split
  · exact Prog.Does.pure trivial
  · refine Prog.Does.bind (looks_call trivial) fun found _ => ?_
    cases found with
    | none => exact Prog.Does.pure trivial
    | some token =>
      simp only
      split
      · exact Prog.Does.pure trivial
      · exact Prog.Does.throw trivial

theorem respects_revert {previous replacement : LockToken} (known : Prop)
    (prior : previous.ownerId = owner) (own : replacement.ownerId = owner)
    (holds : known → Restores actor owner start ((lockPath, .upgraded previous replacement) :: acquired) world) :
    Ends manager actor owner start
      (fun result later => known → result = .ok () → Restores actor owner start acquired later)
      (rollbackChange owner lockPath (.upgraded previous replacement)).run world := by
  apply respects_call
  intro later sound follows
  have writes : LockOp.By owner (.compareAndWriteToken lockPath replacement previous) := ⟨own, prior⟩
  refine ⟨leavesOthers_by writes (fun _ _ _ removal => by cases removal) _, ?_⟩
  by_cases found : later.state.tokens.lookup lockPath = some replacement
  · have made : LockStore.compareAndWrite lockPath replacement previous later.state.tokens =
        (true, later.state.tokens.insert lockPath previous) := by
      rw [LockStore.compareAndWrite, if_pos found]
    simp only [LockStore.handle, made]
    intro last _ moves given _
    have before := (holds given).follows follows
    have tokens : (later.after lockMachine actor (.compareAndWriteToken lockPath replacement previous)).state.tokens =
        later.state.tokens.insert lockPath previous := by
      simp [lockMachine, LockStore.handle, LockStore.withTokens, made]
    have changes : OwnChanges owner acquired := fun place prior next member =>
      before.own place prior next (mem_cons_of_mem _ member)
    refine Restores.follows (moves rfl) (before.of_same (suffix_cons _ _) changes fun path => ?_)
    rw [tokens]
    by_cases here : lockPath = path
    · subst here
      simp [undone, owned, Option.filter, prior]
    · rw [undone, if_neg here, owned, owned, Table.lookup_insert_if, if_neg (Ne.symm here)]
  · have refused : LockStore.compareAndWrite lockPath replacement previous later.state.tokens = (false, later.state.tokens) := by
      rw [LockStore.compareAndWrite, if_neg found]
    simp only [LockStore.handle, refused]
    intro last _ moves _ success
    cases success

theorem respects_rollbackChange {change : AcquisitionChange} (known : Prop)
    (own : OwnChanges owner ((lockPath, change) :: acquired))
    (holds : known → Restores actor owner start ((lockPath, change) :: acquired) world) :
    Ends manager actor owner start
      (fun result later => known → result = .ok () → Restores actor owner start acquired later)
      (rollbackChange owner lockPath change).run world := by
  cases change with
  | created =>
    refine (respects_removeOwnedToken known holds).bind fun result later _ ends => ?_
    cases result with
    | ok value => exact fun last _ moves given _ => Restores.follows (moves rfl) (ends given)
    | error error =>
      intro last _ _ _ success
      cases success
  | reentrant =>
    intro last _ moves given _
    have restores := (holds given).follows (moves rfl)
    exact restores.of_same (suffix_refl _)
      (fun place previous replacement member => restores.own place previous replacement (mem_cons_of_mem _ member)) fun _ => rfl
  | upgraded previous replacement =>
    obtain ⟨prior, next⟩ := own lockPath previous replacement mem_cons_self
    exact respects_revert known prior next holds

theorem respects_rollbackAcquisitions (known : Prop) (own : OwnChanges owner acquired)
    (holds : known → Restores actor owner start acquired world) :
    Ends manager actor owner start
      (fun result later => known → result = .ok () → Restores actor owner start [] later)
      (rollbackAcquisitions owner acquired) world := by
  induction acquired generalizing known world with
  | nil => exact fun last _ moves given _ => Restores.follows (moves rfl) (holds given)
  | cons entry older ih =>
    obtain ⟨lockPath, change⟩ := entry
    have ownOlder : OwnChanges owner older := fun place previous replacement member =>
      own place previous replacement (mem_cons_of_mem _ member)
    refine (respects_rollbackChange known own holds).bind fun result later _ ends => ?_
    refine (ih (known ∧ result = .ok ()) ownOlder fun given => ends given.1 given.2).bind fun rest last _ restored => ?_
    intro final _ moves given success
    cases result with
    | ok value => exact Restores.follows (moves rfl) (restored ⟨given, rfl⟩ success)
    | error error => cases success

def PathLockError.IsRollbackFailure : PathLockError → Prop
  | .rollbackFailed _ _ => True
  | _ => False

def LeavesNothing (actor : ι) (owner : Text) (start : LockStore) (result : AttemptResult) (world : LockWorld ι) : Prop :=
  ∀ error preConflict, result = .error (error, preConflict) → ¬ error.IsRollbackFailure → Restores actor owner start [] world

theorem respects_giveUp (error : PathLockError) (preConflict : Bool)
    (holds : Restores actor owner start acquired world) :
    Ends manager actor owner start (LeavesNothing actor owner start)
      (giveUp owner acquired error preConflict) world := by
  refine (respects_rollbackAcquisitions True holds.own fun _ => holds).bind fun result later _ ends => ?_
  cases result with
  | ok value => exact fun last _ moves _ _ _ _ => Restores.follows (moves rfl) (ends trivial rfl)
  | error rollbackError =>
    intro last _ _ final flag same clean
    cases same
    exact absurd trivial clean

theorem respects_tryAcquireBatchOnce (requests : List PathLockRequest) (holds : Restores actor owner start [] world) :
    Ends manager actor owner start (LeavesNothing actor owner start)
      (manager.tryAcquireBatchOnce requests owner) world := by
  refine (respects_acquireRequests requests ∅ holds).bind fun answer later _ acquired => ?_
  obtain ⟨changes, result⟩ := answer
  cases result with
  | error error => exact respects_giveUp error true acquired
  | ok resolutions =>
    have verified : Ends manager actor owner start _
      (manager.verifyRequests owner resolutions requests).run later := attempts_looks (looks_verifyRequests _ _) acquired
    refine verified.bind fun result later _ ends => ?_
    cases result with
    | error error => exact respects_giveUp error false ends
    | ok value =>
      intro last _ _ error flag same
      cases same

end Attempt

section Runs

open PathLockManager

abbrev LockPool (ι : Type) := Pool ι LockOp LockOp.Res AttemptResult LockStore

def startAttempts (programs : ι → Prog LockOp LockOp.Res AttemptResult) (store : LockStore) : LockPool ι where
  state := store
  log := []
  threads := programs

structure AllOrNothing (manager : PathLockManager) (actor : ι) (owner : Text) (store : LockStore) (pool : LockPool ι) : Prop where
  own : ∀ error preConflict, pool.threads actor = .done (.error (error, preConflict)) → ¬ error.IsRollbackFailure →
    ∀ path, owned owner pool.state.tokens path = owned owner store.tokens path ∨
      owned owner pool.state.tokens path = none ∧ Removed actor owner pool.log path
  foreign : ∀ op earlier, (actor, op) :: earlier <:+ pool.log → LeavesOthers manager actor owner store op earlier

variable [DecidableEq ι]

theorem batch_all_or_nothing (manager : PathLockManager) (requests : List PathLockRequest) (actor : ι) (owner : Text)
    (owners : ι → Text) (different : ∀ thread, thread ≠ actor → owners thread ≠ owner)
    (programs : ι → Prog LockOp LockOp.Res AttemptResult) (mine : programs actor = manager.tryAcquireBatchOnce requests owner)
    (theirs : ∀ thread, thread ≠ actor →
      Prog.Within (fun _ _ => True) (LockOp.By (owners thread)) (fun _ => True) (programs thread))
    (store : LockStore) (pool : LockPool ι) (reached : Reaches lockMachine (startAttempts programs store) pool) :
    AllOrNothing manager actor owner store pool := by
  have start : (lockContract manager actor owner store).Holds lockMachine
      (fun thread result world => thread = actor → LeavesNothing actor owner store result world) (startAttempts programs store) := by
    refine ⟨⟨rfl, fun op earlier suffix => ?_⟩, fun thread => ?_⟩
    · exact absurd suffix.length_le (by simp [startAttempts])
    · by_cases same : thread = actor
      · subst same
        change (lockContract manager thread owner store).Respects lockMachine thread _ (programs thread) _
        rw [mine]
        have untouched : Restores thread owner store [] (startAttempts programs store).toWorld := by
          refine ⟨fun lockPath previous replacement member => ?_, fun path => .inl rfl⟩
          cases member
        exact (respects_tryAcquireBatchOnce requests untouched).weaken fun _ _ _ ends _ => ends
      · refine (respects_others same (different thread same) (theirs thread same)).weaken fun _ _ _ _ here => ?_
        exact absurd here same
  have holds := start.reaches reached
  constructor
  · intro error preConflict ended clean
    exact (holds.finished ended rfl error preConflict rfl clean).back
  · exact holds.invariant.polite

end Runs

section Instances

open PathLockManager

instance (op : LockOp) (store : LockStore) : Decidable (lockMachine.enabled op store) := Decidable.isTrue trivial

def onlyDirectories : Surroundings where
  clock _ := 100
  stat _ _ := some true
  mkdir _ _ := .ok ()
  order _ keys := keys
  perm _ _ := List.Perm.refl _

def expireSoon : PathLockManager where
  hash := { hashPrefix := fun _ => [] }
  expireNs := 30

def lockOfA : Text := pathLockPath "/a"

def lockOfB : Text := pathLockPath "/b"

def storeWith (owner : Text) (timeNs : Nat) : LockStore where
  tokens := ((∅ : Table Text LockToken).insert lockOfA { ownerId := owner, timeNs := timeNs, lockType := .exact }).insert
    lockOfB { ownerId := "third", timeNs := 100, lockType := .exact }
  around := onlyDirectories
  calls := 0

def bothPaths : List PathLockRequest := [{ path := "/a", kind := .exact }, { path := "/b", kind := .exact }]

def againstCall (op : LockOp) : Bool → Prog LockOp LockOp.Res AttemptResult
  | true => expireSoon.tryAcquireBatchOnce bothPaths "mine"
  | false => Prog.perform op >>= fun _ => pure (.ok [])

def refreshByOther : LockOp := .refreshToken lockOfA "other" 100

-- The attempt has looked at the lock of `/a` when the other owner makes its call.
def interrupted : List Bool := List.replicate 9 true ++ [false] ++ List.replicate 10 true

def refreshedPool : LockPool Bool :=
  follow lockMachine interrupted (startAttempts (againstCall refreshByOther) (storeWith "other" 0))

def takenByOther : LockOp := .removeToken lockOfA "mine" true

theorem conflict_undoes_creation :
    ∃ pool : LockPool Bool, Reaches lockMachine (startAttempts (againstCall refreshByOther) (storeWith "other" 0)) pool ∧
      (∃ error preConflict, pool.threads true = .done (.error (error, preConflict)) ∧ ¬ error.IsRollbackFailure) ∧
      AllOrNothing expireSoon true "mine" (storeWith "other" 0) pool := by
  have reached := reaches_follow lockMachine (List.replicate 20 true)
    (startAttempts (againstCall refreshByOther) (storeWith "other" 0))
  refine ⟨_, reached, ⟨_, _, by rfl, id⟩, ?_⟩
  refine batch_all_or_nothing expireSoon bothPaths true "mine" (fun _ => "other") (fun _ _ => by decide)
    _ rfl (fun thread elsewhere => ?_) _ _ reached
  cases thread with
  | true => exact absurd rfl elsewhere
  | false => exact ⟨rfl, fun _ _ => trivial⟩

theorem stale_tokens_are_taken :
    (∃ pool : LockPool Bool, Reaches lockMachine (startAttempts (againstCall takenByOther) (storeWith "mine" 0)) pool ∧
      (∃ error preConflict, pool.threads true = .done (.error (error, preConflict)) ∧ ¬ error.IsRollbackFailure) ∧
      owned "mine" pool.state.tokens lockOfA ≠ owned "mine" (storeWith "mine" 0).tokens lockOfA) ∧
    ∃ pool : LockPool Bool, Reaches lockMachine (startAttempts (againstCall refreshByOther) (storeWith "other" 0)) pool ∧
      (∃ error preConflict, pool.threads true = .done (.error (error, preConflict)) ∧ ¬ error.IsRollbackFailure) ∧
      ∃ earlier token, (true, LockOp.removeToken lockOfA "other" true) :: earlier <:+ pool.log ∧
        (lockMachine.replay (storeWith "other" 0) earlier).tokens.lookup lockOfA = some token ∧
        token.ownerId = "other" ∧ ¬ expireSoon.isStale token 100 := by
  constructor
  · refine ⟨_, reaches_follow lockMachine interrupted _, ⟨_, _, by rfl, id⟩, ?_⟩
    decide
  · refine ⟨refreshedPool, reaches_follow lockMachine interrupted _, ⟨_, _, by rfl, id⟩, refreshedPool.log.drop 8,
      { ownerId := "other", timeNs := 100, lockType := .exact }, ?_, by rfl, rfl, by decide⟩
    have removal : refreshedPool.log.drop 7 = (true, .removeToken lockOfA "other" true) :: refreshedPool.log.drop 8 := by rfl
    rw [← removal]
    exact drop_suffix 7 _

end Instances

end LoginomDock.PathLock
