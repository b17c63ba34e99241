import LoginomDock.Git.RefFiles

namespace LoginomDock.Git

open FileTree Contract List LocalRefStore

variable {Oid ι : Type} [DecidableEq Oid]

def RefFileOp.Leaves (other : List Text) : RefFileOp → Prop
  | .createDirAll path => ¬ other <+: path
  | .write path _ => ¬ path <+: other ∧ ¬ other <+: path
  | .rename source target => (¬ source <+: other ∧ ¬ other <+: source) ∧ ¬ target.parts <+: other ∧ ¬ other <+: target.parts
  | .lock _ | .unlock _ | .readToString _ => True

section Frames

variable {op : RefFileOp} {other : List Text} {disk : RefDisk} {result : Except IoError RefTree}

theorem look_settle {tree : RefTree} {fault : Bool}
    (kept : ∀ after, result = .ok after → look other after = look other tree) :
    look other (settle tree fault result).2 = look other tree := by
  cases result with
  | ok after => exact kept after rfl
  | error error => rfl

variable {path : List Text}

theorem look_createDirAll (above : ¬ other <+: path) :
    look other (disk.createDirAll path).2 = look other disk.tree := by
  rw [RefDisk.createDirAll]
  cases disk.fault with
  | none => exact look_settle fun after made => look_makeDirs made above
  | some made =>
    have short : ¬ other <+: path.take made := fun inside => above (inside.trans (List.take_prefix _ _))
    exact look_settle fun after made => look_makeDirs made short

theorem look_write {content : Text} (below : ¬ path <+: other) (above : ¬ other <+: path) :
    look other (disk.write path content).2 = look other disk.tree := by
  rw [RefDisk.write]
  match disk.fault with
  | none => exact look_settle fun after written => look_modify_apart written below above
  | some 0 => rfl
  | some (written + 1) => exact look_settle fun after written => look_modify_apart written below above

theorem look_renamed {source : List Text} {target : RefPath} (belowSource : ¬ source <+: other) (aboveSource : ¬ other <+: source)
    (belowTarget : ¬ target.parts <+: other) (aboveTarget : ¬ other <+: target.parts) :
    look other (disk.rename source target).2 = look other disk.tree := by
  rw [RefDisk.rename]
  cases disk.fault with
  | some made => rfl
  | none =>
    by_cases dotted : target.dotted
    · simp only [dotted, if_true]
    · simp only [dotted, Bool.false_eq_true, if_false]
      exact look_settle fun after renamed => look_rename_apart renamed belowSource aboveSource belowTarget aboveTarget

theorem look_handle (leaves : op.Leaves other) : look other (RefDisk.handle op disk).2.tree = look other disk.tree := by
  cases op with
  | lock refName => rfl
  | unlock refName => rfl
  | readToString path => rfl
  | createDirAll path => exact look_createDirAll leaves
  | write path content => exact look_write leaves.1 leaves.2
  | rename source target => exact look_renamed leaves.1.1 leaves.1.2 leaves.2.1 leaves.2.2

theorem settle_ok {tree : RefTree} {fault : Bool} (success : (settle tree fault result).1 = .ok ()) :
    result = .ok (settle tree fault result).2 := by
  cases result with
  | ok after => rfl
  | error error => cases success

theorem write_ok {content : Text} (success : (disk.write path content).1 = .ok ()) :
    look path (disk.write path content).2 = .ok (.file content) := by
  rw [RefDisk.write] at success ⊢
  match fault : disk.fault with
  | none =>
    simp only [fault] at success ⊢
    exact look_writeFile (settle_ok success)
  | some 0 =>
    simp only [fault] at success
    cases success
  | some (written + 1) =>
    simp only [fault] at success
    cases made : writeFile (content.take written) path disk.tree with
    | ok after => rw [made] at success; cases success
    | error error => rw [made] at success; cases success

theorem rename_ok {source : List Text} {target : RefPath} {node : RefTree} (success : (disk.rename source target).1 = .ok ())
    (found : look source disk.tree = .ok node) (aside : ¬ target.parts <+: source ∨ source = target.parts) :
    target.dotted = false ∧ look target.parts (disk.rename source target).2 = .ok node := by
  rw [RefDisk.rename] at success ⊢
  cases fault : disk.fault with
  | some made =>
    simp only [fault] at success
    cases success
  | none =>
    cases dotted : target.dotted with
    | true =>
      simp only [fault, dotted, if_true] at success
      cases success
    | false =>
      simp only [fault, dotted, Bool.false_eq_true, if_false] at success ⊢
      exact ⟨trivial, look_rename (settle_ok success) found aside⟩

end Frames

section Files

variable (account : Text)

def filesOf (refName : Text) : List (List Text) := [(refPath account refName).parts, tempPath (refPath account refName)]

def Apart (first second : Text) : Prop :=
  ∀ file ∈ filesOf account first, ∀ other ∈ filesOf account second, ¬ file <+: other ∧ ¬ other <+: file

instance (first second : Text) : Decidable (Apart account first second) :=
  inferInstanceAs (Decidable (∀ file ∈ _, ∀ other ∈ _, _))

-- The calls of an update
def RefFileOp.OfRef (refName : Text) : RefFileOp → Prop
  | .lock name | .unlock name => name = refName
  | .readToString _ => True
  | .createDirAll path => path = (refPath account refName).parts.dropLast
  | .write path _ => path = tempPath (refPath account refName)
  | .rename source target => source = tempPath (refPath account refName) ∧ target = refPath account refName

variable {account} {op : RefFileOp} {refName other : Text}

theorem refPath_parts_ne_nil (account refName : Text) : (refPath account refName).parts ≠ [] := by
  simp [refPath]

theorem tempPath_eq (account refName : Text) :
    ∃ last, tempPath (refPath account refName) = (refPath account refName).parts.dropLast ++ [last] := by
  have named := refPath_parts_ne_nil account refName
  rw [tempPath, withExtension, getLast?_eq_some_getLast named]
  exact ⟨_, rfl⟩

variable {file : List Text}

theorem dropLast_prefix_file (member : file ∈ filesOf account refName) :
    (refPath account refName).parts.dropLast <+: file ∧ file.length = (refPath account refName).parts.length := by
  obtain ⟨last, temp⟩ := tempPath_eq account refName
  have named := refPath_parts_ne_nil account refName
  have positive : 0 < (refPath account refName).parts.length := length_pos_iff.mpr named
  simp only [filesOf, mem_cons, not_mem_nil, or_false] at member
  rcases member with rfl | rfl
  · exact ⟨List.dropLast_prefix _, rfl⟩
  · rw [temp]
    refine ⟨prefix_append _ _, ?_⟩
    simp only [List.length_append, length_dropLast, length_singleton]
    omega

theorem tempPath_aside (account refName : Text) :
    ¬ (refPath account refName).parts <+: tempPath (refPath account refName) ∨
      tempPath (refPath account refName) = (refPath account refName).parts := by
  by_cases inside : (refPath account refName).parts <+: tempPath (refPath account refName)
  · have length : (tempPath (refPath account refName)).length = (refPath account refName).parts.length :=
      (dropLast_prefix_file (by simp [filesOf])).2
    exact .inr (inside.eq_of_length length.symm).symm
  · exact .inl inside

theorem Apart.leaves (apart : Apart account refName other) (own : op.OfRef account refName)
    (member : file ∈ filesOf account other) : op.Leaves file := by
  have place := apart (refPath account refName).parts (by simp [filesOf]) file member
  have temp := apart (tempPath (refPath account refName)) (by simp [filesOf]) file member
  cases op with
  | lock name => trivial
  | unlock name => trivial
  | readToString path => trivial
  | createDirAll path =>
    rw [show path = _ from own]
    exact fun inside => place.2 (inside.trans (List.dropLast_prefix _))
  | write path content =>
    rw [show path = _ from own]
    exact temp
  | rename source target =>
    obtain ⟨rfl, rfl⟩ := own
    exact ⟨temp, place⟩

theorem leaves_own_files (own : op.OfRef account refName) (plain : ¬ op.Updates)
    (member : file ∈ filesOf account refName) : op.Leaves file := by
  cases op with
  | lock name => trivial
  | unlock name => trivial
  | readToString path => trivial
  | createDirAll path =>
    rw [show path = _ from own]
    intro inside
    have short := inside.length_le
    have positive := length_pos_iff.mpr (refPath_parts_ne_nil account refName)
    rw [(dropLast_prefix_file member).2, length_dropLast] at short
    omega
  | write path content => exact absurd trivial plain
  | rename source target => exact absurd trivial plain

end Files

-- The calls that only the holder of the mutex makes
def RefFileOp.Guarded : RefFileOp → Prop
  | .unlock _ | .write _ _ | .rename _ _ => True
  | _ => False

namespace LocalRefStore

abbrev RefWorld (ι : Type) := World ι RefFileOp RefDisk

abbrev RefPool (ι Oid : Type) := Pool ι RefFileOp RefFileOp.Res (Except (RefFileError Oid) Unit) RefDisk

def lockHolder (refName : Text) : List (ι × RefFileOp) → Option ι
  | [] => none
  | (thread, .lock name) :: earlier => if name = refName then some thread else lockHolder refName earlier
  | (_, .unlock name) :: earlier => if name = refName then none else lockHolder refName earlier
  | _ :: earlier => lockHolder refName earlier

def lastUpdater (names : ι → Text) (refName : Text) : List (ι × RefFileOp) → Option ι
  | [] => none
  | (thread, op) :: earlier =>
    if op.Updates ∧ names thread = refName then some thread else lastUpdater names refName earlier

section Contract

variable (account : Text) (names : ι → Text)

structure Ordered (world : RefWorld ι) : Prop where
  locks : ∀ refName, refName ∈ world.state.locks ↔ (lockHolder refName world.log).isSome
  own : ∀ entry ∈ world.log, entry.2.OfRef account (names entry.1)

structure LeftAlone (thread : ι) (before after : RefWorld ι) : Prop where
  held : lockHolder (names thread) before.log = some thread →
    lockHolder (names thread) after.log = some thread ∧
      ∀ file ∈ filesOf account (names thread), look file after.state.tree = look file before.state.tree
  last : lastUpdater names (names thread) after.log = some thread →
    lastUpdater names (names thread) before.log = some thread ∧
      look (refPath account (names thread)).parts after.state.tree = look (refPath account (names thread)).parts before.state.tree

def refContract : Contract ι RefFileOp RefDisk where
  invariant := Ordered account names
  rely := LeftAlone account names
  refl _ _ := ⟨fun held => ⟨held, fun _ _ => rfl⟩, fun last => ⟨last, rfl⟩⟩
  trans thread first second third left right := by
    constructor
    · intro held
      obtain ⟨heldOn, same⟩ := left.held held
      obtain ⟨heldLast, sameLast⟩ := right.held heldOn
      exact ⟨heldLast, fun file member => (sameLast file member).trans (same file member)⟩
    · intro last
      obtain ⟨before, same⟩ := right.last last
      obtain ⟨first, earlier⟩ := left.last before
      exact ⟨first, same.trans earlier⟩

variable {account names} {world : RefWorld ι} {thread other : ι} {op : RefFileOp}

theorem lockHolder_other {refName : Text} (own : op.OfRef account (names thread)) (differs : refName ≠ names thread)
    (log : List (ι × RefFileOp)) : lockHolder refName ((thread, op) :: log) = lockHolder refName log := by
  cases op with
  | lock name =>
    rw [lockHolder, if_neg]
    exact fun same => differs (same.symm.trans own)
  | unlock name =>
    rw [lockHolder, if_neg]
    exact fun same => differs (same.symm.trans own)
  | readToString path => rfl
  | createDirAll path => rfl
  | write path content => rfl
  | rename source target => rfl

theorem ordered_call (ordered : Ordered account names world) (own : op.OfRef account (names thread)) :
    Ordered account names (world.after refMachine thread op) := by
  constructor
  · intro refName
    have before := ordered.locks refName
    cases op with
    | lock name =>
      by_cases same : name = refName
      · simp [refMachine, RefDisk.handle, lockHolder, same]
      · simpa [refMachine, RefDisk.handle, lockHolder, same, Ne.symm same] using before
    | unlock name =>
      by_cases same : name = refName
      · simp [refMachine, RefDisk.handle, lockHolder, same]
      · simpa [refMachine, RefDisk.handle, lockHolder, same, Ne.symm same] using before
    | readToString path => exact before
    | createDirAll path => exact before
    | write path content => exact before
    | rename source target => exact before
  · intro entry member
    rcases mem_cons.mp member with rfl | earlier
    · exact own
    · exact ordered.own entry earlier

theorem leftAlone_call (ordered : Ordered account names world)
    (apart : ∀ first second, names first ≠ names second → Apart account (names first) (names second))
    (own : op.OfRef account (names thread)) (enabled : refMachine.enabled op world.state)
    (guarded : op.Guarded → lockHolder (names thread) world.log = some thread) (different : other ≠ thread) :
    LeftAlone account names other world (world.after refMachine thread op) := by
  by_cases same : names other = names thread
  · have plain_files : ¬ op.Updates → ∀ file ∈ filesOf account (names other),
        look file (world.after refMachine thread op).state.tree = look file world.state.tree := by
      intro plain file member
      exact look_handle (leaves_own_files (same ▸ own) plain member)
    have not_held : op.Guarded → lockHolder (names other) world.log ≠ some other := by
      intro needs held
      rw [same, guarded needs] at held
      exact different (Option.some.inj held).symm
    constructor
    · intro held
      cases op with
      | lock name =>
        -- The mutex is taken only when nobody has it.
        have free : names other ∉ world.state.locks := by
          rw [same, ← show name = names thread from own]
          exact enabled
        exact absurd ((ordered.locks _).mpr (by simp [held])) free
      | unlock name => exact absurd held (not_held trivial)
      | readToString path => exact ⟨held, plain_files id⟩
      | createDirAll path => exact ⟨held, plain_files id⟩
      | write path content => exact absurd held (not_held trivial)
      | rename source target => exact absurd held (not_held trivial)
    · intro last
      by_cases updates : op.Updates
      · rw [World.after, lastUpdater, if_pos ⟨updates, same.symm⟩] at last
        exact absurd (Option.some.inj last).symm different
      · rw [World.after, lastUpdater, if_neg fun both => updates both.1] at last
        exact ⟨last, plain_files updates _ (by simp [filesOf])⟩
  · have files : ∀ file ∈ filesOf account (names other),
        look file (world.after refMachine thread op).state.tree = look file world.state.tree :=
      fun file member => look_handle ((apart thread other (Ne.symm same)).leaves own member)
    constructor
    · intro held
      exact ⟨(lockHolder_other own same world.log).trans held, files⟩
    · intro last
      rw [World.after, lastUpdater, if_neg fun both => same both.2.symm] at last
      exact ⟨last, files _ (by simp [filesOf])⟩

-- Printed ids are read back; the digits hold no white space.
structure HexLaws (Oid : Type) [OidText Oid] : Prop where
  roundTrip : ∀ oid : Oid, fromHex (toHex oid) = some oid
  digits : ∀ oid : Oid, (toHex oid).all isHexDigit

section Update

variable {α : Type}

def StableFor (account : Text) (names : ι → Text) (thread : ι) (assertion : RefWorld ι → Prop) : Prop :=
  ∀ before later, LeftAlone account names thread before later → assertion before → assertion later

variable {fails : RefFileError Oid → RefWorld ι → Prop}

theorem attempts_call (pre : RefWorld ι → Prop) {post : op.Res → RefWorld ι → Prop}
    (apart : ∀ first second, names first ≠ names second → Apart account (names first) (names second))
    (own : op.OfRef account (names thread)) (stable : StableFor account names thread pre)
    (kept : ∀ answer, StableFor account names thread (post answer))
    (guarded : op.Guarded → ∀ later, pre later → lockHolder (names thread) later.log = some thread)
    (step : ∀ later, Ordered account names later → pre later → refMachine.enabled op later.state →
      post (RefDisk.handle op later.state).1 (later.after refMachine thread op))
    (holds : pre world) :
    (refContract account names).Attempts refMachine thread post fails (ExceptT.lift (Prog.perform op)) world := by
  intro later ordered moves enabled
  have here := stable world later moves holds
  refine ⟨ordered_call ordered own,
    fun other different => leftAlone_call ordered apart own enabled (fun needs => guarded needs later here) different, ?_⟩
  intro last _ more
  exact kept _ _ last more (step later ordered here enabled)

abbrev Holding (names : ι → Text) (thread : ι) (world : RefWorld ι) : Prop :=
  lockHolder (names thread) world.log = some thread

structure Staged (account : Text) (names : ι → Text) (thread : ι) (content : Text) (world : RefWorld ι) : Prop where
  holding : Holding names thread world
  temp : look (tempPath (refPath account (names thread))) world.state.tree = .ok (.file content)

def InPlace (account : Text) (names : ι → Text) (thread : ι) (content : Text) (world : RefWorld ι) : Prop :=
  (refPath account (names thread)).dotted = false ∧
    (lastUpdater names (names thread) world.log = some thread →
      look (refPath account (names thread)).parts world.state.tree = .ok (.file content))

theorem stable_holding : StableFor account names thread (Holding names thread) :=
  fun _ _ moves held => (moves.held held).1

theorem stable_staged (content : Text) : StableFor account names thread (Staged account names thread content) := by
  intro before later moves staged
  obtain ⟨held, same⟩ := moves.held staged.holding
  exact ⟨held, (same _ (by simp [filesOf])).trans staged.temp⟩

theorem stable_inPlace (content : Text) : StableFor account names thread (InPlace account names thread content) := by
  intro before later moves placed
  refine ⟨placed.1, fun last => ?_⟩
  obtain ⟨earlier, same⟩ := moves.last last
  exact same.trans (placed.2 earlier)

theorem StableFor.both {first second : RefWorld ι → Prop} (left : StableFor account names thread first)
    (right : StableFor account names thread second) : StableFor account names thread fun world => first world ∧ second world :=
  fun before later moves both => ⟨left before later moves both.1, right before later moves both.2⟩

theorem StableFor.implied {condition : Prop} {assertion : RefWorld ι → Prop} (stable : StableFor account names thread assertion) :
    StableFor account names thread fun world => condition → assertion world :=
  fun before later moves holds given => stable before later moves (holds given)

theorem attempts_orIo {post : α → RefWorld ι → Prop} {result : Except IoError α}
    (failed : ∀ error, StableFor account names thread (fails error)) (kept : ∀ value, StableFor account names thread (post value))
    (error : ∀ error, fails error world) (value : ∀ value, result = .ok value → post value world) :
    (refContract account names).Attempts refMachine thread post fails (orIo result) world := by
  cases result with
  | ok given => exact Attempts.pure fun later moves => kept given world later moves (value given rfl)
  | error found => exact Attempts.throw fun later moves => failed _ world later moves (error _)

section Steps

variable (apart : ∀ first second, names first ≠ names second → Apart account (names first) (names second))

include apart

-- The mutex stays with the update, also where a call of it fails.
theorem attempts_plain (own : op.OfRef account (names thread)) (plain : ¬ op.Guarded)
    (keeps : ∀ log, lockHolder (names thread) ((thread, op) :: log) = lockHolder (names thread) log)
    (holds : Holding names thread world) :
    (refContract account names).Attempts refMachine thread (fun _ => Holding names thread)
      (fun _ : RefFileError Oid => Holding names thread) (ExceptT.lift (Prog.perform op)) world :=
  attempts_call (Holding names thread) apart own stable_holding (fun _ => stable_holding) (fun needs => absurd needs plain)
    (fun later _ held _ => (keeps later.log).trans held) holds

theorem attempts_write (content : Text) (holds : Holding names thread world) :
    (refContract account names).Attempts refMachine thread
      (fun answer world => Holding names thread world ∧ (answer = .ok () → Staged account names thread content world))
      (fun _ : RefFileError Oid => Holding names thread)
      (ExceptT.lift (Prog.perform (RefFileOp.write (tempPath (refPath account (names thread))) content))) world := by
  have own : RefFileOp.OfRef account (names thread) (.write (tempPath (refPath account (names thread))) content) := rfl
  apply attempts_call (Holding names thread) apart own stable_holding
  · intro answer
    exact stable_holding.both (stable_staged content).implied
  · intro _ later held
    exact held
  · intro later _ held _
    exact ⟨held, fun success => ⟨held, write_ok success⟩⟩
  · exact holds

theorem attempts_rename (content : Text) (holds : Staged account names thread content world) :
    (refContract account names).Attempts refMachine thread
      (fun answer world => Holding names thread world ∧ (answer = .ok () → InPlace account names thread content world))
      (fun _ : RefFileError Oid => Holding names thread)
      (ExceptT.lift (Prog.perform (RefFileOp.rename (tempPath (refPath account (names thread))) (refPath account (names thread)))))
      world := by
  have own : RefFileOp.OfRef account (names thread)
      (.rename (tempPath (refPath account (names thread))) (refPath account (names thread))) := ⟨rfl, rfl⟩
  apply attempts_call (Staged account names thread content) apart own (stable_staged content)
  · intro answer
    exact stable_holding.both (stable_inPlace content).implied
  · intro _ later staged
    exact staged.holding
  · intro later _ staged _
    refine ⟨staged.holding, fun success => ?_⟩
    obtain ⟨plain, shown⟩ := rename_ok success staged.temp (tempPath_aside account (names thread))
    exact ⟨plain, fun _ => shown⟩
  · exact holds

variable [OidText Oid]

theorem attempts_replaceFile (new : Oid) (holds : Holding names thread world) :
    (refContract account names).Attempts refMachine thread
      (fun _ world => Holding names thread world ∧ InPlace account names thread (toHex new ++ ['\n']) world)
      (fun _ => Holding names thread) (replaceFile (refPath account (names thread)) new) world := by
  have failed : ∀ _ : RefFileError Oid, StableFor account names thread (Holding names thread) := fun _ => stable_holding
  have made : RefFileOp.OfRef account (names thread) (.createDirAll (refPath account (names thread)).parts.dropLast) := rfl
  apply (attempts_plain apart made id (fun _ => rfl) holds).bind failed
  intro answer world _ held
  apply (attempts_orIo failed (fun _ => stable_holding) (fun _ => held) fun _ _ => held).bind failed
  intro _ world _ held
  apply (attempts_write apart _ held).bind failed
  rintro answer world _ ⟨held, staged⟩
  apply (attempts_orIo failed (fun _ => stable_staged _) (fun _ => held) fun _ success => staged success).bind failed
  intro _ world _ staged
  apply (attempts_rename apart _ staged).bind failed
  rintro answer world _ ⟨held, placed⟩
  exact attempts_orIo failed (fun _ => stable_holding.both (stable_inPlace _)) (fun _ => held) fun _ success => ⟨held, placed success⟩

theorem attempts_readRefOpt (path : RefPath) (holds : Holding names thread world) :
    (refContract account names).Attempts refMachine thread (fun _ => Holding names thread) (fun _ => Holding names thread)
      (readRefOpt path : RefM Oid (Option Oid)) world := by
  have own : RefFileOp.OfRef account (names thread) (.readToString path) := trivial
  apply (attempts_plain apart own id (fun _ => rfl) holds).bind fun _ => stable_holding
  intro content world _ held
  unfold parseRef
  split
  · split
    · exact Attempts.pure fun later moves => stable_holding world later moves held
    · exact Attempts.throw fun later moves => stable_holding world later moves held
  · exact Attempts.pure fun later moves => stable_holding world later moves held
  · exact Attempts.throw fun later moves => stable_holding world later moves held

theorem attempts_compareAndReplace (expected : Option Oid) (new : Oid) (holds : Holding names thread world) :
    (refContract account names).Attempts refMachine thread
      (fun _ world => Holding names thread world ∧ InPlace account names thread (toHex new ++ ['\n']) world)
      (fun _ => Holding names thread)
      (compareAndReplace (refPath account (names thread)) expected new) world := by
  apply (attempts_readRefOpt apart _ holds).bind fun _ => stable_holding
  intro actual world _ held
  split
  · exact Attempts.throw fun later moves => stable_holding world later moves held
  · exact attempts_replaceFile apart new held

-- What an update leaves behind when it returns
def Finished (account : Text) (names : ι → Text) (thread : ι) (content : Text) (result : Except (RefFileError Oid) Unit)
    (world : RefWorld ι) : Prop :=
  result = .ok () → InPlace account names thread content world

theorem respects_locked {content : Text} {body : RefM Oid Unit}
    (attempts : ∀ world, Holding names thread world →
      (refContract account names).Attempts refMachine thread
        (fun _ world => Holding names thread world ∧ InPlace account names thread content world) (fun _ => Holding names thread)
        body world) :
    (refContract account names).Respects refMachine thread (Finished account names thread content)
      (locked (names thread) body).run world := by
  intro later ordered moves enabled
  have locks : RefFileOp.OfRef account (names thread) (.lock (names thread)) := rfl
  refine ⟨ordered_call ordered locks,
    fun other different => leftAlone_call ordered apart locks enabled (fun needs => needs.elim) different, ?_⟩
  have held : Holding names thread (later.after refMachine thread (.lock (names thread))) := by
    simp [Holding, lockHolder]
  change (refContract account names).Respects refMachine thread _
    (body.run >>= fun result => Prog.perform (RefFileOp.unlock (names thread)) >>= fun _ => pure result) _
  apply Respects.bind (attempts _ held)
  intro result world _ ends later ordered moves enabled
  have holding : Holding names thread later := by
    cases result with
    | ok value => exact stable_holding world later moves ends.1
    | error error => exact stable_holding world later moves ends
  have unlocks : RefFileOp.OfRef account (names thread) (.unlock (names thread)) := rfl
  refine ⟨ordered_call ordered unlocks,
    fun other different => leftAlone_call ordered apart unlocks enabled (fun _ => holding) different, ?_⟩
  rintro last _ more rfl
  have placed := stable_inPlace content world later moves ends.2
  refine stable_inPlace content _ last more ⟨placed.1, fun latest => placed.2 ?_⟩
  rw [World.after, lastUpdater, if_neg fun both => both.1.elim] at latest
  exact latest

theorem respects_casUpdate (expected : Option Oid) (new : Oid)
    (valid : (validateRefName (names thread) : Except (RefStoreError Oid) Unit) = .ok ()) :
    (refContract account names).Respects refMachine thread (Finished account names thread (toHex new ++ ['\n']))
      (casUpdate account (names thread) expected new).run world := by
  rw [casUpdate, valid]
  exact respects_locked apart fun world held => attempts_compareAndReplace apart expected new held

end Steps

end Update

end Contract

section Shown

variable [OidText Oid] {account refName : Text} {tree other : RefTree}

def answerOf (refName : Text) (content : Except IoError Text) : Except (RefFileError Oid) Oid :=
  match content with
  | .ok content => (fromHex (trim content)).elim (.error (.backend (trim content))) .ok
  | .error .notFound => .error (.store (.notFound refName))
  | .error error => .error (.io error)

section

variable (valid : (validateRefName refName : Except (RefStoreError Oid) Unit) = .ok ())

include valid

theorem shownRef_eq :
    (shownRef account refName tree : Except (RefFileError Oid) Oid) =
      answerOf refName (readAt (refPath account refName) tree) := by
  rw [shownRef, read, valid, readRefOpt]
  simp only [Prog.exec_bind, ofStore, Prog.exec_pure, Prog.exec_lift, Prog.run_perform]
  have here : (RefDisk.handle (.readToString (refPath account refName)) { tree := tree, locks := [], faults := [] }).1 =
      readAt (refPath account refName) tree := rfl
  rw [here]
  unfold parseRef answerOf
  cases readAt (refPath account refName) tree with
  | ok content =>
    cases parsed : (fromHex (trim content) : Option Oid) with
    | none => simp only [parsed]; rfl
    | some oid => simp only [parsed]; rfl
  | error error => cases error <;> rfl

theorem shownRef_congr (same : look (refPath account refName).parts tree = look (refPath account refName).parts other) :
    (shownRef account refName tree : Except (RefFileError Oid) Oid) = shownRef account refName other := by
  rw [shownRef_eq valid, shownRef_eq valid, readAt, readAt, same]

end

theorem isWhiteSpace_hexDigit {char : Char} (digit : isHexDigit char) : isWhiteSpace char = false := by
  have range : 0x30 ≤ char.toNat ∧ char.toNat ≤ 0x66 := by
    simp only [isHexDigit, Char.isDigit, Bool.or_eq_true, Bool.and_eq_true, decide_eq_true_eq, Char.le_def, UInt32.le_iff_toNat_le] at digit
    rcases digit with (digit | digit) | digit <;> simp at digit <;> omega
  simp [isWhiteSpace]
  omega

theorem trim_line {digits : Text} (hex : digits.all isHexDigit) : trim (digits ++ ['\n']) = digits := by
  have solid : ∀ char ∈ digits, isWhiteSpace char = false := fun char member => isWhiteSpace_hexDigit (all_eq_true.mp hex char member)
  have kept : ∀ {text : Text}, (∀ char ∈ text, isWhiteSpace char = false) → text.dropWhile isWhiteSpace = text := by
    intro text plain
    cases text with
    | nil => rfl
    | cons char rest => rw [dropWhile_cons_of_neg (by simp [plain char (by simp)])]
  rw [trim]
  cases digits with
  | nil => rfl
  | cons char rest =>
    rw [cons_append, dropWhile_cons_of_neg (by simp [solid char (by simp)]), ← cons_append, reverse_append,
      reverse_singleton, singleton_append, dropWhile_cons_of_pos (by decide), kept, reverse_reverse]
    intro other member
    exact solid other (mem_reverse.mp member)

end Shown

structure RefCall (Oid : Type) where
  refName : Text
  expected : Option Oid
  new : Oid

section Runs

variable [OidText Oid] [DecidableEq ι]

def startUpdates (account : Text) (calls : ι → RefCall Oid) (tree : RefTree) (faults : List (Option Nat)) : RefPool ι Oid where
  state := { tree := tree, locks := [], faults := faults }
  log := []
  threads thread := (casUpdate account (calls thread).refName (calls thread).expected (calls thread).new).run

structure Independent (account : Text) (calls : ι → RefCall Oid) (pool : RefPool ι Oid) : Prop where
  others : ∀ thread op rest, pool.threads thread = .call op rest → refMachine.enabled op pool.state →
    ∀ refName, refName ≠ (calls thread).refName → (validateRefName refName : Except (RefStoreError Oid) Unit) = .ok () →
      Apart account (calls thread).refName refName →
        (shownRef account refName (RefDisk.handle op pool.state).2.tree : Except (RefFileError Oid) Oid) =
          shownRef account refName pool.state.tree
  updated : ∀ thread, pool.threads thread = .done (.ok ()) →
    lastUpdater (fun thread => (calls thread).refName) (calls thread).refName pool.log = some thread →
      shownRef account (calls thread).refName pool.state.tree = .ok (calls thread).new

theorem updates_independent (laws : HexLaws Oid) (account : Text) (calls : ι → RefCall Oid)
    (valid : ∀ thread, (validateRefName (calls thread).refName : Except (RefStoreError Oid) Unit) = .ok ())
    (apart : ∀ first second, (calls first).refName ≠ (calls second).refName →
      Apart account (calls first).refName (calls second).refName)
    (tree : RefTree) (faults : List (Option Nat)) (pool : RefPool ι Oid)
    (reached : Pool.Reaches refMachine (startUpdates account calls tree faults) pool) : Independent account calls pool := by
  have start : (refContract account fun thread => (calls thread).refName).Holds refMachine
      (fun thread => Finished account (fun thread => (calls thread).refName) thread (toHex (calls thread).new ++ ['\n']))
      (startUpdates account calls tree faults) := by
    refine ⟨⟨fun refName => by simp [startUpdates, lockHolder], fun entry member => by cases member⟩, fun thread => ?_⟩
    exact respects_casUpdate apart _ _ (valid thread)
  have holds := start.reaches reached
  constructor
  · intro thread op rest next enabled refName different validName alone
    have here := holds.respects thread
    rw [next] at here
    have ordered := (here _ holds.invariant ((refContract account _).refl _ _) enabled).1
    have own : op.OfRef account (calls thread).refName := ordered.own (thread, op) (by simp)
    exact shownRef_congr validName (look_handle (alone.leaves own (by simp [filesOf])))
  · intro thread ended last
    obtain ⟨plain, place⟩ := holds.finished ended rfl
    have shown := place last
    rw [shownRef_eq (valid thread), readAt, shown]
    simp only [plain, Bool.false_eq_true, if_false, answerOf]
    rw [trim_line (laws.digits _), laws.roundTrip]
    rfl

end Runs

section Instances

instance (op : RefFileOp) (disk : RefDisk) : Decidable (refMachine.enabled op disk) :=
  match op with
  | .lock refName => inferInstanceAs (Decidable (refName ∉ disk.locks))
  | .unlock _ | .readToString _ | .createDirAll _ | .write _ _ | .rename _ _ => Decidable.isTrue trivial

inductive TwoIds where
  | first
  | second
  deriving DecidableEq

instance : OidText TwoIds where
  toHex
    | .first => List.replicate 40 'a'
    | .second => List.replicate 40 'b'
  fromHex text :=
    if text = List.replicate 40 'a' then some .first else if text = List.replicate 40 'b' then some .second else none

theorem twoIds_laws : HexLaws TwoIds where
  roundTrip oid := by cases oid <;> rfl
  digits oid := by cases oid <;> rfl

def mainName : Text := "refs/heads/main"

def mainTmpName : Text := "refs/heads/main.tmp"

def mainAndDev : Bool → RefCall TwoIds
  | true => { refName := mainName, expected := none, new := .first }
  | false => { refName := "refs/heads/dev", expected := none, new := .second }

def takingTurns : List Bool := List.flatten (List.replicate 6 [true, false])

theorem taking_turns_independent :
    ∃ pool : RefPool Bool TwoIds,
      Pool.Reaches refMachine (startUpdates "acme" mainAndDev (.directory []) []) pool ∧
      (∀ thread, pool.threads thread = .done (.ok ())) ∧ Independent "acme" mainAndDev pool := by
  have reached := Pool.reaches_follow refMachine takingTurns (startUpdates "acme" mainAndDev (.directory []) [])
  refine ⟨_, reached, fun thread => by cases thread <;> rfl, ?_⟩
  refine updates_independent twoIds_laws _ mainAndDev (fun thread => by cases thread <;> rfl) ?_ _ _ _ reached
  intro first second differs
  cases first <;> cases second <;> first | decide | exact absurd rfl differs

def besideTmp : RefTree :=
  .directory [("acme", .directory [("refs", .directory [("heads",
    .directory [("main.tmp", .file (List.replicate 40 'a' ++ ['\n']))])])])]

def updateMain (_ : Unit) : RefCall TwoIds := { refName := mainName, expected := none, new := .second }

theorem update_removes_other_ref :
    (validateRefName mainName : Except (RefStoreError TwoIds) Unit) = .ok () ∧
      (validateRefName mainTmpName : Except (RefStoreError TwoIds) Unit) = .ok () ∧ mainName ≠ mainTmpName ∧
      ∃ pool : RefPool Unit TwoIds,
        Pool.Reaches refMachine (startUpdates "acme" updateMain besideTmp []) pool ∧
        pool.threads () = .done (.ok ()) ∧
        shownRef "acme" mainTmpName besideTmp = .ok TwoIds.first ∧
        shownRef "acme" mainTmpName pool.state.tree =
          (.error (.store (.notFound mainTmpName)) : Except (RefFileError TwoIds) TwoIds) := by
  refine ⟨by rfl, by rfl, by decide, _, Pool.reaches_follow refMachine (List.replicate 6 ()) _, by rfl, by rfl, by rfl⟩

end Instances

end LocalRefStore

end LoginomDock.Git
