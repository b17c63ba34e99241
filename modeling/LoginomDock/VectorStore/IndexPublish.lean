import LoginomDock.VectorStore.Collection

/-! Whatever runs beside it, an index is put into the map only over the rows it was built from. -/

namespace LoginomDock.VectorStore

open List Prog

abbrev CollectionWorld (ι : Type) := World ι CollectionOp CollectionState

abbrev candsOf {ι : Type} (world : CollectionWorld ι) : Table Text CandidateData := world.state.store.storage.cands

abbrev generationOf {ι : Type} (world : CollectionWorld ι) : Nat := world.state.barrier.generation

def touches : CollectionOp → Bool
  | .store (.exec ops) => !(ops.filterMap StorageOp.onCands).isEmpty
  | .store .clear => true
  | _ => false

def remaining (cands : Table Text CandidateData) : Option Text → List (Text × CandidateData)
  | none => cands.inOrder
  | some key => cands.inOrder.filter fun row => key < row.1

variable (rowBytes : Text × CandidateData → Nat)

theorem seekCandsPage_eq (cands : Table Text CandidateData)
    (cursor : Option Text) : seekCandsPage rowBytes cands cursor =
      pageOf rowBytes storeScanPageSize storeScanPageBytes (remaining cands cursor) := by
  cases cursor <;> rfl

theorem pageRest_prefix (maxBytes limit used : Nat)
    (rows : List (Text × CandidateData)) : pageRest rowBytes maxBytes limit used rows <+: rows := by
  induction rows generalizing limit used with
  | nil => cases limit <;> simp [pageRest]
  | cons row rest ih =>
    cases limit with
    | zero => simp [pageRest]
    | succ limit =>
      rw [pageRest]
      split
      · exact List.nil_prefix
      · exact (prefix_cons_inj row).mpr (ih limit _)

theorem pageOf_prefix (limit maxBytes : Nat)
    (rows : List (Text × CandidateData)) : pageOf rowBytes limit maxBytes rows <+: rows := by
  cases rows with
  | nil => exact prefix_refl _
  | cons row rest => exact (prefix_cons_inj row).mpr ( pageRest_prefix _ _ _ _ _)

theorem pageOf_eq_nil {rowBytes : Text × CandidateData → Nat} {limit maxBytes : Nat}
    {rows : List (Text × CandidateData)} (empty : pageOf rowBytes limit maxBytes rows = []) : rows = [] := by
  cases rows with
  | nil => rfl
  | cons row rest => simp [pageOf] at empty

theorem strict_remaining (cands : Table Text CandidateData) (cursor : Option Text) :
    (remaining cands cursor).Pairwise fun first second => first.1 < second.1 := by
  cases cursor with
  | none => exact cands.strict_inOrder
  | some key => exact cands.strict_inOrder.filter _

variable {cands : Table Text CandidateData}

theorem remaining_next {cursor : Option Text}
    {page rest : List (Text × CandidateData)} {last : Text × CandidateData}
    (split : remaining cands cursor = page ++ last :: rest) : remaining cands (some last.1) = rest := by
  have sorted := strict_remaining cands cursor
  have later : remaining cands (some last.1) = (remaining cands cursor).filter fun row => last.1 < row.1 := by
    cases cursor with
    | none => rfl
    | some key =>
      have above : key < last.1 := by
        have member : last ∈ remaining cands (some key) := by simp [split]
        simpa using (mem_filter.mp member).2
      simp only [remaining, filter_filter]
      refine filter_congr fun row _ => ?_
      by_cases beyond : last.1 < row.1 <;> simp [beyond, above.trans]
  rw [later, split]
  rw [split, pairwise_append] at sorted
  obtain ⟨-, sortedRest, below⟩ := sorted
  have front : (page.filter fun row => last.1 < row.1) = [] := by
    refine filter_eq_nil_iff.mpr fun row member => ?_
    simpa using le_of_lt (below row member last (by simp))
  have back : (rest.filter fun row => last.1 < row.1) = rest := by
    refine filter_eq_self.mpr fun row member => ?_
    simpa using (pairwise_cons.mp sortedRest).1 row member
  simp [filter_append, front, back]

section Roles

variable {ι : Type} [DecidableEq ι]

def active : List (ι × CollectionOp) → List ι
  | [] => []
  | (thread, .enterMutation) :: rest => thread :: active rest
  | (thread, .leaveMutation _) :: rest => (active rest).erase thread
  | _ :: rest => active rest

def holder : List (ι × CollectionOp) → Option ι
  | [] => none
  | (thread, .acquireExclusive) :: _ => some thread
  | (_, .releaseExclusive) :: _ => none
  | _ :: rest => holder rest

def dirty : List (ι × CollectionOp) → List ι
  | [] => []
  | (thread, .leaveMutation true) :: rest => (dirty rest).filter (· ≠ thread)
  | (thread, .advanceGeneration) :: rest => (dirty rest).filter (· ≠ thread)
  | (thread, op) :: rest => if touches op then thread :: dirty rest else dirty rest

-- The generation has passed, or will have when the threads that touched the candidates leave.
def Doomed (generation : Nat) (world : CollectionWorld ι) : Prop :=
  generation < generationOf world ∨ dirty world.log ≠ []

structure Orderly (world : CollectionWorld ι) : Prop where
  counted : world.state.barrier.activeMutations = (active world.log).length
  exclusive : world.state.barrier.publisher = (holder world.log).isSome
  apart : (holder world.log).isSome → active world.log = []
  inside : ∀ thread ∈ dirty world.log, thread ∈ active world.log ∨ holder world.log = some thread
  published : ∀ publication ∈ world.state.published,
    publication.source = publication.cands.inOrder.map fun row => row.2

structure Leaves (thread : ι) (before after : CollectionWorld ι) : Prop where
  generation : generationOf before ≤ generationOf after
  active : thread ∈ active before.log → thread ∈ VectorStore.active after.log
  holding : holder before.log = some thread → holder after.log = some thread
  clean : thread ∉ dirty before.log → thread ∉ dirty after.log
  content : Doomed (generationOf before) after ∨ candsOf after = candsOf before
  doom : dirty before.log ≠ [] → Doomed (generationOf before) after
  held : holder before.log = some thread →
    candsOf after = candsOf before ∧ generationOf after = generationOf before

theorem Doomed.weaken {first second : Nat} {world : CollectionWorld ι} (doomed : Doomed second world)
    (lower : first ≤ second) : Doomed first world :=
  doomed.imp (fun later => Nat.lt_of_le_of_lt lower later) id

variable {generation : Nat}

theorem Doomed.later {thread : ι} {before after : CollectionWorld ι}
    (doomed : Doomed generation before) (moves : Leaves thread before after)
    (lower : generation ≤ generationOf before) : Doomed generation after := by
  rcases doomed with passed | pending
  · exact .inl (Nat.lt_of_lt_of_le passed moves.generation)
  · exact (moves.doom pending).weaken lower

theorem Leaves.refl (thread : ι) (world : CollectionWorld ι) : Leaves thread world world :=
  ⟨Nat.le_refl _, id, id, id, .inr rfl, .inr, fun _ => ⟨rfl, rfl⟩⟩

theorem Leaves.trans (thread : ι) (first second third : CollectionWorld ι) (left : Leaves thread first second)
    (right : Leaves thread second third) : Leaves thread first third where
  generation := Nat.le_trans left.generation right.generation
  active := right.active ∘ left.active
  holding := right.holding ∘ left.holding
  clean := right.clean ∘ left.clean
  content := by
    rcases left.content with doomed | same
    · exact .inl (doomed.later right left.generation)
    · rcases right.content with doomed | sameAgain
      · exact .inl (doomed.weaken left.generation)
      · exact .inr (sameAgain.trans same)
  doom pending := (left.doom pending).later right left.generation
  held holds := by
    obtain ⟨sameCands, sameGeneration⟩ := left.held holds
    obtain ⟨nextCands, nextGeneration⟩ := right.held (left.holding holds)
    exact ⟨nextCands.trans sameCands, nextGeneration.trans sameGeneration⟩

def publishContract : Contract ι CollectionOp CollectionState where
  invariant := Orderly
  rely := Leaves
  refl := Leaves.refl
  trans := Leaves.trans

variable {around : Surroundings} {thread : ι} {world : CollectionWorld ι}

structure Behaves (around : Surroundings) (thread : ι) (op : CollectionOp) (world : CollectionWorld ι) : Prop where
  orderly : Orderly (world.after (collectionMachine around) thread op)
  leaves : ∀ other, other ≠ thread → Leaves other world (world.after (collectionMachine around) thread op)

-- Nothing that the contract is about has changed.
structure Unmoved (before after : CollectionWorld ι) : Prop where
  active : active after.log = VectorStore.active before.log
  holder : holder after.log = VectorStore.holder before.log
  dirty : dirty after.log = VectorStore.dirty before.log
  counted : after.state.barrier.activeMutations = before.state.barrier.activeMutations
  publisher : after.state.barrier.publisher = before.state.barrier.publisher
  generation : generationOf after = generationOf before
  cands : candsOf after = candsOf before
  published : after.state.published = before.state.published

theorem Unmoved.orderly {after : CollectionWorld ι} (unmoved : Unmoved world after) (orderly : Orderly world) :
    Orderly after where
  counted := by rw [unmoved.counted, unmoved.active, orderly.counted]
  exclusive := by rw [unmoved.publisher, unmoved.holder, orderly.exclusive]
  apart := by rw [unmoved.holder, unmoved.active]; exact orderly.apart
  inside := by rw [unmoved.dirty, unmoved.active, unmoved.holder]; exact orderly.inside
  published := by rw [unmoved.published]; exact orderly.published

theorem Unmoved.leaves {after : CollectionWorld ι} (unmoved : Unmoved world after) (thread : ι) :
    Leaves thread world after where
  generation := Nat.le_of_eq unmoved.generation.symm
  active := by rw [unmoved.active]; exact id
  holding := by rw [unmoved.holder]; exact id
  clean := by rw [unmoved.dirty]; exact id
  content := .inr unmoved.cands
  doom := by rw [Doomed, unmoved.dirty]; exact .inr
  held _ := ⟨unmoved.cands, unmoved.generation⟩

-- The steps that move nothing.
def Neutral : CollectionOp → Prop
  | .snapshotGeneration | .isCurrent _ | .awaitExclusive | .readGeneration | .seekCandsPage _ | .countIndexes
  | .getIndex _ | .newIndex _ | .removeIndex _ | .applyDeltas _ => True
  | .store op => touches (.store op) = false
  | _ => False

variable {op : CollectionOp}

theorem Neutral.unmoved (neutral : Neutral op) :
    Unmoved world (world.after (collectionMachine around) thread op) := by
  cases op with
  | store op =>
    have cands : (handle around.clock op world.state.store).2.storage.cands = candsOf world := by
      cases op with
      | exec ops =>
        have none : ops.filterMap StorageOp.onCands = [] := by
          simpa [Neutral, touches] using neutral
        simp [handle, execOps_cands, none]
      | clear => simp [Neutral, touches] at neutral
      | _ => rfl
    refine ⟨rfl, rfl, ?_, rfl, rfl, rfl, cands, rfl⟩
    exact if_neg (by rw [show touches (.store op) = false from neutral]; exact Bool.false_ne_true)
  | enterMutation | leaveMutation | acquireExclusive | advanceGeneration | releaseExclusive | setIndex =>
    exact neutral.elim
  | _ => exact ⟨rfl, rfl, rfl, rfl, rfl, rfl, rfl, rfl⟩

theorem Neutral.behaves (neutral : Neutral op) (orderly : Orderly world) :
    Behaves around thread op world :=
  ⟨neutral.unmoved.orderly orderly, fun other _ => neutral.unmoved.leaves other⟩

section

variable (orderly : Orderly world) (free : world.state.barrier.publisher = false)

include orderly free

theorem Orderly.holder_none :
    holder world.log = none := by
  rw [orderly.exclusive] at free
  simpa using free

theorem enterMutation_behaves :
    Behaves around thread .enterMutation world := by
  have none := orderly.holder_none free
  constructor
  · constructor
    · exact congrArg (· + 1) orderly.counted
    · exact orderly.exclusive
    · change (holder world.log).isSome → _
      simp [none]
    · intro other member
      have before : other ∈ dirty world.log := member
      rcases orderly.inside other before with inside | holds
      · exact .inl (mem_cons_of_mem thread inside)
      · simp [none] at holds
    · exact orderly.published
  · intro other different
    refine ⟨Nat.le_refl _, ?_, id, ?_, .inr rfl, ?_, fun _ => ⟨rfl, rfl⟩⟩
    · exact mem_cons_of_mem thread
    · exact id
    · exact .inr

end

variable {changed : Bool}

section

variable (orderly : Orderly world)

include orderly

theorem leaveMutation_behaves (inside : thread ∈ active world.log)
    (clean : changed = false → thread ∉ dirty world.log) :
    Behaves around thread (.leaveMutation changed) world := by
  have none : holder world.log = none := by
    by_contra held
    have empty := orderly.apart (Option.isSome_iff_ne_none.mpr held)
    simp [empty] at inside
  have dirtyAfter : ∀ other, other ∈ dirty ((thread, CollectionOp.leaveMutation changed) :: world.log) ↔
      other ∈ dirty world.log ∧ other ≠ thread := by
    intro other
    cases changed with
    | true =>
      change other ∈ (dirty world.log).filter (· ≠ thread) ↔ _
      simp
    | false => exact ⟨fun member => ⟨member, fun same => clean rfl (same ▸ member)⟩, fun both => both.1⟩
  constructor
  · constructor
    · exact (congrArg (· - 1) orderly.counted).trans (length_erase_of_mem inside).symm
    · exact orderly.exclusive
    · change (holder world.log).isSome → _
      simp [none]
    · intro other member
      obtain ⟨before, different⟩ := (dirtyAfter other).mp member
      rcases orderly.inside other before with inside | holds
      · exact .inl ((mem_erase_of_ne different).mpr inside)
      · simp [none] at holds
    · exact orderly.published
  · intro other different
    constructor
    · cases changed with
      | true => exact Nat.le_succ _
      | false => exact Nat.le_refl _
    · intro inside
      exact (mem_erase_of_ne different).mpr inside
    · simp [none]
    · intro before member
      exact before ((dirtyAfter other).mp member).1
    · exact .inr rfl
    · intro pending
      cases changed with
      | true => exact .inl (Nat.lt_succ_self _)
      | false => exact .inr pending
    · simp [none]

theorem store_behaves (op : StoreOp)
    (inside : thread ∈ active world.log ∨ holder world.log = some thread) :
    Behaves around thread (.store op) world := by
  by_cases touched : touches (.store op) = true
  · have dirtyAfter : dirty ((thread, CollectionOp.store op) :: world.log) = thread :: dirty world.log :=
      if_pos touched
    constructor
    · refine ⟨orderly.counted, orderly.exclusive, orderly.apart, ?_, orderly.published⟩
      intro other member
      rcases mem_cons.mp (dirtyAfter ▸ member) with rfl | before
      · exact inside
      · exact orderly.inside other before
    · intro other different
      refine ⟨Nat.le_refl _, id, id, ?_, ?_, ?_, ?_⟩
      · intro before
        simp [dirtyAfter, different, before]
      · exact .inl (.inr (by simp [dirtyAfter]))
      · exact fun _ => .inr (by simp [dirtyAfter])
      · intro holds
        rcases inside with shared | exclusive
        · simp [orderly.apart (by simp [holds])] at shared
        · exact absurd (Option.some.inj (holds.symm.trans exclusive)) different
  · exact Neutral.behaves (Bool.eq_false_of_not_eq_true touched) orderly

section

variable (free : world.state.barrier.publisher = false) (idle : world.state.barrier.activeMutations = 0)

include free idle

theorem Orderly.none_dirty : active world.log = [] ∧ dirty world.log = [] := by
  have none := orderly.holder_none free
  have empty : active world.log = [] := length_eq_zero_iff.mp (orderly.counted.symm.trans idle)
  refine ⟨empty, eq_nil_iff_forall_not_mem.mpr fun other member => ?_⟩
  rcases orderly.inside other member with shared | exclusive
  · simp [empty] at shared
  · simp [none] at exclusive

theorem acquireExclusive_behaves : Behaves around thread .acquireExclusive world := by
  have none := orderly.holder_none free
  obtain ⟨empty, clean⟩ := orderly.none_dirty free idle
  constructor
  · refine ⟨orderly.counted, rfl, fun _ => empty, ?_, orderly.published⟩
    intro other member
    exact absurd (clean ▸ member) not_mem_nil
  · intro other different
    refine ⟨Nat.le_refl _, id, by simp [none], ?_, .inr rfl, ?_, fun _ => ⟨rfl, rfl⟩⟩
    · exact id
    · simp [clean]

end

section

variable (holds : holder world.log = some thread)

include holds

theorem advanceGeneration_behaves :
    Behaves around thread .advanceGeneration world := by
  constructor
  · refine ⟨orderly.counted, orderly.exclusive, orderly.apart, ?_, orderly.published⟩
    intro other member
    exact orderly.inside other (mem_filter.mp member).1
  · intro other different
    refine ⟨Nat.le_succ _, id, id, ?_, .inr rfl, fun _ => .inl (Nat.lt_succ_self _), ?_⟩
    · intro before member
      exact before (mem_filter.mp member).1
    · intro held
      exact absurd (Option.some.inj (held.symm.trans holds)) different

theorem Orderly.dirty_holder (clean : thread ∉ dirty world.log) : dirty world.log = [] := by
  refine eq_nil_iff_forall_not_mem.mpr fun other member => ?_
  rcases orderly.inside other member with shared | exclusive
  · simp [orderly.apart (by simp [holds])] at shared
  · obtain rfl : thread = other := Option.some.inj (holds.symm.trans exclusive)
    exact clean member

theorem releaseExclusive_behaves (clean : thread ∉ dirty world.log) : Behaves around thread .releaseExclusive world := by
  have empty := orderly.dirty_holder holds clean
  constructor
  · refine ⟨orderly.counted, rfl, fun held => absurd held Bool.false_ne_true, ?_, orderly.published⟩
    intro other member
    exact absurd (empty ▸ member) not_mem_nil
  · intro other different
    have notOther : holder world.log ≠ some other := by
      rw [holds]
      exact fun same => different (Option.some.inj same).symm
    exact ⟨Nat.le_refl _, id, fun held => absurd held notOther, id, .inr rfl, by simp [empty], fun _ => ⟨rfl, rfl⟩⟩

end

theorem setIndex_behaves {indexName : Text} {index : Index}
    (current : index.source = (candsOf world).inOrder.map fun row => row.2) :
    Behaves around thread (.setIndex indexName index) world := by
  constructor
  · refine ⟨orderly.counted, orderly.exclusive, orderly.apart, ?_, ?_⟩
    · intro other member
      exact orderly.inside other member
    · intro publication member
      rcases mem_cons.mp member with rfl | before
      · exact current
      · exact orderly.published publication before
  · intro other different
    exact ⟨Nat.le_refl _, id, id, id, .inr rfl, .inr, fun _ => ⟨rfl, rfl⟩⟩

end

abbrev Keeps {α : Type} (around : Surroundings) (thread : ι) (post : α → CollectionWorld ι → Prop)
    (program : CollectionM α) (world : CollectionWorld ι) : Prop :=
  publishContract.Respects (collectionMachine around) thread post program world

abbrev EndsClean {α : Type} (around : Surroundings) (thread : ι) (program : CollectionM α) (world : CollectionWorld ι) : Prop :=
  Keeps around thread (fun _ after => thread ∉ dirty after.log) program world

structure Scanning (thread : ι) (cands : Table Text CandidateData) (known bad : CollectionWorld ι → Prop) : Prop where
  known_later : ∀ before later, Leaves thread before later → known before → known later
  bad_later : ∀ before later, Leaves thread before later → known before → bad before → bad later
  content : ∀ world, known world → bad world ∨ candsOf world = cands

theorem keeps_scanCands {known bad : CollectionWorld ι → Prop}
    (scanning : Scanning thread cands known bad) (fuel : Nat) (cursor : Option Text) (rows : List CandidateData)
    (knows : known world)
    (soFar : bad world ∨ rows ++ (remaining cands cursor).map (fun row => row.2) = cands.inOrder.map fun row => row.2) :
    Keeps around thread (fun result later => known later ∧
        ∀ scanned, result = some scanned → bad later ∨ scanned = cands.inOrder.map fun row => row.2)
      (scanCands fuel cursor rows) world := by
  induction fuel generalizing world cursor rows with
  | zero =>
    intro later _ moves
    exact ⟨scanning.known_later _ _ moves knows, by simp⟩
  | succ fuel ih =>
    intro later orderly moves _
    have behaves : Behaves around thread (.seekCandsPage cursor) later := Neutral.behaves trivial orderly
    refine ⟨behaves.orderly, behaves.leaves, ?_⟩
    set after := later.after (collectionMachine around) thread (.seekCandsPage cursor)
    have unmoved : Unmoved later after := Neutral.unmoved (show Neutral (.seekCandsPage cursor) from trivial)
    have knowsLater := scanning.known_later _ _ moves knows
    have knowsAfter : known after := scanning.known_later _ _ (unmoved.leaves thread) knowsLater
    have badAfter : bad later → bad after := scanning.bad_later _ _ (unmoved.leaves thread) knowsLater
    -- the page is a part of the rows that remain, unless the thread is bad
    set page := seekCandsPage around.rowBytes (candsOf later) cursor with isPage
    have onTime : bad after ∨ candsOf later = cands ∧
        rows ++ (remaining cands cursor).map (fun row => row.2) = cands.inOrder.map fun row => row.2 := by
      rcases soFar with isBad | sofar
      · exact .inl (badAfter (scanning.bad_later _ _ moves knows isBad))
      · rcases scanning.content later knowsLater with isBad | same
        · exact .inl (badAfter isBad)
        · exact .inr ⟨same, sofar⟩
    dsimp only [Prog.bind]
    rw [show ((collectionMachine around).handle (.seekCandsPage cursor) later.state).1 = page from rfl]
    rcases eq_nil_or_concat page with empty | ⟨front, last, isLast⟩
    · simp only [empty, getLast?_nil]
      intro last _ moves
      refine ⟨scanning.known_later _ _ moves knowsAfter, ?_⟩
      rintro scanned ⟨⟩
      rcases onTime with isBad | ⟨same, sofar⟩
      · exact .inl (scanning.bad_later _ _ moves knowsAfter isBad)
      · rw [isPage, seekCandsPage_eq, same] at empty
        rw [pageOf_eq_nil empty] at sofar
        exact .inr (by simpa using sofar)
    · rw [concat_eq_append] at isLast
      simp only [isLast, getLast?_concat]
      split
      · intro last _ moves
        exact ⟨scanning.known_later _ _ moves knowsAfter, by simp⟩
      · refine ih (some last.1) _ knowsAfter ?_
        rcases onTime with isBad | ⟨same, sofar⟩
        · exact .inl isBad
        · obtain ⟨rest, split⟩ := pageOf_prefix around.rowBytes storeScanPageSize storeScanPageBytes (remaining cands cursor)
          rw [← seekCandsPage_eq, ← same, ← isPage, isLast, same, append_assoc] at split
          have next := remaining_next split.symm
          rw [← split] at sofar
          exact .inr (by simpa [next] using sofar)

variable {α : Type} {post : α → CollectionWorld ι → Prop} {next : op.Res → CollectionM α}

theorem keeps_ask
    (behaves : ∀ later, Orderly later → Leaves thread world later → (collectionMachine around).enabled op later.state →
      Behaves around thread op later)
    (rest : ∀ later, Orderly later → Leaves thread world later → (collectionMachine around).enabled op later.state →
      Keeps around thread post (next (collectionHandle around op later.state).1)
        (later.after (collectionMachine around) thread op)) :
    Keeps around thread post (ask op >>= next) world :=
  fun later orderly moves enabled =>
    ⟨(behaves later orderly moves enabled).orderly, (behaves later orderly moves enabled).leaves,
      rest later orderly moves enabled⟩

theorem keeps_neutral (neutral : Neutral op)
    (rest : ∀ answer after, Leaves thread world after → Keeps around thread post (next answer) after) :
    Keeps around thread post (ask op >>= next) world :=
  keeps_ask (fun _ orderly _ _ => neutral.behaves orderly) fun _ _ moves _ =>
    rest _ _ (Leaves.trans _ _ _ _ moves (neutral.unmoved.leaves thread))

variable {known : CollectionWorld ι → Prop}

theorem keeps_pure {value : α}
    (lasts : ∀ later, Leaves thread world later → known later) :
    Keeps around thread (fun _ => known) (pure value) world :=
  fun later _ moves => lasts later moves

theorem clean_after_leave {log : List (ι × CollectionOp)}
    (clean : changed = false → thread ∉ dirty log) :
    thread ∉ dirty ((thread, CollectionOp.leaveMutation changed) :: log) := by
  cases changed with
  | true => exact fun member => by simpa using (mem_filter.mp member).2
  | false => exact clean rfl

theorem keeps_leaveMutation (inside : thread ∈ active world.log)
    (clean : changed = false → thread ∉ dirty world.log) :
    EndsClean around thread (ask (.leaveMutation changed)) world := by
  intro later orderly moves _
  have cleanLater : changed = false → thread ∉ dirty later.log := fun unchanged => moves.clean (clean unchanged)
  have behaves : Behaves around thread (.leaveMutation changed) later :=
    leaveMutation_behaves orderly (moves.active inside) cleanLater
  exact ⟨behaves.orderly, behaves.leaves, fun last _ further => further.clean (clean_after_leave cleanLater)⟩

variable {program : Prog StoreOp StoreOp.Res α} {result : α → Prop}

theorem within_onStore
    (within : Within (fun _ _ => True) (fun _ => True) result program) :
    Within (fun _ _ => True) (fun op => ∃ storeOp, op = CollectionOp.store storeOp) result (onStore program) := by
  induction program with
  | done value => exact within
  | call op rest ih => exact ⟨⟨op, rfl⟩, fun answer _ => ih answer (within.2 answer trivial)⟩

theorem within_any (program : Prog StoreOp StoreOp.Res α) :
    Within (fun _ _ => True) (fun _ => True) (fun _ => True) program := by
  induction program with
  | done value => trivial
  | call op rest ih => exact ⟨trivial, fun answer _ => ih answer⟩

theorem keeps_onStore
    (later : ∀ before after, Leaves thread before after → known before → known after)
    (step : ∀ before op, known before → known (before.after (collectionMachine around) thread (.store op)))
    (inside : ∀ before, known before → thread ∈ active before.log ∨ holder before.log = some thread)
    (within : Within (fun _ _ => True) (fun _ => True) result program) (knows : known world) :
    Keeps around thread (fun value after => result value ∧ known after) (onStore program) world := by
  refine .of_within (fun before after _ moves => later before after moves) ?_ (within_onStore within) knows
  rintro _ before orderly holds ⟨op, rfl⟩ _
  have behaves : Behaves around thread (.store op) before := store_behaves orderly op (inside before holds)
  exact ⟨behaves.orderly, behaves.leaves, step before op holds⟩

theorem keeps_onStore_shared
    (within : Within (fun _ _ => True) (fun _ => True) result program) (inside : thread ∈ active world.log) :
    Keeps around thread (fun value after => result value ∧ thread ∈ active after.log) (onStore program) world :=
  keeps_onStore (fun _ _ moves => moves.active) (fun _ _ => id) (fun _ => .inl) within inside

theorem keeps_onStore_exclusive (program : Prog StoreOp StoreOp.Res α)
    (holds : holder world.log = some thread) :
    Keeps around thread (fun _ after => True ∧ holder after.log = some thread) (onStore program) world :=
  keeps_onStore (fun _ _ moves => moves.holding) (fun _ _ => id) (fun _ => .inr) (within_any program) holds

theorem keeps_enterMutation {next : Unit → CollectionM α}
    (clean : thread ∉ dirty world.log)
    (rest : ∀ after, thread ∈ active after.log → thread ∉ dirty after.log → Keeps around thread post (next ()) after) :
    Keeps around thread post (ask .enterMutation >>= next) world := by
  refine keeps_ask (fun later orderly _ enabled => enterMutation_behaves orderly enabled.1) ?_
  intro later _ moves _
  exact rest _ mem_cons_self (moves.clean clean)

theorem keeps_changeStore (change : StoreM (List DeltaRecord)) (inside : thread ∈ active world.log) :
    EndsClean around thread (changeStore change) world := by
  refine (keeps_onStore_shared (within_any change.run) inside).bind fun result after _ ⟨_, stillInside⟩ => ?_
  cases result with
  | error error => exact keeps_leaveMutation stillInside (by simp)
  | ok deltaList =>
    exact keeps_neutral trivial fun _ after moves => keeps_leaveMutation (moves.active stillInside) (by simp)

theorem keeps_writeDataList (cands : List CandidateData) (ttl : Int) (clean : thread ∉ dirty world.log) :
    EndsClean around thread (writeDataList cands ttl) world :=
  keeps_enterMutation clean fun _ inside _ => keeps_neutral trivial fun _ _ moves => keeps_changeStore _ (moves.active inside)

theorem keeps_deleteFromCollection (labels : List Nat) (clean : thread ∉ dirty world.log) :
    EndsClean around thread (deleteFromCollection labels) world :=
  keeps_enterMutation clean fun _ inside _ => keeps_neutral trivial fun _ _ moves => keeps_changeStore _ (moves.active inside)

theorem keeps_updateIndex (indexName : Text) (clean : thread ∉ dirty world.log) :
    EndsClean around thread (updateIndex indexName) world := by
  refine keeps_enterMutation clean fun entered inside stillClean => keeps_neutral trivial fun index after moves => ?_
  cases index with
  | none => exact keeps_leaveMutation (moves.active inside) fun _ => moves.clean stillClean
  | some index =>
    exact keeps_neutral trivial fun _ last further => keeps_leaveMutation (further.active (moves.active inside)) (by simp)

theorem onStore_expireData : onStore expireData.run =
    (ask (.store .timeNs) >>= fun nowTime => ask (.store (.seekTtl (str nowTime))) >>= fun ttlKvList =>
      ask (.store (.readCands (ttlKvList.map fun entry => entry.2))) >>= fun rows =>
        onStore (removeExpired (expiredCands nowTime rows) ttlKvList).run) := rfl

theorem keeps_removeExpired (expired : List CandidateData) (ttlKvList : List (Text × Text))
    (inside : thread ∈ active world.log) (clean : thread ∉ dirty world.log) :
    Keeps around thread (fun result after => thread ∈ active after.log ∧ (result = .ok [] → thread ∉ dirty after.log))
      (onStore (removeExpired expired ttlKvList).run) world := by
  by_cases none : expired = []
  · subst none
    have shape : onStore (removeExpired [] ttlKvList).run =
        (ask (.store (.exec (ttlKvList.map fun entry => .ttl (.del entry.1)))) >>= fun _ => pure (.ok [])) := rfl
    rw [shape]
    refine keeps_neutral ?_ fun _ after moves => ?_
    · simp only [Neutral, touches, onCands_delTtl]
      rfl
    · exact fun last _ further => ⟨further.active (moves.active inside), fun _ => further.clean (moves.clean clean)⟩
  · have within : Does (fun _ _ => True) (fun _ => True) (fun deltas => deltas ≠ []) (fun _ => True)
        (removeExpired expired ttlKvList) := by
      have any : Does (fun _ _ => True) (fun _ => True) (fun _ => True) (fun _ => True)
          (recordExpired expired (expired.map fun data => deleteDelta data.label data.fields)) :=
        (within_any _).weaken (fun _ => id) fun result _ => by cases result <;> trivial
      have executes : ∀ op, Does (fun _ _ => True) (fun _ => True) (fun _ => True) (fun _ : StoreError => True)
          (call op) := fun op => .perform op trivial
      exact .bind any fun _ _ => .bind (executes _) fun _ _ => .pure (by simpa using none)
    refine (keeps_onStore_shared within inside).weaken fun result after _ ends => ⟨ends.2, ?_⟩
    rintro rfl
    exact absurd rfl ends.1

theorem keeps_expireTimeoutData (clean : thread ∉ dirty world.log) :
    EndsClean around thread expireTimeoutData world := by
  refine keeps_enterMutation clean fun entered inside cleanInside => ?_
  have expires : Keeps around thread
      (fun result after => thread ∈ active after.log ∧ (result = .ok [] → thread ∉ dirty after.log))
      (onStore expireData.run) entered := by
    rw [onStore_expireData]
    refine keeps_neutral rfl fun _ afterTime movesTime => keeps_neutral rfl fun _ afterSeek movesSeek => ?_
    refine keeps_neutral rfl fun _ afterRead movesRead => ?_
    have moves := Leaves.trans _ _ _ _ (Leaves.trans _ _ _ _ movesTime movesSeek) movesRead
    exact keeps_removeExpired _ _ (moves.active inside) (moves.clean cleanInside)
  refine expires.bind fun result after _ ⟨stillInside, unmarked⟩ => ?_
  cases result with
  | error error => exact keeps_leaveMutation stillInside (by simp)
  | ok deltaList =>
    refine keeps_neutral trivial fun raised last moves => keeps_leaveMutation (moves.active stillInside) ?_
    intro unchanged
    have empty : deltaList = [] := by
      cases deltaList with
      | nil => rfl
      | cons delta rest => simp at unchanged
    exact moves.clean (unmarked (by rw [empty]))

theorem keeps_exclusiveMutation {body : CollectionM Unit} (clean : thread ∉ dirty world.log)
    (runs : ∀ entered, holder entered.log = some thread → thread ∉ dirty entered.log →
      Keeps around thread (fun _ after => holder after.log = some thread) body entered) :
    EndsClean around thread (exclusiveMutation body) world := by
  refine keeps_neutral trivial fun _ waiting movesWaiting => ?_
  refine keeps_ask (fun later orderly _ enabled => acquireExclusive_behaves orderly enabled.1 enabled.2) ?_
  intro later _ moves _
  have cleanLater : thread ∉ dirty later.log := moves.clean (movesWaiting.clean clean)
  refine (runs (later.after _ thread .acquireExclusive) rfl cleanLater).bind fun _ after _ holds => ?_
  refine keeps_ask (fun last orderly further _ => advanceGeneration_behaves orderly (further.holding holds)) ?_
  intro last _ further _
  have stillHolds : holder last.log = some thread := further.holding holds
  have advanced : thread ∉ dirty ((thread, CollectionOp.advanceGeneration) :: last.log) :=
    fun member => by simpa using (mem_filter.mp member).2
  intro ending orderly movesEnding _
  have behaves : Behaves around thread .releaseExclusive ending :=
    releaseExclusive_behaves orderly (movesEnding.holding stillHolds) (movesEnding.clean advanced)
  exact ⟨behaves.orderly, behaves.leaves, fun final _ movesFinal => movesFinal.clean (movesEnding.clean advanced)⟩

theorem keeps_removeIndexes (indexNames : List Text) (holds : holder world.log = some thread) :
    Keeps around thread (fun _ after => holder after.log = some thread) (removeIndexes indexNames) world := by
  induction indexNames generalizing world with
  | nil => exact keeps_pure fun later moves => moves.holding holds
  | cons indexName rest ih => exact keeps_neutral trivial fun _ after moves => ih (moves.holding holds)

theorem keeps_setIndex {indexName : Text} {index : Index}
    {next : Unit → CollectionM α} (holds : holder world.log = some thread)
    (current : index.source = (candsOf world).inOrder.map fun row => row.2)
    (rest : ∀ after, Leaves thread world after → Keeps around thread post (next ()) after) :
    Keeps around thread post (ask (.setIndex indexName index) >>= next) world := by
  refine keeps_ask (fun later orderly moves _ => setIndex_behaves orderly ?_) fun later orderly moves _ => rest _ ?_
  · rw [(moves.held holds).1, current]
  · exact Leaves.trans _ _ _ _ moves ⟨Nat.le_refl _, id, id, id, .inr rfl, .inr, fun _ => ⟨rfl, rfl⟩⟩

theorem keeps_rebuildEmpty (indexNames : List Text) (holds : holder world.log = some thread)
    (empty : candsOf world = ∅) :
    Keeps around thread (fun _ after => holder after.log = some thread) (rebuildEmpty indexNames) world := by
  induction indexNames generalizing world with
  | nil => exact keeps_pure fun later moves => moves.holding holds
  | cons indexName rest ih =>
    refine keeps_ask (fun _ orderly _ _ => Neutral.behaves trivial orderly) fun later _ moves _ => ?_
    have stillEmpty : candsOf later = ∅ := (moves.held holds).1.trans empty
    refine keeps_setIndex (moves.holding holds) ?_ fun after further => ?_
    · have none : (∅ : Table Text CandidateData).inOrder = [] := rfl
      simp [collectionHandle, collectionMachine, candsOf, stillEmpty, none]
    · exact ih (further.holding (moves.holding holds)) ((further.held (moves.holding holds)).1.trans stillEmpty)

theorem keeps_deleteAllData (indexNames : List Text) (clean : thread ∉ dirty world.log) :
    EndsClean around thread (deleteAllData indexNames) world := by
  refine keeps_exclusiveMutation clean fun entered holds _ => ?_
  refine (keeps_removeIndexes indexNames holds).bind fun _ after _ stillHolds => ?_
  refine keeps_ask (fun later orderly moves _ => store_behaves orderly _ (.inr (moves.holding stillHolds))) ?_
  intro later _ moves _
  exact keeps_rebuildEmpty indexNames (moves.holding stillHolds) rfl

theorem keeps_dropIndex (indexName : Text) (clean : thread ∉ dirty world.log) :
    EndsClean around thread (dropIndex indexName) world :=
  keeps_exclusiveMutation clean fun _ holds _ => keeps_neutral trivial fun _ _ moves =>
    keeps_pure fun _ further => further.holding (moves.holding holds)

theorem scanning_exclusive (thread : ι) (cands : Table Text CandidateData) :
    Scanning thread cands (fun world => holder world.log = some thread ∧ candsOf world = cands) fun _ => False where
  known_later _ _ moves knows := ⟨moves.holding knows.1, (moves.held knows.1).1.trans knows.2⟩
  bad_later _ _ _ _ := id
  content _ knows := .inr knows.2

theorem keeps_createIndex (fuel : Nat) (indexName : Text) (oldestVersion : Nat) (clean : thread ∉ dirty world.log) :
    EndsClean around thread (createIndex fuel indexName oldestVersion) world := by
  refine keeps_exclusiveMutation clean fun entered holds _ => ?_
  refine (keeps_scanCands (scanning_exclusive thread (candsOf entered)) fuel none [] ⟨holds, rfl⟩
    (.inr rfl)).bind fun scanned after _ ⟨knows, complete⟩ => ?_
  cases scanned with
  | none => exact keeps_pure fun later moves => moves.holding knows.1
  | some cands =>
    have rows : cands = (candsOf entered).inOrder.map fun row => row.2 := (complete cands rfl).resolve_left id
    refine keeps_ask (fun _ orderly _ _ => Neutral.behaves trivial orderly) fun later _ moves _ => ?_
    have stillHolds : holder later.log = some thread := moves.holding knows.1
    refine keeps_setIndex stillHolds ?_ fun last further => ?_
    · have same : candsOf later = candsOf entered := (moves.held knows.1).1.trans knows.2
      change cands = (candsOf later).inOrder.map fun row => row.2
      rw [same, rows]
    · exact (keeps_onStore_exclusive _ (further.holding stillHolds)).bind fun _ _ _ ends =>
        keeps_pure fun _ movesOn => movesOn.holding ends.2

structure Awaiting (thread : ι) (generation : Nat) (cands : Table Text CandidateData) (world : CollectionWorld ι) :
    Prop where
  lower : generation ≤ generationOf world
  content : Doomed generation world ∨ candsOf world = cands
  clean : thread ∉ dirty world.log

theorem Awaiting.later {after : CollectionWorld ι}
    (awaits : Awaiting thread generation cands world) (moves : Leaves thread world after) :
    Awaiting thread generation cands after where
  lower := Nat.le_trans awaits.lower moves.generation
  content := by
    rcases awaits.content with doomed | same
    · exact .inl (doomed.later moves awaits.lower)
    · rcases moves.content with doomed | still
      · exact .inl (doomed.weaken awaits.lower)
      · exact .inr (still.trans same)
  clean := moves.clean awaits.clean

theorem scanning_awaiting (thread : ι) (generation : Nat) (cands : Table Text CandidateData) :
    Scanning thread cands (Awaiting thread generation cands) (Doomed generation) where
  known_later _ _ moves awaits := awaits.later moves
  bad_later _ _ moves awaits doomed := doomed.later moves awaits.lower
  content _ awaits := awaits.content

theorem not_doomed (current : generationOf world = generation) (settled : dirty world.log = []) :
    ¬ Doomed generation world := by
  rintro (passed | pending)
  · exact absurd current (Nat.ne_of_gt passed)
  · exact pending settled

theorem keeps_release (holds : holder world.log = some thread) (clean : thread ∉ dirty world.log) (installed : Bool) :
    EndsClean around thread
      (ask .releaseExclusive >>= fun _ => pure installed) world := by
  refine keeps_ask (fun _ orderly moves _ => releaseExclusive_behaves orderly (moves.holding holds) (moves.clean clean)) ?_
  intro later _ moves _
  exact keeps_pure fun last further => further.clean (moves.clean clean)

theorem keeps_installIndex (indexName : Text) (index : Index)
    (oldIndex : Index) (awaits : Awaiting thread generation cands world)
    (built : index.source = cands.inOrder.map fun row => row.2) :
    EndsClean around thread
      (installIndex indexName index generation oldIndex) world := by
  refine keeps_neutral trivial fun _ waiting movesWaiting => ?_
  refine keeps_ask (fun _ orderly _ enabled => acquireExclusive_behaves orderly enabled.1 enabled.2) ?_
  intro later orderly moves enabled
  have awaitsLater := (awaits.later movesWaiting).later moves
  set entered := later.after (collectionMachine around) thread .acquireExclusive
  have holds : holder entered.log = some thread := rfl
  have settled : dirty entered.log = [] := (orderly.none_dirty enabled.1 enabled.2).2
  have sameGeneration : generationOf entered = generationOf later := rfl
  have sameCands : candsOf entered = candsOf later := rfl
  have awaitsEntered : Awaiting thread generation cands entered := by
    refine ⟨awaitsLater.lower, ?_, by simp [settled]⟩
    rcases awaitsLater.content with passed | same
    · rcases passed with passed | pending
      · exact .inl (.inl passed)
      · exact absurd (orderly.none_dirty enabled.1 enabled.2).2 pending
    · exact .inr same
  refine keeps_ask (fun _ orderlyRead _ _ => Neutral.behaves trivial orderlyRead) fun reading _ movesRead _ => ?_
  have read : (collectionHandle around .readGeneration reading.state).1 = generationOf entered :=
    (movesRead.held holds).2
  rw [read]
  set afterRead := reading.after (collectionMachine around) thread .readGeneration
  have movesAfter : Leaves thread entered afterRead :=
    Leaves.trans _ _ _ _ movesRead ((Neutral.unmoved (show Neutral .readGeneration from trivial)).leaves thread)
  refine keeps_neutral trivial fun replaced looked movesLooked => ?_
  have movesToLooked := Leaves.trans _ _ _ _ movesAfter movesLooked
  have holdsLooked : holder looked.log = some thread := movesToLooked.holding holds
  have cleanLooked : thread ∉ dirty looked.log := movesToLooked.clean awaitsEntered.clean
  split
  · exact keeps_release holdsLooked cleanLooked false
  · rename_i agrees
    have current : generationOf entered = generation := by
      by_contra other
      exact agrees (.inl other)
    have still : candsOf entered = cands := awaitsEntered.content.resolve_left (not_doomed current settled)
    refine keeps_setIndex holdsLooked ?_ fun last further => ?_
    · rw [(movesToLooked.held holds).1, still, built]
    · exact keeps_release (further.holding holdsLooked) (further.clean cleanLooked) true

theorem keeps_rebuildIndex (fuel : Nat) (indexName : Text) (oldIndex : Index) (clean : thread ∉ dirty world.log) :
    EndsClean around thread (rebuildIndex fuel indexName oldIndex) world := by
  refine keeps_ask (fun _ orderly _ _ => Neutral.behaves trivial orderly) fun later _ moves _ => ?_
  set after := later.after (collectionMachine around) thread .snapshotGeneration
  have awaits : Awaiting thread (generationOf later) (candsOf later) after := by
    exact ⟨Nat.le_refl _, .inr rfl, moves.clean clean⟩
  change Keeps around thread _ (scanCands fuel none [] >>= _) after
  refine (keeps_scanCands (scanning_awaiting thread (generationOf later) (candsOf later)) fuel none [] awaits
    (.inr rfl)).bind fun scanned ending _ held => ?_
  obtain ⟨awaitsEnding, complete⟩ := held
  cases scanned with
  | none => exact keeps_pure fun last further => further.clean awaitsEnding.clean
  | some cands =>
    refine keeps_ask (fun _ orderly _ _ => Neutral.behaves trivial orderly) fun asked orderly movesAsked _ => ?_
    set checked := asked.after (collectionMachine around) thread (.isCurrent (generationOf later))
    have movesChecked : Leaves thread ending checked :=
      Leaves.trans _ _ _ _ movesAsked ((Neutral.unmoved (show Neutral (.isCurrent _) from trivial)).leaves thread)
    have awaitsChecked := awaitsEnding.later movesChecked
    split
    · rename_i current
      simp only [collectionHandle, Bool.and_eq_true, Bool.not_eq_true', beq_iff_eq] at current
      obtain ⟨⟨free, idle⟩, sameGeneration⟩ := current
      have settled := (orderly.none_dirty free idle).2
      have rows : cands = (candsOf later).inOrder.map fun row => row.2 := by
        refine (complete cands rfl).resolve_left fun doomed => ?_
        exact not_doomed sameGeneration settled (doomed.later movesAsked awaitsEnding.lower)
      refine keeps_ask (fun _ orderlyNew _ _ => Neutral.behaves trivial orderlyNew) fun building _ movesNew _ => ?_
      have unmovedNew : Unmoved building (building.after (collectionMachine around) thread (.newIndex cands)) :=
        Neutral.unmoved trivial
      have awaitsNew := (awaitsChecked.later movesNew).later (unmovedNew.leaves thread)
      exact (keeps_installIndex indexName _ oldIndex awaitsNew rows).bind fun _ _ _ cleanAfter =>
        keeps_pure fun last further => further.clean cleanAfter
    · exact keeps_pure fun last further => further.clean awaitsChecked.clean

theorem keeps_program (call : CollectionCall) (clean : thread ∉ dirty world.log) :
    EndsClean around thread call.program world := by
  cases call with
  | writeDataList cands ttl => exact keeps_writeDataList cands ttl clean
  | deleteData labels => exact keeps_deleteFromCollection labels clean
  | expireTimeoutData => exact keeps_expireTimeoutData clean
  | updateIndex indexName => exact keeps_updateIndex indexName clean
  | deleteAllData indexNames => exact keeps_deleteAllData indexNames clean
  | createIndex fuel indexName oldestVersion => exact keeps_createIndex fuel indexName oldestVersion clean
  | dropIndex indexName => exact keeps_dropIndex indexName clean
  | rebuildIndex fuel indexName oldIndex => exact keeps_rebuildIndex fuel indexName oldIndex clean

theorem keeps_callAll (calls : List CollectionCall) (clean : thread ∉ dirty world.log) :
    EndsClean around thread (callAll calls) world := by
  induction calls generalizing world with
  | nil => exact keeps_pure fun later moves => moves.clean clean
  | cons call rest ih => exact (keeps_program call clean).bind fun _ _ _ cleanAfter => ih cleanAfter

theorem orderly_collectionPool (store : StoreState) (indexes : Table Text Index) (built : Nat)
    (calls : ι → List CollectionCall) : Orderly (collectionPool store indexes built calls).toWorld := by
  constructor <;> simp [collectionPool, Barrier.new, active, holder, dirty]

theorem holds_collectionPool (around : Surroundings) (store : StoreState) (indexes : Table Text Index) (built : Nat)
    (calls : ι → List CollectionCall) :
    publishContract.Holds (collectionMachine around) (fun thread _ after => thread ∉ dirty after.log)
      (collectionPool store indexes built calls) :=
  ⟨orderly_collectionPool store indexes built calls, fun _ => keeps_callAll _ (by simp [collectionPool, dirty])⟩

/-- Whatever threads write, delete, expire, clear and rebuild in any order, every index that was ever
put into the map was built from the candidates that the store held at that moment. -/
theorem published_over_its_snapshot {around : Surroundings} {store : StoreState} {indexes : Table Text Index}
    {built : Nat} {calls : ι → List CollectionCall} {pool : Pool ι CollectionOp CollectionOp.Res Unit CollectionState}
    (reached : Pool.Reaches (collectionMachine around) (collectionPool store indexes built calls) pool) :
    ∀ publication ∈ pool.state.published,
      publication.source = publication.cands.inOrder.map fun row => row.2 :=
  ((holds_collectionPool around store indexes built calls).reaches reached).invariant.published

end Roles

instance (around : Surroundings) (op : CollectionOp) (state : CollectionState) :
    Decidable ((collectionMachine around).enabled op state) :=
  match op with
  | .enterMutation | .snapshotGeneration =>
    inferInstanceAs (Decidable (state.barrier.publisher = false ∧ state.barrier.waitingPublishers = 0))
  | .acquireExclusive =>
    inferInstanceAs (Decidable (state.barrier.publisher = false ∧ state.barrier.activeMutations = 0))
  | .leaveMutation _ | .isCurrent _ | .awaitExclusive | .readGeneration | .advanceGeneration | .releaseExclusive
  | .store _ | .seekCandsPage _ | .countIndexes | .getIndex _ | .newIndex _ | .setIndex _ _ | .removeIndex _
  | .applyDeltas _ => Decidable.isTrue trivial

def someRow : CandidateData := ⟨1, [], [], [], ['a'], 0⟩

def rebuilds : Bool → List CollectionCall
  | false => [.writeDataList [someRow] 0, .rebuildIndex 5 ['i'] ⟨0, []⟩, .rebuildIndex 5 ['i'] ⟨1, [someRow]⟩]
  | true => [.deleteData [1]]

def rebuildsEnd : Pool Bool CollectionOp CollectionOp.Res Unit CollectionState :=
  Pool.follow (collectionMachine ⟨fun reading => 100 + reading, fun _ => 1, fun _ => false⟩)
    (List.replicate 23 false ++ List.replicate 7 true ++ List.replicate 5 false)
    (collectionPool ⟨.empty, 0⟩ (AList.insert ['i'] ⟨0, []⟩ ∅) 1 rebuilds)

/-- The first index is published and the second one is discarded. -/
theorem rebuilds_publish_current :
    rebuildsEnd.state.built = 3 ∧ rebuildsEnd.state.published.map (fun publication => publication.source) = [[someRow]] ∧
      ∀ publication ∈ rebuildsEnd.state.published,
        publication.source = publication.cands.inOrder.map fun row => row.2 :=
  ⟨by rfl, by rfl, published_over_its_snapshot (Pool.reaches_follow _ _ _)⟩

end LoginomDock.VectorStore
