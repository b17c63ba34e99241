import LoginomDock.Library.Checked
import LoginomDock.Library.Runs
import LoginomDock.Client.NodeOperations

/-! Whatever the order of the calls and of the workers' ends, one worker runs at a time, the attempts of an operation
follow each other, and none follows a final one. -/

namespace LoginomDock.Client

open NodeOperationRunner List Table

def launchesOf (id : Text) (events : List RunnerEvent) : List Launch :=
  events.filterMap fun event => match event with
    | .launched launch => if launch.id = id then some launch else none
    | .settled _ _ _ => none

def RunnerEvent.Settles (launch : Launch) : RunnerEvent → Prop
  | .settled id attempt _ => id = launch.id ∧ attempt = launch.attempt
  | .launched _ => False

instance (launch : Launch) (event : RunnerEvent) : Decidable (event.Settles launch) := by
  cases event <;> unfold RunnerEvent.Settles <;> infer_instance

def Settled (launch : Launch) (events : List RunnerEvent) : Prop := ∃ event ∈ events, event.Settles launch

instance (launch : Launch) (events : List RunnerEvent) : Decidable (Settled launch events) :=
  inferInstanceAs (Decidable (∃ event ∈ events, _))

def runningLaunches (events : List RunnerEvent) : List Launch :=
  (events.filterMap fun event => match event with
    | .launched launch => some launch
    | .settled _ _ _ => none).filter fun launch => ¬ Settled launch events

structure LaunchAllowed (before : List RunnerEvent) (launch : Launch) : Prop where
  alone : runningLaunches before = []
  signature : ∀ other ∈ launchesOf launch.id before, other.signature = launch.signature
  next : launch.attempt = (launchesOf launch.id before).length + 1
  earlier : ∀ other ∈ launchesOf launch.id before, Settled other before
  open' : ∀ attempt outcome, .settled launch.id attempt outcome ∈ before → isFinal outcome = false

structure SingleFlight (events : List RunnerEvent) : Prop where
  one : ∀ before after, events = before ++ after → (runningLaunches before).length ≤ 1
  launches : AtEach events fun before event => ∀ launch, event = .launched launch → LaunchAllowed before launch

section Events

variable (events : List RunnerEvent)

theorem launchesOf_launched (id : Text) (launch : Launch) : launchesOf id (events ++ [.launched launch]) =
    launchesOf id events ++ if launch.id = id then [launch] else [] := by
  rw [launchesOf, filterMap_append]
  by_cases own : launch.id = id <;> simp [launchesOf, own]

theorem launchesOf_settled (id other : Text) (attempt : Nat) (outcome : Option Json) :
    launchesOf id (events ++ [.settled other attempt outcome]) = launchesOf id events := by
  simp [launchesOf]

theorem settled_launched (launch other : Launch) : Settled other (events ++ [.launched launch]) ↔ Settled other events := by
  simp [Settled, RunnerEvent.Settles, or_and_right, exists_or]

theorem settled_settled (launch : Launch) (id : Text) (attempt : Nat) (outcome : Option Json) :
    Settled launch (events ++ [.settled id attempt outcome]) ↔
      Settled launch events ∨ id = launch.id ∧ attempt = launch.attempt := by
  simp [Settled, RunnerEvent.Settles, or_and_right, exists_or]

theorem runningLaunches_launched (launch : Launch) : runningLaunches (events ++ [.launched launch]) =
    runningLaunches events ++ if Settled launch events then [] else [launch] := by
  rw [runningLaunches, filterMap_append, filter_append]
  simp only [settled_launched]
  by_cases done : Settled launch events <;> simp [runningLaunches, done]

theorem runningLaunches_settled (id : Text) (attempt : Nat) (outcome : Option Json) :
    runningLaunches (events ++ [.settled id attempt outcome]) =
      (runningLaunches events).filter fun launch => ¬ (id = launch.id ∧ attempt = launch.attempt) := by
  rw [runningLaunches, runningLaunches, filterMap_append, filter_filter]
  simp only [settled_settled, not_or, filterMap_cons, filterMap_nil, append_nil]
  congr 1
  funext launch
  simp only [decide_not, Bool.decide_and, Bool.not_and]
  rw [Bool.and_comm]

end Events

structure Job.Tracks (job : Job) (id : Text) (events : List RunnerEvent) : Prop where
  own : job.id = id
  count : job.attempt = (launchesOf id events).length
  signature : ∀ launch ∈ launchesOf id events, launch.signature = job.signature
  attempts : ∀ launch ∈ launchesOf id events, launch.attempt < job.attempt → Settled launch events
  most : ∀ launch ∈ launchesOf id events, launch.attempt ≤ job.attempt
  known : ∀ attempt outcome, .settled id attempt outcome ∈ events → attempt ≤ job.attempt
  last : ∀ outcome, .settled id job.attempt outcome ∈ events → job.state = .settled ∧ outcome = job.outcome
  before : ∀ attempt outcome, .settled id attempt outcome ∈ events → attempt < job.attempt → isFinal outcome = false
  ended : job.state = .settled → job.completed = true ∧ ∀ launch ∈ launchesOf id events, Settled launch events

structure RunnerHistory.Tracks (history : RunnerHistory) : Prop where
  unknown : ∀ id, history.jobs.lookup id = none →
    launchesOf id history.events = [] ∧ ∀ attempt outcome, .settled id attempt outcome ∉ history.events
  known : ∀ id job, history.jobs.lookup id = some job → job.Tracks id history.events
  running : ∀ launch ∈ runningLaunches history.events, ∃ job, history.jobs.lookup launch.id = some job ∧ job.state = .running
  one : (runningLaunches history.events).length ≤ 1
  flight : SingleFlight history.events

theorem singleFlight_nil : SingleFlight [] where
  one before after split := by
    have empty : before = [] := (append_eq_nil_iff.mp split.symm).1
    rw [empty]
    exact Nat.zero_le 1
  launches := by simp

theorem SingleFlight.append {events : List RunnerEvent} (flight : SingleFlight events) {event : RunnerEvent}
    (one : (runningLaunches (events ++ [event])).length ≤ 1)
    (allowed : ∀ launch, event = .launched launch → LaunchAllowed events launch) : SingleFlight (events ++ [event]) where
  one before after split := by
    rcases eq_nil_or_concat after with rfl | ⟨front, last, rfl⟩
    · rw [append_nil] at split
      rw [← split]
      exact one
    · rw [concat_eq_append, ← append_assoc] at split
      exact flight.one before front (append_inj' split rfl).1
  launches := (atEach_append_singleton events event _).mpr ⟨flight.launches, allowed⟩

variable {id : Text}

theorem Job.Tracks.other {job : Job} {events : List RunnerEvent} (tracks : job.Tracks id events)
    {event : RunnerEvent} (launches : launchesOf id (events ++ [event]) = launchesOf id events)
    (settles : ∀ attempt outcome, event ≠ .settled id attempt outcome) : job.Tracks id (events ++ [event]) := by
  have known : ∀ attempt outcome, .settled id attempt outcome ∈ events ++ [event] → .settled id attempt outcome ∈ events := by
    intro attempt outcome member
    rcases mem_append.mp member with old | new
    · exact old
    · exact absurd (mem_singleton.mp new).symm (settles attempt outcome)
  have more : ∀ launch, Settled launch events → Settled launch (events ++ [event]) := by
    rintro launch ⟨settling, member, settled⟩
    exact ⟨settling, mem_append_left _ member, settled⟩
  refine ⟨tracks.own, ?_, ?_, ?_, ?_, ?_, ?_, ?_, ?_⟩
  · rw [launches]
    exact tracks.count
  · rw [launches]
    exact tracks.signature
  · rw [launches]
    exact fun launch member less => more launch (tracks.attempts launch member less)
  · rw [launches]
    exact tracks.most
  · exact fun attempt outcome member => tracks.known attempt outcome (known attempt outcome member)
  · exact fun outcome member => tracks.last outcome (known _ outcome member)
  · exact fun attempt outcome member => tracks.before attempt outcome (known attempt outcome member)
  · rw [launches]
    exact fun settled => ⟨(tracks.ended settled).1, fun launch member => more launch ((tracks.ended settled).2 launch member)⟩

variable {launch : Launch}

theorem mem_launchesOf {events : List RunnerEvent} :
    launch ∈ launchesOf id events ↔ .launched launch ∈ events ∧ launch.id = id := by
  rw [launchesOf, mem_filterMap]
  constructor
  · rintro ⟨event, member, made⟩
    cases event with
    | launched other =>
      dsimp only at made
      split at made
      next own =>
        cases made
        exact ⟨member, own⟩
      next => cases made
    | settled _ _ _ => cases made
  · rintro ⟨member, own⟩
    exact ⟨_, member, by simp [own]⟩

theorem mem_runningLaunches {events : List RunnerEvent} :
    launch ∈ runningLaunches events ↔ .launched launch ∈ events ∧ ¬ Settled launch events := by
  rw [runningLaunches, mem_filter, mem_filterMap, decide_eq_true_eq]
  refine and_congr_left fun _ => ⟨?_, fun member => ⟨_, member, rfl⟩⟩
  rintro ⟨event, member, made⟩
  cases event with
  | launched other =>
    cases made
    exact member
  | settled _ _ _ => cases made

namespace RunnerHistory.Tracks

variable {history : RunnerHistory} (tracks : history.Tracks)

include tracks

theorem idle (quiet : busy history.jobs = false) : runningLaunches history.events = [] := by
  refine eq_nil_iff_forall_not_mem.mpr fun launch member => ?_
  obtain ⟨job, there, running⟩ := tracks.running launch member
  have entry := (mem_entries_iff history.jobs launch.id job).mpr there
  rw [busy, any_eq_false] at quiet
  exact quiet _ entry (by simpa using running)

theorem withFlags {job changed : Job} (there : history.jobs.lookup id = some job)
    (same : changed.id = job.id ∧ changed.signature = job.signature ∧ changed.attempt = job.attempt ∧
      changed.state = job.state ∧ changed.outcome = job.outcome)
    (completed : job.completed = true → changed.completed = true) : Tracks { history with jobs := history.jobs.insert id changed } := by
  obtain ⟨sameId, sameSignature, sameAttempt, sameState, sameOutcome⟩ := same
  have old := tracks.known id job there
  refine ⟨fun other absent => ?_, fun other found known => ?_, fun launch member => ?_, tracks.one, tracks.flight⟩
  · rw [lookup_insert_if] at absent
    split at absent
    · cases absent
    · exact tracks.unknown other absent
  · rw [lookup_insert_if] at known
    split at known
    next own =>
      subst own
      cases known
      refine ⟨sameId.trans old.own, sameAttempt.trans old.count, ?_, ?_, ?_, ?_, ?_, ?_, ?_⟩
      · rw [sameSignature]
        exact old.signature
      · rw [sameAttempt]
        exact old.attempts
      · rw [sameAttempt]
        exact old.most
      · rw [sameAttempt]
        exact old.known
      · rw [sameAttempt, sameState, sameOutcome]
        exact old.last
      · rw [sameAttempt]
        exact old.before
      · rw [sameState]
        exact fun settled => ⟨completed (old.ended settled).1, (old.ended settled).2⟩
    next => exact tracks.known other found known
  · obtain ⟨found, known, running⟩ := tracks.running launch member
    by_cases own : launch.id = id
    · refine ⟨changed, by rw [own, AList.lookup_insert], ?_⟩
      rw [own, there, Option.some_inj] at known
      rw [sameState, known]
      exact running
    · exact ⟨found, by rw [lookup_insert_if, if_neg own]; exact known, running⟩

def Follows (jobs : Jobs) (launch : Launch) : Prop :=
  (jobs.lookup launch.id = none ∧ launch.attempt = 1) ∨
    ∃ old, jobs.lookup launch.id = some old ∧ old.signature = launch.signature ∧ old.state = .settled ∧
      isFinal old.outcome = false ∧ launch.attempt = old.attempt + 1

theorem allowed (quiet : busy history.jobs = false) (follows : Follows history.jobs launch) :
    LaunchAllowed history.events launch ∧
      (∀ attempt outcome, .settled launch.id attempt outcome ∈ history.events → attempt < launch.attempt) ∧
        ∀ other ∈ launchesOf launch.id history.events, other.attempt < launch.attempt := by
  rcases follows with ⟨absent, first⟩ | ⟨old, there, signature, settled, resumable, next⟩
  · obtain ⟨launches, settles⟩ := tracks.unknown launch.id absent
    refine ⟨⟨tracks.idle quiet, ?_, ?_, ?_, ?_⟩, fun attempt outcome member => absurd member (settles attempt outcome), ?_⟩
    · simp [launches]
    · simp [launches, first]
    · simp [launches]
    · exact fun attempt outcome member => absurd member (settles attempt outcome)
    · simp [launches]
  · have known := tracks.known launch.id old there
    refine ⟨⟨tracks.idle quiet, ?_, ?_, (known.ended settled).2, ?_⟩, ?_, ?_⟩
    · rw [← signature]
      exact known.signature
    · rw [next, known.count]
    · intro attempt outcome member
      rcases (known.known attempt outcome member).lt_or_eq with less | rfl
      · exact known.before attempt outcome member less
      · rw [(known.last outcome member).2]
        exact resumable
    · intro attempt outcome member
      have := known.known attempt outcome member
      omega
    · intro other member
      have := known.most other member
      omega

theorem launched (quiet : busy history.jobs = false) {launch : Launch} (follows : Follows history.jobs launch) {job : Job}
    (same : job.id = launch.id ∧ job.signature = launch.signature ∧ job.attempt = launch.attempt ∧ job.state = .running) :
    Tracks ⟨history.jobs.insert launch.id job, history.events ++ [.launched launch]⟩ := by
  obtain ⟨sameId, sameSignature, sameAttempt, running⟩ := same
  obtain ⟨allowed, settles, less⟩ := tracks.allowed quiet follows
  have fresh : ¬ Settled launch history.events := by
    rintro ⟨event, member, settled⟩
    cases event with
    | launched _ => cases settled
    | settled id attempt outcome =>
      obtain ⟨rfl, rfl⟩ := settled
      exact absurd (settles _ outcome member) (lt_irrefl _)
  have alone : runningLaunches (history.events ++ [.launched launch]) = [launch] := by
    rw [runningLaunches_launched, allowed.alone, if_neg fresh]
    rfl
  have launches : launchesOf launch.id (history.events ++ [.launched launch]) =
      launchesOf launch.id history.events ++ [launch] := by
    rw [launchesOf_launched, if_pos rfl]
  have known : ∀ id attempt outcome, .settled id attempt outcome ∈ history.events ++ [.launched launch] →
      .settled id attempt outcome ∈ history.events := by
    intro id attempt outcome member
    simpa using member
  refine ⟨fun other absent => ?_, fun other found there => ?_, ?_, by simp [alone], tracks.flight.append (by simp [alone]) ?_⟩
  · rw [lookup_insert_if] at absent
    split at absent
    · cases absent
    next different =>
      obtain ⟨none', unsettled⟩ := tracks.unknown other absent
      refine ⟨?_, fun attempt outcome member => unsettled attempt outcome (known _ _ _ member)⟩
      rw [launchesOf_launched, if_neg (Ne.symm different), none']
      rfl
  · rw [lookup_insert_if] at there
    split at there
    next own =>
      subst own
      cases there
      refine ⟨sameId, ?_, ?_, ?_, ?_, ?_, ?_, ?_, ?_⟩
      · rw [launches, sameAttempt, allowed.next, List.length_append]
        rfl
      · rw [launches, sameSignature]
        intro other member
        rcases mem_append.mp member with old | new
        · exact allowed.signature other old
        · rw [mem_singleton.mp new]
      · rw [launches, sameAttempt]
        intro other member earlier
        rw [settled_launched]
        rcases mem_append.mp member with old | new
        · exact allowed.earlier other old
        · rw [mem_singleton.mp new] at earlier
          omega
      · rw [launches, sameAttempt]
        intro other member
        rcases mem_append.mp member with old | new
        · exact (less other old).le
        · rw [mem_singleton.mp new]
      · rw [sameAttempt]
        exact fun attempt outcome member => (settles attempt outcome (known _ _ _ member)).le
      · rw [sameAttempt]
        exact fun outcome member => absurd (settles _ outcome (known _ _ _ member)) (lt_irrefl _)
      · exact fun attempt outcome member _ => allowed.open' attempt outcome (known _ _ _ member)
      · rw [running]
        intro settled
        cases settled
    next different =>
      refine (tracks.known other found there).other ?_ (fun _ _ => by simp)
      rw [launchesOf_launched, if_neg (Ne.symm different), append_nil]
  · rw [alone]
    intro other member
    rw [mem_singleton.mp member]
    exact ⟨job, AList.lookup_insert _, running⟩
  · intro other same
    cases same
    exact allowed

theorem settled {job ended : Job} (there : history.jobs.lookup id = some job) (open' : job.completed = false)
    (same : ended.id = job.id ∧ ended.signature = job.signature ∧ ended.attempt = job.attempt ∧ ended.state = .settled ∧
      ended.completed = true) :
    Tracks ⟨history.jobs.insert id ended, history.events ++ [.settled id job.attempt ended.outcome]⟩ := by
  obtain ⟨sameId, sameSignature, sameAttempt, isSettled, completed⟩ := same
  have old := tracks.known id job there
  have notYet : ∀ outcome, .settled id job.attempt outcome ∉ history.events := by
    intro outcome member
    have done := (old.ended (old.last outcome member).1).1
    rw [open'] at done
    cases done
  have sublist := filter_sublist (l := runningLaunches history.events)
    (p := fun launch => ¬ (id = launch.id ∧ job.attempt = launch.attempt))
  have one : (runningLaunches (history.events ++ [.settled id job.attempt ended.outcome])).length ≤ 1 := by
    rw [runningLaunches_settled]
    exact sublist.length_le.trans tracks.one
  have split : ∀ attempt outcome, .settled id attempt outcome ∈ history.events ++ [.settled id job.attempt ended.outcome] →
      .settled id attempt outcome ∈ history.events ∨ attempt = job.attempt ∧ outcome = ended.outcome := by
    intro attempt outcome member
    simpa using member
  refine ⟨fun other absent => ?_, fun other found known => ?_, fun launch member => ?_, one,
    tracks.flight.append one fun launch same => by cases same⟩
  · rw [lookup_insert_if] at absent
    split at absent
    · cases absent
    next different =>
      obtain ⟨none', unsettled⟩ := tracks.unknown other absent
      refine ⟨by rw [launchesOf_settled, none'], fun attempt outcome member => ?_⟩
      rcases mem_append.mp member with before | new
      · exact unsettled attempt outcome before
      · simp [different] at new
  · rw [lookup_insert_if] at known
    split at known
    next own =>
      subst own
      cases known
      have done : ∀ launch ∈ launchesOf other history.events,
          Settled launch (history.events ++ [.settled other job.attempt ended.outcome]) := by
        intro launch member
        rw [settled_settled]
        rcases (old.most launch member).lt_or_eq with earlier | last
        · exact .inl (old.attempts launch member earlier)
        · exact .inr ⟨(mem_launchesOf.mp member).2.symm, last.symm⟩
      refine ⟨sameId.trans old.own, ?_, ?_, ?_, ?_, ?_, ?_, ?_, ?_⟩
      · rw [launchesOf_settled, sameAttempt, old.count]
      · rw [launchesOf_settled, sameSignature]
        exact old.signature
      · rw [launchesOf_settled]
        exact fun launch member _ => done launch member
      · rw [launchesOf_settled, sameAttempt]
        exact old.most
      · rw [sameAttempt]
        intro attempt outcome member
        rcases split attempt outcome member with before | ⟨rfl, -⟩
        · exact old.known attempt outcome before
        · exact le_rfl
      · rw [sameAttempt]
        intro outcome member
        rcases split _ outcome member with before | ⟨-, rfl⟩
        · exact absurd before (notYet outcome)
        · exact ⟨isSettled, rfl⟩
      · rw [sameAttempt]
        intro attempt outcome member less
        rcases split attempt outcome member with before | ⟨rfl, -⟩
        · exact old.before attempt outcome before less
        · omega
      · rw [launchesOf_settled]
        exact fun _ => ⟨completed, done⟩
    next different =>
      refine (tracks.known other found known).other (launchesOf_settled _ _ _ _ _) fun attempt outcome same => ?_
      cases same
      exact different rfl
  · rw [runningLaunches_settled, mem_filter, decide_eq_true_eq] at member
    obtain ⟨member, apart⟩ := member
    obtain ⟨found, known, running⟩ := tracks.running launch member
    have other : launch.id ≠ id := by
      intro own
      obtain ⟨inside, unsettled⟩ := mem_runningLaunches.mp member
      have launches := mem_launchesOf.mpr ⟨inside, own⟩
      rcases (old.most launch launches).lt_or_eq with earlier | last
      · exact unsettled (old.attempts launch launches earlier)
      · exact apart ⟨own.symm, last.symm⟩
    exact ⟨found, by rw [lookup_insert_if, if_neg other]; exact known, running⟩

end RunnerHistory.Tracks

theorem find_eq_ok {jobs : Jobs} {job : Job} (found : find jobs id = .ok job) : jobs.lookup id = some job := by
  obtain ⟨checked, isId, there⟩ := bind_ok_iff.mp found
  have same : id = checked := by
    unfold checkId at isId
    dsimp only at isId
    split at isId
    · cases isId
      rfl
    · cases isId
  subst same
  cases known : jobs.lookup id with
  | none => simp [known] at there
  | some other =>
    simp only [known] at there
    cases there
    rfl

theorem start_cases {callbacks : Callbacks} {jobs after : Jobs} {request : Json} {resume : Bool} {shown : Snapshot}
    {launched : Option Launch} (started : start callbacks jobs request resume = .ok (after, shown, launched)) :
    (after = jobs ∧ launched = none) ∨ ∃ launch job, launched = some launch ∧ busy jobs = false ∧
      RunnerHistory.Tracks.Follows jobs launch ∧ after = jobs.insert launch.id job ∧
        job.id = launch.id ∧ job.signature = launch.signature ∧ job.attempt = launch.attempt ∧ job.state = .running := by
  obtain ⟨id, -, started⟩ := bind_ok_iff.mp started
  obtain ⟨given, -, started⟩ := bind_ok_iff.mp started
  split at started
  · cases started
  next revision _ =>
    dsimp only at started
    unfold startSigned at started
    split at started
    next old there =>
      split at started
      · cases started
      next same =>
        split at started
        · cases started
          exact .inl ⟨rfl, rfl⟩
        next open' =>
          split at started
          · cases started
          next quiet =>
            cases started
            simp only [Bool.or_eq_true, decide_eq_true_eq, not_or, Bool.not_eq_true] at open'
            have settled : old.state = .settled := by
              cases state : old.state with
              | running => exact absurd state open'.1.2
              | settled => rfl
            exact .inr ⟨_, _, rfl, by simpa using quiet,
              .inr ⟨old, there, not_not.mp same, settled, open'.2, rfl⟩, rfl, rfl, rfl, rfl, rfl⟩
    next absent =>
      split at started
      · cases started
      next =>
        split at started
        · cases started
        next quiet =>
          cases started
          exact .inr ⟨_, _, rfl, by simpa using quiet, .inl ⟨absent, rfl⟩, rfl, rfl, rfl, rfl, rfl⟩

theorem complete_cases (job : Job) (result : WorkerResult) : (complete job result).id = job.id ∧
    (complete job result).signature = job.signature ∧ (complete job result).attempt = job.attempt ∧
      (complete job result).completed = true ∧ ((complete job result).state = .settled ∨
        (complete job result).state = job.state ∧ (complete job result).outcome = job.outcome) := by
  unfold complete
  dsimp only
  split <;> simp

namespace RunnerHistory.Tracks

variable {history : RunnerHistory}

theorem initial : RunnerHistory.Tracks {} where
  unknown := by simp [launchesOf]
  known := by simp
  running := by simp [runningLaunches]
  one := Nat.zero_le 1
  flight := singleFlight_nil

theorem step (tracks : history.Tracks) (callbacks : Callbacks) (call : RunnerCall) : (history.step callbacks call).Tracks := by
  cases call with
  | start request resume =>
    rw [RunnerHistory.step]
    split
    · exact tracks
    next jobs shown launched started =>
      rcases start_cases started with ⟨rfl, rfl⟩ | ⟨launch, job, rfl, quiet, follows, rfl, same⟩
      · rw [show (Option.map RunnerEvent.launched none).toList = [] from rfl, append_nil]
        exact tracks
      · exact tracks.launched quiet follows same
  | status id => exact tracks
  | wait id timeoutMs aborted => exact tracks
  | stop id =>
    rw [RunnerHistory.step]
    split
    · exact tracks
    next jobs shown stopped =>
      obtain ⟨job, found, stopped⟩ := bind_ok_iff.mp stopped
      have there := find_eq_ok found
      split at stopped
      · cases stopped
        exact tracks
      · split at stopped
        · cases stopped
        · cases stopped
          exact tracks.withFlags there ⟨rfl, rfl, rfl, rfl, rfl⟩ fun done => done
  | cancel id =>
    rw [RunnerHistory.step]
    split
    · exact tracks
    next jobs shown cancelled =>
      obtain ⟨job, found, cancelled⟩ := bind_ok_iff.mp cancelled
      have there := find_eq_ok found
      cases cancelled
      refine tracks.withFlags there ?_ ?_
      · split <;> exact ⟨rfl, rfl, rfl, rfl, rfl⟩
      · split <;> exact fun done => done
  | completes id attempt result =>
    rw [RunnerHistory.step, RunnerHistory.completes]
    split
    · exact tracks
    next job there =>
      split
      · exact tracks
      next own =>
        obtain ⟨same, open'⟩ := not_or.mp own
        obtain rfl := not_not.mp same
        obtain ⟨sameId, sameSignature, sameAttempt, completed, ends⟩ := complete_cases job result
        dsimp only
        split
        next isSettled =>
          exact tracks.settled there (by simpa using open') ⟨sameId, sameSignature, sameAttempt, isSettled, completed⟩
        next runs =>
          obtain ⟨state, outcome⟩ := ends.resolve_left runs
          exact tracks.withFlags there ⟨sameId, sameSignature, sameAttempt, state, outcome⟩ fun _ => completed

theorem foldl (tracks : history.Tracks) (calls : List (Callbacks × RunnerCall)) :
    (calls.foldl (fun history call => history.step call.1 call.2) history).Tracks := by
  induction calls generalizing history with
  | nil => exact tracks
  | cons call rest ih => exact ih (tracks.step call.1 call.2)

end RunnerHistory.Tracks

/-- In every history one worker runs at a time, an operation keeps its signature, its attempts are numbered from 1 and
follow each other, and none follows a final one. -/
theorem operations_single_flight (calls : List (Callbacks × RunnerCall)) : SingleFlight (RunnerHistory.run calls).events :=
  (RunnerHistory.Tracks.initial.foldl calls).flight

end LoginomDock.Client
