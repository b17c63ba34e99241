import LoginomDock.Delivery.ArtifactDelivery

namespace LoginomDock.Delivery

open Delivery

variable {ι α β σ : Type} {context : RunContext}

def Ask.Plain : Ask → Prop
  | .uploadDeliveredArtifact _ | .verifyDeliveredArtifact _ => False
  | _ => True

def Outcome.Unproven : Outcome → Prop
  | .succeeded _ _ _ _ _ => False
  | _ => True

def Assignment.Plain : Assignment → Prop
  | .state value => value = .settled
  | .outcome value => value.Unproven
  | .uploadStarted _ | .preUploadResume _ | .verificationStarted => False
  | _ => True

-- Calls that leave every job alone but the given one, and of that one what was uploaded and verified.
def Op.Plain (id : Text) : Op ι → Prop
  | .ask question => question.Plain
  | .read _ | .status _ => True
  | .assign target assignment => target = id ∧ assignment.Plain
  | .deliver _ _ | .resume _ _ | .deactivate => False

def Navigates (id : Text) (program : DeliveryM ι α) : Prop :=
  Prog.Does (fun _ _ => True) (Op.Plain id) (fun _ => True) (fun _ => True) program

-- A procedure with variables of its own, whatever they are.
def Searches (id : Text) (program : StateT σ (DeliveryM ι) α) : Prop := ∀ start, Navigates id (program.run start)

namespace Navigates

variable {id : Text} {program : DeliveryM ι α}

theorem pure (value : α) : Navigates id (Pure.pure value : DeliveryM ι α) := Prog.Does.pure trivial

theorem throw (error : JsError) : Navigates id (MonadExcept.throw error : DeliveryM ι α) := Prog.Does.throw trivial

theorem bind {next : α → DeliveryM ι β} (first : Navigates id program) (rest : ∀ value, Navigates id (next value)) :
    Navigates id (program >>= next) := Prog.Does.bind first fun value _ => rest value

theorem ite {condition : Prop} [Decidable condition] {other : DeliveryM ι α} (whenTrue : Navigates id program)
    (whenFalse : Navigates id other) : Navigates id (if condition then program else other) := by
  split
  · exact whenTrue
  · exact whenFalse

theorem tryCatch {handler : JsError → DeliveryM ι α} (first : Navigates id program)
    (handles : ∀ error, Navigates id (handler error)) : Navigates id (MonadExcept.tryCatch program handler) :=
  Prog.Does.tryCatch first fun error _ => handles error

theorem ask {question : Ask} (plain : question.Plain) : Navigates id (Delivery.ask question : DeliveryM ι _) :=
  ⟨plain, fun _ _ => trivial⟩

theorem raise (reply : Except JsError α) : Navigates id (raise reply : DeliveryM ι α) := by
  cases reply with
  | ok value => exact .pure value
  | error error => exact .throw error

theorem requireValue (condition : Bool) (message : String) :
    Navigates id (Delivery.requireValue condition message : DeliveryM ι Unit) := .ite (.pure ()) (.throw _)

theorem defined (value : Option α) : Navigates id (Delivery.defined value : DeliveryM ι α) := by
  cases value with
  | some value => exact .pure value
  | none => exact .throw _

theorem one (values : List α) (message : String) : Navigates id (Delivery.one values message : DeliveryM ι α) := by
  unfold Delivery.one
  split
  · exact .pure _
  · exact .throw _

variable (context)

theorem readJob : Navigates context.id (readJob context : DeliveryM ι (Job ι)) :=
  .bind ⟨trivial, fun _ _ => trivial⟩ fun job => .defined job

theorem assign {assignment : Assignment} (plain : assignment.Plain) :
    Navigates context.id (assign context assignment : DeliveryM ι Unit) :=
  ⟨⟨rfl, plain⟩, fun _ _ => trivial⟩

theorem acknowledge (phase : String) (details : Details) :
    Navigates context.id (acknowledge context phase details : DeliveryM ι Unit) :=
  .bind (.ask trivial) fun _ => .bind (.raise _) fun _ => .requireValue _ _

theorem check : Navigates context.id (check context : DeliveryM ι Unit) :=
  .bind (.ask trivial) fun _ => .bind (.raise _) fun _ => .bind (.ask trivial) fun _ => .requireValue _ _

theorem inspect : Navigates context.id (inspect context : DeliveryM ι Inspection) :=
  .bind (.ask trivial) fun _ => .raise _

theorem inspectedOr (inspected : Option Inspection) :
    Navigates context.id (inspectedOr context inspected : DeliveryM ι Inspection) := by
  cases inspected with
  | some inspected => exact .pure _
  | none => exact .inspect context

theorem ownOutcome (inspected : Inspection) (message : String) :
    Navigates context.id (ownOutcome context inspected message : DeliveryM ι Receipt) :=
  .bind (.defined _) fun _ => .bind (.defined _) fun _ => .bind (.requireValue _ _) fun _ => .pure _

theorem nextPages (output : Observation) (cursor : Option Text) (pages : Nat) :
    Navigates context.id (nextPages context output cursor pages : DeliveryM ι Observation) := by
  induction pages generalizing output cursor with
  | zero =>
    rcases cursor with - | - | ⟨char, rest⟩
    · exact .pure _
    · exact .pure _
    · exact .bind (.check context) fun _ => .throw _
  | succ pages ih =>
    rcases cursor with - | - | ⟨char, rest⟩
    · exact .pure _
    · exact .pure _
    · refine .bind (.check context) fun _ => .bind (.ask trivial) fun _ => .bind (.raise _) fun next => ?_
      refine .bind (.requireValue _ _) fun _ => .bind (.defined _) fun page => ?_
      exact .bind (.requireValue _ _) fun _ => ih _ _

theorem readPages (options : ObserveOptions) :
    Navigates context.id (readPages context options : DeliveryM ι Observation) := by
  refine .bind (.check context) fun _ => .bind (.ask trivial) fun _ => .bind (.raise _) fun reply => ?_
  exact .ite (.bind (.defined _) fun output => .nextPages context _ _ _) (.throw _)

theorem observe (options : ObserveOptions) :
    Navigates context.id (observe context options : DeliveryM ι Observation) := by
  have again : ∀ attempts, Navigates context.id (observeAgain context options attempts : DeliveryM ι Observation) := by
    intro attempts
    induction attempts with
    | zero => exact .readPages context options
    | succ attempts ih =>
      refine .tryCatch (.readPages context options) fun error => .ite ?_ (.throw _)
      exact .bind (.check context) fun _ => .bind (.ask trivial) fun _ => ih
  exact again 2

theorem roots : Navigates context.id (roots context : DeliveryM ι Observation) := .observe context _

theorem click (s : Observation) (element : UiElement) (verb : String) (deltaY : Option ℚ) :
    Navigates context.id (click context s element verb deltaY : DeliveryM ι Unit) := by
  refine .bind (.check context) fun _ => .bind (.readJob context) fun job => .bind (.assign context trivial) fun _ => ?_
  refine .bind (.assign context trivial) fun _ => .bind (.ask trivial) fun _ => .bind (.raise _) fun reply => ?_
  exact .ite (.assign context trivial) (.throw _)

theorem detail (r : Observation) (element : UiElement) :
    Navigates context.id (detail context r element : DeliveryM ι Observation) := by
  have again : ∀ attempts now region, Navigates context.id
      (detailAgain context r element.tid now region attempts : DeliveryM ι Observation) := by
    intro attempts
    induction attempts with
    | zero => exact fun _ _ => .observe context _
    | succ attempts ih =>
      refine fun now region => .tryCatch (.observe context _) fun error => .ite (.throw _) ?_
      refine .bind (.roots context) fun again => .bind (.requireValue _ _) fun _ => ?_
      exact .bind (.one _ _) fun found => ih _ _
  exact again 2 r element

end Navigates

namespace Searches

variable {id : Text} {program : StateT σ (DeliveryM ι) α}

theorem pure (value : α) : Searches id (Pure.pure value : StateT σ (DeliveryM ι) α) := fun _ => .pure _

theorem throw (error : JsError) : Searches id (MonadExcept.throw error : StateT σ (DeliveryM ι) α) := fun _ => .throw _

theorem bind {next : α → StateT σ (DeliveryM ι) β} (first : Searches id program)
    (rest : ∀ value, Searches id (next value)) : Searches id (program >>= next) :=
  fun start => .bind (first start) fun ended => rest ended.1 ended.2

theorem map {f : α → β} (first : Searches id program) : Searches id (f <$> program) := .bind first fun _ => .pure _

theorem lift {procedure : DeliveryM ι α} (navigates : Navigates id procedure) :
    Searches id (StateT.lift procedure : StateT σ (DeliveryM ι) α) :=
  fun _ => .bind navigates fun _ => .pure _

theorem get : Searches id (MonadState.get : StateT σ (DeliveryM ι) σ) := fun _ => .pure _

theorem set (value : σ) : Searches id (MonadStateOf.set value : StateT σ (DeliveryM ι) PUnit) := fun _ => .pure _

theorem ite {condition : Prop} [Decidable condition] {other : StateT σ (DeliveryM ι) α}
    (whenTrue : Searches id program) (whenFalse : Searches id other) :
    Searches id (if condition then program else other) := by
  split
  · exact whenTrue
  · exact whenFalse

theorem whenThen {condition : Prop} [Decidable condition] {step : StateT σ (DeliveryM ι) PUnit}
    {next : PUnit → StateT σ (DeliveryM ι) α} (taken : Searches id step) (rest : Searches id (next ⟨⟩)) :
    Searches id (if condition then step >>= next else next ⟨⟩) := .ite (.bind taken fun _ => rest) rest

variable (context)

theorem ready (condition : Text) {read : StateT σ (DeliveryM ι) (Option Observation)} (predicate : Observation → Bool)
    (reads : Searches context.id read) : Searches context.id (ready context condition read predicate) := by
  have sampled : ∀ samples deadline,
      Searches context.id (sampleReady condition read predicate deadline samples) := by
    intro samples deadline
    induction samples with
    | zero => exact .throw _
    | succ samples ih =>
      refine .bind (.lift (.ask trivial)) fun now => .ite (.bind reads fun found => ?_) (.throw _)
      have later : Searches context.id (StateT.lift (Delivery.ask (.sleep 100)) >>= fun _ =>
          sampleReady condition read predicate deadline samples) := .bind (.lift (.ask trivial)) fun _ => ih
      cases found with
      | some s => exact .ite (.pure s) later
      | none => exact later
  exact .bind (.lift (.ask trivial)) fun now => sampled _ _

theorem readBar : Searches context.id (readBar context : StateT Unit (DeliveryM ι) (Option Observation)) := by
  refine .bind (.lift (.roots context)) fun r => ?_
  dsimp only
  split
  · exact .pure _
  · exact .map (.lift (.detail context _ _))
  · exact .throw _

section Rows

variable (name : Text) (parent : Observation)

theorem readInFolder (options : Option Observation → ObserveOptions) :
    Searches context.id (readInFolder context parent options : SearchM ι Observation) := by
  refine .bind .get fun search => .bind (.lift (.observe context _)) fun s => ?_
  refine .bind (.lift (.requireValue _ _)) fun _ => .whenThen (.lift (.requireValue _ _)) ?_
  exact .bind (.set _) fun _ => .pure _

theorem bindFolder (s : Observation) : Searches context.id (bindFolder s : SearchM ι Unit) := by
  refine .bind (.lift (.requireValue _ _)) fun _ => .bind .get fun search => ?_
  split
  · exact .set _
  · exact .lift (.requireValue _ _)

theorem readTable : Searches context.id (readTable context parent : SearchM ι (Option Observation)) := by
  refine .bind (.readInFolder context parent _) fun r => ?_
  dsimp only
  split
  · exact .pure _
  · exact .map (.readInFolder context parent _)
  · exact .throw _

theorem table : Searches context.id (table context name parent : SearchM ι Observation) :=
  .ready context _ _ (.readTable context parent)

theorem issuedRow (suffix : Text) :
    Searches context.id (issuedRow context name parent suffix : SearchM ι (Option Observation)) := by
  refine .bind (.readInFolder context parent _) fun r => ?_
  split
  · exact .pure _
  · refine .bind (.readInFolder context parent _) fun found => .bind (.bindFolder context _) fun _ => ?_
    exact .bind (.lift (.defined _)) fun ref => .bind (.lift (.requireValue _ _)) fun _ => .pure _
  · exact .throw _

theorem unavailable (s : Observation) (reason : String) :
    Searches context.id (unavailable name s reason : SearchM ι α) :=
  .bind (.lift (.defined _)) fun _ => .throw _

theorem scrollOn (s : Observation) (last : Bool) :
    Searches context.id (scrollOn context name s last : SearchM ι Unit) := by
  refine .bind (.lift (.defined _)) fun ref => ?_
  split
  · exact .unavailable context name s _
  · refine .bind (.lift (.defined _)) fun scroll => .bind (.lift (.requireValue _ _)) fun _ => .bind .get fun search => ?_
    refine .bind (.lift (.requireValue _ _)) fun _ => .bind (.lift (.requireValue _ _)) fun _ => ?_
    refine .ite (.unavailable context name s _) ?_
    exact .bind (.lift (.requireValue _ _)) fun _ => .bind (.set _) fun _ => .lift (.click context _ _ _ _)

theorem searchRow (suffix : Text) (steps : Nat) :
    Searches context.id (searchRow context name parent suffix steps : SearchM ι Observation) := by
  induction steps with
  | zero => exact .throw _
  | succ steps ih =>
    refine .bind (.lift (.check context)) fun _ => .bind (.issuedRow context name parent suffix) fun row => ?_
    cases row with
    | some found => exact .pure _
    | none =>
      refine .bind (.table context name parent) fun s => .bind (.bindFolder context s) fun _ => ?_
      exact .bind (.scrollOn context name s _) fun _ => ih

end Rows

end Searches

namespace Navigates

variable (context)

theorem storageTidSuffix (name : Text) : Navigates context.id (storageTidSuffix name : DeliveryM ι Text) :=
  .bind (.requireValue _ _) fun _ => .pure _

theorem directory (expected : Option Text) :
    Navigates context.id (directory context expected : DeliveryM ι Observation) :=
  .bind (Searches.ready context _ _ (.readBar context) ()) fun _ => .pure _

theorem readRow (name : Text) (parent : Observation) :
    Navigates context.id (readRow context name parent : DeliveryM ι Observation) := by
  have search : Searches context.id (findNativeStorageRow context name parent : SearchM ι Observation) := by
    refine .bind (.lift (.storageTidSuffix context name)) fun suffix => .bind (.lift (.check context)) fun _ => ?_
    refine .bind (.issuedRow context name parent _) fun row => ?_
    cases row with
    | some found => exact .pure _
    | none =>
      refine .bind (.table context name parent) fun s => .bind (.bindFolder context s) fun _ => ?_
      exact .searchRow context name parent _ _
  exact .bind (search _) fun _ => .pure _

theorem openFolder (s : Observation) (current part : Text) :
    Navigates context.id (openFolder context s current part : DeliveryM ι Observation) := by
  refine .bind (.check context) fun _ => .bind (.readRow context _ _) fun rowRead => .bind (.defined _) fun ref => ?_
  refine .bind (.storageTidSuffix context _) fun suffix => .bind (.one _ _) fun folder => ?_
  refine .bind (.requireValue _ _) fun _ => .bind (.click context _ _ _ _) fun _ => ?_
  exact .bind (.directory context _) fun opened => .bind (.requireValue _ _) fun _ => .pure _

theorem openFolders (s : Observation) (current : Text) (parts : List Text) :
    Navigates context.id (Delivery.openFolders context s current parts : DeliveryM ι Observation) := by
  induction parts generalizing s current with
  | nil => exact .pure _
  | cons part rest ih => exact .bind (.openFolder context _ _ _) fun opened => ih _ _

theorem openFilesRoot (s : Observation) :
    Navigates context.id (openFilesRoot context s : DeliveryM ι Observation) := by
  refine .bind (.defined _) fun ref => .bind (.one _ _) fun root => .bind (.click context _ _ _ _) fun _ => ?_
  exact .directory context _

theorem openDirectory (target : Text) (s : Observation) :
    Navigates context.id (Delivery.openDirectory context target s : DeliveryM ι Observation) := by
  have within : ∀ now, Navigates context.id (do
      let here ← Delivery.defined (directoryOf now)
      let current := if here = "/" then [] else here
      Delivery.requireValue ((current ++ "/").isPrefixOf target) "Files root did not open"
      Delivery.openFolders context now current ((Text.components (target.drop current.length)).filter (· ≠ [])) :
        DeliveryM ι Observation) := fun now =>
    .bind (.defined _) fun here => .bind (.requireValue _ _) fun _ => .openFolders context _ _ _
  refine .bind (.defined _) fun here => .ite (.pure _) (.ite ?_ (within s))
  exact .bind (.openFilesRoot context s) fun now => within now

theorem openStorage (r : Observation) : Navigates context.id (openStorage context r : DeliveryM ι Unit) := by
  refine .ite (.pure _) (.bind (.one _ _) fun toolbar => .bind (.detail context _ _) fun full => ?_)
  exact .bind (.one _ _) fun files => .click context _ _ _ _

end Navigates

end LoginomDock.Delivery
