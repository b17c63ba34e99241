import LoginomDock.Delivery.Jobs

/-! How a run of a delivery reads the user interface and opens the directory of its artifact: observations of many
pages, gestures, and the search for a row of a virtual list. -/

namespace LoginomDock.Delivery

open WorkflowRef

variable {ι : Type}

def ask (question : Ask) : DeliveryM ι question.Answer := ExceptT.lift (Prog.perform (Op.ask question))

def raise {α : Type} : Except JsError α → DeliveryM ι α
  | .ok value => pure value
  | .error error => throw error

def requireValue (condition : Bool) (message : String) : DeliveryM ι Unit :=
  if condition then pure () else throw (failure message)

/-- What reading a field of `undefined` throws. -/
def defined {α : Type} : Option α → DeliveryM ι α
  | some value => pure value
  | none => throw (failure "Cannot read properties of undefined")

def one {α : Type} (values : List α) (message : String) : DeliveryM ι α :=
  match values with
  | [value] => pure value
  | _ => throw (failure message)

/-- A missing part of a text is `undefined` in JavaScript. -/
def shown (part : Option Text) : Text := part.getD "undefined"

structure RunContext where
  id : Text
  uploadId : Text
  deadline : Int
  resumeId : Option Text
  preUploadResume : Bool

def RunContext.of (job : Job ι) (resumeId : Option Text) : RunContext where
  id := job.id
  uploadId := job.uploadId
  deadline := job.deadline
  resumeId := resumeId
  preUploadResume := resumeId.isSome && job.preUploadResume

variable (context : RunContext)

def readJob : DeliveryM ι (Job ι) := do
  let job ← ExceptT.lift (Prog.perform (Op.read context.id) : Prog (Op ι) Op.Res (Option (Job ι)))
  defined job

def assign (assignment : Assignment) : DeliveryM ι Unit :=
  ExceptT.lift (Prog.perform (Op.assign context.id assignment))

def acknowledge (phase : String) (details : Details) : DeliveryM ι Unit := do
  let saved ← raise (← ask (.record { phase := phase.toList, operationId := context.id, details }))
  requireValue (saved.phase = some phase.toList ∧ saved.operationId = some context.id)
    "Delivery evidence was not durably acknowledged"

def check : DeliveryM ι Unit := do
  raise (← ask .throwIfAborted)
  let now ← ask .now
  requireValue (now < context.deadline) "Artifact delivery deadline elapsed"

def nextPages (output : Observation) : Option Text → Nat → DeliveryM ι Observation
  | none, _ => pure output
  | some [], _ => pure output
  | some _, 0 => do
      check context
      throw (failure "Delivery observation page limit exceeded")
  | some cursor, pages + 1 => do
      check context
      let next ← raise (← ask (.observe (.page cursor)))
      requireValue (next.status = "SUCCEEDED") "Delivery observation changed during pagination"
      let page ← defined next.output
      requireValue (page.observationId = output.observationId ∧
        page.domEpoch.map DomEpoch.json = output.domEpoch.map DomEpoch.json)
        "Delivery observation changed during pagination"
      nextPages { output with
        elements := output.elements ++ page.elements
        dialogs := output.dialogs ++ page.dialogs
        masks := output.masks ++ page.masks } page.nextCursor pages

def readPages (options : ObserveOptions) : DeliveryM ι Observation := do
  check context
  let reply ← raise (← ask (.observe options))
  if reply.status = "SUCCEEDED" then
    let output ← defined reply.output
    nextPages context output output.nextCursor 32
  else
    throw {
      message := "Delivery observation failed: " ++ reply.errorCode.getD reply.status
      code := reply.errorCode }

def observeAgain (options : ObserveOptions) : Nat → DeliveryM ι Observation
  | 0 => readPages context options
  | attempts + 1 => tryCatch (readPages context options) fun error => do
      if "Workspace changed between observation pages;".toList.isPrefixOf error.message then
        check context
        ask (.sleep 100)
        observeAgain options attempts
      else throw error

def observe (options : ObserveOptions) : DeliveryM ι Observation := observeAgain context options 2

def roots : DeliveryM ι Observation := observe context (.roots none)

def click (s : Observation) (element : UiElement) (verb : String) (deltaY : Option ℚ) : DeliveryM ι Unit := do
  check context
  let job ← readJob context
  let step := job.navigationStep + 1
  assign context (.navigationStep step)
  let id := context.id ++ ":nav".toList ++ decimalText step
  assign context (.navigationUncertain true)
  let reply ← raise (← ask (.uiAct ⟨verb.toList, element.ref, deltaY, id, s.observationId⟩))
  if reply.status = some "SUCCEEDED".toList ∧ reply.cleanupComplete = some true then
    assign context (.navigationUncertain false)
  else throw { message := "Delivery navigation requires inspection: ".toList ++ id }
where
  decimalText (value : Nat) : Text := (toString value).toList

def documentOf (observation : Observation) : Option Text := observation.domEpoch.bind DomEpoch.document

def workflowJson (observation : Observation) : Option Text := observation.workflowRef.map json

def detailAgain (original : Observation) (tid : Option Text) (r : Observation) (element : UiElement) :
    Nat → DeliveryM ι Observation
  | 0 => observe context (.root element.ref (some r.observationId))
  | attempts + 1 => tryCatch (observe context (.root element.ref (some r.observationId))) fun error => do
      if error.code ≠ some "UI_ROOT_STALE".toList then throw error
      else
        let again ← roots context
        requireValue (documentOf again = documentOf original ∧ workflowJson again = workflowJson original)
          "Delivery detail owner changed"
        let found ← one (again.elements.filter (·.tid = tid)) "Delivery detail region unavailable"
        detailAgain original tid again found attempts

def detail (r : Observation) (element : UiElement) : DeliveryM ι Observation :=
  detailAgain context r element.tid r element 2

section Ready

variable {σ : Type} (condition : Text) (read : StateT σ (DeliveryM ι) (Option Observation))
  (predicate : Observation → Bool)

def sampleReady (deadline : Int) : Nat → StateT σ (DeliveryM ι) Observation
  | 0 => throw { message := "Delivery readiness timeout: ".toList ++ condition }
  | samples + 1 => do
      let now ← StateT.lift (ask .now)
      if now < deadline then
        match ← read with
        | some s =>
          if s.masks = [] ∧ s.dialogs = [] ∧ predicate s then pure s
          else
            StateT.lift (ask (.sleep 100))
            sampleReady deadline samples
        | none =>
          StateT.lift (ask (.sleep 100))
          sampleReady deadline samples
      else throw { message := "Delivery readiness timeout: ".toList ++ condition }

def ready : StateT σ (DeliveryM ι) Observation := do
  let now ← StateT.lift (ask .now)
  sampleReady condition read predicate (min context.deadline (now + 15000)) 80

end Ready

def readBar : StateT Unit (DeliveryM ι) (Option Observation) := do
  let r ← StateT.lift (roots context)
  let bars := r.elements.filter fun element =>
    element.tid = some (shown (r.workflowRef.bind tidPrefix) ++ ";NavigationBar;NavigationPanel".toList)
  match bars with
  | [] => pure none
  | [bar] => some <$> StateT.lift (detail context r bar)
  | _ => throw (failure "Storage navigation is ambiguous")

def isObserved (s : Observation) : Bool := s.fileStorage.any (·.status = "observed".toList)

def directoryOf (s : Observation) : Option Text := s.fileStorage.map FileStorage.directory

def directory (expected : Option Text) : DeliveryM ι Observation := do
  let found ← (ready context "storage navigation loaded".toList (readBar context) fun s =>
    isObserved s ∧ (expected = none ∨ directoryOf s = expected)).run ()
  pure found.1

/-- The white space of a JavaScript `\s`. -/
def isJsSpace (char : Char) : Bool :=
  char.toNat ∈ [0x9, 0xa, 0xb, 0xc, 0xd, 0x20, 0xa0, 0x1680, 0x2028, 0x2029, 0x202f, 0x205f, 0x3000, 0xfeff] ∨
    (0x2000 ≤ char.toNat ∧ char.toNat ≤ 0x200a)

def storageTidSuffix (name : Text) : DeliveryM ι Text := do
  requireValue (name ≠ [] ∧ name.all fun char =>
    char ≠ '/' ∧ char ≠ '\\' ∧ 0x1f < char.toNat ∧ char.toNat ≠ 0x7f) "Invalid Loginom entry name"
  pure ((name.map fun char => if isJsSpace char then '_' else char).filter (· ≠ ','))

inductive Direction where
  | up | down
deriving DecidableEq

structure RowSearch where
  binding : Option (Option Text × Option Text) := none
  owner : Option Text := none
  direction : Option Direction := none
  lastTop : Option ℚ := none
  last : Option Observation := none

abbrev SearchM (ι : Type) := StateT RowSearch (DeliveryM ι)

section Search

variable (name : Text) (parent : Observation)

def readInFolder (options : Option Observation → ObserveOptions) : SearchM ι Observation := do
  let search ← get
  let s ← StateT.lift (observe context (options search.last))
  StateT.lift (requireValue (documentOf s = documentOf parent ∧ workflowJson s = workflowJson parent)
    "Delivery search owner changed")
  if isObserved s then
    StateT.lift (requireValue (directoryOf s = directoryOf parent ∧ s.activeTabRef = parent.activeTabRef)
      "Delivery search folder or tab changed")
  set { search with last := some s }
  pure s

def readRoot (ref : Text) : SearchM ι Observation :=
  readInFolder context parent fun last => .root ref (last.map Observation.observationId)

def readRoots (storageName : Option Text) : SearchM ι Observation :=
  readInFolder context parent fun _ => .roots storageName

def bindFolder (s : Observation) : SearchM ι Unit := do
  StateT.lift (requireValue (isObserved s) "Export search folder unavailable")
  let search ← get
  match search.binding with
  | none => set { search with binding := some (workflowJson s, directoryOf s) }
  | some binding =>
    StateT.lift (requireValue (binding = (workflowJson s, directoryOf s)) "Export search folder changed")

def readTable : SearchM ι (Option Observation) := do
  let r ← readRoots context parent none
  let tables := r.elements.filter fun element =>
    element.tid = some (shown (r.workflowRef.bind tidPrefix) ++ ";FileStorageForm;pnlFileStorage;tbl".toList)
  match tables with
  | [] => pure (some r)
  | [table] => some <$> readRoot context parent table.ref
  | _ => throw (failure "Export table ambiguous")

def table : SearchM ι Observation :=
  ready context ("authorized storage entry ".toList ++ name) (readTable context parent) isObserved

def unavailable {α : Type} (s : Observation) (reason : String) : SearchM ι α := do
  let directory ← StateT.lift (defined (directoryOf s))
  throw {
    message := "Storage entry is unavailable in the observed folder: ".toList ++ quoted name ++ " in ".toList ++
      quoted directory
    code := some "STORAGE_ENTRY_UNAVAILABLE".toList
    storageEntry := some ⟨name, directory, reason.toList⟩ }
where
  quoted (text : Text) : Text :=
    ['"'] ++ text.flatMap (fun char => if char = '"' ∨ char = '\\' then ['\\', char] else [char]) ++ ['"']

def issuedRow (suffix : Text) : SearchM ι (Option Observation) := do
  let r ← readRoots context parent (some name)
  match r.elements.filter fun element =>
      element.tid = some (shown (r.workflowRef.bind tidPrefix) ++ suffix) with
  | [] => pure none
  | [row] =>
    let found ← readRoot context parent row.ref
    bindFolder found
    let ref ← StateT.lift (defined found.workflowRef)
    StateT.lift (requireValue ((found.elements.filter fun element =>
      element.tid = some (shown ref.tidPrefix ++ suffix) ∧ element.label = name).length = 1)
      "Export file name changed")
    pure (some found)
  | _ => throw (failure "Export file row is ambiguous")

def isAnchor (tidPrefix : Option Text) (element : UiElement) : Bool :=
  element.tid.any (List.isPrefixOf (shown tidPrefix ++ ";FileStorageForm;colName_".toList)) ∧ element.scroll.isSome ∧
    "scroll".toList ∈ element.allowedActions ∧ element.interactionState = some "point_observed".toList

def scrollOn (s : Observation) (last : Bool) : SearchM ι Unit := do
  let ref ← StateT.lift (defined s.workflowRef)
  match s.elements.filter (isAnchor ref.tidPrefix) with
  | [] => unavailable name s "no_scroll_owner"
  | anchor :: others =>
    let scroll ← StateT.lift (defined anchor.scroll)
    StateT.lift (requireValue ((anchor :: others).all fun other => other.scroll.all (·.ref = scroll.ref))
      "Export search scroll owner ambiguous")
    let search ← get
    let owner := search.owner.getD scroll.ref
    let started := search.direction.getD (if 0 < scroll.top then .up else .down)
    StateT.lift (requireValue (scroll.ref = owner) "Export search scroll owner changed")
    StateT.lift (requireValue (search.lastTop.all fun top =>
      if started = .up then scroll.top < top else top < scroll.top) "Export search scroll did not advance")
    let direction := if started = .up ∧ scroll.top = 0 then .down else started
    if direction = .down ∧ scroll.maxTop ≤ scroll.top then unavailable name s "folder_end"
    else
      StateT.lift (requireValue (!last) "Export file search scroll budget exhausted")
      let delta := if direction = .up then -(min 1000 scroll.top) else min 1000 (scroll.maxTop - scroll.top)
      set { search with owner := some owner, direction := some direction, lastTop := some scroll.top }
      StateT.lift (click context s anchor "scroll" (some delta))

def searchRow (suffix : Text) : Nat → SearchM ι Observation
  | 0 => throw (failure "Export file search exhausted")
  | steps + 1 => do
      StateT.lift (check context)
      match ← issuedRow context name parent suffix with
      | some found => pure found
      | none =>
        let s ← table context name parent
        bindFolder s
        scrollOn context name s (steps = 0)
        searchRow suffix steps

def findNativeStorageRow : SearchM ι Observation := do
  let suffix := ";FileStorageForm;colName_".toList ++ (← StateT.lift (storageTidSuffix name))
  StateT.lift (check context)
  match ← issuedRow context name parent suffix with
  | some found => pure found
  | none =>
    let s ← table context name parent
    bindFolder s
    searchRow context name parent suffix 13

def readRow : DeliveryM ι Observation := do
  let found ← (findNativeStorageRow context name parent).run {}
  pure found.1

end Search

def openFolder (s : Observation) (current part : Text) : DeliveryM ι Observation := do
  check context
  let rowRead ← readRow context part s
  let ref ← defined rowRead.workflowRef
  let suffix ← storageTidSuffix part
  let folder ← one (rowRead.elements.filter fun element =>
    element.tid = some (shown ref.tidPrefix ++ ";FileStorageForm;colName_".toList ++ suffix) ∧ element.label = part ∧
      element.storageEntryKind = some "folder".toList ∧ "double_click".toList ∈ element.allowedActions)
    "Destination segment is not a verified folder"
  requireValue (directoryOf rowRead = some (if current = [] then "/".toList else current)) "Storage parent changed"
  click context rowRead folder "double_click" none
  let opened ← directory context (some (current ++ '/' :: part))
  requireValue (directoryOf opened = some (current ++ '/' :: part)) "Opened folder differs from authorized path"
  pure opened

def openFolders (s : Observation) (current : Text) : List Text → DeliveryM ι Observation
  | [] => pure s
  | part :: rest => do
      let opened ← openFolder context s current part
      openFolders opened (current ++ '/' :: part) rest

def openFilesRoot (s : Observation) : DeliveryM ι Observation := do
  let ref ← defined s.workflowRef
  let root ← one (s.elements.filter fun element =>
    element.tid = some (shown ref.tidPrefix ++ ";cnrNaviMode;b.s_Сервер>Файлы".toList) ∧
      "click".toList ∈ element.allowedActions) "Files root breadcrumb unavailable"
  click context s root "click" none
  directory context (some "/".toList)

def openDirectory (target : Text) (s : Observation) : DeliveryM ι Observation := do
  let here ← defined (directoryOf s)
  if here = target then pure s
  else
    let s ← if here ≠ "/".toList ∧ ¬ (here ++ "/".toList).isPrefixOf target then openFilesRoot context s else pure s
    let here ← defined (directoryOf s)
    let current := if here = "/" then [] else here
    requireValue ((current ++ "/".toList).isPrefixOf target) "Files root did not open"
    openFolders context s current ((Text.components (target.drop current.length)).filter (· ≠ []))

def openStorage (r : Observation) : DeliveryM ι Unit := do
  if r.elements.any fun element => element.tid.any fun tid => ";FileStorageForm;" <:+: tid then pure ()
  else
    let toolbar ← one (r.elements.filter (·.tid = some "MF;cntMain;tlbMainToolbar".toList))
      "Main toolbar root unavailable"
    let full ← detail context r toolbar
    let files ← one (full.elements.filter fun element =>
      element.tid = some "MF;cntMain;tlbMainToolbar;btnFilestorage".toList ∧ "click".toList ∈ element.allowedActions)
      "Files workspace control unavailable"
    click context full files "click" none

end LoginomDock.Delivery
