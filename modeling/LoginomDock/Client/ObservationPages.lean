import LoginomDock.Library.Js

namespace LoginomDock.Client

inductive Scope where
  | all
  | palette
  | graph
  | dialogs
  | roots
  deriving DecidableEq

def Scope.name : Scope → String
  | all => "all"
  | palette => "palette"
  | graph => "graph"
  | dialogs => "dialogs"
  | roots => "roots"

def Scope.ofName (name : Text) : Option Scope :=
  [Scope.all, .palette, .graph, .dialogs, .roots].find? fun scope => scope.name.toList = name

inductive Collection where
  | nodes
  | links
  | elements
  | dialogs
  | masks
  | messages
  | tableCells
  deriving DecidableEq

def Collection.all : List Collection := [.nodes, .links, .elements, .dialogs, .masks, .messages, .tableCells]

def Collection.name : Collection → String
  | nodes => "nodes"
  | links => "links"
  | elements => "elements"
  | dialogs => "dialogs"
  | masks => "masks"
  | messages => "messages"
  | tableCells => "table_cells"

abbrev Record := Collection × Json

structure PageLimits where
  maxBytes : Nat := 12000
  maxRecords : Nat := 32
  capacity : Nat := 8
  /-- Limits are double numbers. -/
  finite : maxRecords < 10 ^ 309

structure PageSources where
  number : ℚ → Text
  hash : Json → Text
  uuid : Nat → Text

section Records

open Json

def compactElement (item : Json) : Json :=
  let members := membersOf (some item)
  let tid := item.member? "tid"
  let identity := item.member? "identity"
  let redundant := (match tid with
      | some (.string (char :: rest)) => (match get? identity "anchor_tid" with
        | some (.string anchor) => decide (anchor = char :: rest)
        | _ => false)
      | _ => false) &&
    (match get? identity "path" with
      | some (.array []) => true
      | _ => false) &&
    (membersOf identity).all fun member => member.1 ∈ ["anchor_tid".toList, "path".toList]
  let rest := withoutMembers (if redundant then ["signature", "bounding_box", "identity"] else ["signature", "bounding_box"]) members
  .object (match item.member? "signature" with
    | some signature =>
      if truthy (some signature) then setMember "signature" (.object (present [("tag", signature.member? "tag")])) rest
      else rest
    | none => rest)

def compactOperation (operation : Option Json) : Option Json :=
  if !truthy operation then operation
  else
    let outcome := get? operation "outcome"
    some (.object (present [
      ("operation_id", get? operation "operation_id"), ("state", get? operation "state"),
      ("cleanup_confirmed", get? operation "cleanup_confirmed"), ("effect_state", get? operation "effect_state"),
      ("recovery_options", get? operation "recovery_options"), ("next_steps", get? operation "next_steps"),
      ("outcome_summary", some (if truthy outcome then .object (present [
        ("status", get? outcome "status"), ("action_key", get? outcome "action_key"),
        ("operation_id", get? outcome "operation_id"), ("detail_tool", some (.string "dock_operation_inspect"))])
        else .null))]))

def allows (item : Json) (action : String) : Bool := (listOf (item.member? "allowed_actions")).any fun allowed => isText (some allowed) action

-- The order of a wizard's controls, doubled.
def wizardRank (item : Json) : Int :=
  let combo := item.member? "wizard_combo"
  if truthy (get? (item.member? "signature") "dialog_ref") || isText (item.member? "role") "menuitem" then -4
  else if isText (get? combo "kind") "picker" && isText (get? (get? combo "field") "scope") "import_column" then -2
  else if allows item "select_wizard_option" then 0
  else if allows item "finish_wizard" || (isText (get? (item.member? "wizard_step") "direction") "next" && allows item "wizard_step") then 1
  else if truthy (item.member? "wizard_field") && allows item "set_wizard_field" then 2
  else if allows item "wizard_step" || allows item "finish_wizard" then 4
  else 6

def paletteRank (item : Json) : Int := if isText (get? (item.member? "interaction") "state") "point_observed" then 0 else 1

def sortByRank (rank : Json → Int) (items : List Json) : List Json :=
  items.insertionSort fun first second => rank first ≤ rank second

def inPalette (item : Json) : Bool :=
  match item.member? "tid" with
  | some (.string tid) => decide (";ModelForm;colVendors_Компоненты>" <:+: tid)
  | _ => false

def elementInScope (scope : Scope) (item : Json) : Bool :=
  let within := item.member? "scope"
  match scope with
  | .palette => inPalette item
  | .graph => isText within "graph" || isText within "graph_editor"
  | .dialogs => isText within "dialog"
  | .all | .roots => true

def nodeRecords (node : Json) : List Record :=
  let ports := listOf (node.member? "ports")
  (List.range ((max ports.length 1 + 7) / 8)).map fun part =>
    let withPorts := setMember "ports" (.array ((ports.drop (part * 8)).take 8)) (membersOf (some node))
    (.nodes, .object (if 8 < ports.length then
      setMember "ports_page" (.object [("offset", .integer (part * 8 : Nat)), ("total", .integer ports.length),
        ("complete", .bool false)]) withPorts
      else withPorts))

def records (snapshot : Json) (scope : Scope) : List Record :=
  let ui := snapshot.member? "ui"
  let graph := if scope = .all ∨ scope = .graph then
      (listOf (snapshot.member? "nodes")).flatMap nodeRecords ++
        (listOf (snapshot.member? "links")).map fun link => (Collection.links, link)
    else []
  let elements := listOf (get? ui "elements")
  let ordered := if scope = .palette then sortByRank paletteRank elements
    else if isText (get? (snapshot.member? "wizard") "status") "observed" && (scope = .all ∨ scope = .dialogs) then
      sortByRank wizardRank elements
    else elements
  let others := if scope = .palette ∨ scope = .graph then []
    else [Collection.dialogs, .masks, .messages, .tableCells].flatMap fun collection =>
      (listOf (get? ui collection.name)).map fun item => (collection, item)
  graph ++ (ordered.filter (elementInScope scope)).map (fun item => (Collection.elements, compactElement item)) ++ others

def revision (sources : PageSources) (snapshot : Json) : Text :=
  let state := withoutMembers ["operation", "observation_id", "recovery", "gesture_applied", "verification_required"]
    (membersOf (some snapshot))
  let scan := snapshot.member? "scan"
  sources.hash (canonical (.object (if truthy scan then
    setMember "scan" (.object (withoutMembers ["mutation_counts"] (membersOf scan))) state else state)))

end Records

structure PageInfo where
  scope : Scope
  offset : Nat
  returned : Nat
  totalRecords : Nat
  nextCursor : Option Text
  capturedSnapshotComplete : Bool

def PageInfo.cursorJson (page : PageInfo) : Json :=
  match page.nextCursor with
  | none => .null
  | some cursor => .string cursor

structure PageOutput where
  metadata : List (Text × Json)
  records : Collection → List Json
  truncated : List (Text × Json)
  page : PageInfo

namespace PageOutput

def toJson (output : PageOutput) : Json :=
  let list := fun collection : Collection => (collection.name.toList, Json.array (output.records collection))
  .object (output.metadata ++ [list .nodes, list .links,
    ("ui", .object [list .elements, list .dialogs, list .masks, list .messages, list .tableCells,
      ("truncated", .object output.truncated)]),
    ("page", .object [
      ("schema_version", .integer 1), ("scope", .string output.page.scope.name.toList),
      ("offset", .integer output.page.offset), ("returned", .integer output.page.returned),
      ("total_records", .integer output.page.totalRecords),
      ("next_cursor", output.page.cursorJson),
      ("captured_snapshot_complete", .bool output.page.capturedSnapshotComplete),
      ("full_dom_complete", .bool false)])])

def bytes (sources : PageSources) (output : PageOutput) : Nat := utf8Bytes (output.toJson.stringify sources.number)

def push (output : PageOutput) (record : Record) : PageOutput :=
  { output with records := Function.update output.records record.1 (output.records record.1 ++ [record.2]) }

def markTruncated (output : PageOutput) (name : String) : PageOutput :=
  { output with truncated := Json.setMember name.toList (.bool true) output.truncated }

def finished (output : PageOutput) (returned : Nat) (complete : Bool) (nextCursor : Option Text) : PageOutput where
  metadata := output.metadata
  records := output.records
  truncated := output.truncated
  page := ⟨output.page.scope, output.page.offset, returned, output.page.totalRecords, nextCursor, complete⟩

end PageOutput

structure Entry where
  id : Text
  snapshot : Json
  receiptOperationId : Option Json
  revision : Text
  scope : Scope
  rows : List Record
  issued : List Text := []
  next : List (Nat × Text) := []

-- The retained entries from the oldest on, the cursors with the page each leads to, and the UUIDs drawn so far.
structure Pages where
  entries : List Entry := []
  cursors : Table Text (Text × Nat) := ∅
  drawn : Nat := 0

structure Action where
  ref : Option Text := none
  sourceRef : Option Text := none
  targetRef : Option Text := none

namespace Pages

open Json

def metadataKeys : List String := ["origin", "authenticated", "loginom_build", "workflow_ref", "active_identity",
  "active_tab_ref", "navigation_context", "wizard_pending_owner", "workflow_navigation", "node_context", "graph_identity",
  "package_identity", "workarea", "verification_required", "gesture_applied", "scan", "dom_epoch", "observation_root",
  "observation_kind", "file_storage", "observation_filter", "wizard", "table_settings", "table_coverage", "process_console"]

def emptyPage (entry : Entry) (offset : Nat) : PageOutput :=
  let snapshot := entry.snapshot
  let ui := snapshot.member? "ui"
  let recovery := snapshot.member? "recovery"
  let output : PageOutput := {
    metadata := present (metadataKeys.map fun key => (key, snapshot.member? key)) ++
      present [("operation", compactOperation (snapshot.member? "operation")),
        ("recovery", if truthy recovery then compactOperation recovery else none),
        ("observation_id", some (.string entry.id)), ("observation_revision", some (.string entry.revision))]
    records := fun _ => []
    truncated := membersOf (get? ui "truncated")
    page := ⟨entry.scope, offset, 0, entry.rows.length, none, false⟩ }
  if entry.scope = .all then output
  else
    let fewer := decide ((entry.rows.filter fun row => row.1 = .elements).length < (listOf (get? ui "elements")).length)
    let output := if fewer then output.markTruncated "elements" else output
    if entry.scope = .dialogs then output
    else ["dialogs", "masks", "messages", "table_cells"].foldl PageOutput.markTruncated output

def fill (limits : PageLimits) (sources : PageSources) : List Record → Nat → PageOutput → PageOutput × Nat
  | [], _, output => (output, 0)
  | _ :: _, 0, output => (output, 0)
  | row :: rest, left + 1, output =>
    if (limits.maxBytes : Int) - 700 < (output.push row).bytes sources then (output, 0)
    else
      let filled := fill limits sources rest left (output.push row)
      (filled.1, filled.2 + 1)

def truncatedNames (entry : Entry) (offset finish : Nat) (output : PageOutput) : List String :=
  let outside := entry.rows.take offset ++ entry.rows.drop finish
  (Collection.all.filter fun collection => outside.any fun row => row.1 = collection).map Collection.name ++
    (if entry.scope ≠ .all ∧ entry.scope ≠ .graph then ["nodes", "links", "ports"] else []) ++
    (if (output.records .nodes).any fun node => truthy (node.member? "ports_page") then ["ports"] else [])

def refOf (item : Json) : Option Text :=
  match item.member? "ref" with
  | some (.string ref) => some ref
  | _ => none

def cursorAt (sources : PageSources) (pages : Pages) (entry : Entry) (finish : Nat) : Pages × Entry × Text :=
  match entry.next.find? fun known => known.1 = finish with
  | some known => (pages, entry, known.2)
  | none =>
    let cursor := sources.uuid pages.drawn
    ({ pages with cursors := pages.cursors.insert cursor (entry.id, finish), drawn := pages.drawn + 1 },
      { entry with next := entry.next ++ [(finish, cursor)] }, cursor)

def render (limits : PageLimits) (sources : PageSources) (pages : Pages) (entry : Entry) (offset : Nat) :
    Except String (Pages × Entry × PageOutput) :=
  let empty := emptyPage entry offset
  if (limits.maxBytes : Int) - 700 < empty.bytes sources then
    .error "Observation metadata exceeds the page budget; inspect a narrower context"
  else
    let filled := fill limits sources (entry.rows.drop offset) limits.maxRecords empty
    let finish := offset + filled.2
    if filled.2 = 0 ∧ offset < entry.rows.length then .error "One observation record exceeds the page budget"
    else
      let included := (entry.rows.drop offset).take filled.2
      let marked := (truncatedNames entry offset finish filled.1).foldl PageOutput.markTruncated filled.1
      let entry := { entry with
        issued := entry.issued ++ (included.filter fun row => row.1 = .elements).filterMap fun row => refOf row.2 }
      let complete := decide (offset = 0 ∧ finish = entry.rows.length)
      if finish < entry.rows.length then
        let issued := cursorAt sources pages entry finish
        .ok (issued.1, issued.2.1, marked.finished filled.2 complete (some issued.2.2))
      else .ok (pages, entry, marked.finished filled.2 complete none)

def entry? (pages : Pages) (id : Text) : Option Entry := pages.entries.find? fun entry => entry.id = id

def replace (pages : Pages) (entry : Entry) : Pages :=
  { pages with entries := pages.entries.map fun other => if other.id = entry.id then entry else other }

def remove (pages : Pages) (id : Text) : Pages where
  entries := pages.entries.filter fun entry => entry.id ≠ id
  cursors := (pages.cursors.entries.filter fun page => page.2.1 = id).foldl (fun cursors page => cursors.erase page.1) pages.cursors
  drawn := pages.drawn

def clear (pages : Pages) : Pages := { pages with entries := [], cursors := ∅ }

def evict (capacity : Nat) (pages : Pages) : Pages :=
  ((pages.entries.take (pages.entries.length - capacity)).map Entry.id).foldl remove pages

def Action.refs (action : Action) : List Text :=
  [action.ref, action.sourceRef, action.targetRef].filterMap fun ref => ref.filter (· ≠ [])

def assertIssued (pages : Pages) (id : Text) (action : Action) : Except Text Unit :=
  let refs := Action.refs action
  let issuedBy := fun entry : Entry => refs.all fun ref => ref ∈ entry.issued
  if (pages.entry? id).any issuedBy then .ok ()
  else
    let candidate := if refs = [] then none else pages.entries.reverse.find? issuedBy
    .error ("UI reference has not been delivered in this observation; read its page first." ++
      match candidate with
      | none => []
      | some entry => " These refs were delivered with output.observation_id=" ++ entry.id ++
          ". Use that exact pair, or obtain a fresh observation if the interface changed.")

def retain (limits : PageLimits) (sources : PageSources) (pages : Pages) (outcome : Json) (scopeName : Text) :
    Pages × Except String (Option (Entry × PageOutput)) :=
  match Scope.ofName scopeName with
  | none => (pages, .error "Unknown observation scope")
  | some scope =>
    let output := outcome.member? "output"
    if !truthy (get? output "ui") then (pages, .ok none)
    else
      let snapshot := output.getD .null
      let entry : Entry := {
        id := sources.uuid pages.drawn
        snapshot := snapshot
        receiptOperationId := outcome.member? "operation_id"
        revision := revision sources snapshot
        scope := scope
        rows := Client.records snapshot scope }
      let pages := { pages with drawn := pages.drawn + 1 }
      match render limits sources pages entry 0 with
      | .error message => (pages, .error message)
      | .ok (pages, entry, page) =>
        (evict limits.capacity { pages with entries := pages.entries ++ [entry] }, .ok (some (entry, page)))

def refreshCounters (snapshot fresh : Json) : Option Json :=
  let counts := get? (fresh.member? "scan") "mutation_counts"
  match counts with
  | none => some snapshot
  | some value =>
    if !truthy counts then some snapshot
    else match snapshot.member? "scan" with
      | some (.object scan) =>
        some (.object (setMember "scan" (.object (setMember "mutation_counts" value scan))
          (membersOf (some snapshot))))
      | _ => none

def next (limits : PageLimits) (sources : PageSources) (pages : Pages) (cursor : Text) (fresh : Json) :
    Pages × Except String (Entry × Nat × PageOutput) :=
  match (pages.cursors.lookup cursor).bind fun page => (pages.entry? page.1).map fun entry => (entry, page.2) with
  | none => (pages, .error "Observation cursor is stale or belongs to another session")
  | some (entry, offset) =>
    let output := (fresh.member? "output").getD .null
    if !isText (fresh.member? "status") "SUCCEEDED" || decide (revision sources output ≠ entry.revision) then
      (pages.remove entry.id, .error ("Workspace changed between observation pages; begin a new observation. If this repeats in a wizard, use scope roots, then read its freshly delivered WizrdMCF root_ref and observation_id. Do not reuse refs from the invalidated observation"))
    else match refreshCounters entry.snapshot output with
      | none => (pages, .error "Cannot set properties of undefined (setting 'mutation_counts')")
      | some snapshot =>
        let entry := { entry with snapshot := snapshot, receiptOperationId := fresh.member? "operation_id" }
        match render limits sources pages entry offset with
        | .error message => (pages.replace entry, .error message)
        | .ok (pages, entry, page) => (pages.replace entry, .ok (entry, offset, page))

end Pages

end LoginomDock.Client
