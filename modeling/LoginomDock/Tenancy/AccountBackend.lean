import LoginomDock.Filters.CompiledFilters
import LoginomDock.Tenancy.Collection

/-! `_SingleAccountBackend`: a collection that all accounts share, used by one of them. An empty account stands for the
root, which is bound to none. -/

namespace LoginomDock.Tenancy

open Access (strip)
open Filters List Prog

variable {V : Type}

def isTagChar (char : Char) : Bool := char.isLower || char.isDigit || char ∈ ['_', '.', '-']

/-- `^[a-z0-9][a-z0-9_.-]*$`, where the end may be before a line feed. -/
def isTagToken (token : Text) : Bool :=
  let body := if token.getLast? = some '\n' then token.dropLast else token
  match body with
  | [] => false
  | first :: rest => (first.isLower || first.isDigit) && rest.all isTagChar

/-- `normalize_search_tag`, as the key and the value of the tag; nothing where it raises. -/
def normalizeSearchTag (python : Python V) (tag : Text) : Option (Text × Text) :=
  let value := python.lower (strip tag)
  let key := value.takeWhile (· ≠ '=')
  let rawValue := value.drop (key.length + 1)
  if value.length ≤ 64 + 1 + 128 ∧ value.count '=' = 1 ∧ key ≠ [] ∧ rawValue ≠ [] ∧ key.length ≤ 64 ∧ rawValue.length ≤ 128 ∧
      isTagToken key ∧ isTagToken rawValue then some (key, rawValue)
  else none

-- A key keeps the place where it first stood.
def setOrdered (ordered : List (Text × Text)) (tag : Text × Text) : List (Text × Text) :=
  if tag.1 ∈ ordered.map Prod.fst then ordered.map fun old => if old.1 = tag.1 then tag else old
  else ordered ++ [tag]

def tagItems (python : Python V) : FieldValue V → Except Failure (List Text)
  | .list items => .ok ((items.filter fun
      | .null => false
      | _ => true).map fun item => python.str (.scalar item))
  | .scalar (.other value) => if python.truthy value then .error (.other "object is not iterable") else .ok []
  | .scalar _ => .ok []

def mergeSearchTags (python : Python V) (existing incoming : FieldValue V) : Except Failure (FieldValue V) := do
  let tags := (← tagItems python existing) ++ (← tagItems python incoming)
  let ordered := (tags.filterMap (normalizeSearchTag python)).foldl setOrdered []
  pure (.list (ordered.map fun (key, value) => .text (key ++ '=' :: value)))

abbrev Backend (V : Type) (α : Type) := ExceptT Failure (Prog (AdapterCall V) AdapterCall.Answer) α

def call (op : AdapterCall V) : Backend V op.Answer := ExceptT.lift (perform op)

def callGet (ids : List (FieldValue V)) : Backend V (List (Record V)) := call (.get ids)

def callUpsert (records : List (Record V)) : Backend V (Except Failure (List (FieldValue V))) := call (.upsert records)

def callUpdateData (records : List (Record V)) : Backend V (Except Failure (List (FieldValue V))) := call (.updateData records)

def callQuery (query : Query V) : Backend V (Except Failure (List (Record V))) := call (.query query)

def callDelete (ids : List (FieldValue V)) : Backend V Nat := call (.delete ids)

def callCount (filter : FilterExpr V) : Backend V Nat := call (.count filter)

def callUuid : Backend V Text := call .uuid

def attempt {α : Type} (answer : Except Failure α) : Backend V α := ExceptT.mk (.done answer)

structure UpsertOptions where
  partialUpdate : Bool := false
  /-- `search_tag_mode == "append"` -/
  appendTags : Bool := false

structure UpdateResult (V : Type) where
  ok : Bool
  ids : List Text
  updatedCount : Nat
  errorCode : Option Text
  errorMessage : Option Text

def allowedContextTypes : List Text := ["memory", "resource", "skill"]

def lookupOutputFields : List Text := ["uri", "level", countField]

section Bound

variable [DecidableEq V] (python : Python V) (account : Text)

def isOwn (record : Record V) : Bool := account = [] ∨ record.field accountField = text account

def checkContextType (payload : Record V) : Except Failure Unit :=
  let contextType := payload.field "context_type"
  if truthy python contextType ∧ contextType ∉ allowedContextTypes.map text then
    .error (.value ("Invalid context_type: " ++ python.str contextType ++
      ". Must be one of ['memory', 'resource', 'skill']"))
  else .ok ()

/-- The account of a payload, as `_bind_upsert_payload` enforces it. -/
def bindAccount (data : Record V) : Except Failure (Record V) :=
  if account = [] then .ok data
  else if truthy python (data.field accountField) ∧ data.field accountField ≠ text account then
    .error (.permission "record account_id does not match the request context account_id")
  else .ok (data.insert accountField (text account))

def bindUpsertPayload (data : Record V) : Backend V (Record V) := do
  let payload ← attempt (bindAccount python account data)
  attempt (checkContextType python payload)
  if truthy python (payload.field idField) then pure payload
  else do
    let fresh ← callUuid
    pure (payload.insert idField (text fresh))

def prepareUpsertPayload (data : Record V) : Record V :=
  let filtered := data.given.retain fun name => name ∈ fieldNames
  let filled := contextFields.foldl (fun (row : Record V) (name, type) =>
    if type = .text ∧ name ∉ row then row.insert name (text []) else row) filtered
  filled.erase "content"

section

variable (options : UpsertOptions) (payload : Record V)

def mergedPayload : List (Record V) → Except Failure (Record V)
  | [] => .ok payload
  | existing :: _ => do
      let incoming := payload.field "search_tags"
      let tags ← (if options.appendTags ∧ incoming ≠ null then mergeSearchTags python (existing.field "search_tags") incoming
        else pure incoming : Except Failure (FieldValue V))
      pure (Record.given (payload.insert "search_tags" tags) ∪ existing)

def partialPayload : Backend V (Record V) := do
  let records ← callGet [payload.field idField]
  attempt (mergedPayload python options payload (records.filter (isOwn account)))

def completePayload : Backend V (Record V) :=
  if options.partialUpdate then partialPayload python account options payload else pure payload

end

def writePayload (payload : Record V) : Backend V (FieldValue V) := do
  let ids ← attempt (← callUpsert [prepareUpsertPayload payload])
  pure (ids.headD (text []))

-- A record that is rejected is answered with an empty id.
def upsert (options : UpsertOptions) (data : Record V) : Backend V (FieldValue V) := do
  match ← ExceptT.lift (bindUpsertPayload python account data).run with
  | .error _ => pure (text [])
  | .ok payload =>
    let complete ← completePayload python account options payload
    writePayload complete

def Failure.at (index : Nat) : Failure → Failure
  | .permission message => .permission ("record at index " ++ (toString index).toList ++ ": " ++ message)
  | .value message => .value ("record at index " ++ (toString index).toList ++ ": " ++ message)
  | failed => failed

def bindBatch : Nat → List (Record V) → List Text → Backend V (List (Record V))
  | _, [], _ => pure []
  | index, data :: rest, seenIds => do
      let payload ← (bindUpsertPayload python account data).adapt (Failure.at index)
      let recordId := python.str (payload.field idField)
      if recordId ∈ seenIds then throw (.value ("duplicate record id at index " ++ (toString index).toList))
      else do
        let others ← bindBatch (index + 1) rest (recordId :: seenIds)
        pure (payload :: others)

def checkedIds (payloads : List (Record V)) (ids : List (FieldValue V)) : Except Failure (List Text) :=
  let normalizedIds := (ids.filter (· ≠ null)).map python.str
  let expectedIds := payloads.map fun payload => python.str (payload.field idField)
  if normalizedIds ≠ expectedIds then
    .error (.runtime ("bulk upsert adapter returned IDs that do not match the input count and order (expected " ++
      (toString expectedIds.length).toList ++ ", got " ++ (toString normalizedIds.length).toList ++ ")"))
  else .ok normalizedIds

def upsertMany (dataList : List (Record V)) : Backend V (List Text) :=
  if dataList = [] then pure []
  else do
    let bound ← bindBatch python account 0 dataList []
    let payloads := bound.map prepareUpsertPayload
    let ids ← attempt (← callUpsert payloads)
    attempt (checkedIds python payloads ids)

def updateSucceeded (ids : List (FieldValue V)) : UpdateResult V :=
  let normalizedIds := (ids.filter (· ≠ null)).map python.str
  if normalizedIds = [] then ⟨false, [], 0, some "UPDATE_FAILED".toList, some "update completed without any updated ids".toList⟩
  else ⟨true, normalizedIds, normalizedIds.length, none, none⟩

def Failure.message : Failure → Text
  | .permission message | .value message | .runtime message | .other message => message
  | .recursion => "maximum recursion depth exceeded"

def updateFailed (failed : Failure) : UpdateResult V :=
  let code := match failed with
    | .value message => if isSubstring "not found" (python.lower message) then "NOT_FOUND" else "INVALID_ARGUMENT"
    | _ => "UPDATE_FAILED"
  ⟨false, [], 0, some code.toList, some failed.message⟩

def filledAccount (data : Record V) : Record V :=
  if account ≠ [] ∧ truthy python (data.field accountField) = false then data.insert accountField (text account) else data

def updatePayload (data : Record V) : Except Failure (Record V) := do
  let payload := filledAccount python account data
  if truthy python (payload.field idField) = false then throw (.value "id is required for update")
  else do
    checkContextType python payload
    pure (prepareUpsertPayload payload)

def update (data : Record V) : Backend V (UpdateResult V) :=
  tryCatch (do
    let payload ← attempt (updatePayload python account data)
    let ids ← attempt (← callUpdateData [payload])
    pure (updateSucceeded python ids))
  fun failed => pure (updateFailed python failed)

section

variable (ids : List (FieldValue V))

def getStrict : Backend V (List (Record V)) := do
  let records ← callGet ids
  pure (records.filter (isOwn account))

/-- `get` and `get_strict` differ in what they do of an error, and the call raises none. -/
def get : Backend V (List (Record V)) := getStrict account ids

def delete : Backend V Nat := do
  if account = [] then callDelete ids
  else
    let records ← get account ids
    callDelete ((records.map fun record => record.field idField).filter (truthy python))

end

def boundFilter (filter : Option (FilterExpr V)) : FilterExpr V :=
  if account = [] then filter.getD .noCondition
  else match filter with
    | none => .eq accountField (.text account)
    | some filter => .and [.eq accountField (.text account), filter]

def query (filter : Option (FilterExpr V)) (request : Query V) : Backend V (List (Record V)) := do
  match ← callQuery { request with filter := boundFilter account filter } with
  | .ok records => pure records
  | .error _ => pure []

/-- `filter` is a query that is not for vectors. -/
def filterRecords (filter : FilterExpr V) (limit : Nat) (outputFields : List Text) : Backend V (List (Record V)) :=
  query account (some filter) { limit := limit, outputFields := outputFields }

def isDirectoryLevel (level : FieldValue V) : Bool :=
  level = .scalar (.other (python.ofInt 0)) ∨ level = .scalar (.other (python.ofInt 1))

def uriText : FieldValue V → Text
  | .scalar (.text uri) => uri
  | _ => []

mutual

-- The first argument is what is left of the recursion limit.
def removeDescendants : Nat → Text → Backend V Nat
  | 0, _ => throw .recursion
  | depth + 1, parentUri => do
      let children ← filterRecords account (.pathScope "uri" parentUri 1) 100000 lookupOutputFields
      removeChildren depth children

def removeChildren : Nat → List (Record V) → Backend V Nat
  | _, [] => pure 0
  | depth, child :: rest => do
      let childUri := uriText (child.field "uri")
      let below ← (if isDirectoryLevel python (child.field "level") ∧ childUri ≠ [] then removeDescendants depth childUri else pure 0 :
        Backend V Nat)
      let childId := child.field idField
      let own ← (if truthy python childId then (do
          let _ ← delete python account [childId]
          pure 1)
        else pure 0 : Backend V Nat)
      let others ← removeChildren depth rest
      pure (below + own + others)

end

def removeByUri (recursionLimit : Nat) (uri : Text) : Backend V Nat :=
  tryCatch (do
    let targets ← filterRecords account (.rawDSL (.must "uri" [.text uri] none)) 10 lookupOutputFields
    if targets = [] then pure 0
    else do
      let below ← (if targets.any fun record => isDirectoryLevel python (record.field "level") then
          removeDescendants python account recursionLimit uri
        else pure 0 : Backend V Nat)
      let ids := (targets.map fun record => record.field idField).filter (truthy python)
      let own ← (if ids ≠ [] then delete python account ids else pure 0 : Backend V Nat)
      pure (below + own))
  fun _ => pure 0

/-- `int(cursor) if cursor else 0` -/
def cursorOffset (cursor : Option Text) : Except Failure Int :=
  match cursor with
  | none | some [] => .ok 0
  | some cursor =>
    match python.int (text cursor) with
    | some offset => .ok offset
    | none => .error (.value "invalid literal for int()")

def scroll (filter : Option (FilterExpr V)) (limit : Nat) (cursor : Option Text) (outputFields : List Text) :
    Backend V (List (Record V) × Option Text) := do
  let offset ← attempt (cursorOffset python cursor)
  let records ← attempt (← callQuery { filter := boundFilter account filter, limit, offset, outputFields })
  pure (records, if records.length = limit then some (toString (offset + limit)).toList else none)

def count (filter : Option (FilterExpr V)) : Backend V Nat := callCount (boundFilter account filter)

end Bound

section Answers

variable [DecidableEq V] {engine : Engine V} (world : World engine.label)

@[simp] theorem exec_attempt {α : Type} (answer : Except Failure α) : exec (answerCall engine) (attempt answer) world = (answer, world) := rfl

@[simp] theorem exec_callGet (ids : List (FieldValue V)) :
    exec (answerCall engine) (callGet ids) world = (.ok (getRecords world.store ids), world) := rfl

@[simp] theorem exec_callQuery (query : Query V) :
    exec (answerCall engine) (callQuery query) world =
      (.ok (queryRecords world.store (world.vectors 0) query), if query.draws then world.drawn else world) := rfl

@[simp] theorem exec_callDelete (ids : List (FieldValue V)) :
    exec (answerCall engine) (callDelete ids) world = (.ok ids.length, { world with store := deleteData world.store ids }) := rfl

@[simp] theorem exec_callCount (filter : FilterExpr V) :
    exec (answerCall engine) (callCount filter) world = (.ok (countRecords world.store filter), world) := rfl

@[simp] theorem exec_callUpsert (records : List (Record V)) :
    exec (answerCall engine) (callUpsert records) world =
      (.ok (world.written (upsertRecords world.store records)).1, (world.written (upsertRecords world.store records)).2) := rfl

@[simp] theorem exec_callUpdateData (records : List (Record V)) :
    exec (answerCall engine) (callUpdateData records) world =
      (.ok (world.written (updateData world.store records)).1, (world.written (updateData world.store records)).2) := rfl

@[simp] theorem exec_callUuid :
    exec (answerCall engine) (callUuid : Backend V Text) world =
      (.ok (world.uuids 0), { world with uuids := fun turn => world.uuids (turn + 1) }) := rfl

theorem exec_getStrict (account : Text) (ids : List (FieldValue V)) :
    exec (answerCall engine) (getStrict account ids) world = (.ok ((getRecords world.store ids).filter (isOwn account)), world) := rfl

end Answers

def ReadsOnly [DecidableEq V] (engine : Engine V) {α : Type} (program : Backend V α) : Prop :=
  ∀ world : World engine.label, (exec (answerCall engine) program world).2.store = world.store

namespace ReadsOnly

variable [DecidableEq V] {engine : Engine V} {α β : Type}

theorem pure (value : α) : ReadsOnly engine (Pure.pure value : Backend V α) := fun _ => rfl

theorem attempt (answer : Except Failure α) : ReadsOnly engine (attempt answer : Backend V α) := fun _ => rfl

theorem callQuery (query : Query V) : ReadsOnly engine (callQuery query) := by
  intro world
  rw [exec_callQuery]
  by_cases random : query.draws = true
  · rw [if_pos random]
    rfl
  · rw [if_neg random]

theorem throw (failed : Failure) : ReadsOnly engine (throw failed : Backend V α) := fun _ => rfl

theorem callGet (ids : List (FieldValue V)) : ReadsOnly engine (callGet ids) := fun _ => rfl

theorem callUuid : ReadsOnly engine (callUuid : Backend V Text) := fun _ => rfl

theorem bind {program : Backend V α} {next : α → Backend V β} (first : ReadsOnly engine program) (rest : ∀ value, ReadsOnly engine (next value)) :
    ReadsOnly engine (program >>= next) := by
  intro world
  have before := first world
  rw [exec_bind]
  generalize exec (answerCall engine) program world = ended at before
  obtain ⟨failed | value, between⟩ := ended
  · exact before
  · exact (rest value between).trans before

end ReadsOnly

section BoundFilter

variable [DecidableEq V] {engine : Engine V} {account : Text}

omit [DecidableEq V] in
theorem compile_account : compileFilter (.eq accountField (.text account) : FilterExpr V) = .must accountField [.text account] none := by
  rw [compileFilter, if_neg (by decide), encodeConds, if_neg (by decide)]

omit [DecidableEq V] in
theorem compile_boundFilter (bound : account ≠ []) (filter : FilterExpr V) :
    compileFilter (boundFilter account (some filter)) =
      if (compileFilter filter).isAll then .must accountField [.text account] none
      else .and [.must accountField [.text account] none, compileFilter filter] := by
  have bounded : boundFilter account (some filter) = .and [.eq accountField (.text account), filter] := by
    unfold boundFilter
    rw [if_neg bound]
  rw [bounded, compileFilter, compileConds, compileConds, compileConds, compile_account, combined, filter_cons_of_pos rfl]
  cases blank : (compileFilter filter).isAll with
  | true => rw [filter_cons_of_neg (by rw [blank]; simp), filter_nil, if_pos rfl]
  | false => rw [filter_cons_of_pos (by rw [blank]; rfl), filter_nil, if_neg (by simp)]

theorem matches_boundFilter (bound : account ≠ []) (filter : Option (FilterExpr V)) {store : Store engine.label} {row : Nat × Record V}
    (inside : row ∈ store.rows.inOrder) :
    matchesFilter engine.meets row.2.field (compileFilter (boundFilter account filter)) =
      (isOwn account row.2 && filter.all fun filter => matchesFilter engine.meets row.2.field (compileFilter filter)) := by
  have own : matchesFilter engine.meets row.2.field (.must accountField [.text account] none) = isOwn account row.2 := by
    obtain ⟨holder, same⟩ := store.accounts _ _ (Table.mem_pairs_iff.mp (store.rows.perm_inOrder.mem_iff.mp inside))
    rw [matchesFilter, mustMatch, if_neg (by decide), isOwn, same]
    simp [text, bound, valueMatches]
  cases filter with
  | none =>
    have bounded : boundFilter account (none : Option (FilterExpr V)) = .eq accountField (.text account) := by
      unfold boundFilter
      rw [if_neg bound]
    rw [bounded, compile_account, own, Option.all_none, Bool.and_true]
  | some filter =>
    rw [compile_boundFilter bound, Option.all_some]
    by_cases blank : (compileFilter filter).isAll = true
    · rw [if_pos blank, own, matches_isAll _ blank, Bool.and_true]
    · rw [if_neg blank, matchesFilter, matchesAll, matchesAll, matchesAll, own, Bool.and_true]

omit [DecidableEq V] in
theorem reading_boundFilter (bound : account ≠ []) {filter : FilterExpr V} (read : engine.reading (compileFilter filter) = .filtered) :
    engine.reading (compileFilter (boundFilter account (some filter))) = .filtered := by
  rw [compile_boundFilter bound]
  split
  · exact engine.reading_must _ _ _
  · exact engine.reading_and _ _ (engine.reading_must _ _ _) read

end BoundFilter

end LoginomDock.Tenancy
