import LoginomDock.Filters.FilterExpr
import LoginomDock.Library.Batch
import LoginomDock.Library.Prog
import Mathlib.Data.Rat.Defs

/-! `CollectionAdapter` over a local collection: rows under the hash of their id, written after validation against the
schema of the contexts and searched through a filter. -/

namespace LoginomDock.Tenancy

open Access (strip stripSlashes scheme)
open Filters List Option

abbrev Record (V : Type) := Table Text (FieldValue V)

inductive Failure where
  | permission (message : Text)
  | value (message : Text)
  | runtime (message : Text)
  | recursion
  | other (message : Text)
  deriving DecidableEq

inductive FieldType where
  | string
  | path
  | text
  | dateTime
  | int64
  | bool
  | listOfStrings
  | vector
  | sparseVector
  deriving DecidableEq

structure Python (V : Type) where
  truthy : V → Bool
  ofInt : Int → V
  ofBool : Bool → V
  emptyDict : V
  int : FieldValue V → Option Int
  int_str : ∀ number : Int, int (.scalar (.text (toString number).toList)) = some number
  str : FieldValue V → Text
  str_text : ∀ content : Text, str (.scalar (.text content)) = content
  lower : Text → Text
  repr : FieldValue V → Text

-- What the native index makes of a filter: one that it cannot parse it takes for no filter.
inductive Reading where
  | throws (message : Text)
  | unfiltered
  | filtered

-- The rows of a search in order, by label and with their scores.
structure Ranking (V : Type) where
  byVector : List ℚ → List (Text × ℚ) → List (Nat × Record V) → List (Nat × FieldValue V)
  byVector_perm : ∀ dense sparse rows, ((byVector dense sparse rows).map Prod.fst).Perm (rows.map Prod.fst)
  byField : Text → Bool → List (Nat × Record V) → List (Nat × FieldValue V)
  byField_among : ∀ field descending rows, ∀ hit ∈ byField field descending rows, hit.1 ∈ rows.map Prod.fst

-- What the collection is built from: the hash of the ids, the validator of the fields, and the index.
structure Engine (V : Type) where
  python : Python V
  /-- `str_to_uint64` -/
  hash : Text → Nat
  convert : FieldType → FieldValue V → Option (FieldValue V)
  convert_string : ∀ value result, convert .string value = some result → result = value ∧ ∃ content, value = .scalar (.text content)
  complaint : Record V → Text
  meets : Comparison V
  reading : Payload V → Reading
  reading_must : ∀ field text para, reading (.must field [.text text] para) = .filtered
  reading_and : ∀ first second, reading first = .filtered → reading second = .filtered → reading (.and [first, second]) = .filtered
  ranking : Ranking V

variable {V : Type}

def null : FieldValue V := .scalar .null

def text (content : Text) : FieldValue V := .scalar (.text content)

def idField : Text := "id"

def accountField : Text := "account_id"

def countField : Text := "active_count"

/-- `record.get(name)` -/
def Record.field (record : Record V) (name : Text) : FieldValue V := (record.lookup name).getD null

-- The primary key, as a search result has it.
def Record.id (record : Record V) : FieldValue V := (record.lookup idField).getD (text [])

/-- `{k: v for k, v in record.items() if v is not None}` -/
def Record.given [DecidableEq V] (record : Record V) : Record V := record.retain fun name => record.field name ≠ null

def truthy (python : Python V) : FieldValue V → Bool
  | .scalar .null => false
  | .scalar (.text content) => content ≠ []
  | .scalar (.other value) => python.truthy value
  | .list items => !items.isEmpty

def aclGrantFields : List Text := ["acl_direct_grants", "acl_inherited_grants"]

def contextFields : List (Text × FieldType) :=
  [("id".toList, .string), ("uri".toList, .path), ("type".toList, .string), ("context_type".toList, .string),
    ("vector".toList, .vector), ("sparse_vector".toList, .sparseVector), ("created_at".toList, .dateTime),
    ("updated_at".toList, .dateTime), ("active_count".toList, .int64), ("level".toList, .int64), ("name".toList, .string),
    ("description".toList, .string), ("tags".toList, .string), ("search_tags".toList, .listOfStrings),
    ("abstract".toList, .string), ("content".toList, .text), ("account_id".toList, .string),
    ("owner_user_id".toList, .string), ("acl_enabled".toList, .bool)] ++ aclGrantFields.map fun name => (name, .listOfStrings)

def fieldNames : List Text := contextFields.map Prod.fst

def validatorDefault (python : Python V) : FieldType → Option (FieldValue V)
  | .string | .path | .text | .dateTime => some (text [])
  | .int64 => some (.scalar (.other (python.ofInt 0)))
  | .bool => some (.scalar (.other (python.ofBool false)))
  | .listOfStrings => some (.list [])
  | .sparseVector => some (.scalar (.other python.emptyDict))
  | .vector => none

/-- What `fix_fields_data` fills in. The lists of the grants and the flag have defaults of their own. -/
def fixedDefault (python : Python V) (name : Text) : FieldType → FieldValue V
  | .string => text "default"
  | .path | .text | .dateTime => text []
  | .int64 => .scalar (.other (python.ofInt 0))
  | .bool => .scalar (.other (python.ofBool false))
  | .listOfStrings => if name ∈ aclGrantFields then .list [] else .list [.text "default"]
  | .sparseVector => .scalar (.other python.emptyDict)
  | .vector => .list []

/-- `_decode_uri_field_value` -/
def decodeUri (value : Text) : Text :=
  if scheme <+: strip value then strip value
  else if ['/'] <+: strip value then scheme ++ stripSlashes (strip value)
  else value

def onUri (change : Text → Text) (record : Record V) (name : Text) : Record V :=
  match record.lookup name with
  | some (.scalar (.text content)) => record.insert name (text (change content))
  | _ => record

def normalizeForRead (record : Record V) : Record V := uriFieldNames.foldl (onUri decodeUri) record

def normalizeForWrite (record : Record V) : Record V := uriFieldNames.foldl (onUri encodeUri) record

/-- `str_to_uint64(str(key))` -/
def Engine.label (engine : Engine V) (key : FieldValue V) : Nat := engine.hash (engine.python.str key)

def HasAccount (record : Record V) : Prop := ∃ account, record.field accountField = text account

-- A record that has passed the validator.
structure Row (V : Type) where
  record : Record V
  account : HasAccount record

structure Store (labelOf : FieldValue V → Nat) where
  rows : Table Nat (Record V)
  keyed : ∀ label row, rows.lookup label = some row → labelOf row.id = label
  accounts : ∀ label row, rows.lookup label = some row → HasAccount row

namespace Store

variable {labelOf : FieldValue V → Nat} (store : Store labelOf)

def put (row : Row V) : Store labelOf where
  rows := store.rows.insert (labelOf row.record.id) row.record
  keyed := by
    intro label other found
    rw [Table.lookup_insert_if] at found
    split at found
    case isTrue same => rw [same, ← some_inj.mp found]
    case isFalse => exact store.keyed label other found
  accounts := by
    intro label other found
    rw [Table.lookup_insert_if] at found
    split at found
    case isTrue => exact some_inj.mp found ▸ row.account
    case isFalse => exact store.accounts label other found

def remove (label : Nat) : Store labelOf where
  rows := store.rows.erase label
  keyed := by
    intro other row found
    rw [Table.lookup_erase_if] at found
    split at found
    case isTrue => cases found
    case isFalse => exact store.keyed other row found
  accounts := by
    intro other row found
    rw [Table.lookup_erase_if] at found
    split at found
    case isTrue => cases found
    case isFalse => exact store.accounts other row found

end Store

section Engine

variable (engine : Engine V)

def processedValue (data : Record V) (field : Text × FieldType) : Option (FieldValue V) :=
  match data.lookup field.1 with
  | some value => engine.convert field.2 value
  | none => validatorDefault engine.python field.2

def processed (data : Record V) (fields : List (Text × FieldType)) (row : Record V) : Option (Record V) :=
  fields.foldlM (fun row field => (processedValue engine data field).map (row.insert field.1)) row

theorem lookup_processed {data row result : Record V} {fields : List (Text × FieldType)} (distinct : (fields.map Prod.fst).Nodup)
    (done : processed engine data fields row = some result) :
    (∀ field ∈ fields, ∃ value, processedValue engine data field = some value ∧ result.lookup field.1 = some value) ∧
      ∀ name ∉ fields.map Prod.fst, result.lookup name = row.lookup name := by
  induction fields generalizing row with
  | nil => cases done; simp
  | cons first rest ih =>
    obtain ⟨alone, others⟩ := nodup_cons.mp (map_cons ▸ distinct)
    obtain ⟨value, here, later⟩ : ∃ value, processedValue engine data first = some value ∧
        processed engine data rest (row.insert first.1 value) = some result := by
      change ((processedValue engine data first).map (row.insert first.1)).bind (processed engine data rest) = some result at done
      cases here : processedValue engine data first with
      | none => rw [here] at done; cases done
      | some value => exact ⟨value, rfl, by rw [here] at done; exact done⟩
    obtain ⟨inside, outside⟩ := ih others later
    constructor
    · intro field member
      rcases mem_cons.mp member with rfl | member
      · exact ⟨value, here, by rw [outside _ alone, AList.lookup_insert]⟩
      · exact inside field member
    · intro name apart
      rw [map_cons, mem_cons, not_or] at apart
      rw [outside name apart.2, AList.lookup_insert_ne apart.1]

theorem hasAccount_processed {data result : Record V} (done : processed engine data contextFields ∅ = some result) : HasAccount result := by
  obtain ⟨value, given, found⟩ := (lookup_processed engine (by decide) done).1 (accountField, .string) (by decide)
  have field : result.field accountField = value := by rw [Record.field, found, getD_some]
  rw [HasAccount, field]
  unfold processedValue at given
  split at given
  · obtain ⟨rfl, content, isText⟩ := engine.convert_string _ _ given
    exact ⟨content, isText⟩
  · exact ⟨[], (some_inj.mp given).symm⟩

/-- `validate_and_process`: no unknown field, and every value of its type. -/
def validateAndProcess (data : Record V) : Except Failure (Row V) :=
  if data.keys.all (· ∈ fieldNames) then
    match done : processed engine data contextFields ∅ with
    | some row => .ok ⟨row, hasAccount_processed engine done⟩
    | none => .error (.value (engine.complaint data))
  else .error (.value (engine.complaint data))

/-- `fix_fields_data` -/
def fixFieldsData (row : Record V) : Record V :=
  contextFields.foldl (fun (row : Record V) (name, type) =>
    if name ∈ row then row else row.insert name (fixedDefault engine.python name type)) row

variable {engine}

section

variable (store : Store engine.label)

def fetchData (primaryKeys : List (FieldValue V)) : List (FieldValue V × Record V) :=
  primaryKeys.filterMap fun key => (store.rows.lookup (engine.label key)).map fun row => (key, fixFieldsData engine row)

def getRecords (ids : List (FieldValue V)) : List (Record V) :=
  (fetchData store ids).map fun (key, row) => normalizeForRead (row.insert idField key)

def upsertData (records : List (Record V)) : Except Failure (List (Row V) × Store engine.label) := do
  let rows ← records.mapM (validateAndProcess engine)
  pure (rows, rows.foldl Store.put store)

def upsertRecords (records : List (Record V)) : Except Failure (List (FieldValue V) × Store engine.label) := do
  let (_, after) ← upsertData store (records.map normalizeForWrite)
  pure (records.map fun record => record.field idField, after)

end

def notFound (python : Python V) (missing : List (FieldValue V)) : Failure :=
  .value ("record not found for primary key(s): [" ++ ", ".toList.intercalate (missing.map python.repr) ++ "]")

/-- `update_data`: the fields of an existing record, and over them the ones that are given. -/
def updateData (store : Store engine.label) (data : List (Record V)) : Except Failure (List (FieldValue V) × Store engine.label) := do
  let missing := (data.map fun record => record.field idField).filter fun key => (store.rows.lookup (engine.label key)).isNone
  if missing ≠ [] then throw (notFound engine.python missing)
  let merged := data.map fun record =>
    record ∪ (((store.rows.lookup (engine.label (record.field idField))).map (fixFieldsData engine)).getD ∅)
  let (rows, after) ← upsertData store merged
  pure (rows.map fun row => row.record.id, after)

def deleteData (store : Store engine.label) (ids : List (FieldValue V)) : Store engine.label :=
  (ids.map engine.label).foldl Store.remove store

structure Query (V : Type) where
  queryVector : List ℚ := []
  sparseQueryVector : List (Text × ℚ) := []
  filter : FilterExpr V := .noCondition
  limit : Nat := 10
  offset : Int := 0
  outputFields : List Text := []
  orderBy : Text := []
  orderDesc : Bool := false

variable [DecidableEq V]

def matching (store : Store engine.label) (payload : Payload V) : Except Failure (List (Nat × Record V)) :=
  match engine.reading payload with
  | .throws message => .error (.other message)
  | .unfiltered => .ok store.rows.inOrder
  | .filtered => .ok (store.rows.inOrder.filter fun row => matchesFilter engine.meets row.2.field payload)

def projected (names : List Text) (row : Record V) : Record V :=
  names.foldl (fun shown name => shown.insert name (if name = "sparse_vector" then null else row.field name)) ∅

def resultRecord (names : List Text) (row : Record V) (score : FieldValue V) : Record V :=
  normalizeForRead (((projected names row).insert idField row.id).insert "_score" score)

section

variable (store : Store engine.label)

/-- The best `limit + offset` hits are asked for, and those before the offset are cut off. -/
def resultPage (names : List Text) (hits : List (Nat × FieldValue V)) (query : Query V) : List (Record V) :=
  (((hits.take (query.limit + query.offset).toNat).drop query.offset.toNat).take query.limit).filterMap fun (label, score) =>
    (store.rows.lookup label).map fun row => resultRecord names row score

/-- `query`, where `vector` is the random one that is searched for if nothing else is. -/
def queryRecords (vector : List ℚ) (query : Query V) : Except Failure (List (Record V)) := do
  let rows ← matching store (compileFilter query.filter)
  let every := if query.outputFields = [] then fieldNames else query.outputFields
  if query.queryVector ≠ [] ∨ query.sparseQueryVector ≠ [] then
    pure (resultPage store every (engine.ranking.byVector query.queryVector query.sparseQueryVector rows) query)
  else if query.orderBy ≠ [] then
    pure (resultPage store query.outputFields (engine.ranking.byField query.orderBy query.orderDesc rows) query)
  else
    pure (resultPage store every (engine.ranking.byVector vector [] rows) query)

-- An aggregation that fails counts nothing.
def countRecords (filter : FilterExpr V) : Nat :=
  match matching store (compileFilter filter) with
  | .ok rows => rows.length
  | .error _ => 0

end

end Engine

inductive AdapterCall (V : Type) where
  | get (ids : List (FieldValue V))
  | upsert (records : List (Record V))
  | updateData (records : List (Record V))
  | query (query : Query V)
  | delete (ids : List (FieldValue V))
  | count (filter : FilterExpr V)
  | uuid

def AdapterCall.Answer : AdapterCall V → Type
  | .get _ => List (Record V)
  | .upsert _ => Except Failure (List (FieldValue V))
  | .updateData _ => Except Failure (List (FieldValue V))
  | .query _ => Except Failure (List (Record V))
  | .delete _ => Nat
  | .count _ => Nat
  | .uuid => Text

-- The collection, and what is yet to be drawn at random.
structure World (labelOf : FieldValue V → Nat) where
  store : Store labelOf
  vectors : Nat → List ℚ
  uuids : Nat → Text

section Answers

variable {labelOf : FieldValue V → Nat}

def World.written (world : World labelOf) : Except Failure (List (FieldValue V) × Store labelOf) →
    Except Failure (List (FieldValue V)) × World labelOf
  | .ok (ids, store) => (.ok ids, { world with store := store })
  | .error failed => (.error failed, world)

def Query.draws (query : Query V) : Bool := query.queryVector = [] ∧ query.sparseQueryVector = [] ∧ query.orderBy = []

def World.drawn (world : World labelOf) : World labelOf := { world with vectors := fun turn => world.vectors (turn + 1) }

end Answers

def answerCall [DecidableEq V] (engine : Engine V) : (call : AdapterCall V) → World engine.label → call.Answer × World engine.label
  | .get ids, world => (getRecords world.store ids, world)
  | .upsert records, world => world.written (upsertRecords world.store records)
  | .updateData records, world => world.written (updateData world.store records)
  | .query query, world => (queryRecords world.store (world.vectors 0) query, if query.draws then world.drawn else world)
  | .delete ids, world => (ids.length, { world with store := deleteData world.store ids })
  | .count filter, world => (countRecords world.store filter, world)
  | .uuid, world => (world.uuids 0, { world with uuids := fun turn => world.uuids (turn + 1) })

namespace Small

inductive Plain where
  | number (value : Int)
  | dictionary
  deriving DecidableEq

def readInt : Text → Option Int
  | '-' :: digits => some (-(Nat.ofDigitChars 10 digits 0 : Nat))
  | digits => some (Nat.ofDigitChars 10 digits 0 : Nat)

theorem readInt_digits (number : Nat) : readInt (Nat.toDigits 10 number) = some (number : Int) := by
  have unsigned : '-' ∉ Nat.toDigits 10 number := by
    intro inside
    exact absurd (Nat.isDigit_of_mem_toDigits (by omega) (by omega) inside) (by decide)
  unfold readInt
  split
  next digits same => exact absurd (by rw [same]; exact mem_cons_self) unsigned
  next => rw [Nat.ofDigitChars_ten_toDigits]

theorem readInt_toString (number : Int) : readInt (toString number).toList = some number := by
  cases number with
  | ofNat number =>
    change readInt (Nat.repr number).toList = _
    rw [Nat.toList_repr]
    exact readInt_digits number
  | negSucc number =>
    change readInt ("-" ++ Nat.repr (number + 1)).toList = _
    rw [String.toList_append, Nat.toList_repr]
    change some (-(Nat.ofDigitChars 10 (Nat.toDigits 10 (number + 1)) 0 : Int)) = _
    rw [Nat.ofDigitChars_ten_toDigits]
    rfl

def python : Python Plain where
  truthy
    | .number value => value ≠ 0
    | .dictionary => false
  ofInt := .number
  ofBool flag := .number (if flag then 1 else 0)
  emptyDict := .dictionary
  int
    | .scalar (.text content) => readInt content
    | .scalar (.other (.number value)) => some value
    | _ => none
  int_str := readInt_toString
  str
    | .scalar (.text content) => content
    | .scalar (.other (.number value)) => (toString value).toList
    | _ => []
  str_text _ := rfl
  lower content := content.map Char.toLower
  repr
    | .scalar (.text content) => '\'' :: content ++ ['\'']
    | _ => []

mutual

-- The native parser refuses an operator without conditions, at any depth.
def readable : Payload Plain → Bool
  | .and conds | .or conds => !conds.isEmpty && allReadable conds
  | .must _ conds _ | .mustNot _ conds _ => !conds.isEmpty
  | _ => true

def allReadable : List (Payload Plain) → Bool
  | [] => true
  | cond :: rest => readable cond && allReadable rest

end

def ranking : Ranking Plain where
  byVector _ _ rows := rows.map fun row => (row.1, null)
  byVector_perm _ _ rows := by simp [Function.comp_def]
  byField _ _ rows := rows.map fun row => (row.1, null)
  byField_among _ _ rows hit inside := by
    obtain ⟨row, among, rfl⟩ := mem_map.mp inside
    exact mem_map_of_mem among

def noteEngine : Engine Plain where
  python := python
  hash content := content.foldl (fun hash char => 31 * hash + char.toNat) 7
  convert
    | .string, .scalar (.text content) => some (text content)
    | .string, _ => none
    | _, value => some value
  convert_string value result converted := by
    cases value with
    | list items => cases converted
    | scalar value =>
      cases value with
      | text content => exact ⟨(some_inj.mp converted).symm, content, rfl⟩
      | null => cases converted
      | other value => cases converted
  complaint _ := "validation error"
  meets _ _ _ := none
  reading payload := if readable payload then .filtered else .unfiltered
  reading_must _ _ _ := rfl
  reading_and first second := by
    intro readFirst readSecond
    have both : readable first = true ∧ readable second = true := by
      constructor
      · by_contra refused
        simp [refused] at readFirst
      · by_contra refused
        simp [refused] at readSecond
    simp [readable, allReadable, both]
  ranking := ranking

def noteRow (id account : String) : Row Plain where
  record := ((∅ : Record Plain).insert accountField (text account.toList)).insert idField (text id.toList)
  account := ⟨account.toList, by
    rw [Record.field, AList.lookup_insert_ne (by decide), AList.lookup_insert, getD_some]⟩

def noteStore (rows : List (Row Plain)) : Store noteEngine.label := rows.foldl Store.put ⟨∅, by simp, by simp⟩

end Small

end LoginomDock.Tenancy
