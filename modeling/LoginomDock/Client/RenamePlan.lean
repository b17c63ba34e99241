import LoginomDock.Library.Js

namespace LoginomDock.Client

-- `toLocaleLowerCase('en-US')`, which is the usual one on ASCII
structure LocaleLowerCase where
  lower : Text → Text
  ascii : ∀ text : Text, (∀ char ∈ text, char.toNat < 128) → lower text = text.map Char.toLower

structure OutputRecord where
  recordId : Text
  name : Text
  label : Text
  deriving DecidableEq

structure OutputField where
  current : OutputRecord
  name : Text
  label : Text
  excluded : Bool := false
  deriving DecidableEq

structure OutputEdit where
  recordId : Text
  name : Text
  label : Text
  temporary : Bool
  deriving DecidableEq

-- The length of a string in JavaScript
def codeUnits (text : Text) : Nat := (text.map fun char => if char.toNat < 0x10000 then 1 else 2).sum

def validName (name : Text) : Bool :=
  decide (0 < codeUnits name) && decide (codeUnits name ≤ 200) && name.all fun char => decide (0x1f < char.toNat ∧ char.toNat ≠ 0x7f)

section Plan

variable (lowering : LocaleLowerCase)

structure CheckedFields where
  ids : List Text := []
  occupied : Table Text Text := ∅
  requested : List Text := []

def supported (checked : CheckedFields) (field : OutputField) : Bool :=
  decide (field.current.recordId ≠ [] ∧ field.current.recordId ∉ checked.ids) && validName field.current.name && validName field.name &&
    decide (codeUnits field.label ≤ 200) &&
      decide (field.excluded = true → field.name = field.current.name ∧ field.label = field.current.label)

def checkField (checked : CheckedFields) (field : OutputField) : Except Text CheckedFields :=
  if supported checked field = false then .error "Supported unique output field edits required"
  else if lowering.lower field.current.name ∈ checked.occupied ∨ lowering.lower field.name ∈ checked.requested then
    .error "Ambiguous output field names"
  else .ok {
    ids := field.current.recordId :: checked.ids
    occupied := checked.occupied.insert (lowering.lower field.current.name) field.current.recordId
    requested := lowering.lower field.name :: checked.requested }

def checkFields (fields : List OutputField) : Except Text CheckedFields :=
  if fields = [] ∨ 1000 < fields.length then .error "Complete output fields required"
  else fields.foldlM (checkField lowering) {}

structure PlanState where
  pending : List OutputField
  occupied : Table Text Text
  reserved : List Text
  suffix : Nat := 0

def PlanState.available (state : PlanState) (field : OutputField) : Bool :=
  match state.occupied.lookup (lowering.lower field.name) with
  | none => true
  | some recordId => decide (recordId = field.current.recordId)

def temporaryName (suffix : Nat) : Text := "DockMappingTemporary" ++ Nat.toDigits 10 suffix

def freshName (reserved : List Text) : Nat → Nat → Option Nat
  | 0, _ => none
  | fuel + 1, suffix =>
    if lowering.lower (temporaryName (suffix + 1)) ∈ reserved then freshName reserved fuel (suffix + 1) else some (suffix + 1)

def rekey (occupied : Table Text Text) (old new recordId : Text) : Table Text Text :=
  (occupied.erase (lowering.lower old)).insert (lowering.lower new) recordId

def planRound (state : PlanState) : Option (OutputEdit × PlanState) :=
  match state.pending.find? (state.available lowering) with
  | some field =>
    some (⟨field.current.recordId, field.name, field.label, false⟩, { state with
      pending := state.pending.eraseP (state.available lowering)
      occupied := rekey lowering state.occupied field.current.name field.name field.current.recordId })
  | none =>
    match state.pending with
    | [] => none
    | field :: rest =>
      (freshName lowering state.reserved (state.reserved.length + 1) state.suffix).map fun suffix =>
        let name := temporaryName suffix
        (⟨field.current.recordId, name, field.current.label, true⟩, {
          pending := { field with current := { field.current with name := name } } :: rest
          occupied := rekey lowering state.occupied field.current.name name field.current.recordId
          reserved := lowering.lower name :: state.reserved
          suffix := suffix })

def planLoop : Nat → PlanState → Option (List OutputEdit)
  | 0, state => if state.pending = [] then some [] else none
  | fuel + 1, state =>
    if state.pending = [] then some []
    else (planRound lowering state).bind fun planned => (planLoop fuel planned.2).map (planned.1 :: ·)

def planOutputFieldEdits (fields : List OutputField) : Option (Except Text (List OutputEdit)) :=
  match checkFields lowering fields with
  | .error message => some (.error message)
  | .ok checked =>
    (planLoop lowering (2 * fields.length) {
      pending := fields.filter fun field => decide (field.current.name ≠ field.name ∨ field.current.label ≠ field.label)
      occupied := checked.occupied
      reserved := checked.occupied.keys ++ checked.requested }).map .ok

end Plan

def OutputRecord.edit (step : OutputEdit) (record : OutputRecord) : OutputRecord :=
  if record.recordId = step.recordId then { record with name := step.name, label := step.label } else record

def applyEdits (steps : List OutputEdit) (records : List OutputRecord) : List OutputRecord :=
  steps.foldl (fun records step => records.map (OutputRecord.edit step)) records

end LoginomDock.Client
