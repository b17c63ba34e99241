import Mathlib.Data.List.Sort
import Mathlib.Data.Prod.Lex
import LoginomDock.Library.Text

/-! One flat keyspace, whose values have types, and the commands that scripts call on it. -/

namespace LoginomDock.Redis

inductive Value where
  | string (text : Text)
  | list (items : List Text)
  | set (members : List Text)
  | sortedSet (members : List (Text × Nat))
  | hash (fields : List (Text × Text))
  deriving DecidableEq

abbrev Keyspace := Text → Option Value

inductive Error where
  | wrongType
  | reply (message : Text)
  deriving DecidableEq

abbrev Script (α : Type) := ExceptT Error (StateM Keyspace) α

def listValue : List Text → Option Value
  | [] => none
  | items => some (.list items)

def setValue : List Text → Option Value
  | [] => none
  | members => some (.set members)

def sortedSetValue : List (Text × Nat) → Option Value
  | [] => none
  | members => some (.sortedSet members)

def hashValue : List (Text × Text) → Option Value
  | [] => none
  | fields => some (.hash fields)

def write (key : Text) (value : Option Value) : Script Unit :=
  modify fun keyspace => Function.update keyspace key value

def read {α : Type} (content : Option Value → Option α) (key : Text) : Script α := do
  match content ((← getThe Keyspace) key) with
  | none => throw .wrongType
  | some found => pure found

def listContent : Option Value → Option (List Text)
  | none => some []
  | some (.list items) => some items
  | some _ => none

def setContent : Option Value → Option (List Text)
  | none => some []
  | some (.set members) => some members
  | some _ => none

def sortedSetContent : Option Value → Option (List (Text × Nat))
  | none => some []
  | some (.sortedSet members) => some members
  | some _ => none

def hashContent : Option Value → Option (List (Text × Text))
  | none => some []
  | some (.hash fields) => some fields
  | some _ => none

def stringContent : Option Value → Option (Option Text)
  | none => some none
  | some (.string text) => some (some text)
  | some _ => none

/-- `LRANGE key 0 -1` -/
def lrange (key : Text) : Script (List Text) := read listContent key

/-- `LINDEX key 0` -/
def lindexFirst (key : Text) : Script (Option Text) := do
  return (← lrange key).head?

def rpush (key item : Text) : Script Unit := do
  write key (listValue ((← lrange key) ++ [item]))

def lpush (key item : Text) : Script Unit := do
  write key (listValue (item :: (← lrange key)))

def lpop (key : Text) : Script (Option Text) := do
  match ← lrange key with
  | [] => pure none
  | first :: rest =>
    write key (listValue rest)
    pure (some first)

/-- The order of `SMEMBERS` is unspecified; here it is the order of insertion. -/
def smembers (key : Text) : Script (List Text) := read setContent key

def sismember (key member : Text) : Script Bool := do
  return decide (member ∈ (← smembers key))

def sadd (key member : Text) : Script Bool := do
  let members ← smembers key
  if member ∈ members then pure false
  else
    write key (setValue (members ++ [member]))
    pure true

def srem (key member : Text) : Script Unit := do
  write key (setValue ((← smembers key).filter (· ≠ member)))

def Precedes (first second : Text × Nat) : Prop := first.2 < second.2 ∨ first.2 = second.2 ∧ first.1 ≤ second.1

instance : DecidableRel Precedes := fun _ _ => inferInstanceAs (Decidable (_ ∨ _))

def zinsert (entry : Text × Nat) (members : List (Text × Nat)) : List (Text × Nat) :=
  (members.filter fun other => other.1 ≠ entry.1).orderedInsert Precedes entry

/-- `ZRANGE key 0 -1` with the scores. -/
def zrangeWithScores (key : Text) : Script (List (Text × Nat)) := read sortedSetContent key

def zrange (key : Text) : Script (List Text) := do
  return (← zrangeWithScores key).map fun entry => entry.1

def zadd (key : Text) (score : Nat) (member : Text) : Script Unit := do
  write key (sortedSetValue (zinsert (member, score) (← zrangeWithScores key)))

def zrem (key member : Text) : Script Unit := do
  write key (sortedSetValue ((← zrangeWithScores key).filter fun entry => entry.1 ≠ member))

def mergeFields (old fields : List (Text × Text)) : List (Text × Text) :=
  old.filter (fun field => field.1 ∉ fields.map Prod.fst) ++ fields

def hset (key : Text) (fields : List (Text × Text)) : Script Unit := do
  write key (hashValue (mergeFields (← read hashContent key) fields))

def get (key : Text) : Script (Option Text) := read stringContent key

def set (key text : Text) : Script Unit := write key (some (.string text))

def del (key : Text) : Script Unit := write key none

def existsKey (key : Text) : Script Bool := do
  return ((← getThe Keyspace) key).isSome

def exec {α : Type} (script : Script α) (keyspace : Keyspace) : Except Error α × Keyspace :=
  StateT.run (ExceptT.run script) keyspace

def Runs {α : Type} (script : Script α) (before : Keyspace) (value : α) (after : Keyspace) : Prop :=
  exec script before = (.ok value, after)

section Running

variable {α β : Type} {before after last : Keyspace} {key : Text}

theorem Runs.pure (value : α) : Runs (pure value) before value before := rfl

theorem exec_bind {script : Script α} {value : α} (runs : Runs script before value after) (next : α → Script β) :
    exec (script >>= next) before = exec (next value) after := by
  have same : StateT.run (ExceptT.run script) before = (Except.ok value, after) := runs
  simp only [exec, ExceptT.run_bind, StateT.run_bind, same]
  rfl

theorem exec_bind_error {script : Script α} {error : Error} (fails : exec script before = (.error error, after))
    (next : α → Script β) : exec (script >>= next) before = (.error error, after) := by
  have same : StateT.run (ExceptT.run script) before = (Except.error error, after) := fails
  simp only [exec, ExceptT.run_bind, StateT.run_bind, same]
  rfl

theorem Runs.bind {script : Script α} {value : α} {next : α → Script β} {result : β}
    (runs : Runs script before value after) (rest : Runs (next value) after result last) :
    Runs (script >>= next) before result last :=
  (exec_bind runs next).trans rest

theorem runs_write (value : Option Value) : Runs (write key value) before () (Function.update before key value) := rfl

theorem runs_read {content : Option Value → Option α} {found : α} (holds : content (before key) = some found) :
    Runs (read content key) before found before := by
  have reads : Runs (getThe Keyspace : Script Keyspace) before before before := rfl
  refine reads.bind ?_
  rw [holds]
  rfl

@[simp] theorem listContent_listValue (items : List Text) : listContent (listValue items) = some items := by
  cases items <;> rfl

@[simp] theorem setContent_setValue (members : List Text) : setContent (setValue members) = some members := by
  cases members <;> rfl

@[simp] theorem sortedSetContent_sortedSetValue (members : List (Text × Nat)) :
    sortedSetContent (sortedSetValue members) = some members := by
  cases members <;> rfl

@[simp] theorem hashContent_hashValue (fields : List (Text × Text)) : hashContent (hashValue fields) = some fields := by
  cases fields <;> rfl

@[simp] theorem stringContent_map (text : Option Text) : stringContent (text.map .string) = some text := by
  cases text <;> rfl

section Lists

variable {items : List Text}

section

variable (holds : before key = listValue items)

include holds

theorem runs_lrange : Runs (lrange key) before items before :=
  runs_read (by simp [holds])

theorem runs_lindexFirst : Runs (lindexFirst key) before items.head? before :=
  (runs_lrange holds).bind (.pure _)

theorem runs_rpush (item : Text) :
    Runs (rpush key item) before () (Function.update before key (listValue (items ++ [item]))) :=
  (runs_lrange holds).bind (runs_write _)

theorem runs_lpush (item : Text) :
    Runs (lpush key item) before () (Function.update before key (listValue (item :: items))) :=
  (runs_lrange holds).bind (runs_write _)

end

theorem runs_lpop_nil (holds : before key = listValue []) : Runs (lpop key) before none before :=
  (runs_lrange holds).bind (.pure _)

theorem runs_lpop_cons {first : Text} {rest : List Text} (holds : before key = listValue (first :: rest)) :
    Runs (lpop key) before (some first) (Function.update before key (listValue rest)) :=
  (runs_lrange holds).bind ((runs_write _).bind (.pure _))

end Lists

section Sets

variable {members : List Text}

section

variable (holds : before key = setValue members)

include holds

theorem runs_smembers : Runs (smembers key) before members before :=
  runs_read (by simp [holds])

theorem runs_sismember (member : Text) :
    Runs (sismember key member) before (decide (member ∈ members)) before :=
  (runs_smembers holds).bind (.pure _)

theorem runs_sadd_old {member : Text} (old : member ∈ members) :
    Runs (sadd key member) before false before :=
  (runs_smembers holds).bind (by rw [if_pos old]; exact .pure _)

theorem runs_sadd_new {member : Text} (new : member ∉ members) :
    Runs (sadd key member) before true (Function.update before key (setValue (members ++ [member]))) :=
  (runs_smembers holds).bind (by rw [if_neg new]; exact (runs_write _).bind (.pure _))

theorem runs_srem (member : Text) :
    Runs (srem key member) before () (Function.update before key (setValue (members.filter (· ≠ member)))) :=
  (runs_smembers holds).bind (runs_write _)

end

end Sets

section SortedSets

variable {members : List (Text × Nat)}

section

variable (holds : before key = sortedSetValue members)

include holds

theorem runs_zrangeWithScores :
    Runs (zrangeWithScores key) before members before :=
  runs_read (by simp [holds])

theorem runs_zrange :
    Runs (zrange key) before (members.map fun entry => entry.1) before :=
  (runs_zrangeWithScores holds).bind (.pure _)

theorem runs_zadd (score : Nat) (member : Text) :
    Runs (zadd key score member) before ()
      (Function.update before key (sortedSetValue (zinsert (member, score) members))) :=
  (runs_zrangeWithScores holds).bind (runs_write _)

theorem runs_zrem (member : Text) :
    Runs (zrem key member) before ()
      (Function.update before key (sortedSetValue (members.filter fun entry => entry.1 ≠ member))) :=
  (runs_zrangeWithScores holds).bind (runs_write _)

end

end SortedSets

theorem runs_hset {old : List (Text × Text)} (holds : before key = hashValue old) (fields : List (Text × Text)) :
    Runs (hset key fields) before () (Function.update before key (hashValue (mergeFields old fields))) :=
  (runs_read (by simp [holds])).bind (runs_write _)

theorem runs_get {text : Option Text} (holds : before key = text.map .string) : Runs (get key) before text before :=
  runs_read (by simp [holds])

theorem runs_existsKey : Runs (existsKey key) before (before key).isSome before := rfl

end Running

end LoginomDock.Redis
