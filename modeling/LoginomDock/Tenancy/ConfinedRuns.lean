import LoginomDock.Tenancy.ConfinedCalls

namespace LoginomDock.Tenancy

open Filters

variable {V : Type} [DecidableEq V] {engine : Engine V}

inductive Call (V : Type) where
  | upsert (data : Record V) (options : UpsertOptions)
  | upsertMany (dataList : List (Record V))
  | update (data : Record V)
  | get (ids : List (FieldValue V))
  | getStrict (ids : List (FieldValue V))
  | delete (ids : List (FieldValue V))
  | query (filter : Option (FilterExpr V)) (request : Query V)
  | scroll (filter : Option (FilterExpr V)) (limit : Nat) (cursor : Option Text) (outputFields : List Text)
  | count (filter : Option (FilterExpr V))
  | removeByUri (uri : Text)

inductive Returned (V : Type) where
  | id (id : FieldValue V)
  | ids (ids : List Text)
  | updated (result : UpdateResult V)
  | records (records : List (Record V))
  | number (number : Nat)
  | page (records : List (Record V)) (cursor : Option Text)

/-- A call of the backend of an account; `filter` is the query without vectors. -/
def perform (python : Python V) (account : Text) (recursionLimit : Nat) : Call V → Backend V (Returned V)
  | .upsert data options => .id <$> upsert python account options data
  | .upsertMany dataList => .ids <$> upsertMany python account dataList
  | .update data => .updated <$> update python account data
  | .get ids => .records <$> get account ids
  | .getStrict ids => .records <$> getStrict account ids
  | .delete ids => .number <$> delete python account ids
  | .query filter request => .records <$> query account filter request
  | .scroll filter limit cursor outputFields => (fun page => .page page.1 page.2) <$> scroll python account filter limit cursor outputFields
  | .count filter => .number <$> count account filter
  | .removeByUri uri => .number <$> removeByUri python account recursionLimit uri

def performAll (engine : Engine V) (account : Text) (recursionLimit : Nat) : List (Call V) → World engine.label →
    List (Except Failure (Returned V)) × World engine.label
  | [], world => ([], world)
  | call :: rest, world =>
    let (returned, after) := Prog.exec (answerCall engine) (perform engine.python account recursionLimit call) world
    let (others, last) := performAll engine account recursionLimit rest after
    (returned :: others, last)

def Separate (account : Text) (world : World engine.label) : Call V → Prop
  | .upsert data options => ∀ payload after,
      Prog.exec (answerCall engine) (upsertedPayload engine.python account options data) world = (.ok payload, after) →
        Spares account world.store [prepareUpsertPayload payload]
  | .upsertMany dataList => ∀ payloads after,
      Prog.exec (answerCall engine) (bindBatch engine.python account 0 dataList []) world = (.ok payloads, after) →
        Spares account world.store (payloads.map prepareUpsertPayload)
  | .update data => ∀ payload, updatePayload engine.python account data = .ok payload → UpdatesOwn account world.store payload
  | .query filter _ | .scroll filter _ _ _ | .count filter => engine.reading (compileFilter (boundFilter account filter)) ≠ .unfiltered
  | .get _ | .getStrict _ | .delete _ | .removeByUri _ => True

def AllSeparate (account : Text) (recursionLimit : Nat) : List (Call V) → World engine.label → Prop
  | [], _ => True
  | call :: rest, world => Separate account world call ∧
      AllSeparate account recursionLimit rest (Prog.exec (answerCall engine) (perform engine.python account recursionLimit call) world).2

variable {account : Text} {recursionLimit : Nat} {first second : World engine.label}

theorem Twins.map {α β : Type} {program : Backend V α} (twins : Twins account first second program) (change : α → β) :
    Twins account first second (change <$> program) := by
  rw [← bind_pure_comp]
  exact twins.andThen fun _ _ _ agree => pure agree _

section

variable (bound : account ≠ []) (agree : Agree account first second)

include bound agree

theorem Twins.removeByUri (uri : Text) :
    Twins account first second (removeByUri engine.python account recursionLimit uri) := by
  refine tryCatch ?_ fun _ _ _ agree => pure agree _
  have read : engine.reading (compileFilter (.rawDSL (.must "uri" [.text uri] none))) = .filtered := by
    rw [compileFilter, normalizeFilterPayload, encodeConds, if_pos (by decide), List.map_cons, List.map_nil, encodeUriFieldValue]
    exact engine.reading_must _ _ _
  refine (filterRecords bound agree read _ _).andThen fun targets _ _ agree => ?_
  dsimp only
  split
  · exact pure agree _
  · refine Twins.andThen ?_ fun below _ _ agree => Twins.andThen ?_ fun own _ _ agree => pure agree _
    · split
      · exact removeDescendants bound _ _ agree
      · exact pure agree _
    · split
      · exact delete bound agree _
      · exact pure agree _

theorem Twins.perform {call : Call V} (separate : Separate account first call)
    (separateToo : Separate account second call) : Twins account first second (perform engine.python account recursionLimit call) := by
  cases call with
  | upsert data options => exact (upsert bound agree options data separate).map _
  | upsertMany dataList => exact (upsertMany bound agree dataList separate).map _
  | update data => exact (update agree data fun payload done => ⟨separate payload done, (separateToo payload done).1⟩).map _
  | get ids => exact (getStrict agree ids).map _
  | getStrict ids => exact (getStrict agree ids).map _
  | delete ids => exact (delete bound agree ids).map _
  | query filter request => exact (query bound agree filter separate request).map _
  | scroll filter limit cursor outputFields => exact (scroll bound agree filter separate limit cursor outputFields).map _
  | count filter => exact (callCount agree bound filter separate).map _
  | removeByUri uri => exact (removeByUri bound agree uri).map _

theorem performAll_twins {calls : List (Call V)}
    (separate : AllSeparate account recursionLimit calls first) (separateToo : AllSeparate account recursionLimit calls second) :
    (performAll engine account recursionLimit calls first).1 = (performAll engine account recursionLimit calls second).1 ∧
      Agree account (performAll engine account recursionLimit calls first).2 (performAll engine account recursionLimit calls second).2 ∧
      Confined account first.store (performAll engine account recursionLimit calls first).2.store := by
  induction calls generalizing first second with
  | nil => exact ⟨rfl, agree, .refl _⟩
  | cons call rest ih =>
    have here := @Twins.perform V _ engine account recursionLimit first second bound agree call separate.1 separateToo.1
    obtain ⟨returned, agreeLast, confined⟩ := ih here.agree separate.2 separateToo.2
    refine ⟨?_, agreeLast, here.confined.trans confined⟩
    rw [performAll, performAll]
    exact congrArg₂ List.cons here.returns returned

end

def ownStore (account : Text) (store : Store engine.label) : Store engine.label where
  rows := store.rows.retain fun label => (ownRow account store label).isSome
  keyed label row found := by
    rw [Table.lookup_retain] at found
    split at found
    · exact store.keyed label row found
    · cases found
  accounts label row found := by
    rw [Table.lookup_retain] at found
    split at found
    · exact store.accounts label row found
    · cases found

def ownWorld (account : Text) (world : World engine.label) : World engine.label := { world with store := ownStore account world.store }

theorem ownRow_ownStore (store : Store engine.label) (label : Nat) : ownRow account (ownStore account store) label = ownRow account store label := by
  rw [ownRow, ownStore, Table.lookup_retain]
  split
  · rw [ownRow]
  next none' =>
    rw [Option.not_isSome_iff_eq_none] at none'
    rw [none']
    rfl

theorem agree_ownWorld (world : World engine.label) : Agree account world (ownWorld account world) :=
  ⟨fun label => (ownRow_ownStore world.store label).symm, rfl, rfl⟩

theorem not_foreign_ownStore (store : Store engine.label) (label : Nat) : ¬ Foreign account (ownStore account store) label := by
  rintro ⟨row, found, other⟩
  rw [ownStore, Table.lookup_retain] at found
  split at found
  next own =>
    obtain ⟨same, here⟩ := Option.isSome_iff_exists.mp own
    rw [ownRow_eq_some, found] at here
    rw [Option.some_inj.mp here.1, here.2] at other
    cases other
  next => cases found

theorem Separate.alone {call : Call V} (separate : Separate account first call) (agree : Agree account first second)
    (alone : ∀ label, ¬ Foreign account second.store label) : Separate account second call := by
  cases call with
  | upsert => exact fun _ _ _ _ _ _ _ => alone _
  | upsertMany => exact fun _ _ _ _ _ _ _ => alone _
  | update data =>
    intro payload done
    obtain ⟨notForeign, own⟩ := separate payload done
    refine ⟨alone _, fun found here => own found ?_⟩
    rw [← ownRow_of_not_foreign notForeign, agree.rows, ownRow_of_not_foreign (alone _), here]
  | _ => exact separate

theorem AllSeparate.alone (bound : account ≠ []) {calls : List (Call V)} (separate : AllSeparate account recursionLimit calls first)
    (agree : Agree account first second) (alone : ∀ label, ¬ Foreign account second.store label) :
    AllSeparate account recursionLimit calls second := by
  induction calls generalizing first second with
  | nil => trivial
  | cons call rest ih =>
    have here := separate.1.alone agree alone
    have twins := @Twins.perform V _ engine account recursionLimit second first bound agree.symm call here separate.1
    exact ⟨here, ih separate.2 twins.agree.symm fun label => twins.confined.notForeign (alone label)⟩

namespace Small

def shared : World noteEngine.label where
  store := noteStore [noteRow "a" "globex", noteRow "b" "acme"]
  vectors _ := []
  uuids _ := []

def glances : List (Call Plain) := [.get [text "a"], .count none, .delete [text "a"]]

theorem glances_separate : AllSeparate "acme" 1000 glances shared := by
  have read : noteEngine.reading (compileFilter (boundFilter "acme" none)) ≠ .unfiltered := by
    simp [boundFilter, compile_account, noteEngine, readable]
  simpa [glances, AllSeparate, Separate] using read

def taken : Record Plain := ((∅ : Record Plain).insert idField (text "a")).insert "vector" (.list [.other (.number 1)])

end Small

end LoginomDock.Tenancy
