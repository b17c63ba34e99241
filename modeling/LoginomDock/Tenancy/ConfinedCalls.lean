import LoginomDock.Tenancy.SharedCollection

/-! A program is run twice, in worlds that agree on the rows of the account. -/

namespace LoginomDock.Tenancy

open Filters List AList Prog

variable {V : Type} [DecidableEq V] {engine : Engine V} {account : Text} {α β : Type}

structure Twins (account : Text) (first second : World engine.label) (program : Backend V α) : Prop where
  returns : (Prog.exec (answerCall engine) program first).1 = (Prog.exec (answerCall engine) program second).1
  agree : Agree account (Prog.exec (answerCall engine) program first).2 (Prog.exec (answerCall engine) program second).2
  confined : Confined account first.store (Prog.exec (answerCall engine) program first).2.store

namespace Twins

variable {first second : World engine.label}

section

variable (agree : Agree account first second)

include agree

theorem value (answer : Except Failure α) : Twins account first second (attempt answer) :=
  ⟨rfl, agree, .refl _⟩

theorem pure (value : α) : Twins account first second (Pure.pure value) := ⟨rfl, agree, .refl _⟩

theorem throw (failed : Failure) : Twins account first second (throw failed : Backend V α) :=
  ⟨rfl, agree, .refl _⟩

end

variable {program : Backend V α}

theorem ended (twins : Twins account first second program) : ∃ result after other,
    Prog.exec (answerCall engine) program first = (result, after) ∧ Prog.exec (answerCall engine) program second = (result, other) ∧
      Agree account after other ∧ Confined account first.store after.store :=
  ⟨_, _, (Prog.exec (answerCall engine) program second).2, rfl, Prod.ext twins.returns.symm rfl, twins.agree, twins.confined⟩

-- Both runs go on as those of another program.
theorem continued {program rest : Backend V α} {after other : World engine.label} (confined : Confined account first.store after.store)
    (later : Twins account after other rest)
    (here : Prog.exec (answerCall engine) program first = Prog.exec (answerCall engine) rest after)
    (there : Prog.exec (answerCall engine) program second = Prog.exec (answerCall engine) rest other) :
    Twins account first second program := by
  refine ⟨?_, ?_, ?_⟩
  · rw [here, there]
    exact later.returns
  · rw [here, there]
    exact later.agree
  · rw [here]
    exact confined.trans later.confined

variable {next : α → Backend V β}

theorem bind (twins : Twins account first second program)
    (rest : ∀ value after other, Prog.exec (answerCall engine) program first = (.ok value, after) →
      Prog.exec (answerCall engine) program second = (.ok value, other) → Agree account after other → Twins account after other (next value)) :
    Twins account first second (program >>= next) := by
  obtain ⟨result, after, other, here, there, agree, confined⟩ := twins.ended
  cases result with
  | error failed => exact continued confined (throw agree failed) (exec_bind_error _ here) (exec_bind_error _ there)
  | ok value =>
    exact continued confined (rest value after other here there agree) (exec_bind_ok _ here) (exec_bind_ok _ there)

theorem andThen (twins : Twins account first second program)
    (rest : ∀ value (after other : World engine.label), Agree account after other → Twins account after other (next value)) : Twins account first second (program >>= next) :=
  twins.bind fun value after other _ _ agree => rest value after other agree

theorem tryCatch {program : Backend V α} {handler : Failure → Backend V α} (twins : Twins account first second program)
    (handles : ∀ failed (after other : World engine.label), Agree account after other → Twins account after other (handler failed)) :
    Twins account first second (tryCatch program handler) := by
  obtain ⟨result, after, other, here, there, agree, confined⟩ := twins.ended
  cases result with
  | ok value =>
    refine continued confined (pure agree value) ?_ ?_
    · rw [exec_tryCatch, here]
      rfl
    · rw [exec_tryCatch, there]
      rfl
  | error failed =>
    refine continued confined (handles failed after other agree) ?_ ?_
    · rw [exec_tryCatch, here]
    · rw [exec_tryCatch, there]

end Twins

section Adapter

variable {first second : World engine.label} (agree : Agree account first second)

include agree

theorem Twins.callUuid : Twins account first second (callUuid : Backend V Text) := by
  refine ⟨?_, ?_, .refl _⟩
  · rw [exec_callUuid, exec_callUuid, agree.uuids]
  · exact ⟨agree.rows, agree.vectors, by rw [exec_callUuid, exec_callUuid, agree.uuids]⟩

theorem Twins.getStrict (ids : List (FieldValue V)) : Twins account first second (getStrict account ids) := by
  refine ⟨?_, agree, .refl _⟩
  rw [exec_getStrict, exec_getStrict, ownRecords_eq, ownRecords_eq]
  simp only [agree.rows]

section

variable (bound : account ≠ []) (filter : Option (FilterExpr V))
  (read : engine.reading (compileFilter (boundFilter account filter)) ≠ .unfiltered)

include bound filter read

theorem Twins.callQuery (request : Query V) :
    Twins account first second (callQuery { request with filter := boundFilter account filter }) := by
  refine ⟨?_, ?_, ?_⟩
  · rw [exec_callQuery, exec_callQuery, queryRecords_eq agree.rows bound filter read, agree.vectors]
  · rw [exec_callQuery, exec_callQuery]
    by_cases random : Query.draws { request with filter := boundFilter account filter } = true
    · rw [if_pos random, if_pos random]
      exact agree.drawn
    · rw [if_neg random, if_neg random]
      exact agree
  · rw [ReadsOnly.callQuery]
    exact .refl _

theorem Twins.callCount :
    Twins account first second (callCount (boundFilter account filter)) := by
  refine ⟨?_, agree, .refl _⟩
  rw [exec_callCount, exec_callCount, countRecords_eq agree.rows bound filter read]

end

theorem Twins.callDelete {ids : List (FieldValue V)} (own : ∀ id ∈ ids, ∃ row, ownRow account first.store (engine.label id) = some row) :
    Twins account first second (callDelete ids) := by
  refine ⟨rfl, ⟨fun label => ?_, agree.vectors, agree.uuids⟩, fun label => ?_⟩
  · rw [exec_callDelete, exec_callDelete, ownRow, ownRow, lookup_deleteData, lookup_deleteData]
    split
    · rfl
    · exact agree.rows label
  · rw [exec_callDelete, lookup_deleteData]
    split
    case isFalse => exact .inl rfl
    case isTrue inside =>
      obtain ⟨id, member, rfl⟩ := mem_map.mp inside
      obtain ⟨row, found⟩ := own id member
      refine .inr ⟨?_, by simp⟩
      rintro ⟨other, there, foreign⟩
      rw [ownRow_eq_some, there] at found
      rw [Option.some_inj.mp found.1, found.2] at foreign
      cases foreign

theorem Agree.puts {rows : List (Row V)} (own : ∀ row ∈ rows, isOwn account row.record = true)
    (spares : ∀ row ∈ rows, ¬ Foreign account first.store (engine.label row.record.id)) :
    Agree account { first with store := rows.foldl Store.put first.store } { second with store := rows.foldl Store.put second.store } ∧
      Confined account first.store (rows.foldl Store.put first.store) := by
  refine ⟨⟨fun label => ?_, agree.vectors, agree.uuids⟩, fun label => ?_⟩
  · rcases @lookup_puts V engine rows label with ⟨row, _, _, found⟩ | ⟨_, kept⟩
    · rw [ownRow, ownRow, found, found]
    · rw [ownRow, ownRow, kept, kept]
      exact agree.rows label
  · rcases @lookup_puts V engine rows label with ⟨row, member, here, found⟩ | ⟨_, kept⟩
    · refine .inr ⟨here ▸ spares row member, fun other there => ?_⟩
      rw [found] at there
      exact Option.some_inj.mp there ▸ own row member
    · exact .inl (kept _)

end Adapter

def Spares (account : Text) (store : Store engine.label) (records : List (Record V)) : Prop :=
  ∀ rows, (records.map normalizeForWrite).mapM (validateAndProcess engine) = .ok rows →
    ∀ row ∈ rows, ¬ Foreign account store (engine.label row.record.id)

omit [DecidableEq V] in
theorem lookup_validated {data : Record V} {row : Row V} (valid : validateAndProcess engine data = .ok row) {name : Text}
    (isString : (name, FieldType.string) ∈ contextFields) {value : FieldValue V} (found : data.lookup name = some value) :
    row.record.lookup name = some value := by
  unfold validateAndProcess at valid
  split at valid
  case isFalse => cases valid
  case isTrue =>
    split at valid
    next record done =>
      cases valid
      obtain ⟨result, given, there⟩ := (lookup_processed engine (by decide) done).1 _ isString
      rw [processedValue, found] at given
      rw [there, (engine.convert_string _ _ given).1]
    next => cases valid

theorem own_of_validated {records : List (Record V)} (bound : ∀ record ∈ records, record.lookup accountField = some (text account))
    {rows : List (Row V)} (valid : (records.map normalizeForWrite).mapM (validateAndProcess engine) = .ok rows) :
    ∀ row ∈ rows, isOwn account row.record = true := by
  intro row member
  obtain ⟨data, among, here⟩ := exists_source_of_mapM_ok valid member
  obtain ⟨record, inside, rfl⟩ := mem_map.mp among
  have found := @lookup_validated V engine _ _ here accountField (by decide) _ ((lookup_onUris encodeUri record (by decide)).trans (bound record inside))
  rw [isOwn, Record.field, found]
  simp

theorem Twins.callUpsert {first second : World engine.label} (agree : Agree account first second) {records : List (Record V)}
    (bound : ∀ record ∈ records, record.lookup accountField = some (text account)) (spares : Spares account first.store records) :
    Twins account first second (callUpsert records) := by
  have outcome (world : World engine.label) : world.written (upsertRecords world.store records) =
      match (records.map normalizeForWrite).mapM (validateAndProcess engine) with
      | .ok rows => (.ok (records.map fun record => record.field idField), { world with store := rows.foldl Store.put world.store })
      | .error failed => (.error failed, world) := by
    rw [upsertRecords, upsertData]
    cases (records.map normalizeForWrite).mapM (validateAndProcess engine) <;> rfl
  cases valid : (records.map normalizeForWrite).mapM (validateAndProcess engine) with
  | error failed =>
    rw [valid] at outcome
    refine ⟨?_, ?_, ?_⟩
    · rw [exec_callUpsert, exec_callUpsert, outcome, outcome]
    · rw [exec_callUpsert, exec_callUpsert, outcome, outcome]
      exact agree
    · rw [exec_callUpsert, outcome]
      exact .refl _
  | ok rows =>
    rw [valid] at outcome
    have put := agree.puts (own_of_validated bound valid) (spares rows valid)
    refine ⟨?_, ?_, ?_⟩
    · rw [exec_callUpsert, exec_callUpsert, outcome, outcome]
    · rw [exec_callUpsert, exec_callUpsert, outcome, outcome]
      exact put.1
    · rw [exec_callUpsert, outcome]
      exact put.2

theorem lookup_prepareUpsertPayload {data : Record V} {name : Text} (known : name ∈ fieldNames) (other : name ≠ "content".toList)
    {value : FieldValue V} (found : data.lookup name = some value) (given : value ≠ null) :
    (prepareUpsertPayload data).lookup name = some value := by
  have filled (fields : List (Text × FieldType)) (row : Record V) (found : row.lookup name = some value) :
      (fields.foldl (fun (row : Record V) (field : Text × FieldType) =>
        if field.2 = .text ∧ field.1 ∉ row then row.insert field.1 (text []) else row) row).lookup name =
        some value := by
    induction fields generalizing row with
    | nil => exact found
    | cons field rest ih =>
      refine ih _ ?_
      obtain ⟨field, type⟩ := field
      dsimp only
      split
      case isFalse => exact found
      case isTrue missing =>
        rw [lookup_insert_ne, found]
        intro same
        exact missing.2 (same ▸ lookup_isSome.mp (by rw [found]; rfl))
  have field : data.field name = value := by rw [Record.field, found, Option.getD_some]
  rw [prepareUpsertPayload, AList.lookup_erase_ne other]
  apply filled
  rw [Table.lookup_retain, if_pos (by simpa using known), Record.given, Table.lookup_retain, if_pos (by simpa [field] using given), found]

theorem lookup_given {data : Record V} {name : Text} {value : FieldValue V} (found : data.lookup name = some value) (given : value ≠ null) :
    data.given.lookup name = some value := by
  have field : data.field name = value := by rw [Record.field, found, Option.getD_some]
  rw [Record.given, Table.lookup_retain, if_pos (by simpa [field] using given), found]

omit [DecidableEq V] in
theorem text_ne_null (content : Text) : (text content : FieldValue V) ≠ null := by simp [text, null]

variable {python : Python V} {data payload : Record V}

theorem bindAccount_account (bound : account ≠ []) (done : bindAccount python account data = .ok payload) :
    payload.lookup accountField = some (text account) := by
  unfold bindAccount at done
  rw [if_neg bound] at done
  split at done
  · cases done
  · cases done
    exact lookup_insert _

theorem mergedPayload_account {options : UpsertOptions} {payload : Record V}
    (bound : payload.lookup accountField = some (text account)) {existing : List (Record V)} {merged : Record V}
    (done : mergedPayload python options payload existing = .ok merged) : merged.lookup accountField = some (text account) := by
  cases existing with
  | nil => cases done; exact bound
  | cons first rest =>
    obtain ⟨tags, -, later⟩ := bind_ok_iff.mp done
    cases later
    have kept : lookup accountField (payload.insert "search_tags".toList tags) = some (text account) := by
      rw [lookup_insert_ne (by decide), bound]
    rw [lookup_union_left (lookup_isSome.mp (by rw [lookup_given kept (text_ne_null _)]; rfl)), lookup_given kept (text_ne_null _)]

section Programs

variable {first second : World engine.label}

theorem readsOnly_bindUpsertPayload (data : Record V) : ReadsOnly engine (bindUpsertPayload engine.python account data) := by
  refine .bind (.attempt _) fun payload => .bind (.attempt _) fun _ => ?_
  split
  · exact .pure _
  · exact .bind .callUuid fun _ => .pure _

theorem readsOnly_completePayload (options : UpsertOptions) (payload : Record V) :
    ReadsOnly engine (completePayload engine.python account options payload) := by
  unfold completePayload
  split
  · exact .bind (.callGet _) fun _ => .attempt _
  · exact .pure _

theorem Twins.bindUpsertPayload (agree : Agree account first second) (data : Record V) :
    Twins account first second (bindUpsertPayload engine.python account data) := by
  refine (value agree _).andThen fun payload after other agree => (value agree _).andThen fun _ after other agree => ?_
  split
  · exact pure agree _
  · exact (callUuid agree).andThen fun _ _ _ agree => pure agree _

variable {world after : World engine.label}

theorem bindUpsertPayload_account (bound : account ≠ [])
    (done : Prog.exec (answerCall engine) (bindUpsertPayload engine.python account data) world = (.ok payload, after)) :
    payload.lookup accountField = some (text account) := by
  rw [Tenancy.bindUpsertPayload, exec_bind, exec_attempt] at done
  cases owned : bindAccount engine.python account data with
  | error failed => rw [owned] at done; cases done
  | ok own =>
    have holds := bindAccount_account bound owned
    rw [owned] at done
    dsimp only at done
    rw [exec_bind, exec_attempt] at done
    cases checked : checkContextType engine.python own with
    | error failed => rw [checked] at done; cases done
    | ok =>
      rw [checked] at done
      dsimp only at done
      split at done
      · cases done
        exact holds
      · rw [exec_bind_ok _ (exec_callUuid world)] at done
        cases done
        rw [lookup_insert_ne (by decide), holds]

theorem Twins.completePayload (agree : Agree account first second) (options : UpsertOptions) (payload : Record V) :
    Twins account first second (completePayload engine.python account options payload) := by
  unfold Tenancy.completePayload
  split
  · have got : Twins account first second (callGet [payload.field idField] >>= fun records =>
        attempt (mergedPayload engine.python options payload (records.filter (isOwn account)))) := by
      have answered (world : World engine.label) : Prog.exec (answerCall engine) (callGet [payload.field idField] >>= fun records =>
          attempt (mergedPayload engine.python options payload (records.filter (isOwn account)))) world =
          (mergedPayload engine.python options payload ((getRecords world.store [payload.field idField]).filter (isOwn account)), world) := by
        rw [exec_bind_ok _ (exec_callGet world _), exec_attempt]
      refine ⟨?_, ?_, ?_⟩
      · rw [answered, answered, ownRecords_eq, ownRecords_eq]
        simp only [agree.rows]
      · rw [answered, answered]
        exact agree
      · rw [answered]
        exact .refl _
    exact got
  · exact pure agree _

theorem completePayload_account {options : UpsertOptions} {payload complete : Record V}
    (bound : payload.lookup accountField = some (text account))
    (done : Prog.exec (answerCall engine) (completePayload engine.python account options payload) world = (.ok complete, after)) :
    complete.lookup accountField = some (text account) := by
  unfold Tenancy.completePayload at done
  split at done
  · rw [partialPayload, exec_bind_ok _ (exec_callGet world _), exec_attempt] at done
    exact mergedPayload_account bound (Prod.ext_iff.mp done).1
  · cases done
    exact bound

def upsertedPayload (python : Python V) (account : Text) (options : UpsertOptions) (data : Record V) : Backend V (Record V) := do
  let payload ← bindUpsertPayload python account data
  completePayload python account options payload

theorem Twins.lifted {program : Backend V α} (twins : Twins account first second program) :
    Twins account first second (ExceptT.lift program.run : Backend V (Except Failure α)) := by
  refine ⟨?_, ?_, ?_⟩
  · rw [Prog.exec_lift, Prog.exec_lift]
    exact congrArg Except.ok twins.returns
  · rw [Prog.exec_lift, Prog.exec_lift]
    exact twins.agree
  · rw [Prog.exec_lift]
    exact twins.confined

theorem prepared_account {payload : Record V} (holds : payload.lookup accountField = some (text account)) :
    (prepareUpsertPayload payload).lookup accountField = some (text account) :=
  lookup_prepareUpsertPayload (by decide) (by decide) holds (text_ne_null _)

theorem Twins.upsert (bound : account ≠ []) (agree : Agree account first second) (options : UpsertOptions) (data : Record V)
    (spares : ∀ payload after, Prog.exec (answerCall engine) (upsertedPayload engine.python account options data) first = (.ok payload, after) →
      Spares account first.store [prepareUpsertPayload payload]) :
    Twins account first second (upsert engine.python account options data) := by
  refine (bindUpsertPayload agree data).lifted.bind fun result after other here _ agree => ?_
  cases result with
  | error failed => exact pure agree _
  | ok payload =>
    have done : Prog.exec (answerCall engine) (Tenancy.bindUpsertPayload engine.python account data) first = (.ok payload, after) := by
      rw [Prog.exec_lift] at here
      exact Prod.ext (Except.ok.inj (Prod.ext_iff.mp here).1) (Prod.ext_iff.mp here).2
    refine (completePayload agree options payload).bind fun complete later another completed _ agree => ?_
    have holds := completePayload_account (bindUpsertPayload_account bound done) completed
    have same : later.store = first.store := by
      have before := @readsOnly_bindUpsertPayload V _ engine account data first
      have between := @readsOnly_completePayload V _ engine account options payload after
      rw [done] at before
      rw [completed] at between
      exact between.trans before
    have spared := spares complete later (by rw [upsertedPayload, exec_bind_ok _ done, completed])
    refine (callUpsert agree (by simpa using prepared_account holds) (same ▸ spared)).andThen fun answer _ _ agree => ?_
    exact (value agree answer).andThen fun _ _ _ agree => pure agree _

end Programs

section Batches

variable {first second : World engine.label}

theorem readsOnly_bindBatch (index : Nat) (dataList : List (Record V)) (seenIds : List Text) :
    ReadsOnly engine (bindBatch engine.python account index dataList seenIds) := by
  induction dataList generalizing index seenIds with
  | nil => exact .pure _
  | cons data rest ih =>
    rw [bindBatch]
    refine .bind ?_ fun payload => ?_
    · exact fun world => by rw [exec_adapt]; exact readsOnly_bindUpsertPayload data world
    · dsimp only
      split
      · exact .throw _
      · exact .bind (ih _ _) fun _ => .pure _

theorem Twins.adapted {program : Backend V α} (twins : Twins account first second program) (change : Failure → Failure) :
    Twins account first second (program.adapt change) := by
  refine ⟨?_, ?_, ?_⟩
  · rw [exec_adapt, exec_adapt, twins.returns]
  · rw [exec_adapt, exec_adapt]
    exact twins.agree
  · rw [exec_adapt]
    exact twins.confined

theorem Twins.bindBatch (agree : Agree account first second) (index : Nat) (dataList : List (Record V)) (seenIds : List Text) :
    Twins account first second (bindBatch engine.python account index dataList seenIds) := by
  induction dataList generalizing index seenIds first second with
  | nil => exact pure agree _
  | cons data rest ih =>
    rw [Tenancy.bindBatch]
    refine ((bindUpsertPayload agree data).adapted _).andThen fun payload after other agree => ?_
    dsimp only
    split
    · exact throw agree _
    · exact (ih agree _ _).andThen fun _ _ _ agree => pure agree _

theorem bindBatch_account (bound : account ≠ []) {index : Nat} {dataList payloads : List (Record V)} {seenIds : List Text}
    {world after : World engine.label}
    (done : Prog.exec (answerCall engine) (Tenancy.bindBatch engine.python account index dataList seenIds) world = (.ok payloads, after)) :
    ∀ payload ∈ payloads, payload.lookup accountField = some (text account) := by
  induction dataList generalizing index seenIds world after payloads with
  | nil => cases done; simp
  | cons data rest ih =>
    rw [Tenancy.bindBatch, exec_bind, exec_adapt] at done
    generalize here : Prog.exec (answerCall engine) (Tenancy.bindUpsertPayload engine.python account data) world = ended at done
    obtain ⟨failed | payload, between⟩ := ended
    · cases done
    dsimp only [Except.mapError] at done
    split at done
    · cases done
    · rw [exec_bind] at done
      generalize later : Prog.exec (answerCall engine) (Tenancy.bindBatch engine.python account (index + 1) rest
        (engine.python.str (payload.field idField) :: seenIds)) between = ended at done
      obtain ⟨failed | others, last⟩ := ended
      · cases done
      cases done
      intro other member
      rcases mem_cons.mp member with rfl | inside
      · exact bindUpsertPayload_account bound here
      · exact ih later other inside

theorem Twins.upsertMany (bound : account ≠ []) (agree : Agree account first second) (dataList : List (Record V))
    (spares : ∀ payloads after, Prog.exec (answerCall engine) (Tenancy.bindBatch engine.python account 0 dataList []) first = (.ok payloads, after) →
      Spares account first.store (payloads.map prepareUpsertPayload)) :
    Twins account first second (upsertMany engine.python account dataList) := by
  unfold Tenancy.upsertMany
  split
  · exact pure agree _
  · refine (bindBatch agree 0 dataList []).bind fun payloads after other done _ agree => ?_
    have same : after.store = first.store := by
      have reads := @readsOnly_bindBatch V _ engine account 0 dataList [] first
      rw [done] at reads
      exact reads
    have own : ∀ record ∈ payloads.map prepareUpsertPayload, record.lookup accountField = some (text account) := by
      intro record member
      obtain ⟨payload, inside, rfl⟩ := mem_map.mp member
      exact prepared_account (bindBatch_account bound done payload inside)
    refine (callUpsert agree own (same ▸ spares payloads after done)).andThen fun answer _ _ agree => ?_
    exact (value agree answer).andThen fun _ _ _ agree => value agree _

end Batches

def UpdatesOwn (account : Text) (store : Store engine.label) (payload : Record V) : Prop :=
  ¬ Foreign account store (engine.label (payload.field idField)) ∧
    ∀ found, store.rows.lookup (engine.label (payload.field idField)) = some found →
      ∀ row, validateAndProcess engine (payload ∪ fixFieldsData engine found) = .ok row → row.record.field accountField = text account

omit [DecidableEq V] in
theorem lookup_of_truthy {record : Record V} {name : Text} (filled : truthy python (record.field name) = true) :
    record.lookup name = some (record.field name) ∧ record.field name ≠ null := by
  unfold Record.field at filled ⊢
  cases found : record.lookup name with
  | none => rw [found] at filled; cases filled
  | some value =>
    rw [found] at filled
    refine ⟨rfl, fun absent => ?_⟩
    rw [Option.getD_some] at filled absent
    rw [absent] at filled
    cases filled

theorem updatePayload_id (done : updatePayload python account data = .ok payload) :
    payload.lookup idField = some (payload.field idField) := by
  unfold updatePayload at done
  dsimp only at done
  by_cases empty : truthy python ((filledAccount python account data).field idField) = false
  · rw [if_pos empty] at done
    cases done
  · rw [if_neg empty] at done
    obtain ⟨-, -, rest⟩ := bind_ok_iff.mp done
    cases rest
    obtain ⟨found, given⟩ := lookup_of_truthy (by simpa using empty)
    have kept := lookup_prepareUpsertPayload (by decide) (by decide) found given
    have same : (prepareUpsertPayload (filledAccount python account data)).field idField = (filledAccount python account data).field idField := by
      rw [Record.field, kept, Option.getD_some]
    rw [same, kept]

omit [DecidableEq V] in
theorem updateData_one (store : Store engine.label) (payload : Record V) : updateData store [payload] =
    match store.rows.lookup (engine.label (payload.field idField)) with
    | none => .error (notFound engine.python [payload.field idField])
    | some found =>
      match validateAndProcess engine (payload ∪ fixFieldsData engine found) with
      | .ok row => .ok ([row.record.id], store.put row)
      | .error failed => .error failed := by
  unfold updateData
  cases found : store.rows.lookup (engine.label (payload.field idField)) with
  | none => simp [found]
  | some row =>
    simp only [map_cons, map_nil, found, Option.isNone_some, filter_cons_of_neg, Bool.false_eq_true, not_false_eq_true,
      filter_nil, ne_eq, not_true_eq_false, if_false, Option.map_some, Option.getD_some, upsertData]
    rw [mapM_cons, mapM_nil]
    cases validateAndProcess engine (payload ∪ fixFieldsData engine row) <;> rfl

section

variable {first second : World engine.label} (agree : Agree account first second)

include agree

theorem Twins.callUpdateData {payload : Record V}
    (named : payload.lookup idField = some (payload.field idField)) (own : UpdatesOwn account first.store payload)
    (notForeign : ¬ Foreign account second.store (engine.label (payload.field idField))) : Twins account first second (callUpdateData [payload]) := by
  have same := agree.rows (engine.label (payload.field idField))
  rw [ownRow_of_not_foreign own.1, ownRow_of_not_foreign notForeign] at same
  -- both worlds find the same record, and write the same row over it
  cases found : first.store.rows.lookup (engine.label (payload.field idField)) with
  | none =>
    have refused (world : World engine.label) (missing : world.store.rows.lookup (engine.label (payload.field idField)) = none) :
        world.written (updateData world.store [payload]) = (.error (notFound engine.python [payload.field idField]), world) := by
      rw [updateData_one, missing]
      rfl
    refine ⟨?_, ?_, ?_⟩
    · rw [exec_callUpdateData, exec_callUpdateData, refused first found, refused second (same ▸ found)]
    · rw [exec_callUpdateData, exec_callUpdateData, refused first found, refused second (same ▸ found)]
      exact agree
    · rw [exec_callUpdateData, refused first found]
      exact .refl _
  | some existing =>
    have there : second.store.rows.lookup (engine.label (payload.field idField)) = some existing := same ▸ found
    cases valid : validateAndProcess engine (payload ∪ fixFieldsData engine existing) with
    | error failed =>
      have refused (world : World engine.label) (here : world.store.rows.lookup (engine.label (payload.field idField)) = some existing) :
          world.written (updateData world.store [payload]) = (.error failed, world) := by
        rw [updateData_one, here]
        dsimp only
        rw [valid]
        rfl
      refine ⟨?_, ?_, ?_⟩
      · rw [exec_callUpdateData, exec_callUpdateData, refused first found, refused second there]
      · rw [exec_callUpdateData, exec_callUpdateData, refused first found, refused second there]
        exact agree
      · rw [exec_callUpdateData, refused first found]
        exact .refl _
    | ok row =>
      have written (world : World engine.label) (here : world.store.rows.lookup (engine.label (payload.field idField)) = some existing) :
          world.written (updateData world.store [payload]) = (.ok [row.record.id], { world with store := [row].foldl Store.put world.store }) := by
        rw [updateData_one, here]
        dsimp only
        rw [valid]
        rfl
      have union : lookup idField (payload ∪ fixFieldsData engine existing) = some (payload.field idField) := by
        rw [lookup_union_left (lookup_isSome.mp (by rw [named]; rfl)), named]
      have id : row.record.id = payload.field idField := by
        rw [Record.id, @lookup_validated V engine _ _ valid idField (by decide) _ union, Option.getD_some]
      have put := @Agree.puts V _ engine account first second agree [row] (by simpa [isOwn] using .inr (own.2 existing found row valid))
        (by simpa [id] using own.1)
      refine ⟨?_, ?_, ?_⟩
      · rw [exec_callUpdateData, exec_callUpdateData, written first found, written second there]
      · rw [exec_callUpdateData, exec_callUpdateData, written first found, written second there]
        exact put.1
      · rw [exec_callUpdateData, written first found]
        exact put.2

theorem Twins.update (data : Record V)
    (own : ∀ payload, updatePayload engine.python account data = .ok payload → UpdatesOwn account first.store payload ∧
      ¬ Foreign account second.store (engine.label (payload.field idField))) :
    Twins account first second (update engine.python account data) := by
  refine tryCatch ?_ fun _ _ _ agree => pure agree _
  refine (value agree _).bind fun payload after other here there agree => ?_
  obtain ⟨done, rfl⟩ := Prod.ext_iff.mp here
  obtain ⟨-, rfl⟩ := Prod.ext_iff.mp there
  obtain ⟨updates, notForeign⟩ := own payload done
  refine (callUpdateData agree (updatePayload_id done) updates notForeign).andThen fun answer _ _ agree => ?_
  exact (value agree answer).andThen fun _ _ _ agree => pure agree _

end

section Reading

variable {first second : World engine.label} (bound : account ≠ [])

include bound

section

variable (agree : Agree account first second)

include agree

theorem Twins.delete (ids : List (FieldValue V)) :
    Twins account first second (delete engine.python account ids) := by
  unfold Tenancy.delete
  rw [if_neg bound]
  refine (getStrict agree ids).bind fun records after other here _ agree => callDelete agree fun id member => ?_
  rw [exec_getStrict] at here
  obtain ⟨same, rfl⟩ := Prod.ext_iff.mp here
  obtain ⟨record, got, rfl⟩ := mem_map.mp (mem_filter.mp member).1
  exact ownRow_of_got (Except.ok.inj same ▸ got)

section

variable (filter : Option (FilterExpr V)) (read : engine.reading (compileFilter (boundFilter account filter)) ≠ .unfiltered)

include filter read

theorem Twins.query (request : Query V) :
    Twins account first second (query account filter request) := by
  refine (callQuery agree bound filter read request).andThen fun answer _ _ agree => ?_
  cases answer with
  | ok records => exact pure agree _
  | error failed => exact pure agree _

theorem Twins.scroll (limit : Nat) (cursor : Option Text)
    (outputFields : List Text) : Twins account first second (scroll engine.python account filter limit cursor outputFields) := by
  refine (value agree _).andThen fun offset _ _ agree => ?_
  refine (callQuery agree bound filter read { limit, offset, outputFields }).andThen fun answer _ _ agree => ?_
  exact (value agree answer).andThen fun _ _ _ agree => pure agree _

end

theorem Twins.filterRecords {filter : FilterExpr V} (read : engine.reading (compileFilter filter) = .filtered)
    (limit : Nat) (outputFields : List Text) : Twins account first second (filterRecords account filter limit outputFields) :=
  query bound agree (some filter) (by rw [reading_boundFilter bound read]; simp) _

end

theorem Twins.removeChildren {depth : Nat} (below : ∀ (parentUri : Text) {first second : World engine.label},
      Agree account first second → Twins account first second (removeDescendants engine.python account depth parentUri))
    (children : List (Record V)) {first second : World engine.label} (agree : Agree account first second) :
    Twins account first second (removeChildren engine.python account depth children) := by
  induction children generalizing first second with
  | nil => rw [Tenancy.removeChildren]; exact pure agree _
  | cons child rest ih =>
    rw [Tenancy.removeChildren]
    refine Twins.andThen ?_ fun removed _ _ agree => Twins.andThen ?_ fun own _ _ agree =>
      (ih agree).andThen fun _ _ _ agree => pure agree _
    · split
      · exact below _ agree
      · exact pure agree _
    · split
      · exact (delete bound agree _).andThen fun _ _ _ agree => pure agree _
      · exact pure agree _

theorem Twins.removeDescendants (depth : Nat) (parentUri : Text) {first second : World engine.label} (agree : Agree account first second) :
    Twins account first second (removeDescendants engine.python account depth parentUri) := by
  induction depth generalizing parentUri first second with
  | zero => rw [Tenancy.removeDescendants]; exact throw agree _
  | succ depth ih =>
    rw [Tenancy.removeDescendants]
    refine (filterRecords bound agree ?_ _ _).andThen fun children _ _ agree => removeChildren bound ih children agree
    rw [compileFilter, encodeConds, if_pos (by decide), map_cons, map_nil, encodeUriFieldValue]
    exact engine.reading_must _ _ _

end Reading

end LoginomDock.Tenancy
