import LoginomDock.Access.CreatorGrants

namespace LoginomDock.Access

open AclManager List

variable {store : ContextStore} {direct : List Text → DirectAcl}

namespace AclManager

def updateUriMapping (store : ContextStore) (uri newUri : Text) (chosen : List Text) (newId : Text → Text) : Except AclError ContextStore := do
  let records := store.filter fun record => record.uri = uri ∧ record.id ∈ chosen
  let updated ← records.mapM fun record => do
    let fields ← materializeMovedRecord store record newUri
    .ok (fields.setFields { record with id := newId record.id, uri := newUri })
  let deleted := (records.filter fun record => newId record.id ≠ record.id).map ContextRecord.id
  .ok ((store.upsertMany updated).filter fun record => record.id ∉ deleted)

end AclManager

structure Move where
  uri : Text
  newUri : Text
  chosen : List Text
  newId : Text → Text

namespace Move

variable (move : Move)

def records (store : ContextStore) : List ContextRecord := store.filter fun record => record.uri = move.uri ∧ record.id ∈ move.chosen

def rest (store : ContextStore) : List ContextRecord :=
  store.filter fun record => record ∉ move.records store ∧ record.id ∉ (move.records store).map fun moved => move.newId moved.id

def given (store : ContextStore) (direct : List Text → DirectAcl) (parts : List Text) : DirectAcl :=
  if move.records store ≠ [] ∧ canonical parts = move.newUri then
    if (normalizedUri move.uri).head? = some "resources".toList then direct (normalizedUri move.uri) else .empty
  else if Indexed (move.rest store) parts then direct parts
  else .empty

structure WellPlaced (store : ContextStore) : Prop where
  shape : ∃ parts, Plain parts ∧ move.newUri = canonical parts
  ids : ((move.records store).map fun moved => move.newId moved.id).Nodup
  places : ∀ old ∈ store, ∀ moved ∈ move.records store, old.id = move.newId moved.id → old.uri = move.newUri
  stays : move.uri = move.newUri → ∀ id, move.newId id = id

structure GrantsFit (store : ContextStore) (direct : List Text → DirectAcl) : Prop where
  alike : ∀ parts, Resource parts → canonical parts = move.newUri → Indexed (move.rest store) parts →
    move.given store direct parts = direct parts
  above : ∀ parts, Resource parts → Indexed (move.rest store) parts →
    reference (move.given store direct) parts.dropLast = reference direct parts.dropLast
  arrived : ∀ parts, Resource parts → canonical parts = move.newUri → move.records store ≠ [] →
    reference (move.given store direct) parts.dropLast = reference direct parts.dropLast

end Move

theorem Sound.materializeMovedRecord (sound : Sound store direct) {record : ContextRecord} (member : record ∈ store) {parts : List Text}
    (resource : Resource parts) :
    AclManager.materializeMovedRecord store record (canonical parts) = .ok (.of
      (if (normalizedUri record.uri).head? = some "resources".toList then direct (normalizedUri record.uri) else .empty)
      (inheritedAcl direct parts)) := by
  obtain ⟨own, plain, shape⟩ := sound.shape record member
  obtain ⟨base, permitted, ranks⟩ := sound.basePermissions resource
  obtain rfl : base = inheritedAcl direct parts := Ranked.ext_ranks (by rw [ranks, ranks_inheritedAcl])
  rw [AclManager.materializeMovedRecord, isAclUri_canonical resource.plain, ok_bind, decide_eq_true resource.scope]
  dsimp only
  rw [if_neg (by decide), aclAncestors_canonical resource, ok_bind, permitted, ok_bind, shape, isAclUri_canonical plain, ok_bind,
    normalizedUri_canonical plain]
  by_cases scope : own.head? = some "resources".toList
  · have fields := sound.fields record member own ⟨plain, scope⟩ shape
    rw [if_pos scope, if_pos (decide_eq_true scope), fields.direct, fromContextFields_encode]
    rfl
  · rw [if_neg scope, decide_eq_false scope, if_neg (by decide)]
    rfl

namespace Move

variable {move : Move}

theorem mem_records {record : ContextRecord} :
    record ∈ move.records store ↔ record ∈ store ∧ record.uri = move.uri ∧ record.id ∈ move.chosen := by
  rw [records, mem_filter, decide_eq_true_eq]

theorem WellPlaced.kept (placed : move.WellPlaced store) {moved other : ContextRecord} (member : moved ∈ move.records store)
    (there : other ∈ move.records store) (same : other.id = move.newId moved.id) : move.newId other.id = other.id := by
  obtain ⟨inside, own, -⟩ := mem_records.mp there
  have place := placed.places other inside moved member same
  exact placed.stays (own.symm.trans place) other.id

def written (move : Move) (acl : EffectiveAcl) (record : ContextRecord) : ContextRecord :=
  acl.setFields { record with id := move.newId record.id, uri := move.newUri }

theorem ids_written (move : Move) (acl : EffectiveAcl) (records : List ContextRecord) :
    (records.map (move.written acl)).map ContextRecord.id = records.map fun moved => move.newId moved.id := by
  rw [map_map]
  rfl

theorem mem_moved (ids : (store.map ContextRecord.id).Nodup) (placed : move.WellPlaced store) (acl : EffectiveAcl) (record : ContextRecord) :
    record ∈ (store.upsertMany ((move.records store).map (move.written acl))).filter (fun other =>
        other.id ∉ ((move.records store).filter fun moved => move.newId moved.id ≠ moved.id).map ContextRecord.id) ↔
      record ∈ (move.records store).map (move.written acl) ∨ record ∈ move.rest store := by
  have fresh : (((move.records store).map (move.written acl)).map ContextRecord.id).Nodup := ids_written move acl _ ▸ placed.ids
  rw [mem_filter, ContextStore.mem_upsertMany fresh, ids_written, decide_eq_true_eq, rest, mem_filter, decide_eq_true_eq]
  constructor
  · rintro ⟨new | ⟨there, other⟩, remains⟩
    · exact .inl new
    · refine .inr ⟨there, fun inside => remains ?_, other⟩
      refine mem_map.mpr ⟨record, mem_filter.mpr ⟨inside, decide_eq_true fun same => other ?_⟩, rfl⟩
      exact mem_map.mpr ⟨record, inside, same⟩
  · rintro (new | ⟨there, apart, other⟩)
    · refine ⟨.inl new, fun gone => ?_⟩
      obtain ⟨moved, member, rfl⟩ := mem_map.mp new
      obtain ⟨old, inside, same⟩ := mem_map.mp gone
      obtain ⟨inside, changes⟩ := mem_filter.mp inside
      exact of_decide_eq_true changes (placed.kept member inside same)
    · refine ⟨.inr ⟨there, other⟩, fun gone => apart ?_⟩
      obtain ⟨old, inside, same⟩ := mem_map.mp gone
      obtain ⟨inside, -⟩ := mem_filter.mp inside
      rwa [mem_of_nodup_ids ids there (mem_records.mp inside).1 same.symm]

end Move

def Move.fields (move : Move) (direct : List Text → DirectAcl) : EffectiveAcl :=
  if (normalizedUri move.newUri).head? = some "resources".toList then
    .of (if (normalizedUri move.uri).head? = some "resources".toList then direct (normalizedUri move.uri) else .empty)
      (inheritedAcl direct (normalizedUri move.newUri))
  else .none

section

variable (sound : Sound store direct) {move : Move} (placed : move.WellPlaced store)

include sound placed

theorem Sound.updateUriMapping_eq :
    updateUriMapping store move.uri move.newUri move.chosen move.newId =
      .ok ((store.upsertMany ((move.records store).map (move.written (move.fields direct)))).filter fun other =>
        other.id ∉ ((move.records store).filter fun moved => move.newId moved.id ≠ moved.id).map ContextRecord.id) := by
  obtain ⟨parts, plain, shape⟩ := placed.shape
  have each : ((move.records store).mapM fun record => do
      let fields ← AclManager.materializeMovedRecord store record move.newUri
      .ok (fields.setFields { record with id := move.newId record.id, uri := move.newUri })) =
        .ok ((move.records store).map (move.written (move.fields direct))) := by
    refine mapM_ok fun record member => ?_
    obtain ⟨there, own, -⟩ := Move.mem_records.mp member
    rw [Move.written, Move.fields, shape, normalizedUri_canonical plain]
    by_cases scope : parts.head? = some "resources".toList
    · rw [sound.materializeMovedRecord there ⟨plain, scope⟩, if_pos scope, own]
      rfl
    · rw [AclManager.materializeMovedRecord, isAclUri_canonical plain, if_neg scope, decide_eq_false scope]
      rfl
  rw [updateUriMapping]
  dsimp only
  rw [show (store.filter fun record => record.uri = move.uri ∧ record.id ∈ move.chosen) = move.records store from rfl, each]
  rfl

theorem Sound.moved (fits : move.GrantsFit store direct)
    {after : ContextStore} (done : updateUriMapping store move.uri move.newUri move.chosen move.newId = .ok after) :
    Sound after (move.given store direct) := by
  rw [sound.updateUriMapping_eq placed] at done
  cases done
  obtain ⟨target, plain, shape⟩ := placed.shape
  have mem := Move.mem_moved sound.ids placed (move.fields direct)
  have inStore : ∀ record ∈ move.rest store, record ∈ store := fun record member => (mem_filter.mp member).1
  have sameGiven : ∀ parts, Resource parts → Indexed (move.rest store) parts → move.given store direct parts = direct parts := by
    intro parts own indexed
    by_cases here : canonical parts = move.newUri
    · exact fits.alike parts own here indexed
    · rw [Move.given, if_neg fun both => here both.2, if_pos indexed]
  refine ⟨fun record member => ?_, fun record member parts own place => ?_, fun parts own bare => ?_, ?_⟩
  · rcases (mem record).mp member with new | stays
    · obtain ⟨old, -, rfl⟩ := mem_map.mp new
      exact ⟨target, plain, shape⟩
    · exact sound.shape record (inStore record stays)
  · rcases (mem record).mp member with new | stays
    · obtain ⟨old, inside, rfl⟩ := mem_map.mp new
      have here : canonical parts = move.newUri := place.symm
      have some' := ne_nil_of_mem inside
      have same : effectiveAcl (move.given store direct) parts = move.fields direct := by
        rw [Move.fields, ← here, normalizedUri_canonical own.plain, if_pos own.scope, effectiveAcl]
        congr 1
        · rw [Move.given, if_pos ⟨some', here⟩]
        · exact Ranked.ext_ranks (by rw [ranks_inheritedAcl, ranks_inheritedAcl, fits.arrived parts own here some'])
      rw [same]
      exact hasFields_setFields _ _
    · have indexed : Indexed (move.rest store) parts := ⟨record, stays, place⟩
      rw [effectiveAcl_congr (sameGiven parts own indexed) (fits.above parts own indexed)]
      exact sound.fields record (inStore record stays) parts own place
  · rw [Move.given, if_neg, if_neg]
    · rintro ⟨record, stays, place⟩
      exact bare record ((mem record).mpr (.inr stays)) place
    · rintro ⟨some', here⟩
      obtain ⟨old, inside⟩ := exists_mem_of_ne_nil _ some'
      exact bare _ ((mem _).mpr (.inl (mem_map_of_mem inside))) here.symm
  · exact (ContextStore.nodup_upsertMany sound.ids _).sublist (filter_sublist.map _)

end

end LoginomDock.Access
