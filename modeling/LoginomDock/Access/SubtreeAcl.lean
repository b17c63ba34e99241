import Mathlib.Data.List.Nodup
import LoginomDock.Access.MaterializedAcl

namespace LoginomDock.Access

open AclManager List ContextStore Function

variable {store : ContextStore} {direct : List Text → DirectAcl}

def Untouched (root : List Text) (before after : ContextStore) : Prop :=
  ∀ record : ContextRecord, ¬ root <+: normalizedUri record.uri → (record ∈ after ↔ record ∈ before)

variable {root : List Text}

theorem mem_subtreeRecords (store : ContextStore) (plain : Plain root) (record : ContextRecord) :
    record ∈ store.subtreeRecords (canonical root) ↔ record ∈ store ∧ root <+: normalizedUri record.uri := by
  rw [subtreeRecords, mem_filter, normalizedUri_canonical plain, List.isPrefixOf_iff_prefix]

theorem mem_of_nodup_ids (ids : (store.map ContextRecord.id).Nodup) {first second : ContextRecord} (memberFirst : first ∈ store)
    (memberSecond : second ∈ store) (same : first.id = second.id) : first = second :=
  inj_on_of_nodup_map ids memberFirst memberSecond same

theorem reference_update_outside (direct : List Text → DirectAcl) {root parts : List Text} (given : DirectAcl)
    (outside : ¬ root <+: parts) : reference (Function.update direct root given) parts = reference direct parts := by
  refine reference_congr fun other _ starts => update_of_ne ?_ _ _
  rintro rfl
  exact outside starts

theorem effectiveAcl_congr {first second : List Text → DirectAcl} {parts : List Text} (own : first parts = second parts)
    (above : reference first parts.dropLast = reference second parts.dropLast) : effectiveAcl first parts = effectiveAcl second parts := by
  have inherited : inheritedAcl first parts = inheritedAcl second parts :=
    Ranked.ext_ranks (by rw [ranks_inheritedAcl, ranks_inheritedAcl, above])
  rw [effectiveAcl, effectiveAcl, own, inherited]

def rewritten (root : List Text) (direct : List Text → DirectAcl) (store : ContextStore) : List ContextRecord :=
  (store.subtreeRecords (canonical root)).map fun record => (effectiveAcl direct (normalizedUri record.uri)).setFields record

variable {rootDirect : Option DirectAcl}

theorem Sound.applySubtree_eq (sound : Sound store direct) {rootUri : Text} {after : ContextStore}
    (done : applySubtree store rootUri (store.subtreeRecords rootUri) rootDirect = .ok after) :
    ∃ root, Resource root ∧ rootUri = canonical root ∧ (∃ record ∈ store, record.uri = canonical root) ∧
      after = store.upsertMany (rewritten root (Function.update direct root (rootDirect.getD (direct root))) store) := by
  rw [applySubtree] at done
  dsimp only at done
  split at done
  · cases done
  next known =>
    obtain ⟨-, first, firstInside, firstUri⟩ := (mem_groupedUris _ _).mp (not_not.mp known)
    obtain ⟨root, plain, rfl⟩ : ∃ root, Plain root ∧ rootUri = canonical root := by
      obtain ⟨root, plain, shape⟩ := sound.shape first (mem_filter.mp firstInside).1
      exact ⟨root, plain, firstUri.symm.trans shape⟩
    obtain ⟨directMap, directs, done⟩ := bind_ok_iff.mp done
    obtain ⟨rootAncestors, ancestors, done⟩ := bind_ok_iff.mp done
    have resource := resource_of_aclAncestors plain ancestors
    rw [aclAncestors_canonical resource] at ancestors
    cases ancestors
    refine ⟨root, resource, rfl, ⟨first, (mem_filter.mp firstInside).1, firstUri⟩, ?_⟩
    generalize records_eq : store.subtreeRecords (canonical root) = records at *
    have inside : ∀ record ∈ records, ∃ parts, Resource parts ∧ root <+: parts ∧ record.uri = canonical parts ∧ record ∈ store := by
      intro record member
      rw [← records_eq, mem_subtreeRecords store plain] at member
      obtain ⟨parts, plainParts, shape⟩ := sound.shape record member.1
      have starts := member.2
      rw [shape, normalizedUri_canonical plainParts] at starts
      refine ⟨parts, ⟨plainParts, ?_⟩, starts, shape, member.1⟩
      obtain ⟨rest, rfl⟩ := starts
      rw [head?_append_of_ne_nil _ resource.filled]
      exact resource.scope
    have grouped : ∀ uri ∈ groupedUris records, ∃ parts, Resource parts ∧ root <+: parts ∧ uri = canonical parts ∧
        ∃ record ∈ records, record.uri = canonical parts := by
      intro uri member
      obtain ⟨-, record, there, rfl⟩ := (mem_groupedUris _ _).mp member
      obtain ⟨parts, own, starts, shape, -⟩ := inside record there
      exact ⟨parts, own, starts, shape, record, there, shape⟩
    generalize given_eq : Function.update direct root (rootDirect.getD (direct root)) = given
    have givenRoot : given root = rootDirect.getD (direct root) := by rw [← given_eq, update_self]
    have givenOther : ∀ parts, parts ≠ root → given parts = direct parts := by
      intro parts other
      rw [← given_eq, update_of_ne other]
    have maps : directMap = (groupedUris records).map fun uri => (uri, given (normalizedUri uri)) := by
      suffices computed : mapUris (groupedUris records) (fun uri => do
          let effective ← effectiveFromRecords (groupByUri records uri)
          .ok (if uri = canonical root then rootDirect.getD effective.direct else effective.direct)) =
            .ok ((groupedUris records).map fun uri => (uri, given (normalizedUri uri))) by
        rw [directs] at computed
        exact Except.ok.inj computed
      · refine mapUris_ok fun uri member => ?_
        obtain ⟨parts, own, -, rfl, some'⟩ := grouped uri member
        rw [sound.group (fun record member => (inside record member).choose_spec.2.2.2) own some', ok_bind,
          normalizedUri_canonical own.plain]
        by_cases same : parts = root
        · rw [same, if_pos rfl, givenRoot]
          rfl
        · rw [if_neg fun equal => same ((canonical_inj own.plain plain).mp equal), givenOther parts same]
          rfl
    have valued : ∀ parts, Resource parts → root <+: parts → (valueOf directMap (canonical parts)).getD .empty = given parts := by
      intro parts own starts
      rw [maps, valueOf_map, normalizedUri_canonical own.plain]
      split
      · rfl
      next no =>
        have different : parts ≠ root := by
          rintro rfl
          exact no (not_not.mp known)
        rw [givenOther parts different]
        refine (sound.unindexed parts own fun record there same => no ?_).symm
        refine (mem_groupedUris _ _).mpr ⟨canonical_ne_nil parts, record, ?_, same⟩
        rw [← records_eq, mem_subtreeRecords store plain, same, normalizedUri_canonical own.plain]
        exact ⟨there, starts⟩
    obtain ⟨base, permitted, baseRanks⟩ := sound.basePermissions resource
    rw [permitted, ok_bind] at done
    have effectives : mapUris (groupedUris records) (fun uri => do
        let ancestors ← aclAncestors uri
        let inherited := unionOf directMap base (ancestors.dropLast.drop (((prefixes root).map canonical).length - 1))
        .ok (EffectiveAcl.of ((valueOf directMap uri).getD .empty) inherited)) =
          .ok ((groupedUris records).map fun uri => (uri, effectiveAcl given (normalizedUri uri))) := by
      refine mapUris_ok fun uri member => ?_
      obtain ⟨parts, own, starts, rfl, -⟩ := grouped uri member
      have length : ((prefixes root).map canonical).length = root.length := by simp [prefixes]
      rw [aclAncestors_canonical own, ok_bind, normalizedUri_canonical own.plain, valued parts own starts, length,
        ← map_dropLast, dropLast_prefixes, ← map_drop, @unionOf_eq given]
      · refine congrArg Except.ok (congrArg (EffectiveAcl.of (given parts)) (Ranked.ext_ranks ?_))
        rw [ranks_foldl_union, ranks_inheritedAcl, reference_below given starts resource.filled, baseRanks]
        congr 1
        refine reference_congr fun other filled above => (givenOther other ?_).symm
        rintro rfl
        have longer := above.length_le
        have some' := length_pos_iff.mpr filled
        rw [length_dropLast] at longer
        omega
      · intro other member
        obtain ⟨below, above⟩ := mem_drop_prefixes starts resource.filled member
        refine valued other (own.of_prefix above ?_) below
        rintro rfl
        exact resource.filled (prefix_nil.mp below)
    rw [effectives, ok_bind] at done
    cases done
    congr 1
    rw [rewritten, records_eq]
    refine Eq.trans (filterMap_congr fun record member => ?_) (congrFun filterMap_eq_map _)
    have there : record.uri ∈ groupedUris records := by
      obtain ⟨parts, -, -, shape, -⟩ := inside record member
      exact (mem_groupedUris _ _).mpr ⟨shape ▸ canonical_ne_nil parts, record, member, rfl⟩
    rw [valueOf_map, if_pos there]
    rfl

theorem ids_rewritten (root : List Text) (direct : List Text → DirectAcl) (store : ContextStore) :
    (rewritten root direct store).map ContextRecord.id = (store.subtreeRecords (canonical root)).map ContextRecord.id := by
  rw [rewritten, map_map]
  rfl

theorem mem_rewritten_store (ids : (store.map ContextRecord.id).Nodup) (plain : Plain root)
    (direct : List Text → DirectAcl) (other : ContextRecord) :
    other ∈ store.upsertMany (rewritten root direct store) ↔
      other ∈ rewritten root direct store ∨ (other ∈ store ∧ ¬ root <+: normalizedUri other.uri) := by
  have sub : ((rewritten root direct store).map ContextRecord.id).Nodup := by
    rw [ids_rewritten]
    exact ids.sublist (filter_sublist.map _)
  rw [mem_upsertMany sub, ids_rewritten]
  refine or_congr_right (and_congr_right fun there => not_congr ?_)
  rw [mem_map]
  constructor
  · rintro ⟨record, member, same⟩
    obtain ⟨inside, starts⟩ := (mem_subtreeRecords store plain record).mp member
    rwa [mem_of_nodup_ids ids there inside same.symm]
  · intro starts
    exact ⟨other, (mem_subtreeRecords store plain other).mpr ⟨there, starts⟩, rfl⟩

theorem mem_rewritten (plain : Plain root) {given : List Text → DirectAcl} {other : ContextRecord}
    (member : other ∈ rewritten root given store) :
    ∃ record ∈ store, root <+: normalizedUri record.uri ∧ other = (effectiveAcl given (normalizedUri record.uri)).setFields record := by
  obtain ⟨record, inside, rfl⟩ := mem_map.mp member
  obtain ⟨there, starts⟩ := (mem_subtreeRecords store plain record).mp inside
  exact ⟨record, there, starts, rfl⟩

theorem untouched_rewritten (ids : (store.map ContextRecord.id).Nodup) (plain : Plain root)
    (given : List Text → DirectAcl) : Untouched root store (store.upsertMany (rewritten root given store)) := by
  intro record outside
  rw [mem_rewritten_store ids plain]
  constructor
  · rintro (inside | ⟨there, -⟩)
    · obtain ⟨old, -, starts, rfl⟩ := mem_rewritten plain inside
      exact absurd starts outside
    · exact there
  · exact fun there => .inr ⟨there, outside⟩

theorem Sound.upsertMany (sound : Sound store direct) {given : List Text → DirectAcl} {results : List ContextRecord}
    (ids : (results.map ContextRecord.id).Nodup)
    (places : ∀ old ∈ store, ∀ result ∈ results, old.id = result.id → old.uri = result.uri)
    (shapes : ∀ result ∈ results, ∃ parts, Plain parts ∧ result.uri = canonical parts)
    (written : ∀ result ∈ results, ∀ parts, Resource parts → result.uri = canonical parts → HasFields result (effectiveAcl given parts))
    (kept : ∀ old ∈ store, old.id ∉ results.map ContextRecord.id → ∀ parts, Resource parts → old.uri = canonical parts →
      effectiveAcl given parts = effectiveAcl direct parts)
    (bare : ∀ parts, Resource parts → (∀ old ∈ store, old.uri ≠ canonical parts) → (∀ result ∈ results, result.uri ≠ canonical parts) →
      given parts = .empty) : Sound (store.upsertMany results) given := by
  refine ⟨fun record member => ?_, fun record member parts own shape => ?_, fun parts own none' => ?_,
    nodup_upsertMany sound.ids _⟩
  · rcases (mem_upsertMany ids record).mp member with inside | ⟨there, -⟩
    · exact shapes record inside
    · exact sound.shape record there
  · rcases (mem_upsertMany ids record).mp member with inside | ⟨there, apart⟩
    · exact written record inside parts own shape
    · rw [kept record there apart parts own shape]
      exact sound.fields record there parts own shape
  · refine bare parts own (fun old there same => ?_) fun result inside => none' result ((mem_upsertMany ids result).mpr (.inl inside))
    by_cases replaced : old.id ∈ results.map ContextRecord.id
    · obtain ⟨result, inside, equal⟩ := mem_map.mp replaced
      refine none' result ((mem_upsertMany ids result).mpr (.inl inside)) ?_
      rw [← places old there result inside equal.symm, same]
    · exact none' old ((mem_upsertMany ids old).mpr (.inr ⟨there, replaced⟩)) same

theorem Sound.rewritten (sound : Sound store direct) (resource : Resource root)
    (indexed : ∃ record ∈ store, record.uri = canonical root) (given : DirectAcl) :
    Sound (store.upsertMany (rewritten root (Function.update direct root given) store)) (Function.update direct root given) := by
  generalize given_eq : Function.update direct root given = after
  have ids : ((LoginomDock.Access.rewritten root after store).map ContextRecord.id).Nodup := by
    rw [ids_rewritten]
    exact sound.ids.sublist (filter_sublist.map _)
  refine sound.upsertMany ids (fun old there result inside same => ?_) (fun result inside => ?_)
    (fun result inside parts own shape => ?_) (fun old there apart parts own shape => ?_) fun parts own bare _ => ?_
  · obtain ⟨record, member, -, rfl⟩ := mem_rewritten resource.plain inside
    rw [mem_of_nodup_ids sound.ids there member same]
    rfl
  · obtain ⟨record, member, -, rfl⟩ := mem_rewritten resource.plain inside
    exact sound.shape record member
  · obtain ⟨record, -, -, rfl⟩ := mem_rewritten resource.plain inside
    have same : record.uri = canonical parts := shape
    rw [same, normalizedUri_canonical own.plain]
    exact hasFields_setFields _ record
  · have outside : ¬ root <+: parts := by
      intro starts
      rw [ids_rewritten] at apart
      refine apart (mem_map_of_mem ((mem_subtreeRecords store resource.plain old).mpr ⟨there, ?_⟩))
      rwa [shape, normalizedUri_canonical own.plain]
    rw [← given_eq]
    refine effectiveAcl_congr (update_of_ne ?_ _ _)
      (reference_update_outside direct given fun starts => outside (starts.trans (List.dropLast_prefix parts)))
    rintro rfl
    exact outside prefix_rfl
  · have different : parts ≠ root := by
      rintro rfl
      obtain ⟨record, there, same⟩ := indexed
      exact bare record there same
    rw [← given_eq, update_of_ne different]
    exact sound.unindexed parts own bare

theorem Sound.applySubtree (sound : Sound store direct) {rootUri : Text} {after : ContextStore}
    (done : applySubtree store rootUri (store.subtreeRecords rootUri) rootDirect = .ok after) :
    ∃ root, Resource root ∧ rootUri = canonical root ∧ Untouched root store after ∧
      Sound after (Function.update direct root (rootDirect.getD (direct root))) := by
  obtain ⟨root, resource, shape, indexed, rfl⟩ := sound.applySubtree_eq done
  exact ⟨root, resource, shape, untouched_rewritten sound.ids resource.plain _, sound.rewritten resource indexed _⟩

end LoginomDock.Access
