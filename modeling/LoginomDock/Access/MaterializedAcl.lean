import LoginomDock.Access.ResourceTree

/-! The records of a store hold what the tree of the resources permits; then every URI is resolved to it, indexed or
not. -/

namespace LoginomDock.Access

open AclManager List

section Values

variable {α : Type}

theorem valueOf_map (uris : List Text) (value : Text → α) (uri : Text) :
    valueOf (uris.map fun uri => (uri, value uri)) uri = if uri ∈ uris then some (value uri) else none := by
  induction uris with
  | nil => rfl
  | cons first rest ih =>
    rw [valueOf] at ih ⊢
    rw [map_cons, find?_cons]
    by_cases same : first = uri
    · simp [same]
    · rw [decide_eq_false same]
      dsimp only
      rw [ih]
      simp [Ne.symm same]

theorem valueOf_append (first second : List (Text × α)) (uri : Text) :
    valueOf (first ++ second) uri = (valueOf first uri).or (valueOf second uri) := by
  rw [valueOf, valueOf, valueOf, find?_append]
  cases first.find? fun entry => entry.1 = uri <;> rfl

theorem mapUris_ok {uris : List Text} {program : Text → Except AclError α} {value : Text → α}
    (each : ∀ uri ∈ uris, program uri = .ok (value uri)) : mapUris uris program = .ok (uris.map fun uri => (uri, value uri)) := by
  refine mapM_ok fun uri member => ?_
  rw [each uri member]
  rfl

end Values

structure HasFields (record : ContextRecord) (acl : EffectiveAcl) : Prop where
  enabled : record.aclEnabled = acl.enabled
  direct : record.directGrants = acl.direct.entries.map encodeGrant
  inherited : record.inheritedGrants = acl.inherited.entries.map encodeGrant

theorem hasFields_setFields (acl : EffectiveAcl) (record : ContextRecord) : HasFields (acl.setFields record) acl := ⟨rfl, rfl, rfl⟩

theorem fromContextFields_encode (acl : DirectAcl) : fromContextFields (acl.entries.map encodeGrant) = .ok acl := by
  have decoded : (acl.entries.map encodeGrant).mapM decodeGrant = .ok acl.entries := by
    have each := @mapM_ok _ _ _ _ acl.entries id fun entry _ => decodeGrant_encodeGrant entry
    rw [map_id] at each
    rw [mapM_map]
    exact each
  rw [fromContextFields, decoded, ok_bind]
  exact congrArg Except.ok (Ranked.ext_ranks (Ranked.ranks_ofList _))

theorem effectiveFromRecord_eq {record : ContextRecord} {direct inherited : DirectAcl}
    (holds : HasFields record (.of direct inherited)) : effectiveFromRecord record = .ok (.of direct inherited) := by
  obtain ⟨enabled, direct', inherited'⟩ := holds
  rw [effectiveFromRecord, direct', inherited', enabled]
  dsimp only [EffectiveAcl.of]
  rw [fromContextFields_encode, ok_bind, fromContextFields_encode, ok_bind]
  congr 2
  cases direct.isEmpty <;> cases inherited.isEmpty <;> rfl

variable {records : List ContextRecord}

theorem effectiveFromRecords_eq {direct inherited : DirectAcl} (filled : records ≠ [])
    (holds : ∀ record ∈ records, HasFields record (.of direct inherited)) :
    effectiveFromRecords records = .ok (.of direct inherited) := by
  cases records with
  | nil => exact absurd rfl filled
  | cons record rest =>
    have others := mapM_ok fun other member => effectiveFromRecord_eq (holds other (mem_cons_of_mem _ member))
    rw [effectiveFromRecords, effectiveFromRecord_eq (holds record (by simp)), ok_bind, others, ok_bind, if_pos]
    simp

-- Every record of a resource holds the grants given to it and above it, and nothing is given where no record is.
structure Sound (store : ContextStore) (direct : List Text → DirectAcl) : Prop where
  shape : ∀ record ∈ store, ∃ parts, Plain parts ∧ record.uri = canonical parts
  fields : ∀ record ∈ store, ∀ parts, Resource parts → record.uri = canonical parts → HasFields record (effectiveAcl direct parts)
  unindexed : ∀ parts, Resource parts → (∀ record ∈ store, record.uri ≠ canonical parts) → direct parts = .empty
  ids : (store.map ContextRecord.id).Nodup

section Resolution

variable {store : ContextStore} {direct : List Text → DirectAcl} {uris : List Text}

theorem groupByUri_recordsForUris (store : ContextStore) {uri : Text} (member : uri ∈ uris) :
    groupByUri (store.recordsForUris uris) uri = store.filter fun record => record.uri = uri := by
  rw [groupByUri, ContextStore.recordsForUris, filter_filter]
  refine filter_congr fun record _ => ?_
  by_cases same : record.uri = uri
  · rw [decide_eq_true same, Bool.true_and, any_eq_true]
    exact ⟨uri, member, by simp [same]⟩
  · rw [decide_eq_false same, Bool.false_and]

theorem mem_groupedUris (records : List ContextRecord) (uri : Text) :
    uri ∈ groupedUris records ↔ uri ≠ [] ∧ ∃ record ∈ records, record.uri = uri := by
  simp [groupedUris, and_comm]

variable {parts : List Text}

theorem Sound.group (sound : Sound store direct) (inside : ∀ record ∈ records, record ∈ store) (resource : Resource parts) (some' : ∃ record ∈ records, record.uri = canonical parts) :
    effectiveFromRecords (groupByUri records (canonical parts)) = .ok (effectiveAcl direct parts) := by
  refine effectiveFromRecords_eq ?_ fun record member => ?_
  · obtain ⟨record, member, same⟩ := some'
    exact ne_nil_of_mem (mem_filter.mpr ⟨member, by simp [same]⟩)
  · obtain ⟨there, same⟩ := mem_filter.mp member
    exact sound.fields record (inside record there) parts resource (by simpa using same)

theorem mem_recordsForUris (sound : Sound store direct)
    (resources : ∀ uri ∈ uris, ∃ parts, Resource parts ∧ uri = canonical parts) {record : ContextRecord}
    (member : record ∈ store.recordsForUris uris) : record ∈ store ∧ record.uri ∈ uris := by
  obtain ⟨there, found⟩ := mem_filter.mp member
  obtain ⟨uri, inside, same⟩ := any_eq_true.mp found
  obtain ⟨parts, resource, rfl⟩ := resources uri inside
  obtain ⟨own, plain, shape⟩ := sound.shape record there
  have equal : own = parts := by
    rw [decide_eq_true_eq, shape, normalizedUri_canonical plain, normalizedUri_canonical resource.plain] at same
    exact same
  rw [shape, equal]
  exact ⟨there, inside⟩

theorem unionOf_eq {directMap : List (Text × DirectAcl)} {above : List (List Text)} (base : DirectAcl)
    (each : ∀ other ∈ above, (valueOf directMap (canonical other)).getD .empty = direct other) :
    unionOf directMap base (above.map canonical) = above.foldl (fun acl other => acl.union (direct other)) base := by
  induction above generalizing base with
  | nil => rfl
  | cons other rest ih =>
    have later := ih (base.union (direct other)) fun next member => each next (by simp [member])
    rw [unionOf, map_cons, foldl_cons, each other (by simp)]
    exact later

theorem Sound.directs (sound : Sound store direct) {ancestors : List Text}
    (above : ∀ uri ∈ ancestors, ∃ parts, Resource parts ∧ uri = canonical parts) :
    mapUris (groupedUris (store.recordsForUris ancestors)) (fun uri => do
        let effective ← effectiveFromRecords (groupByUri (store.recordsForUris ancestors) uri)
        .ok effective.direct) =
      .ok ((groupedUris (store.recordsForUris ancestors)).map fun uri => (uri, direct (normalizedUri uri))) := by
  refine mapUris_ok fun uri member => ?_
  obtain ⟨-, record, inside, same⟩ := (mem_groupedUris _ _).mp member
  obtain ⟨-, ancestor⟩ := mem_recordsForUris sound above inside
  rw [same] at ancestor
  obtain ⟨parts, resource, rfl⟩ := above uri ancestor
  rw [sound.group (fun record member => (mem_recordsForUris sound above member).1) resource ⟨record, inside, same⟩,
    normalizedUri_canonical resource.plain]
  rfl

theorem Sound.directOfAncestor (sound : Sound store direct) {ancestors : List Text} (resource : Resource parts)
    (member : canonical parts ∈ ancestors) :
    (valueOf ((groupedUris (store.recordsForUris ancestors)).map fun uri => (uri, direct (normalizedUri uri)))
      (canonical parts)).getD .empty = direct parts := by
  rw [valueOf_map, normalizedUri_canonical resource.plain]
  split
  · rfl
  next no =>
    refine (sound.unindexed parts resource fun record there same => no ?_).symm
    refine (mem_groupedUris _ _).mpr ⟨canonical_ne_nil parts, record, mem_filter.mpr ⟨there, ?_⟩, same⟩
    exact any_eq_true.mpr ⟨_, member, by simp [same]⟩

theorem Sound.group_spelled (sound : Sound store direct) {uri : Text} (member : uri ∈ uris)
    (some' : groupByUri (store.recordsForUris uris) uri ≠ []) (read : uriParts uri = .ok parts) :
    uri = canonical parts ∧ ∃ record ∈ store.recordsForUris uris, record.uri = canonical parts := by
  obtain ⟨record, inside⟩ := exists_mem_of_ne_nil _ some'
  obtain ⟨there, matched⟩ := mem_filter.mp inside
  have same := of_decide_eq_true matched
  obtain ⟨own, plain, shape⟩ := sound.shape record (mem_filter.mp there).1
  obtain rfl : uri = canonical own := same.symm.trans shape
  rw [uriParts_canonical plain] at read
  cases read
  exact ⟨rfl, record, there, same⟩

def resolvedAcl (direct : List Text → DirectAcl) (uri : Text) (parts : List Text) : EffectiveAcl :=
  if uri = canonical parts then effectiveAcl direct parts else .of .empty (inheritedAcl direct parts)

def segments (uri : Text) : List Text := (uriParts uri).toOption.getD []

theorem segments_eq {uri : Text} (read : uriParts uri = .ok parts) : segments uri = parts := by
  rw [segments, read]
  rfl

theorem Sound.resolveMany_spelled (sound : Sound store direct) {uris : List Text}
    (resources : ∀ uri ∈ uris, ∃ parts, uriParts uri = .ok parts ∧ Resource parts) :
    ∃ result, resolveMany store uris = .ok result ∧
      ∀ uri ∈ uris, ∀ parts, uriParts uri = .ok parts → valueOf result uri = some (resolvedAcl direct uri parts) := by
  have unique : ∀ uri ∈ uris.eraseDups, ∃ parts, uriParts uri = .ok parts ∧ Resource parts :=
    fun uri member => resources uri (mem_eraseDups.mp member)
  let resolved := fun uri : Text => resolvedAcl direct uri (segments uri)
  have paths : mapUris uris.eraseDups aclAncestors =
      .ok (uris.eraseDups.map fun uri => (uri, (prefixes (segments uri)).map canonical)) := by
    refine mapUris_ok fun uri member => ?_
    obtain ⟨parts, read, resource⟩ := unique uri member
    rw [aclAncestors_eq read resource, segments_eq read]
  rw [resolveMany]
  dsimp only
  rw [paths, ok_bind]
  have held : ∀ record ∈ store.recordsForUris uris.eraseDups, record ∈ store := fun record member => (mem_filter.mp member).1
  have found : mapUris (uris.eraseDups.filter fun uri => groupByUri (store.recordsForUris uris.eraseDups) uri ≠ [])
      (fun uri => effectiveFromRecords (groupByUri (store.recordsForUris uris.eraseDups) uri)) =
        .ok ((uris.eraseDups.filter fun uri => groupByUri (store.recordsForUris uris.eraseDups) uri ≠ []).map
          fun uri => (uri, resolved uri)) := by
    refine mapUris_ok fun uri member => ?_
    obtain ⟨inside, some'⟩ := mem_filter.mp member
    obtain ⟨parts, read, resource⟩ := unique uri inside
    obtain ⟨spelled, indexed⟩ := sound.group_spelled inside (of_decide_eq_true some') read
    have value : resolved uri = effectiveAcl direct parts := by
      rw [show resolved uri = resolvedAcl direct uri (segments uri) from rfl, segments_eq read, resolvedAcl, if_pos spelled]
    rw [value, spelled]
    exact sound.group held resource indexed
  rw [found, ok_bind]
  generalize indexed_eq : (uris.eraseDups.filter fun uri => groupByUri (store.recordsForUris uris.eraseDups) uri ≠ []) = indexed
  generalize missing_eq : (uris.eraseDups.filter fun uri => groupByUri (store.recordsForUris uris.eraseDups) uri = []) = missing
  have either : ∀ uri ∈ uris, uri ∈ indexed ∨ uri ∈ missing := by
    intro uri member
    rw [← indexed_eq, ← missing_eq]
    by_cases none' : groupByUri (store.recordsForUris uris.eraseDups) uri = []
    · exact .inr (mem_filter.mpr ⟨mem_eraseDups.mpr member, by simp [none']⟩)
    · exact .inl (mem_filter.mpr ⟨mem_eraseDups.mpr member, by simp [none']⟩)
  split
  next whole =>
    refine ⟨_, rfl, fun uri member parts read => ?_⟩
    have there := (either uri member).resolve_right (by rw [whole]; exact not_mem_nil)
    rw [valueOf_map, if_pos there, ← segments_eq read]
  next =>
    have ofMissing : ∀ uri ∈ missing, uri ∈ uris.eraseDups ∧ groupByUri (store.recordsForUris uris.eraseDups) uri = [] := by
      intro uri member
      rw [← missing_eq] at member
      exact ⟨(mem_filter.mp member).1, of_decide_eq_true (mem_filter.mp member).2⟩
    generalize ancestors_eq : (missing.flatMap fun uri =>
        (valueOf (uris.eraseDups.map fun uri => (uri, (prefixes (segments uri)).map canonical)) uri).getD []) = ancestors
    have path : ∀ uri ∈ missing, ∀ parts, uriParts uri = .ok parts →
        (valueOf (uris.eraseDups.map fun uri => (uri, (prefixes (segments uri)).map canonical)) uri).getD [] =
          (prefixes parts).map canonical := by
      intro uri member parts read
      rw [valueOf_map, if_pos (ofMissing uri member).1, Option.getD_some, segments_eq read]
    have above : ∀ uri ∈ ancestors, ∃ parts, Resource parts ∧ uri = canonical parts := by
      intro uri member
      rw [← ancestors_eq] at member
      obtain ⟨below, inside, ancestor⟩ := mem_flatMap.mp member
      obtain ⟨parts, read, resource⟩ := unique below (ofMissing below inside).1
      rw [path below inside parts read] at ancestor
      obtain ⟨other, starts, rfl⟩ := mem_map.mp ancestor
      obtain ⟨filled, starts⟩ := (mem_prefixes parts other).mp starts
      exact ⟨other, resource.of_prefix starts filled, rfl⟩
    rw [sound.directs above, ok_bind]
    refine ⟨_, rfl, fun uri member parts read => ?_⟩
    rw [valueOf_append, valueOf_map, valueOf_map]
    by_cases inside : uri ∈ indexed
    · rw [if_pos inside, ← segments_eq read]
      rfl
    · have rest := (either uri member).resolve_left inside
      obtain ⟨own, readOwn, resource⟩ := resources uri member
      obtain rfl : own = parts := Except.ok.inj (readOwn.symm.trans read)
      have onPath : ∀ other ∈ prefixes own, canonical other ∈ ancestors := by
        intro other starts
        rw [← ancestors_eq]
        exact mem_flatMap.mpr ⟨uri, rest, by rw [path uri rest own read]; exact mem_map_of_mem starts⟩
      have inherited : unionOf ((groupedUris (store.recordsForUris ancestors)).map fun uri => (uri, direct (normalizedUri uri))) .empty
          ((prefixes own).map canonical).dropLast = inheritedAcl direct own := by
        rw [← map_dropLast, dropLast_prefixes, @unionOf_eq direct]
        · rfl
        · intro other starts
          obtain ⟨filled, starts⟩ := (mem_prefixes _ other).mp starts
          have starts := starts.trans (List.dropLast_prefix own)
          exact sound.directOfAncestor (resource.of_prefix starts filled) (onPath other ((mem_prefixes own other).mpr ⟨filled, starts⟩))
      have noRecord : ∀ record ∈ store, record.uri ≠ uri := by
        intro record there same
        have empty := (ofMissing uri rest).2
        rw [groupByUri_recordsForUris store (ofMissing uri rest).1] at empty
        exact not_mem_nil (empty ▸ mem_filter.mpr ⟨there, decide_eq_true same⟩)
      have bare : (valueOf ((groupedUris (store.recordsForUris ancestors)).map fun uri => (uri, direct (normalizedUri uri))) uri).getD
          .empty = .empty := by
        rw [valueOf_map, if_neg]
        · rfl
        · intro grouped
          obtain ⟨-, record, there, same⟩ := (mem_groupedUris _ _).mp grouped
          exact noRecord record (mem_filter.mp there).1 same
      rw [if_neg inside, if_pos rest, Option.none_or, path uri rest own read, inherited, bare, resolvedAcl]
      split
      next spelled =>
        have none' : direct own = .empty :=
          sound.unindexed own resource fun record there same => noRecord record there (same.trans spelled.symm)
        rw [effectiveAcl, none']
      next => rfl

theorem Sound.resolveMany (sound : Sound store direct) {uris : List Text}
    (resources : ∀ uri ∈ uris, ∃ parts, Resource parts ∧ uri = canonical parts) :
    ∃ result, resolveMany store uris = .ok result ∧
      ∀ parts, Resource parts → canonical parts ∈ uris → valueOf result (canonical parts) = some (effectiveAcl direct parts) := by
  obtain ⟨result, done, values⟩ := @Sound.resolveMany_spelled _ _ sound uris fun uri member => by
    obtain ⟨parts, resource, rfl⟩ := resources uri member
    exact ⟨parts, uriParts_canonical resource.plain, resource⟩
  refine ⟨result, done, fun parts resource member => ?_⟩
  rw [values _ member parts (uriParts_canonical resource.plain), resolvedAcl, if_pos rfl]

end Resolution

namespace ContextStore

theorem mem_upsert (store : ContextStore) (record other : ContextRecord) :
    other ∈ store.upsert record ↔ other = record ∨ (other ∈ store ∧ other.id ≠ record.id) := by
  rw [upsert]
  split
  next known =>
    obtain ⟨old, there, same⟩ := any_eq_true.mp known
    rw [decide_eq_true_eq] at same
    rw [mem_map]
    constructor
    · rintro ⟨item, member, rfl⟩
      by_cases own : item.id = record.id
      · exact .inl (if_pos own)
      · rw [if_neg own]
        exact .inr ⟨member, own⟩
    · rintro (rfl | ⟨member, different⟩)
      · exact ⟨old, there, if_pos same⟩
      · exact ⟨other, member, if_neg different⟩
  next unknown =>
    rw [mem_append, mem_singleton, or_comm]
    refine or_congr_right ⟨fun member => ⟨member, fun same => unknown ?_⟩, And.left⟩
    exact any_eq_true.mpr ⟨other, member, by simp [same]⟩

theorem nodup_upsert {store : ContextStore} (ids : (store.map ContextRecord.id).Nodup) (record : ContextRecord) :
    ((store.upsert record).map ContextRecord.id).Nodup := by
  rw [upsert]
  split
  next =>
    rw [map_map]
    have same : (ContextRecord.id ∘ fun other : ContextRecord => if other.id = record.id then record else other) = ContextRecord.id := by
      funext other
      rw [Function.comp_apply]
      split
      next own => exact own.symm
      next => rfl
    rwa [same]
  next unknown =>
    rw [map_append, nodup_append]
    refine ⟨ids, by simp, ?_⟩
    intro id member last same equal
    obtain ⟨other, there, rfl⟩ := mem_map.mp member
    rw [map_singleton, mem_singleton] at same
    exact unknown (any_eq_true.mpr ⟨other, there, by simp [equal, same]⟩)

theorem mem_upsertMany {store : ContextStore} (ids : (records.map ContextRecord.id).Nodup)
    (other : ContextRecord) :
    other ∈ store.upsertMany records ↔ other ∈ records ∨ (other ∈ store ∧ other.id ∉ records.map ContextRecord.id) := by
  induction records generalizing store with
  | nil => simp [upsertMany]
  | cons record rest ih =>
    rw [map_cons, nodup_cons] at ids
    rw [upsertMany, foldl_cons]
    have later := @ih (store.upsert record) ids.2
    rw [upsertMany] at later
    rw [later, mem_upsert]
    simp only [mem_cons, map_cons, not_or]
    constructor
    · rintro (inside | ⟨rfl | ⟨there, different⟩, fresh⟩)
      · exact .inl (.inr inside)
      · exact .inl (.inl rfl)
      · exact .inr ⟨there, different, fresh⟩
    · rintro ((rfl | inside) | ⟨there, different, fresh⟩)
      · exact .inr ⟨.inl rfl, ids.1⟩
      · exact .inl inside
      · exact .inr ⟨.inr ⟨there, different⟩, fresh⟩

theorem nodup_upsertMany {store : ContextStore} (ids : (store.map ContextRecord.id).Nodup) (records : List ContextRecord) :
    ((store.upsertMany records).map ContextRecord.id).Nodup := by
  induction records generalizing store with
  | nil => exact ids
  | cons record rest ih => exact ih (nodup_upsert ids record)

end ContextStore

section Subtree

variable {store : ContextStore} {direct : List Text → DirectAcl}

theorem Sound.basePermissions (sound : Sound store direct) {parts : List Text} (resource : Resource parts) :
    ∃ base, AclManager.basePermissions store (parentOf ((prefixes parts).map canonical)) = .ok base ∧
      base.ranks = reference direct parts.dropLast := by
  rw [parentOf_ancestors]
  split
  next top =>
    exact ⟨.empty, rfl, by rw [top]; rfl⟩
  next below =>
    have above := resource.of_prefix (List.dropLast_prefix parts) below
    obtain ⟨result, resolved, values⟩ := @Sound.resolveMany _ _ sound [canonical parts.dropLast] fun uri member =>
      ⟨parts.dropLast, above, mem_singleton.mp member⟩
    refine ⟨(effectiveAcl direct parts.dropLast).permissions, ?_, ranks_permissions direct below⟩
    rw [AclManager.basePermissions, resolve, resolved, ok_bind, values parts.dropLast above (mem_singleton_self _)]
    rfl

theorem take_prefixes (parts : List Text) (count : Nat) : (prefixes parts).take count = prefixes (parts.take count) := by
  rw [prefixes, prefixes, ← map_take, take_range, length_take]
  refine map_congr_left fun depth member => ?_
  have inside := mem_range.mp member
  rw [take_take, min_eq_left (by omega)]

theorem reference_below (direct : List Text → DirectAcl) {root parts : List Text} (starts : root <+: parts) (filled : root ≠ []) :
    reference direct parts.dropLast = reference direct root.dropLast ⊔
      (((prefixes parts.dropLast).drop (root.length - 1)).map fun other => (direct other).ranks).foldr (· ⊔ ·) ⊥ := by
  have upper : parts.dropLast.take (root.length - 1) = root.dropLast := by
    have some' := length_pos_iff.mpr filled
    have length := starts.length_le
    rw [dropLast_eq_take, take_take, dropLast_eq_take, min_eq_left (by omega)]
    obtain ⟨rest, rfl⟩ := starts
    rw [take_append_of_le_length (by omega)]
  rw [reference, reference, ← upper, ← take_prefixes, ← foldr_sup_append, ← map_append, take_append_drop]

theorem mem_drop_prefixes {root parts other : List Text} (starts : root <+: parts) (filled : root ≠ [])
    (member : other ∈ (prefixes parts.dropLast).drop (root.length - 1)) : root <+: other ∧ other <+: parts := by
  obtain ⟨place, inside, rfl⟩ := mem_iff_getElem.mp member
  rw [length_drop] at inside
  have some' := length_pos_iff.mpr filled
  have shape : ((prefixes parts.dropLast).drop (root.length - 1))[place] = parts.dropLast.take (root.length - 1 + place + 1) := by
    rw [getElem_drop]
    simp [prefixes]
  rw [shape]
  have long : root.length ≤ (parts.dropLast.take (root.length - 1 + place + 1)).length := by
    have few : (prefixes parts.dropLast).length = parts.dropLast.length := by simp [prefixes]
    rw [length_take]
    omega
  have above := (List.take_prefix (root.length - 1 + place + 1) parts.dropLast).trans (List.dropLast_prefix parts)
  exact ⟨prefix_of_prefix_length_le starts above long, above⟩

end Subtree

end LoginomDock.Access
