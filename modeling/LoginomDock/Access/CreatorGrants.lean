import LoginomDock.Access.SubtreeAcl

/-! A record that is new in the store may give its creator a grant, at the record itself or only on the inherited side.
-/

namespace LoginomDock.Access

open AclManager List Ranked

variable {store : ContextStore} {direct : List Text → DirectAcl}

def Indexed (store : ContextStore) (parts : List Text) : Prop := ∃ record ∈ store, record.uri = canonical parts

instance (store : ContextStore) (parts : List Text) : Decidable (Indexed store parts) :=
  inferInstanceAs (Decidable (∃ record ∈ store, record.uri = canonical parts))

structure Filled (store : ContextStore) (direct : List Text → DirectAcl) (record result : ContextRecord) : Prop where
  id : result.id = record.id
  uri : result.uri = record.uri
  known : ∀ parts, Resource parts → record.uri = canonical parts → Indexed store parts → HasFields result (effectiveAcl direct parts)
  fresh : ∀ parts, Resource parts → record.uri = canonical parts → ¬ Indexed store parts →
    ∃ acl, newEffective (inheritedAcl direct parts) record = .ok acl ∧ HasFields result acl

variable {parts : List Text} {record : ContextRecord}

theorem isResource_canonical (plain : Plain parts) (shape : record.uri = canonical parts) :
    isResource record = .ok (parts.head? = some "resources".toList) := by
  rw [isResource, shape, if_neg (canonical_ne_nil parts), isAclUri_canonical plain]

theorem Sound.parentPermissions (sound : Sound store direct) {uris : List Text}
    (resources : ∀ uri ∈ uris, ∃ parts, Resource parts ∧ uri = canonical parts) {result : List (Text × EffectiveAcl)}
    (done : AclManager.resolveMany store uris = .ok result) (resource : Resource parts)
    (below : parts.dropLast ≠ []) (asked : canonical parts.dropLast ∈ uris) :
    ((valueOf result (canonical parts.dropLast)).getD .none).permissions = inheritedAcl direct parts := by
  obtain ⟨values, resolved, each⟩ := sound.resolveMany resources
  rw [done] at resolved
  cases resolved
  have above := resource.of_prefix (List.dropLast_prefix parts) below
  rw [each parts.dropLast above asked, Option.getD_some]
  exact ext_ranks (by rw [ranks_permissions direct below, ranks_inheritedAcl])

theorem inheritedAcl_top (direct : List Text → DirectAcl) (top : parts.dropLast = []) :
    inheritedAcl direct parts = .empty := by
  rw [inheritedAcl, top]
  rfl

theorem Sound.materialized (sound : Sound store direct) {records results : List ContextRecord}
    (shapes : ∀ record ∈ records, ∃ parts, Plain parts ∧ record.uri = canonical parts)
    (done : materializeContextRecords store true records = .ok results) : Forall₂ (Filled store direct) records results := by
  rw [materializeContextRecords, if_neg (by decide)] at done
  have resources : (records.mapM fun record => do
      let resource ← isResource record
      .ok (record.uri, resource)) = .ok (records.map fun record =>
        (record.uri, decide ((normalizedUri record.uri).head? = some "resources".toList))) := by
    refine mapM_ok fun record member => ?_
    obtain ⟨parts, plain, shape⟩ := shapes record member
    rw [isResource_canonical plain shape, ok_bind, shape, normalizedUri_canonical plain]
  rw [resources, ok_bind] at done
  dsimp only at done
  generalize uris_eq : ((List.filter Prod.snd (records.map fun record =>
    (record.uri, decide ((normalizedUri record.uri).head? = some "resources".toList)))).map Prod.fst).eraseDups = uris at done
  have inUris : ∀ record ∈ records, ∀ parts, Resource parts → record.uri = canonical parts → canonical parts ∈ uris := by
    intro record member parts resource shape
    rw [← uris_eq, mem_eraseDups]
    refine mem_map.mpr ⟨(record.uri, true), mem_filter.mpr ⟨mem_map.mpr ⟨record, member, ?_⟩, rfl⟩, shape⟩
    rw [shape, normalizedUri_canonical resource.plain, decide_eq_true resource.scope]
  have ofUris : ∀ uri ∈ uris, ∃ parts, Resource parts ∧ uri = canonical parts := by
    intro uri member
    rw [← uris_eq, mem_eraseDups] at member
    obtain ⟨entry, inside, rfl⟩ := mem_map.mp member
    obtain ⟨inside, scope⟩ := mem_filter.mp inside
    obtain ⟨record, there, rfl⟩ := mem_map.mp inside
    obtain ⟨parts, plain, shape⟩ := shapes record there
    refine ⟨parts, ⟨plain, ?_⟩, shape⟩
    rw [shape, normalizedUri_canonical plain] at scope
    exact of_decide_eq_true scope
  split at done
  next none' =>
    cases done
    refine forall₂_same.mpr fun record member => ⟨rfl, rfl, fun parts resource shape => ?_, fun parts resource shape => ?_⟩
    all_goals
      have there := inUris record member parts resource shape
      rw [none'] at there
      cases there
  next =>
    have known : mapUris (groupedUris (store.recordsForUris uris)) (fun uri =>
        effectiveFromRecords (groupByUri (store.recordsForUris uris) uri)) =
          .ok ((groupedUris (store.recordsForUris uris)).map fun uri => (uri, effectiveAcl direct (normalizedUri uri))) := by
      refine mapUris_ok fun uri member => ?_
      obtain ⟨-, record, inside, rfl⟩ := (mem_groupedUris _ _).mp member
      obtain ⟨parts, resource, shape⟩ := ofUris record.uri (mem_recordsForUris sound ofUris inside).2
      rw [shape, sound.group (fun other there => (mem_recordsForUris sound ofUris there).1) resource ⟨record, inside, shape⟩,
        normalizedUri_canonical resource.plain]
    rw [known, ok_bind] at done
    generalize acls_eq : ((groupedUris (store.recordsForUris uris)).map fun uri => (uri, effectiveAcl direct (normalizedUri uri))) =
      acls at done
    have valueOf_acls : ∀ parts, Resource parts → canonical parts ∈ uris →
        valueOf acls (canonical parts) = if Indexed store parts then some (effectiveAcl direct parts) else none := by
      intro parts resource asked
      rw [← acls_eq, valueOf_map, normalizedUri_canonical resource.plain]
      refine if_congr ?_ rfl rfl
      rw [mem_groupedUris]
      constructor
      · rintro ⟨-, record, inside, same⟩
        exact ⟨record, (mem_filter.mp inside).1, same⟩
      · rintro ⟨record, there, same⟩
        exact ⟨canonical_ne_nil parts, record, mem_filter.mpr ⟨there, any_eq_true.mpr ⟨_, asked, by simp [same]⟩⟩, same⟩
    generalize new_eq : uris.filter (fun uri => (valueOf acls uri).isNone) = newUris at done
    have parents : mapUris newUris (fun uri => do
        let ancestors ← aclAncestors uri
        .ok (parentOf ancestors)) =
          .ok (newUris.map fun uri => (uri, parentOf ((prefixes (normalizedUri uri)).map canonical))) := by
      refine mapUris_ok fun uri member => ?_
      rw [← new_eq] at member
      obtain ⟨parts, resource, rfl⟩ := ofUris uri (mem_filter.mp member).1
      rw [aclAncestors_canonical resource, ok_bind, normalizedUri_canonical resource.plain]
    rw [parents, ok_bind] at done
    generalize asked_eq : (newUris.map fun uri =>
      (uri, parentOf ((prefixes (normalizedUri uri)).map canonical))).filterMap Prod.snd = asked at done
    have above : ∀ uri ∈ asked, ∃ parts, Resource parts ∧ uri = canonical parts := by
      intro uri member
      rw [← asked_eq, filterMap_map] at member
      obtain ⟨below, inside, parent⟩ := mem_filterMap.mp member
      rw [← new_eq] at inside
      obtain ⟨parts, resource, rfl⟩ := ofUris below (mem_filter.mp inside).1
      rw [Function.comp_apply, normalizedUri_canonical resource.plain, parentOf_ancestors] at parent
      split at parent
      · cases parent
      next below => exact ⟨parts.dropLast, resource.of_prefix (List.dropLast_prefix parts) below, (Option.some.inj parent).symm⟩
    obtain ⟨parentAcl, resolved, done⟩ := bind_ok_iff.mp done
    refine ((forall₂_and_left ..).mpr ⟨fun record member => member, mapM_ok_iff.mp done⟩).imp ?_
    rintro record result ⟨member, computed⟩
    split at computed
    next outside =>
      cases computed
      refine ⟨rfl, rfl, fun parts resource shape => ?_, fun parts resource shape => ?_⟩
      all_goals exact absurd (shape ▸ inUris record member parts resource shape) outside
    next inside =>
      obtain ⟨own, resource, shape⟩ := ofUris record.uri (not_not.mp inside)
      have asked' := not_not.mp inside
      rw [shape] at asked'
      rw [shape, valueOf_acls own resource asked'] at computed
      by_cases indexed : Indexed store own
      · rw [if_pos indexed] at computed
        cases computed
        refine ⟨rfl, shape.symm, fun parts other same _ => ?_, fun parts other same bare => ?_⟩
        · obtain rfl := (canonical_inj resource.plain other.plain).mp (shape.symm.trans same)
          exact hasFields_setFields _ _
        · obtain rfl := (canonical_inj resource.plain other.plain).mp (shape.symm.trans same)
          exact absurd indexed bare
      · rw [if_neg indexed] at computed
        dsimp only at computed
        obtain ⟨acl, filled, stored⟩ := bind_ok_iff.mp computed
        cases stored
        have inNew : canonical own ∈ newUris := by
          rw [← new_eq]
          exact mem_filter.mpr ⟨asked', by rw [valueOf_acls own resource asked', if_neg indexed]; rfl⟩
        have parent : valueOf (newUris.map fun uri => (uri, parentOf ((prefixes (normalizedUri uri)).map canonical))) (canonical own) =
            some (if own.dropLast = [] then none else some (canonical own.dropLast)) := by
          rw [valueOf_map, if_pos inNew, normalizedUri_canonical resource.plain, parentOf_ancestors]
        refine ⟨rfl, shape.symm, fun parts other same known => ?_, fun parts other same _ => ⟨acl, ?_, hasFields_setFields _ _⟩⟩
        · obtain rfl := (canonical_inj resource.plain other.plain).mp (shape.symm.trans same)
          exact absurd known indexed
        · obtain rfl := (canonical_inj resource.plain other.plain).mp (shape.symm.trans same)
          rw [parent, Option.join_some] at filled
          by_cases top : own.dropLast = []
          · rw [if_pos top] at filled
            rwa [inheritedAcl_top direct top]
          · rw [if_neg top] at filled
            dsimp only at filled
            rwa [sound.parentPermissions above resolved resource top] at filled
            rw [← asked_eq]
            refine mem_filterMap.mpr ⟨_, mem_map_of_mem inNew, ?_⟩
            rw [normalizedUri_canonical resource.plain, parentOf_ancestors, if_neg top]

def manageBy (principal : Principal) : DirectAcl := ofList [(principal, .manage)]

theorem manageBy_le_iff {principal : Principal} {grants : Grants} :
    (manageBy principal).ranks ≤ grants ↔ (AclLevel.manage : WithBot AclLevel) ≤ grants principal := by
  rw [manageBy, ranks_ofList]
  constructor
  · intro below
    have here := below principal
    rwa [rankOf, if_pos rfl, rankOf, sup_bot_eq] at here
  · intro here other
    rw [rankOf, rankOf]
    split
    next same =>
      rw [← same, sup_bot_eq]
      exact here
    next => exact bot_le

section

variable (record : ContextRecord)

def grantee : Option (Principal × CreatorAclGrant) :=
  match record.user.filter (· ≠ []), record.creatorGrant with
  | some creator, some grant => (toPrincipal ("user:" ++ creator)).toOption.map fun principal => (principal, grant)
  | _, _ => none

def directGrant : DirectAcl :=
  match grantee record with
  | some (principal, .direct) => manageBy principal
  | _ => .empty

def inheritedGrant : DirectAcl :=
  match grantee record with
  | some (principal, .inherited) => manageBy principal
  | _ => .empty

end

theorem union_empty (acl : DirectAcl) : acl.union .empty = acl := ext_ranks (by rw [ranks_union, ranks_empty, sup_bot_eq])

theorem newEffective_ok {inherited : DirectAcl} {acl : EffectiveAcl}
    (done : newEffective inherited record = .ok acl) :
    acl = .of (directGrant record) (inherited.union (inheritedGrant record)) := by
  rw [directGrant, inheritedGrant, grantee]
  rw [newEffective] at done
  generalize record.user.filter (· ≠ []) = maker at done ⊢
  generalize record.creatorGrant = grant at done ⊢
  cases maker with
  | none =>
    cases done
    rw [union_empty]
  | some creator =>
    cases grant with
    | none =>
      cases done
      rw [union_empty]
    | some side =>
      cases side with
      | direct =>
        obtain ⟨acl', made, done⟩ := bind_ok_iff.mp done
        cases done
        obtain ⟨principal, named, made⟩ := bind_ok_iff.mp made
        cases made
        dsimp only
        rw [named]
        exact congrArg (EffectiveAcl.of _) (union_empty inherited).symm
      | inherited =>
        obtain ⟨acl', made, done⟩ := bind_ok_iff.mp done
        cases done
        obtain ⟨principal, named, made⟩ := bind_ok_iff.mp made
        cases made
        dsimp only
        rw [named]
        rfl

def New (store : ContextStore) (records : List ContextRecord) (parts : List Text) (record : ContextRecord) : Prop :=
  record ∈ records ∧ record.uri = canonical parts ∧ Resource parts ∧ ¬ Indexed store parts

def ManagedAbove (direct : List Text → DirectAcl) (parts : List Text) (principal : Principal) : Prop :=
  (AclLevel.manage : WithBot AclLevel) ≤ reference direct parts.dropLast principal

structure GrantsFit (store : ContextStore) (direct : List Text → DirectAcl) (records : List ContextRecord) : Prop where
  alike : ∀ parts first second, New store records parts first → New store records parts second → grantee first = grantee second
  known : ∀ above record, New store records above record → ∀ principal, grantee record = some (principal, .direct) →
    ∀ parts, Resource parts → above <+: parts.dropLast → Indexed store parts → ManagedAbove direct parts principal
  passed : ∀ above record, New store records above record → ∀ principal, grantee record = some (principal, .direct) →
    ∀ parts other, above <+: parts.dropLast → New store records parts other →
      ManagedAbove direct parts principal ∨ grantee other = some (principal, .inherited)
  backed : ∀ parts record, New store records parts record → ∀ principal, grantee record = some (principal, .inherited) →
    ManagedAbove direct parts principal ∨
      ∃ above other, New store records above other ∧ above <+: parts.dropLast ∧ grantee other = some (principal, .direct)

def withCreators (store : ContextStore) (direct : List Text → DirectAcl) (records : List ContextRecord) (parts : List Text) : DirectAcl :=
  if Indexed store parts then direct parts
  else match records.find? fun record => record.uri = canonical parts with
    | some record => directGrant record
    | none => .empty

variable {records : List ContextRecord}

theorem withCreators_new (fits : GrantsFit store direct records)
    (new : New store records parts record) : withCreators store direct records parts = directGrant record := by
  obtain ⟨member, shape, resource, bare⟩ := new
  rw [withCreators, if_neg bare]
  cases found : records.find? fun record => record.uri = canonical parts with
  | none => exact absurd (decide_eq_true shape) (find?_eq_none.mp found record member)
  | some first =>
    have there := mem_of_find?_eq_some found
    have same : first.uri = canonical parts := by simpa using find?_some found
    dsimp only
    rw [directGrant, directGrant, fits.alike parts first record ⟨there, same, resource, bare⟩ ⟨member, shape, resource, bare⟩]

theorem withCreators_le (fits : GrantsFit store direct records) {other : List Text} (resource : Resource other)
    {bound : Grants} (old : (direct other).ranks ≤ bound)
    (made : ∀ record principal, New store records other record → grantee record = some (principal, .direct) →
      (AclLevel.manage : WithBot AclLevel) ≤ bound principal) : (withCreators store direct records other).ranks ≤ bound := by
  by_cases indexed : Indexed store other
  · rwa [withCreators, if_pos indexed]
  · by_cases some' : ∃ record ∈ records, record.uri = canonical other
    · obtain ⟨record, member, shape⟩ := some'
      have new : New store records other record := ⟨member, shape, resource, indexed⟩
      rw [withCreators_new fits new, directGrant]
      split
      next principal grants => exact manageBy_le_iff.mpr (made record principal new grants)
      next => exact bot_le
    · rw [withCreators, if_neg indexed, find?_eq_none.mpr]
      · exact bot_le
      · intro record member same
        exact some' ⟨record, member, of_decide_eq_true same⟩

section

variable (sound : Sound store direct)

include sound

theorem Sound.le_withCreators (records : List ContextRecord) (resource : Resource parts) :
    (direct parts).ranks ≤ (withCreators store direct records parts).ranks := by
  by_cases indexed : Indexed store parts
  · rw [withCreators, if_pos indexed]
  · rw [sound.unindexed parts resource fun record there same => indexed ⟨record, there, same⟩]
    exact bot_le

theorem Sound.reference_le_withCreators (records : List ContextRecord)
    (resource : Resource parts) :
    reference direct parts.dropLast ≤ reference (withCreators store direct records) parts.dropLast := by
  refine reference_le_iff.mpr fun other filled starts => ?_
  have own := resource.of_prefix (starts.trans (List.dropLast_prefix parts)) filled
  exact (sound.le_withCreators records own).trans (le_reference _ filled starts)

theorem Sound.reference_known (fits : GrantsFit store direct records) (resource : Resource parts) (indexed : Indexed store parts) :
    reference (withCreators store direct records) parts.dropLast = reference direct parts.dropLast := by
  refine le_antisymm (reference_le_iff.mpr fun other filled starts => ?_) (sound.reference_le_withCreators records resource)
  have own := resource.of_prefix (starts.trans (List.dropLast_prefix parts)) filled
  exact withCreators_le fits own (le_reference direct filled starts) fun record principal new grants =>
    fits.known other record new principal grants parts resource starts indexed

theorem Sound.reference_new (fits : GrantsFit store direct records) (new : New store records parts record) :
    reference (withCreators store direct records) parts.dropLast = reference direct parts.dropLast ⊔ (inheritedGrant record).ranks := by
  have resource := new.2.2.1
  refine le_antisymm (reference_le_iff.mpr fun other filled starts => ?_)
    (sup_le (sound.reference_le_withCreators records resource) ?_)
  · have own := resource.of_prefix (starts.trans (List.dropLast_prefix parts)) filled
    refine withCreators_le fits own ((le_reference direct filled starts).trans le_sup_left) fun above principal there grants => ?_
    rcases fits.passed other above there principal grants parts record starts new with managed | inherited
    · exact managed.trans le_sup_left
    · have given : (inheritedGrant record).ranks = (manageBy principal).ranks := by rw [inheritedGrant, inherited]
      refine le_trans ?_ (le_sup_right (a := reference direct parts.dropLast principal))
      rw [given]
      exact manageBy_le_iff.mp le_rfl
  · rw [inheritedGrant]
    split
    next principal grants =>
      refine manageBy_le_iff.mpr ?_
      rcases fits.backed parts record new principal grants with managed | ⟨above, other, there, starts, given⟩
      · exact managed.trans (sound.reference_le_withCreators records resource principal)
      · have here := le_reference (withCreators store direct records) there.2.2.1.filled starts
        rw [withCreators_new fits there, directGrant, given] at here
        exact manageBy_le_iff.mp here
    next => exact bot_le

end

section

variable {records results : List ContextRecord} (filled : Forall₂ (Filled store direct) records results)

include filled

theorem Filled.ids :
    results.map ContextRecord.id = records.map ContextRecord.id := by
  induction filled with
  | nil => rfl
  | cons first _ ih => rw [map_cons, map_cons, first.id, ih]

theorem Filled.uris :
    results.map ContextRecord.uri = records.map ContextRecord.uri := by
  induction filled with
  | nil => rfl
  | cons first _ ih => rw [map_cons, map_cons, first.uri, ih]

theorem Filled.source {result : ContextRecord} (member : result ∈ results) : ∃ record ∈ records, Filled store direct record result := by
  induction filled with
  | nil => cases member
  | cons first _ ih =>
    rcases mem_cons.mp member with rfl | later
    · exact ⟨_, mem_cons_self, first⟩
    · obtain ⟨record, there, own⟩ := ih later
      exact ⟨record, mem_cons_of_mem _ there, own⟩

end

structure WellPlaced (store : ContextStore) (records : List ContextRecord) : Prop where
  ids : (records.map ContextRecord.id).Nodup
  places : ∀ old ∈ store, ∀ record ∈ records, old.id = record.id → old.uri = record.uri
  shapes : ∀ record ∈ records, ∃ parts, Plain parts ∧ record.uri = canonical parts

theorem Sound.fill (sound : Sound store direct) {records results : List ContextRecord} (placed : WellPlaced store records)
    (fits : GrantsFit store direct records) (filled : Forall₂ (Filled store direct) records results) :
    Sound (store.upsertMany results) (withCreators store direct records) := by
  have ids := Filled.ids filled
  refine sound.upsertMany (ids ▸ placed.ids) (fun old there result inside same => ?_) (fun result inside => ?_)
    (fun result inside parts own shape => ?_) (fun old there _ parts own shape => ?_) fun parts own bare none' => ?_
  · obtain ⟨record, member, own⟩ := Filled.source filled inside
    rw [own.uri]
    exact placed.places old there record member (same.trans own.id)
  · obtain ⟨record, member, own⟩ := Filled.source filled inside
    rw [own.uri]
    exact placed.shapes record member
  · obtain ⟨record, member, from'⟩ := Filled.source filled inside
    have place : record.uri = canonical parts := from'.uri.symm.trans shape
    by_cases indexed : Indexed store parts
    · have same : effectiveAcl (withCreators store direct records) parts = effectiveAcl direct parts :=
        effectiveAcl_congr (if_pos indexed) (sound.reference_known fits own indexed)
      rw [same]
      exact from'.known parts own place indexed
    · have new : New store records parts record := ⟨member, place, own, indexed⟩
      obtain ⟨acl, made, fields⟩ := from'.fresh parts own place indexed
      have same : effectiveAcl (withCreators store direct records) parts = acl := by
        rw [newEffective_ok made, effectiveAcl, withCreators_new fits new]
        refine congrArg (EffectiveAcl.of _) (ext_ranks ?_)
        rw [ranks_inheritedAcl, sound.reference_new fits new, ranks_union, ranks_inheritedAcl]
      rwa [same]
  · have indexed : Indexed store parts := ⟨old, there, shape⟩
    exact effectiveAcl_congr (if_pos indexed) (sound.reference_known fits own indexed)
  · rw [withCreators, if_neg fun indexed => bare _ indexed.choose_spec.1 indexed.choose_spec.2, find?_eq_none.mpr]
    intro record member same
    have there : canonical parts ∈ results.map ContextRecord.uri := by
      rw [Filled.uris filled]
      exact mem_map.mpr ⟨record, member, of_decide_eq_true same⟩
    obtain ⟨result, inside, shape⟩ := mem_map.mp there
    exact none' result inside shape

end LoginomDock.Access
