import LoginomDock.Library.Runs
import LoginomDock.Access.MovedRecords

/-! Setting, refreshing, storing and moving, in any order: the records hold what the tree of the resources permits. -/

namespace LoginomDock.Access

open AclManager List

def directOf (store : ContextStore) (parts : List Text) : DirectAcl :=
  match store.find? fun record => record.uri = canonical parts with
  | some record => (fromContextFields record.directGrants).toOption.getD .empty
  | none => .empty

def Materialized (store : ContextStore) : Prop := Sound store (directOf store)

theorem effectiveAcl_direct (direct : List Text → DirectAcl) (parts : List Text) : (effectiveAcl direct parts).direct = direct parts := rfl

variable {store : ContextStore} {parts : List Text}

theorem Sound.directOf {direct : List Text → DirectAcl} (sound : Sound store direct)
    (resource : Resource parts) : directOf store parts = direct parts := by
  rw [LoginomDock.Access.directOf]
  cases found : store.find? fun record => record.uri = canonical parts with
  | none =>
    refine (sound.unindexed parts resource fun record there same => ?_).symm
    exact find?_eq_none.mp found record there (decide_eq_true same)
  | some record =>
    have shape : record.uri = canonical parts := by simpa using find?_some found
    have fields := sound.fields record (mem_of_find?_eq_some found) parts resource shape
    dsimp only
    rw [fields.direct, fromContextFields_encode, toOption_ok, Option.getD_some, effectiveAcl_direct]

theorem Sound.congr {direct other : List Text → DirectAcl} (sound : Sound store direct)
    (same : ∀ parts, Resource parts → other parts = direct parts) : Sound store other := by
  refine ⟨sound.shape, fun record member parts own shape => ?_, fun parts own bare => ?_, sound.ids⟩
  · rw [effectiveAcl_congr (same parts own)]
    · exact sound.fields record member parts own shape
    · exact reference_congr fun above filled starts => same above (own.of_prefix (starts.trans (List.dropLast_prefix parts)) filled)
  · rw [same parts own]
    exact sound.unindexed parts own bare

theorem Sound.materialized' {direct : List Text → DirectAcl} (sound : Sound store direct) : Materialized store :=
  sound.congr fun _ resource => sound.directOf resource

structure MeetsReference (store : ContextStore) : Prop where
  inherited : ∀ record ∈ store, ∀ parts, Resource parts → record.uri = canonical parts →
    ∃ acl : DirectAcl, record.inheritedGrants = acl.entries.map encodeGrant ∧ acl.ranks = reference (directOf store) parts.dropLast
  direct : ∀ record ∈ store, ∀ parts, Resource parts → record.uri = canonical parts →
    record.directGrants = (directOf store parts).entries.map encodeGrant
  enabled : ∀ record ∈ store, ∀ parts, Resource parts → record.uri = canonical parts →
    (record.aclEnabled = true ↔ record.directGrants ≠ [] ∨ record.inheritedGrants ≠ [])
  resolved : ∀ uris : List Text, (∀ uri ∈ uris, ∃ parts, uriParts uri = .ok parts ∧ Resource parts) →
    ∃ result, resolveMany store uris = .ok result ∧ ∀ uri ∈ uris, ∀ parts, uriParts uri = .ok parts →
      ∃ acl, valueOf result uri = some acl ∧ (acl.permissions.ranks = reference (directOf store) parts ↔
        uri = canonical parts ∨ (directOf store parts).ranks ≤ reference (directOf store) parts.dropLast)

theorem ranks_resolvedAcl (direct : List Text → DirectAcl) (uri : Text) (filled : parts ≠ []) :
    (resolvedAcl direct uri parts).permissions.ranks = reference direct parts ↔
      uri = canonical parts ∨ (direct parts).ranks ≤ reference direct parts.dropLast := by
  rw [resolvedAcl]
  split
  next spelled => simp [spelled, ranks_permissions direct filled]
  next other =>
    rw [or_iff_right other, EffectiveAcl.permissions, EffectiveAcl.of, Ranked.ranks_union, Ranked.ranks_empty, sup_bot_eq,
      ranks_inheritedAcl, reference_split direct filled, left_eq_sup]

theorem Materialized.meetsReference (sound : Materialized store) : MeetsReference store := by
  refine ⟨fun record member parts own shape => ?_, fun record member parts own shape => (sound.fields record member parts own shape).direct,
    fun record member parts own shape => ?_, fun uris resources => ?_⟩
  · exact ⟨inheritedAcl (directOf store) parts, (sound.fields record member parts own shape).inherited, ranks_inheritedAcl _ _⟩
  · have fields := sound.fields record member parts own shape
    rw [fields.enabled, fields.direct, fields.inherited]
    simp [effectiveAcl, EffectiveAcl.of, DirectAcl.isEmpty, or_comm]
  · obtain ⟨result, done, values⟩ := sound.resolveMany_spelled resources
    refine ⟨result, done, fun uri member parts read => ⟨_, values uri member parts read, ?_⟩⟩
    obtain ⟨own, readOwn, resource⟩ := resources uri member
    obtain rfl : own = parts := Except.ok.inj (readOwn.symm.trans read)
    exact ranks_resolvedAcl (directOf store) uri resource.filled

inductive AclStep where
  | setDirect (uri : Text) (entries : List (Text × Text))
  | refresh (uri : Text)
  /-- Records materialized and written; whether the account has lists -/
  | store (enabled : Bool) (records : List ContextRecord)
  | move (files : Move)

namespace AclStep

def apply (store : ContextStore) : AclStep → Except AclError ContextStore
  | setDirect uri entries => AclManager.setDirect store uri entries
  | refresh uri => refreshContextSubtree store uri
  | .store enabled records => do
      let written ← materializeContextRecords store enabled records
      .ok (store.upsertMany written)
  | .move files => updateUriMapping store files.uri files.newUri files.chosen files.newId

-- A step that fails writes nothing.
def next (store : ContextStore) (step : AclStep) : ContextStore :=
  match step.apply store with
  | .ok after => after
  | .error _ => store

def Touches (uri : Text) : AclStep → Prop
  | setDirect root _ => normalizedUri root <+: normalizedUri uri
  | refresh root => normalizedUri root <+: normalizedUri uri
  | .store _ records => uri ∈ records.map ContextRecord.uri
  | .move files => uri = files.uri ∨ uri = files.newUri

def Fits (store : ContextStore) : AclStep → Prop
  | setDirect _ _ => True
  | refresh _ => True
  | .store true records => WellPlaced store records ∧ GrantsFit store (directOf store) records
  | .store false records => WellPlaced store records ∧ ∀ record ∈ records, ∀ parts, Resource parts → record.uri = canonical parts →
      HasFields record (effectiveAcl (directOf store) parts)
  | .move files => files.WellPlaced store ∧ files.GrantsFit store (directOf store)

end AclStep

def runAcl (start : ContextStore) (steps : List AclStep) : ContextStore := steps.foldl AclStep.next start

variable {record : ContextRecord}

theorem Untouched.touches {root : List Text} (plain : Plain root) {before after : ContextStore} (untouched : Untouched root before after) (apart : ¬ normalizedUri (canonical root) <+: normalizedUri record.uri) : record ∈ after ↔ record ∈ before := by
  rw [normalizedUri_canonical plain] at apart
  exact untouched record apart

theorem applySubtree_step {store after : ContextStore} (sound : Materialized store) {uri : Text} {rootDirect : Option DirectAcl}
    (done : applySubtree store uri (store.subtreeRecords uri) rootDirect = .ok after) :
    Materialized after ∧ ∀ record : ContextRecord, ¬ normalizedUri uri <+: normalizedUri record.uri → (record ∈ after ↔ record ∈ store) := by
  obtain ⟨root, resource, rfl, untouched, later⟩ := Sound.applySubtree sound done
  exact ⟨later.materialized', fun record apart => untouched.touches resource.plain apart⟩

theorem WellPlaced.untouched {records written : List ContextRecord} (placed : WellPlaced store records)
    (ids : written.map ContextRecord.id = records.map ContextRecord.id) (uris : written.map ContextRecord.uri = records.map ContextRecord.uri) (apart : record.uri ∉ records.map ContextRecord.uri) : record ∈ store.upsertMany written ↔ record ∈ store := by
  rw [ContextStore.mem_upsertMany (ids ▸ placed.ids), ids]
  constructor
  · rintro (inside | ⟨there, -⟩)
    · exact absurd (uris ▸ mem_map_of_mem inside) apart
    · exact there
  · intro there
    refine .inr ⟨there, fun known => apart ?_⟩
    obtain ⟨other, inside, same⟩ := mem_map.mp known
    rw [placed.places record there other inside same.symm]
    exact mem_map_of_mem inside

theorem store_step {store written : ContextStore} (sound : Materialized store) {enabled : Bool} {records : List ContextRecord}
    (fits : (AclStep.store enabled records).Fits store) (done : materializeContextRecords store enabled records = .ok written) :
    Materialized (store.upsertMany written) ∧
      ∀ record : ContextRecord, record.uri ∉ records.map ContextRecord.uri → (record ∈ store.upsertMany written ↔ record ∈ store) := by
  cases enabled with
  | true =>
    obtain ⟨placed, grants⟩ := fits
    have filled := Sound.materialized sound placed.shapes done
    exact ⟨(Sound.fill sound placed grants filled).materialized',
      fun record apart => placed.untouched (Filled.ids filled) (Filled.uris filled) apart⟩
  | false =>
    obtain ⟨placed, held⟩ := fits
    cases done
    have ids : (records.map fun record => { record with creatorGrant := none }).map ContextRecord.id = records.map ContextRecord.id := by
      rw [map_map]
      rfl
    have uris : (records.map fun record => { record with creatorGrant := none }).map ContextRecord.uri = records.map ContextRecord.uri := by
      rw [map_map]
      rfl
    refine ⟨(@Sound.upsertMany store _ sound (directOf store) _ (ids ▸ placed.ids) (fun old there result inside same => ?_)
      (fun result inside => ?_) (fun result inside parts own shape => ?_) (fun _ _ _ _ _ _ => rfl)
      fun parts own bare _ => sound.unindexed parts own bare).materialized', fun record apart => placed.untouched ids uris apart⟩
    · obtain ⟨record, member, rfl⟩ := mem_map.mp inside
      exact placed.places old there record member same
    · obtain ⟨record, member, rfl⟩ := mem_map.mp inside
      exact placed.shapes record member
    · obtain ⟨record, member, rfl⟩ := mem_map.mp inside
      obtain ⟨one, two, three⟩ := held record member parts own shape
      exact ⟨one, two, three⟩

theorem move_step {store after : ContextStore} (sound : Materialized store) {files : Move} (fits : (AclStep.move files).Fits store)
    (done : updateUriMapping store files.uri files.newUri files.chosen files.newId = .ok after) :
    Materialized after ∧
      ∀ record : ContextRecord, ¬ (record.uri = files.uri ∨ record.uri = files.newUri) → (record ∈ after ↔ record ∈ store) := by
  obtain ⟨placed, grants⟩ := fits
  refine ⟨(Sound.moved sound placed grants done).materialized', fun record apart => ?_⟩
  rw [Sound.updateUriMapping_eq sound placed] at done
  cases done
  rw [Move.mem_moved sound.ids placed]
  constructor
  · rintro (new | stays)
    · obtain ⟨old, -, rfl⟩ := mem_map.mp new
      exact absurd (.inr rfl) apart
    · exact (mem_filter.mp stays).1
  · intro there
    refine .inr (mem_filter.mpr ⟨there, decide_eq_true ⟨fun moved => apart (.inl (Move.mem_records.mp moved).2.1), fun known => ?_⟩⟩)
    obtain ⟨moved, inside, same⟩ := mem_map.mp known
    exact apart (.inr (placed.places record there moved inside same.symm))

theorem step_materialized (sound : Materialized store) {step : AclStep} (fits : step.Fits store) :
    Materialized (step.next store) ∧
      ∀ record : ContextRecord, ¬ step.Touches record.uri → (record ∈ step.next store ↔ record ∈ store) := by
  rw [AclStep.next]
  cases done : step.apply store with
  | error failure => exact ⟨sound, fun _ _ => Iff.rfl⟩
  | ok after =>
    cases step with
    | setDirect uri entries =>
      rw [AclStep.apply, setDirect] at done
      obtain ⟨parts, -, done⟩ := bind_ok_iff.mp done
      split at done
      · cases done
      next =>
        obtain ⟨proposed, -, done⟩ := bind_ok_iff.mp done
        exact applySubtree_step sound done
    | refresh uri =>
      rw [AclStep.apply, refreshContextSubtree] at done
      split at done
      · cases done
        exact ⟨sound, fun _ _ => Iff.rfl⟩
      · exact applySubtree_step sound done
    | store enabled records =>
      obtain ⟨written, materialized, done⟩ := bind_ok_iff.mp done
      cases done
      exact store_step sound fits materialized
    | move files => exact move_step sound fits done

section

variable {start : ContextStore} {steps : List AclStep} (sound : Materialized start)
  (fits : AtEach steps fun before step => step.Fits (runAcl start before))

include sound fits

theorem run_materialized : Materialized (runAcl start steps) := by
  induction steps using List.reverseRecOn with
  | nil => exact sound
  | append_singleton before last ih =>
    obtain ⟨earlier, here⟩ := (atEach_append_singleton before last _).mp fits
    rw [runAcl, foldl_append]
    exact (step_materialized (ih earlier) here).1

theorem acl_runs_materialized :
    MeetsReference (runAcl start steps) ∧ AtEach steps fun before step => MeetsReference (runAcl start before) ∧
      ∀ record : ContextRecord, ¬ step.Touches record.uri → (record ∈ step.next (runAcl start before) ↔ record ∈ runAcl start before) := by
  refine ⟨(run_materialized sound fits).meetsReference, fun before step after split => ?_⟩
  have sub : AtEach before fun earlier step => step.Fits (runAcl start earlier) := by
    intro earlier first later same
    exact fits earlier first (later ++ step :: after) (by rw [split, same]; simp)
  have reached := run_materialized sound sub
  exact ⟨reached.meetsReference, (step_materialized reached (fits before step after split)).2⟩

end

namespace NewFolder

def folder : List Text := ["resources", ['a']]

def file : List Text := ["resources", ['a'], ['b']]

def batch (fileGrant : Option CreatorAclGrant) : List ContextRecord :=
  [{ id := ['1'], uri := canonical folder, user := some "alice".toList, creatorGrant := some .direct },
    { id := ['2'], uri := canonical file, user := some "alice".toList, creatorGrant := fileGrant }]

theorem resource_folder : Resource folder := ⟨by unfold Plain; decide, by decide⟩

theorem resource_file : Resource file := ⟨by unfold Plain; decide, by decide⟩

theorem materialized_nil : Materialized [] :=
  ⟨fun _ member => absurd member not_mem_nil, fun _ member => absurd member not_mem_nil, fun _ _ _ => rfl, nodup_nil⟩

theorem new_cases {fileGrant : Option CreatorAclGrant}
    (new : New [] (batch fileGrant) parts record) :
    (parts = folder ∧ record.user = some "alice".toList ∧ record.creatorGrant = some .direct) ∨
      (parts = file ∧ record.user = some "alice".toList ∧ record.creatorGrant = fileGrant) := by
  obtain ⟨member, shape, resource, -⟩ := new
  rcases mem_cons.mp member with rfl | inside
  · exact .inl ⟨((canonical_inj resource_folder.plain resource.plain).mp shape).symm, rfl, rfl⟩
  · obtain rfl := mem_singleton.mp inside
    exact .inr ⟨((canonical_inj resource_file.plain resource.plain).mp shape).symm, rfl, rfl⟩

theorem grantee_alice {side : CreatorAclGrant} (user : record.user = some "alice".toList)
    (grant : record.creatorGrant = some side) :
    grantee record = (toPrincipal "user:alice").toOption.map fun principal => (principal, side) := by
  rw [grantee, user, grant]
  rfl

theorem batch_fits : (AclStep.store true (batch (some .inherited))).Fits [] := by
  refine ⟨⟨by decide, fun old member => absurd member not_mem_nil, fun record member => ?_⟩,
    fun parts first second one two => ?_, fun _ _ _ _ _ _ _ _ indexed => ?_, fun place record new principal grants parts other starts fresh => ?_,
    fun parts record new principal grants => ?_⟩
  · rcases mem_cons.mp member with rfl | inside
    · exact ⟨folder, resource_folder.plain, rfl⟩
    · obtain rfl := mem_singleton.mp inside
      exact ⟨file, resource_file.plain, rfl⟩
  · rcases new_cases one with ⟨rfl, user, grant⟩ | ⟨rfl, user, grant⟩
    · rcases new_cases two with ⟨-, owner, given⟩ | ⟨same, -⟩
      · rw [grantee_alice user grant, grantee_alice owner given]
      · exact absurd same (by decide)
    · rcases new_cases two with ⟨same, -⟩ | ⟨-, owner, given⟩
      · exact absurd same (by decide)
      · rw [grantee_alice user grant, grantee_alice owner given]
  · obtain ⟨record, member, -⟩ := indexed
    cases member
  · rcases new_cases new with ⟨rfl, user, grant⟩ | ⟨rfl, user, grant⟩
    · rw [grantee_alice user grant] at grants
      obtain ⟨named, isAlice, same⟩ := Option.map_eq_some_iff.mp grants
      cases same
      rcases new_cases fresh with ⟨rfl, -⟩ | ⟨rfl, owner, given⟩
      · exact absurd starts (by decide)
      · exact .inr (by rw [grantee_alice owner given, isAlice]; rfl)
    · rw [grantee_alice user grant] at grants
      obtain ⟨named, -, same⟩ := Option.map_eq_some_iff.mp grants
      cases same
  · rcases new_cases new with ⟨rfl, user, grant⟩ | ⟨rfl, user, grant⟩
    · rw [grantee_alice user grant] at grants
      obtain ⟨named, -, same⟩ := Option.map_eq_some_iff.mp grants
      cases same
    · rw [grantee_alice user grant] at grants
      obtain ⟨named, isAlice, same⟩ := Option.map_eq_some_iff.mp grants
      cases same
      refine .inr ⟨folder, _, ⟨mem_cons_self, rfl, resource_folder, ?_⟩, by decide, ?_⟩
      · rintro ⟨other, member, -⟩
        cases member
      · rw [grantee_alice rfl rfl, isAlice]
        rfl

def steps : List AclStep := [.store true (batch (some .inherited)), .setDirect (canonical folder) [("user:bob", "read")]]

theorem new_folder_materialized : MeetsReference (runAcl [] steps) ∧ AtEach steps fun before step => MeetsReference (runAcl [] before) ∧
    ∀ record : ContextRecord, ¬ step.Touches record.uri → (record ∈ step.next (runAcl [] before) ↔ record ∈ runAcl [] before) := by
  refine acl_runs_materialized materialized_nil ?_
  rw [steps, atEach_cons, atEach_cons]
  exact ⟨batch_fits, trivial, atEach_nil _⟩

theorem file_misses_creator : Materialized [] ∧ ¬ MeetsReference (runAcl [] [.store true (batch none)]) := by
  refine ⟨materialized_nil, fun meets => ?_⟩
  have stored : ∃ record ∈ runAcl [] [.store true (batch none)], record.uri = canonical file ∧ record.inheritedGrants = [] := by
    decide
  obtain ⟨record, there, shape, bare⟩ := stored
  obtain ⟨acl, inherited, ranks⟩ := meets.inherited record there file resource_file shape
  have empty : acl = .empty := by
    obtain ⟨entries, sorted⟩ := acl
    rw [bare, eq_comm, map_eq_nil_iff] at inherited
    subst inherited
    rfl
  have given : (directOf (runAcl [] [.store true (batch none)]) folder).isEmpty = false := by decide
  have here := le_reference (directOf (runAcl [] [.store true (batch none)])) resource_folder.filled (prefix_rfl)
  rw [show file.dropLast = folder from rfl, empty, Ranked.ranks_empty] at ranks
  rw [← ranks, le_bot_iff, Ranked.ranks_eq_bot] at here
  rw [here] at given
  cases given

end NewFolder

end LoginomDock.Access
