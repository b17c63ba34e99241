import LoginomDock.Access.SameAnswers
import LoginomDock.Filters.ScopePaths

namespace LoginomDock.Filters

open Access Access.AclManager List AclLevel

variable {classes : CharClasses} {store : ContextStore} {ctx : RequestContext} {uri : Text} {parts : List Text}

theorem Stored.read (stored : Stored classes uri parts) : uriParts uri = .ok (cutQuery parts) := uriParts_of_safe stored.safe

variable {scope : Text}

section

variable {below : List Text} (stored : Stored classes uri (scope :: below))

include stored

theorem Stored.known : scope ∈ visitableScopes := by
  by_contra unknown
  obtain ⟨named, valid⟩ := stored.valid
  obtain ⟨message, failed⟩ := vikingScope_unknown (names_joined stored.names) (.inr unknown)
  rw [stored.spelled, canonical, failed] at valid
  cases valid

theorem Stored.read_cons :
    uriParts uri = .ok (scope :: cutQuery below) := by
  rw [stored.read, cutQuery_cons (plain_of_visitable stored.known)]

theorem isAclUri_stored :
    isAclUri uri = .ok (scope = "resources") := by
  rw [isAclUri_eq stored.read_cons, head?_cons]
  simp only [Option.some.injEq]

end

section Shown

variable (nonroot : ctx.role ≠ .root) (alone : ctx.actorPeer = none)

include nonroot alone

theorem isAccessible_stored (stored : Stored classes uri parts) : isAccessible classes uri ctx = shownByScope classes uri parts ctx := by
  rw [isAccessible_eq stored.safe nonroot, isHidden_noPeer alone, ok_bind, if_neg (by decide)]

theorem isAccessible_resource {below : List Text} (stored : Stored classes uri ("resources" :: below))
    (control : isWatchTaskControlUri uri = .ok false) : isAccessible classes uri ctx = .ok true := by
  rw [isAccessible_stored nonroot alone stored, shownByScope.eq_def]
  dsimp only
  rw [control, ok_bind, if_neg (by decide), if_pos rfl]

theorem isAccessible_agent {below : List Text} (stored : Stored classes uri ("agent" :: below))
    (control : isWatchTaskControlUri uri = .ok false) : isAccessible classes uri ctx = .ok true := by
  rw [isAccessible_stored nonroot alone stored, shownByScope.eq_def]
  dsimp only
  rw [control, ok_bind, if_neg (by decide), if_neg (by decide), if_neg (by decide), if_neg (by decide), if_neg (by decide), if_pos rfl, alone]
  cases below <;> simp

theorem isAccessible_user {below : List Text} (stored : Stored classes uri ("user" :: below))
    (control : isWatchTaskControlUri uri = .ok false) : isAccessible classes uri ctx = namespaceIsAccessible uri ctx := by
  rw [isAccessible_stored nonroot alone stored, shownByScope.eq_def]
  dsimp only
  rw [control, ok_bind, if_neg (by decide), if_neg (by decide), if_neg (by decide), if_neg (by decide), if_neg (by decide), if_neg (by decide)]

end Shown

def Owned (ctx : RequestContext) (uri : Text) : Prop := ∃ target, resolveUri uri = .ok target ∧ target.ownerUserId = some ctx.user.userId

theorem accessible_iff_owned {owner : Text} {suffix : List Text} (read : uriParts uri = .ok ("user" :: owner :: suffix))
    (nonroot : ctx.role ≠ .root) : namespaceIsAccessible uri ctx = .ok true ↔ Owned ctx uri := by
  rw [namespaceIsAccessible, if_neg nonroot, Owned]
  cases resolved : resolveUri uri with
  | error error =>
    constructor
    · cases error <;> intro same <;> cases same
    · rintro ⟨target, found, -⟩
      cases found
  | ok target =>
    have inner := resolved
    rw [resolveUri, bind_ok_iff] at inner
    obtain ⟨scope, -, inner⟩ := inner
    rw [read, ok_bind] at inner
    dsimp only at inner
    rw [if_pos rfl] at inner
    obtain ⟨isUser, owned⟩ := resolveUserUri_owner inner
    dsimp only
    rw [isUser, owned, if_neg (by decide), if_neg (by decide), if_pos rfl]
    simp [owned]

theorem keptAcl_of (direct : Text → DirectAcl) {below : List Text} (stored : Stored classes uri ("resources" :: below)) :
    ∃ inherited, keptAcl direct uri = .of (direct uri) inherited := by
  have resource : Resource ("resources" :: cutQuery below) := ⟨plain_of_uriParts stored.read_cons, rfl⟩
  rw [keptAcl, aclAncestors_eq stored.read_cons resource]
  exact ⟨_, rfl⟩

theorem keptAcl_none (direct : Text → DirectAcl) {below : List Text} (stored : Stored classes uri (scope :: below))
    (other : scope ≠ "resources") : keptAcl direct uri = .none := by
  rw [keptAcl, aclAncestors, stored.read_cons, liftUri_ok, ok_bind, if_pos (by simpa using other)]

theorem listAnswer_kept {direct : Text → DirectAcl} {below : List Text} (stored : Stored classes uri ("resources" :: below))
    (some' : ∃ record ∈ store, record.uri = uri)
    (kept : ∀ record ∈ store, record.uri = uri → HasFields record (keptAcl direct uri)) (action : AclLevel) :
    listAnswer classes store ctx action uri =
      if !(keptAcl direct uri).enabled then visible classes ctx uri else .ok (aclAllows (keptAcl direct uri) ctx action) := by
  have resource : Resource ("resources" :: cutQuery below) := ⟨plain_of_uriParts stored.read_cons, rfl⟩
  obtain ⟨inherited, same⟩ := keptAcl_of direct stored
  have group := groupByUri_recordsForUris store (mem_singleton_self uri)
  have filled : groupByUri (store.recordsForUris [uri]) uri ≠ [] := by
    obtain ⟨record, there, own⟩ := some'
    rw [group]
    exact ne_nil_of_mem (mem_filter.mpr ⟨there, decide_eq_true own⟩)
  have effective : effectiveFromRecords (groupByUri (store.recordsForUris [uri]) uri) = .ok (keptAcl direct uri) := by
    rw [same]
    refine effectiveFromRecords_eq filled fun record member => ?_
    rw [group] at member
    obtain ⟨there, own⟩ := mem_filter.mp member
    rw [← same]
    exact kept record there (of_decide_eq_true own)
  have resolved : resolveMany store [uri] = .ok [(uri, keptAcl direct uri)] := by
    rw [resolveMany, show [uri].eraseDups = [uri] from rfl, mapUris_one, aclAncestors_eq stored.read_cons resource]
    dsimp only [map_ok, ok_bind]
    simp only [filter_cons, filter_nil, filled, ne_eq, not_false_eq_true, decide_true, decide_false, if_true,
      Bool.false_eq_true, if_false]
    rw [mapUris_one, effective]
    rfl
  have found : valueOf [(uri, keptAcl direct uri)] uri = some (keptAcl direct uri) := by simp [valueOf]
  rw [listAnswer, resolved, ok_bind, found]
  rfl

theorem reads_disabled (stored : Stored classes uri parts) : Reads classes store ctx false uri ↔ isAccessible classes uri ctx = .ok true := by
  have checked : checkedUri classes uri = .ok true := by rw [checkedUri, stored.safe]
  rw [Reads, canAccessMany, show [uri].eraseDups = [uri] from rfl, mapUris_one, checked]
  dsimp only [map_ok, ok_bind]
  rw [if_pos (by decide), show (List.map Prod.fst (List.filter (fun entry => entry.2) [(uri, true)])) = [uri] from rfl, mapUris_one, visible]
  cases isAccessible classes uri ctx with
  | error _ => simp [liftUri]
  | ok value => simp [liftUri, valueOf]

theorem reads_enabled : Reads classes store ctx true uri ↔ answer classes store ctx .read uri = some true := by
  rw [Reads, answer, Option.bind_eq_some_iff]
  constructor
  · rintro ⟨answers, done, found⟩
    exact ⟨answers, by rw [done]; rfl, found⟩
  · rintro ⟨answers, done, found⟩
    cases whole : canAccessMany classes store ctx .read true [uri] with
    | error _ =>
      rw [whole] at done
      cases done
    | ok all =>
      rw [whole] at done
      cases done
      exact ⟨answers, rfl, found⟩

theorem reads_unlisted {below : List Text} (stored : Stored classes uri (scope :: below)) (other : scope ≠ "resources")
    (control : isWatchTaskControlUri uri = .ok false) : Reads classes store ctx true uri ↔ isAccessible classes uri ctx = .ok true := by
  rw [reads_enabled, answer_eq stored.safe, decided, control, isAclUri_stored stored, decide_eq_false other, liftUri_ok, ok_bind, ok_bind,
    if_pos (by decide), visible]
  cases isAccessible classes uri ctx with
  | error _ => simp [liftUri]
  | ok value => simp [liftUri]

section Listed

variable {below : List Text} (stored : Stored classes uri ("resources" :: below)) (control : isWatchTaskControlUri uri = .ok false)

include stored control

section

variable (noBypass : ctx.bypassAcl = false)

include noBypass

theorem decided_resource : decided classes ctx uri = .ok (if ctx.role = .admin then some true else none) := by
  rw [decided, control, isAclUri_stored stored, liftUri_ok, ok_bind, ok_bind, if_neg (by decide), hasImplicitManage, isAclUri_stored stored,
    ok_bind, ok_bind, noBypass]
  simp

theorem reads_managed (admin : ctx.role = .admin) : Reads classes store ctx true uri := by
  rw [reads_enabled, answer_eq stored.safe, decided_resource stored control noBypass, if_pos admin]
  rfl

theorem reads_listed (notAdmin : ctx.role ≠ .admin) :
    Reads classes store ctx true uri ↔ listAnswer classes store ctx .read uri = .ok true := by
  rw [reads_enabled, answer_eq stored.safe, decided_resource stored control noBypass, if_neg notAdmin, toOption_ok, Option.bind_some,
    Option.none_or]
  cases listAnswer classes store ctx .read uri <;> simp

end

end Listed

theorem mem_aclGrantTokens {principals : List Text} {token : Text} :
    token ∈ aclGrantTokens principals .read ↔ ∃ principal ∈ principals, ∃ level, token = grantToken principal level := by
  have every : ([read, .write, .manage].filter fun level => level.mask &&& AclLevel.read.mask = AclLevel.read.mask) =
      [.read, .write, .manage] := by decide
  rw [aclGrantTokens, every]
  simp only [mem_flatMap, mem_mergeSort, mem_eraseDups, mem_map]
  refine exists_congr fun principal => and_congr_right fun _ => ?_
  constructor
  · rintro ⟨level, -, rfl⟩
    exact ⟨level, rfl⟩
  · rintro ⟨level, rfl⟩
    exact ⟨level, by cases level <;> simp, rfl⟩

theorem grantToken_injective {first second : Text} {firstLevel secondLevel : AclLevel}
    (same : grantToken first firstLevel = grantToken second secondLevel) : first = second ∧ firstLevel = secondLevel := by
  cases firstLevel <;> cases secondLevel <;> simp_all [grantToken, maskText]

theorem token_iff {acl : DirectAcl} : (∃ token ∈ aclGrantTokens (aclPrincipals ctx) .read, token ∈ acl.entries.map encodeGrant) ↔
    ∃ principal : Principal, principal.1 ∈ aclPrincipals ctx ∧ ∃ entry ∈ acl.entries, entry.1 = principal := by
  constructor
  · rintro ⟨token, asked, held⟩
    obtain ⟨entry, inside, rfl⟩ := mem_map.mp held
    obtain ⟨principal, member, level, same⟩ := mem_aclGrantTokens.mp asked
    obtain ⟨own, -⟩ := grantToken_injective (same : grantToken entry.1.1 entry.2 = grantToken principal level)
    exact ⟨entry.1, own ▸ member, entry, inside, rfl⟩
  · rintro ⟨principal, member, entry, inside, rfl⟩
    exact ⟨encodeGrant entry, mem_aclGrantTokens.mpr ⟨entry.1.1, member, entry.2, rfl⟩, mem_map_of_mem inside⟩

theorem aclAllows_iff {direct inherited : DirectAcl} : aclAllows (.of direct inherited) ctx .read = true ↔
    (∃ token ∈ aclGrantTokens (aclPrincipals ctx) .read, token ∈ direct.entries.map encodeGrant) ∨
      ∃ token ∈ aclGrantTokens (aclPrincipals ctx) .read, token ∈ inherited.entries.map encodeGrant := by
  have passes (level : AclLevel) : level.mask &&& AclLevel.read.mask = AclLevel.read.mask := by cases level <;> decide
  have every (acl : DirectAcl) : acl.principalsFor .read = acl.entries.map Prod.fst := by
    rw [DirectAcl.principalsFor, filter_eq_self.mpr fun entry _ => decide_eq_true (passes entry.2)]
  have united : aclAllows (.of direct inherited) ctx .read = true ↔
      ∃ principal : Principal, principal.1 ∈ aclPrincipals ctx ∧ ∃ entry ∈ (inherited.union direct).entries, entry.1 = principal := by
    rw [aclAllows, every, any_eq_true]
    simp only [EffectiveAcl.permissions, EffectiveAcl.of, mem_map, decide_eq_true_eq]
    exact exists_congr fun principal => and_comm
  rw [united, token_iff, token_iff, ← exists_or]
  refine exists_congr fun principal => ?_
  rw [Ranked.mem_union, or_comm, and_or_left]

end LoginomDock.Filters
