import LoginomDock.Filters.SearchAndRead

/-! The scope lets a record through when its uri can be read, and on the resources only then. -/

namespace LoginomDock.Filters

open Access Access.AclManager List SearchRequest

variable {V : Type} [DecidableEq V] {yes : V} {classes : CharClasses} {ctx : RequestContext} {meets : Comparison V} {absent : Bool}

structure PlainCaller (ctx : RequestContext) : Prop where
  role : ctx.role = .user ∨ ctx.role = .admin
  alone : ctx.actorPeer = none
  noBypass : ctx.bypassAcl = false

theorem PlainCaller.nonroot (caller : PlainCaller ctx) : ctx.role ≠ .root := by
  intro root
  rcases caller.role with role | role <;> cases root.symm.trans role

section

variable (ctx : RequestContext)

def readTokens : List Text := aclGrantTokens (aclPrincipals ctx) .read

def InVisibleRoots (uri : Text) : Prop := ∃ root ∈ visibleRoots ctx, Under root uri

def GrantsRead (record : ContextRecord) : Prop :=
  (∃ token ∈ readTokens ctx, token ∈ record.directGrants) ∨ ∃ token ∈ readTokens ctx, token ∈ record.inheritedGrants

def AdmittedByLists (record : ContextRecord) : Prop :=
  (record.aclEnabled = false ∧ InVisibleRoots ctx record.uri) ∨ (Under resourcesRoot record.uri ∧ GrantsRead ctx record) ∨
    Under (canonicalUserRoot ctx ++ "/resources") record.uri ∨ (ctx.role = .admin ∧ Under resourcesRoot record.uri)

def Admitted (enabled : Bool) (record : ContextRecord) : Prop :=
  if enabled then AdmittedByLists ctx record else InVisibleRoots ctx record.uri

end

-- A filter lets a record through; no filter lets every record through.
def Admits (meets : Comparison V) (absent : Bool) (filter : Option (FilterExpr V)) (fields : Text → FieldValue V) : Prop :=
  ∀ expr ∈ filter, satisfies meets absent fields expr = true

theorem admits_mergeFilters {filters : List (FilterExpr V)} {fields : Text → FieldValue V} :
    Admits meets absent (mergeFilters filters) fields ↔ ∀ filter ∈ filters, satisfies meets absent fields filter = true := by
  cases merged : mergeFilters filters with
  | some filter =>
    rw [← satisfies_mergeFilters merged]
    simp [Admits]
  | none =>
    refine iff_of_true (fun filter member => by cases member) fun filter member => ?_
    apply satisfies_of_not_counts
    unfold mergeFilters at merged
    split at merged
    · rename_i nothing
      simpa using filter_eq_nil_iff.mp nothing filter member
    · cases merged
    · cases merged

omit [DecidableEq V] in
theorem tenantFilter_eq (caller : PlainCaller ctx) (enabled : Bool) : tenantFilter yes ctx enabled =
    some (.and [accountIs ctx, .or (if enabled then accessFilters yes ctx else (visibleRoots ctx).map inScope)]) := by
  rw [tenantFilter, if_neg (by simp [caller.noBypass]), if_neg caller.nonroot]
  cases enabled <;> rfl

section Tenant

variable (indexed : IndexedRecord yes classes)

theorem satisfies_legacy : satisfies meets absent indexed.fields (.and [notAclEnabled yes, .or ((visibleRoots ctx).map inScope)]) = true ↔
    indexed.record.aclEnabled = false ∧ InVisibleRoots ctx indexed.record.uri := by
  rw [satisfies_and, forall_mem_cons, forall_mem_singleton, satisfies_notAclEnabled, satisfies_scopes]
  rfl

theorem satisfies_shared : satisfies meets absent indexed.fields (.and [inScope resourcesRoot,
      .or [grantsAmong "acl_direct_grants" (readTokens ctx), grantsAmong "acl_inherited_grants" (readTokens ctx)]]) = true ↔
    Under resourcesRoot indexed.record.uri ∧ GrantsRead ctx indexed.record := by
  have counted : ∀ cond ∈ [grantsAmong (V := V) "acl_direct_grants" (readTokens ctx), grantsAmong "acl_inherited_grants" (readTokens ctx)],
      counts cond = true := by
    rw [forall_mem_cons, forall_mem_singleton]
    exact ⟨rfl, rfl⟩
  rw [satisfies_and, forall_mem_cons, forall_mem_singleton, satisfies_inScope, satisfies_or counted, exists_mem_cons_iff,
    exists_mem_cons_iff, satisfies_direct, satisfies_inherited]
  simp [GrantsRead]

theorem satisfies_accessFilters : satisfies meets absent indexed.fields (.or (accessFilters yes ctx)) = true ↔ AdmittedByLists ctx indexed.record := by
  have manages : (∃ cond ∈ (if ctx.role = .admin then [inScope resourcesRoot] else [] : List (FilterExpr V)),
      satisfies meets absent indexed.fields cond = true) ↔ ctx.role = .admin ∧ Under resourcesRoot indexed.record.uri := by
    by_cases admin : ctx.role = .admin
    · rw [if_pos admin, exists_mem_cons_iff, satisfies_inScope]
      simp [admin]
    · simp [admin]
  have manageCounts : ∀ cond ∈ (if ctx.role = .admin then [inScope resourcesRoot] else [] : List (FilterExpr V)), counts cond = true := by
    intro cond member
    split at member
    · rw [mem_singleton.mp member]
      rfl
    · cases member
  have given : ∀ cond ∈ accessFilters yes ctx, counts cond = true :=
    forall_mem_cons.mpr ⟨rfl, forall_mem_cons.mpr ⟨rfl, forall_mem_cons.mpr ⟨rfl, manageCounts⟩⟩⟩
  rw [satisfies_or given, accessFilters]
  dsimp only [cons_append, nil_append]
  rw [exists_mem_cons_iff, exists_mem_cons_iff, exists_mem_cons_iff, manages, ← readTokens, satisfies_legacy, satisfies_shared,
    satisfies_inScope]
  rfl

theorem satisfies_tenant (enabled : Bool) : satisfies meets absent indexed.fields
      (.and [accountIs ctx, .or (if enabled then accessFilters yes ctx else (visibleRoots ctx).map inScope)]) = true ↔
    indexed.accountId = ctx.user.accountId ∧ Admitted ctx enabled indexed.record := by
  rw [satisfies_and]
  simp only [mem_cons, not_mem_nil, or_false, forall_eq_or_imp, forall_eq, satisfies_accountIs]
  refine and_congr_right fun _ => ?_
  cases enabled with
  | true => exact satisfies_accessFilters indexed
  | false => exact satisfies_scopes indexed _

end Tenant

section Reading

variable {store : ContextStore} {record : ContextRecord} {parts : List Text} {direct : Text → DirectAcl}

section

variable (caller : PlainCaller ctx)

include caller

theorem reads_resource_iff (notAdmin : ctx.role ≠ .admin) {below : List Text}
    (stored : Stored classes record.uri ("resources" :: below)) (member : record ∈ store)
    (kept : ∀ record ∈ store, HasFields record (keptAcl direct record.uri) ∧ isWatchTaskControlUri record.uri = .ok false) :
    Reads classes store ctx true record.uri ↔ record.aclEnabled = false ∨ GrantsRead ctx record := by
  obtain ⟨fields, control⟩ := kept record member
  have listed := @listAnswer_kept _ store ctx _ direct below stored ⟨record, member, rfl⟩
    (fun other there same => same ▸ (kept other there).1) .read
  obtain ⟨inherited, acl⟩ := keptAcl_of direct stored
  have allows := @aclAllows_iff ctx (direct record.uri) inherited
  rw [acl] at fields
  have held : GrantsRead ctx record ↔ aclAllows (keptAcl direct record.uri) ctx .read = true := by
    rw [acl, allows, GrantsRead, fields.direct, fields.inherited]
    rfl
  rw [reads_listed stored control caller.noBypass notAdmin, listed, held, acl, fields.enabled]
  cases enabled : (EffectiveAcl.of (direct record.uri) inherited).enabled with
  | true => simp
  | false =>
    rw [visible, isAccessible_resource caller.nonroot caller.alone stored control]
    simp [liftUri]

theorem reads_resource_disabled {below : List Text} (stored : Stored classes record.uri ("resources" :: below))
    (control : isWatchTaskControlUri record.uri = .ok false) : Reads classes store ctx false record.uri :=
  (reads_disabled stored).mpr (isAccessible_resource caller.nonroot caller.alone stored control)

theorem reads_agent (enabled : Bool) {below : List Text} (stored : Stored classes record.uri ("agent" :: below))
    (control : isWatchTaskControlUri record.uri = .ok false) : Reads classes store ctx enabled record.uri := by
  apply reads_of_accessible stored control enabled
  · exact isAccessible_agent caller.nonroot caller.alone stored control
  · intro below same
    exact absurd (List.cons.inj same).1 (by decide)
  · exact cons_ne_nil _ _

theorem reads_owned (enabled : Bool) (stored : Stored classes record.uri parts)
    (control : isWatchTaskControlUri record.uri = .ok false) (owned : Owned ctx record.uri) : Reads classes store ctx enabled record.uri := by
  obtain ⟨below, owner, suffix, rfl, -⟩ := owned.user stored
  apply reads_of_accessible stored control enabled
  · exact accessible_of_owned stored caller.nonroot caller.alone control owned
  · intro below same
    exact absurd (List.cons.inj same).1 (by decide)
  · exact cons_ne_nil _ _

end

theorem place_of_visible (stored : Stored classes record.uri parts) (visible : InVisibleRoots ctx record.uri) :
    (∃ below, parts = "resources".toList :: below) ∨ (∃ below, parts = "agent".toList :: below) ∨ InOwnSpace ctx record.uri := by
  obtain ⟨root, member, under⟩ := visible
  rcases mem_cons.mp member with rfl | member
  · exact .inl ((under_resources_iff stored).mp under)
  · rcases mem_cons.mp member with rfl | member
    · have root : "viking://agent/skills".toList = canonical ["agent".toList, "skills".toList] := by decide
      rw [root, under_iff stored (by decide) (by decide)] at under
      obtain ⟨after, whole⟩ := under
      exact .inr (.inl ⟨_, whole.symm⟩)
    · rw [mem_singleton.mp member] at under
      exact .inr (.inr (.inl under))

theorem owned_of_resources (stored : Stored classes record.uri parts) (under : Under (canonicalUserRoot ctx ++ "/resources") record.uri) :
    Owned ctx record.uri := by
  have id := isId_of_valid ctx.user.validUser
  have joined : Text.joined ["user", ctx.user.userId, "resources"] = ("user/" ++ ctx.user.userId ++ "/resource") ++ ['s'] := by
    rw [Text.joined_cons (by simp), Text.joined_cons (by simp), Text.joined_singleton]
    simp
  have root : canonicalUserRoot ctx ++ "/resources" = canonical ["user", ctx.user.userId, "resources"] := by
    rw [canonicalUserRoot, userRoot, canonical, joined]
    simp
  have valid : Text.IsNames ["user", ctx.user.userId, "resources"] :=
    forall_mem_cons.mpr ⟨by decide, forall_mem_cons.mpr ⟨id.isName, forall_mem_singleton.mpr (by decide)⟩⟩
  have stripped : strip (canonical ["user", ctx.user.userId, "resources"]) =
      canonical ["user", ctx.user.userId, "resources"] := by
    rw [canonical, strip_scheme, joined, rdropWhile_concat_neg _ _ _ (by decide)]
  rw [root, under_iff stored valid stripped] at under
  obtain ⟨after, rfl⟩ := under
  have read := stored.read_cons
  change uriParts record.uri = .ok ("user" :: cutQuery (ctx.user.userId :: "resources" :: after)) at read
  rw [cutQuery_cons id.noQuery, cutQuery_cons (by decide)] at read
  obtain ⟨scope, isScope⟩ := stored.valid
  have resolved : resolveUri record.uri = resolveUserUri ("user" :: ctx.user.userId :: "resources" :: cutQuery after) := by
    rw [resolveUri, isScope, ok_bind, read, ok_bind]
    exact if_pos rfl
  obtain ⟨uri, done⟩ : ∃ uri, resolveUserUri ("user" :: ctx.user.userId :: "resources" :: cutQuery after) =
      .ok ⟨uri, "user", some ctx.user.userId, false⟩ := by
    have noPeer : validatePeerIdSegments ("user" :: ctx.user.userId :: "resources" :: cutQuery after) = .ok () := by
      cases cutQuery after with
      | nil => rfl
      | cons peer more => rw [validatePeerIdSegments, if_neg (by decide)]
    rw [resolveUserUri]
    dsimp only
    rw [ctx.user.validUser]
    dsimp only
    rw [if_pos (cons_ne_nil _ _), noPeer]
    exact ⟨_, rfl⟩
  exact ⟨_, resolved.trans done, rfl⟩

end Reading

theorem rootParts_eq (ctx : RequestContext) : (visibleRoots ctx).mapM uriParts =
    .ok [["resources".toList], ["agent".toList, "skills".toList], ["user".toList, ctx.user.userId]] := by
  have resources : uriParts resourcesRoot = .ok ["resources".toList] := by decide
  have skills : uriParts "viking://agent/skills".toList = .ok ["agent".toList, "skills".toList] := by decide
  rw [visibleRoots, cons_append, mapM_cons, resources, ok_bind, agentSharedRoots, cons_append, nil_append, mapM_cons, skills,
    ok_bind, mapM_cons, userRoot_parts]
  rfl

theorem targetsWithin_iff {targets : List Text} : targetsWithinVisibleRoots ctx targets = .ok true ↔
    targets ≠ [] ∧ ∀ target ∈ targets, ∃ parts, uriParts target = .ok parts ∧
      ((∃ below, parts = "resources".toList :: below) ∨ (∃ below, parts = "agent".toList :: "skills".toList :: below) ∨
        ∃ below, parts = "user".toList :: ctx.user.userId :: below) := by
  rw [targetsWithinVisibleRoots]
  split
  · rename_i none
    simp [none]
  · rename_i filled
    rw [rootParts_eq, ok_bind, bind_ok_iff]
    have inside (parts : List Text) : ([["resources".toList], ["agent".toList, "skills".toList], ["user".toList, ctx.user.userId]].any
        fun root => root.isPrefixOf parts) = true ↔
          (∃ below, parts = "resources".toList :: below) ∨ (∃ below, parts = "agent".toList :: "skills".toList :: below) ∨
            ∃ below, parts = "user".toList :: ctx.user.userId :: below := by
      simp only [any_cons, any_nil, Bool.or_false, Bool.or_eq_true, List.isPrefixOf_iff_prefix]
      refine or_congr ?_ (or_congr ?_ ?_) <;> exact exists_congr fun below => eq_comm
    constructor
    · rintro ⟨targetParts, done, all⟩
      refine ⟨filled, fun target member => ?_⟩
      obtain ⟨parts, there, read⟩ := exists_of_mapM_ok done member
      exact ⟨parts, read, (inside parts).mp (all_eq_true.mp (Except.ok.inj all) parts there)⟩
    · rintro ⟨-, each⟩
      have done := @mapM_ok _ _ _ uriParts targets (fun target => (uriParts target).toOption.getD []) fun target member => by
        obtain ⟨parts, read, -⟩ := each target member
        rw [read]
        rfl
      refine ⟨_, done, congrArg Except.ok (all_eq_true.mpr fun parts member => ?_)⟩
      obtain ⟨target, there, rfl⟩ := mem_map.mp member
      obtain ⟨parts, read, found⟩ := each target there
      rw [read]
      exact (inside parts).mpr found

section Built

variable {enabled : Bool} {request : SearchRequest V} {filter : Option (FilterExpr V)} {indexed : IndexedRecord yes classes}

def SearchRequest.filters (request : SearchRequest V) : List (FilterExpr V) :=
  request.typeFilters ++ request.targetFilters ++ request.extraFilter.filters ++ request.levelFilters

theorem admits_built (caller : PlainCaller ctx) (built : buildScopeFilter yes ctx enabled request = .ok filter) :
    ∃ narrow : Bool, (narrow = true → enabled = false ∧ targetsWithinVisibleRoots ctx request.targets = .ok true) ∧
      (narrow = false → enabled = false → targetsWithinVisibleRoots ctx request.targets = .ok false) ∧
      (Admits meets absent filter indexed.fields ↔ (indexed.accountId = ctx.user.accountId ∧ (narrow = false → Admitted ctx enabled indexed.record)) ∧
        ∀ cond ∈ request.filters, satisfies meets absent indexed.fields cond = true) := by
  rw [buildScopeFilter] at built
  obtain ⟨narrow, decided, merged⟩ := bind_ok_iff.mp built
  have decided' : (if enabled = true then .ok false else targetsWithinVisibleRoots ctx request.targets) = .ok narrow := by
    rw [← decided, narrowTargets, tenantFilter_eq caller]
    cases enabled <;> rfl
  rw [tenantFilter_eq caller] at merged
  refine ⟨narrow, ?_, ?_, ?_⟩
  · rintro rfl
    by_cases on : enabled = true
    · rw [if_pos on] at decided'
      cases decided'
    · rw [if_neg on] at decided'
      exact ⟨by simpa using on, decided'⟩
  · rintro rfl off
    rw [off] at decided'
    exact decided'
  · have tenant : satisfies meets absent indexed.fields (if narrow then accountIs ctx else
        .and [accountIs ctx, .or (if enabled then accessFilters yes ctx else (visibleRoots ctx).map inScope)]) = true ↔
          indexed.accountId = ctx.user.accountId ∧ (narrow = false → Admitted ctx enabled indexed.record) := by
      cases narrow with
      | true => simp [satisfies_accountIs]
      | false => simpa using satisfies_tenant indexed enabled
    have listed : filter = mergeFilters (request.typeFilters ++ [if narrow then accountIs ctx else
        .and [accountIs ctx, .or (if enabled then accessFilters yes ctx else (visibleRoots ctx).map inScope)]] ++ request.targetFilters ++
          request.extraFilter.filters ++ request.levelFilters) := by
      rw [← Except.ok.inj merged]
      cases narrow <;> rfl
    rw [listed, admits_mergeFilters, ← tenant, filters]
    simp only [forall_mem_append, forall_mem_singleton]
    tauto

theorem under_target (asked : ∀ cond ∈ request.filters, satisfies meets absent indexed.fields cond = true) (filled : request.targets ≠ []) :
    ∃ target ∈ request.targets, Under target indexed.record.uri := by
  rw [← satisfies_scopes indexed]
  apply asked
  simp [filters, targetFilters, filled]

end Built

-- The records that a search lets through can be read, and of the resources that can be read it lets all through that it
-- asks for.
structure ShowsWhatIsRead (meets : Comparison V) (absent : Bool) (ctx : RequestContext) (records : List (IndexedRecord yes classes)) : Prop where
  shown : ∀ enabled request filter, buildScopeFilter yes ctx enabled request = .ok filter → ∀ indexed ∈ records,
    Admits meets absent filter indexed.fields →
      indexed.accountId = ctx.user.accountId ∧ Reads classes (accountStore ctx records) ctx enabled indexed.record.uri
  found : ∀ enabled request filter, buildScopeFilter yes ctx enabled request = .ok filter → ∀ indexed ∈ records,
    indexed.accountId = ctx.user.accountId → Under resourcesRoot indexed.record.uri →
      Reads classes (accountStore ctx records) ctx enabled indexed.record.uri →
        (∀ cond ∈ request.filters, satisfies meets absent indexed.fields cond = true) → Admits meets absent filter indexed.fields

section Agreement

variable {records : List (IndexedRecord yes classes)} {indexed : IndexedRecord yes classes}

theorem mem_accountStore (member : indexed ∈ records) (own : indexed.accountId = ctx.user.accountId) :
    indexed.record ∈ accountStore ctx records :=
  mem_map_of_mem (mem_filter.mpr ⟨member, decide_eq_true own⟩)

theorem visible_resources (under : Under resourcesRoot indexed.record.uri) : InVisibleRoots ctx indexed.record.uri :=
  ⟨resourcesRoot, mem_cons_self, under⟩

theorem reads_of_place (caller : PlainCaller ctx) {store : ContextStore} {parts : List Text} (stored : Stored classes indexed.record.uri parts)
    (control : isWatchTaskControlUri indexed.record.uri = .ok false) (owned : InOwnSpace ctx indexed.record.uri → Owned ctx indexed.record.uri)
    (place : (∃ below, parts = "resources".toList :: below) ∨ (∃ below, parts = "agent".toList :: below) ∨ InOwnSpace ctx indexed.record.uri) :
    Reads classes store ctx false indexed.record.uri := by
  rcases place with ⟨below, rfl⟩ | ⟨below, rfl⟩ | inside
  · exact reads_resource_disabled caller stored control
  · exact reads_agent caller false stored control
  · exact reads_owned caller false stored control (owned inside)

section

variable (caller : PlainCaller ctx) {direct : Text → DirectAcl} {store : ContextStore} (there : indexed.record ∈ store)
  (kept : ∀ record ∈ store, HasFields record (keptAcl direct record.uri) ∧ isWatchTaskControlUri record.uri = .ok false)

include caller there kept

theorem reads_of_lists
    (owned : InOwnSpace ctx indexed.record.uri → Owned ctx indexed.record.uri) (admitted : AdmittedByLists ctx indexed.record) :
    Reads classes store ctx true indexed.record.uri := by
  obtain ⟨parts, stored⟩ := indexed.stored
  have control := (kept _ there).2
  have listed (allowed : indexed.record.aclEnabled = false ∨ GrantsRead ctx indexed.record) {below : List Text}
      (resource : parts = "resources".toList :: below) : Reads classes store ctx true indexed.record.uri := by
    subst resource
    by_cases admin : ctx.role = .admin
    · exact reads_managed stored control caller.noBypass admin
    · exact (reads_resource_iff caller admin stored there kept).mpr allowed
  rcases admitted with ⟨off, visible⟩ | ⟨under, grants⟩ | under | ⟨admin, under⟩
  · rcases place_of_visible stored visible with ⟨below, resource⟩ | ⟨below, rfl⟩ | inside
    · exact listed (.inl off) resource
    · exact reads_agent caller true stored control
    · exact reads_owned caller true stored control (owned inside)
  · obtain ⟨below, resource⟩ := (under_resources_iff stored).mp under
    exact listed (.inr grants) resource
  · exact reads_owned caller true stored control (owned_of_resources stored under)
  · obtain ⟨below, rfl⟩ := (under_resources_iff stored).mp under
    exact reads_managed stored control caller.noBypass admin

theorem admitted_of_reads
    (under : Under resourcesRoot indexed.record.uri) {enabled : Bool} (reads : Reads classes store ctx enabled indexed.record.uri) :
    Admitted ctx enabled indexed.record := by
  obtain ⟨parts, stored⟩ := indexed.stored
  obtain ⟨below, rfl⟩ := (under_resources_iff stored).mp under
  cases enabled with
  | false => exact visible_resources under
  | true =>
    by_cases admin : ctx.role = .admin
    · exact .inr (.inr (.inr ⟨admin, under⟩))
    · rcases (reads_resource_iff caller admin stored there kept).mp reads with off | grants
      · exact .inl ⟨off, visible_resources under⟩
      · exact .inr (.inl ⟨under, grants⟩)

end

theorem ShowsWhatIsRead.owned (agrees : ShowsWhatIsRead meets absent ctx records) (caller : PlainCaller ctx)
    (kept : KeepsAcl (accountStore ctx records)) (member : indexed ∈ records) (own : indexed.accountId = ctx.user.accountId)
    (inside : InOwnSpace ctx indexed.record.uri) : Owned ctx indexed.record.uri := by
  obtain ⟨direct, kept⟩ := kept
  obtain ⟨parts, stored⟩ := indexed.stored
  have control := (kept _ (mem_accountStore member own)).2
  -- Without lists the record is found in the visible roots, or with its own uri as the target.
  suffices reads : Reads classes (accountStore ctx records) ctx false indexed.record.uri from
    owned_of_accessible stored caller.nonroot caller.alone control inside ((reads_disabled stored).mp reads)
  rcases inside with under | ⟨path, read, two⟩
  · have built : buildScopeFilter yes ctx false ({} : SearchRequest V) = .ok (mergeFilters (tenantFilter yes ctx false).toList) := by
      have none : narrowTargets yes ctx false [] = .ok false := by
        rw [narrowTargets, tenantFilter_eq caller]
        rfl
      rw [buildScopeFilter, show ({} : SearchRequest V).targets = [] from rfl, none]
      simp [typeFilters, targetFilters, targets, levelFilters, ExtraFilter.filters]
    refine (agrees.shown false {} _ built indexed member ?_).2
    rw [admits_mergeFilters, tenantFilter_eq caller]
    intro cond inside
    rw [mem_singleton.mp inside]
    exact (satisfies_tenant indexed false).mpr ⟨own, canonicalUserRoot ctx, by simp [visibleRoots], under⟩
  · let request : SearchRequest V := { targetDirectories := [indexed.record.uri] }
    have targets : request.targets = [indexed.record.uri] := by
      have filled : indexed.record.uri ≠ [] := by
        intro empty
        rw [empty] at read
        cases read
      simp [request, targets, filled]
    have narrow : targetsWithinVisibleRoots ctx request.targets = .ok true := by
      rw [targetsWithin_iff, targets]
      refine ⟨cons_ne_nil _ _, forall_mem_singleton.mpr ⟨path, read, .inr (.inr ?_)⟩⟩
      exact ⟨path.drop 2, by rw [← take_append_drop 2 path, two]; rfl⟩
    obtain ⟨filter, built⟩ : ∃ filter, buildScopeFilter yes ctx false request = .ok filter := by
      have decided : narrowTargets yes ctx false request.targets = .ok true := by
        rw [narrowTargets, tenantFilter_eq caller]
        exact narrow
      rw [buildScopeFilter, decided]
      exact ⟨_, rfl⟩
    refine (agrees.shown false request filter built indexed member ?_).2
    obtain ⟨isNarrow, -, wide, admits⟩ := @admits_built _ _ _ _ _ meets absent _ _ _ indexed caller built
    have yes' : isNarrow = true := by
      by_contra no
      have other := wide (by simpa using no) rfl
      rw [narrow] at other
      cases other
    refine admits.mpr ⟨⟨own, fun no => by rw [yes'] at no; cases no⟩, fun cond asked => ?_⟩
    have only : cond = .or [inScope indexed.record.uri] := by
      simpa [request, filters, typeFilters, targetFilters, targets, ExtraFilter.filters,
        levelFilters] using asked
    rw [only]
    exact (satisfies_scopes indexed [indexed.record.uri]).mpr ⟨_, mem_cons_self, .inl rfl, .inl (by decide)⟩
theorem shows_of_owned (caller : PlainCaller ctx) (kept : KeepsAcl (accountStore ctx records))
    (owned : ∀ indexed ∈ records, indexed.accountId = ctx.user.accountId → InOwnSpace ctx indexed.record.uri → Owned ctx indexed.record.uri) :
    ShowsWhatIsRead meets absent ctx records := by
  obtain ⟨direct, kept⟩ := kept
  constructor
  · intro enabled request filter built indexed member admits
    obtain ⟨parts, stored⟩ := indexed.stored
    obtain ⟨narrow, isNarrow, -, means⟩ := @admits_built _ _ _ _ _ meets absent _ _ _ indexed caller built
    obtain ⟨⟨own, wide⟩, asked⟩ := means.mp admits
    have there := mem_accountStore member own
    refine ⟨own, ?_⟩
    cases narrow with
    | true =>
      obtain ⟨rfl, within⟩ := isNarrow rfl
      obtain ⟨filled, each⟩ := targetsWithin_iff.mp within
      obtain ⟨target, inside, under⟩ := under_target asked filled
      obtain ⟨targetParts, read, root⟩ := each target inside
      apply reads_of_place caller stored (kept _ there).2 (owned indexed member own)
      rcases root with ⟨below, rfl⟩ | ⟨below, rfl⟩ | ⟨below, rfl⟩
      · obtain ⟨rest, whole, -⟩ := under.cut stored read ⟨_, rfl, rfl⟩
        exact .inl ⟨rest, whole⟩
      · obtain ⟨rest, whole, -⟩ := under.cut stored read ⟨_, rfl, rfl⟩
        exact .inr (.inl ⟨rest, whole⟩)
      · exact .inr (.inr (inOwnSpace_of_under stored under read))
    | false =>
      cases enabled with
      | false => exact reads_of_place caller stored (kept _ there).2 (owned indexed member own) (place_of_visible stored (wide rfl))
      | true => exact reads_of_lists caller there kept (owned indexed member own) (wide rfl)
  · intro enabled request filter built indexed member own under reads asked
    obtain ⟨narrow, -, -, means⟩ := @admits_built _ _ _ _ _ meets absent _ _ _ indexed caller built
    exact means.mpr ⟨⟨own, fun _ => admitted_of_reads caller (mem_accountStore member own) kept under reads⟩, asked⟩

theorem shown_and_readable_iff (meets : Comparison V) (absent : Bool) (caller : PlainCaller ctx)
    (kept : KeepsAcl (accountStore ctx records)) : ShowsWhatIsRead meets absent ctx records ↔
      ∀ indexed ∈ records, indexed.accountId = ctx.user.accountId → InOwnSpace ctx indexed.record.uri → Owned ctx indexed.record.uri :=
  ⟨fun agrees _ member own inside => agrees.owned caller kept member own inside, shows_of_owned caller kept⟩

end Agreement

namespace OwnMemories

open TrailingSlash (asciiClasses)

def nothing : Comparison Bool := fun _ _ _ => none

def memory (uri : Text) (stored : ∃ parts, Stored asciiClasses uri parts) : IndexedRecord true asciiClasses where
  accountId := "acct"
  record := { id := uri, uri := uri }
  fields := fun field =>
    if field = "uri" then .scalar (.text uri) else if field = "account_id" then .scalar (.text "acct") else .scalar .null
  stored := stored
  uri := if_pos rfl
  account := rfl
  enabled := rfl
  direct := fun token => by simp [valueMatches]
  inherited := fun token => by simp [valueMatches]

theorem memory_kept (ctx : RequestContext) {uri : Text} {below : List Text} (stored : Stored asciiClasses uri ("user" :: below)) :
    KeepsAcl (accountStore ctx [memory uri ⟨_, stored⟩]) := by
  refine ⟨fun _ => .empty, fun record member => ?_⟩
  have same : record = { id := uri, uri := uri } := by
    obtain ⟨indexed, inside, rfl⟩ := mem_map.mp member
    rw [mem_singleton.mp (mem_filter.mp inside).1]
    rfl
  subst same
  constructor
  · rw [keptAcl_none _ stored (by decide)]
    exact ⟨rfl, rfl, rfl⟩
  · rw [isWatchTaskControlUri_eq stored.read_cons]
    cases cutQuery below with
    | nil => rfl
    | cons name rest => cases rest <;> rfl

theorem valid_acct : validateAccountId "acct" = none := by decide

def userCalled (id : Text) (valid : validateUserId id = none) : RequestContext :=
  { user := ⟨"acct", id, valid_acct, valid⟩, role := .user }

theorem plain_userCalled (id : Text) (valid : validateUserId id = none) : PlainCaller (userCalled id valid) := ⟨.inl rfl, rfl, rfl⟩

def bob : RequestContext := userCalled "bob" (by decide)

def bobWithLineFeed : RequestContext := userCalled "bob\n" (by decide)

theorem stored_plan : Stored asciiClasses "viking://user/bob/memories/plan.md" ["user", "bob", "memories", "plan.md"] :=
  ⟨by decide, by decide, by decide, ⟨"user", by decide⟩, by decide⟩

def plan : IndexedRecord true asciiClasses := memory _ ⟨_, stored_plan⟩

theorem bob_shown_his_plan : ShowsWhatIsRead nothing false bob [plan] := by
  refine (shown_and_readable_iff nothing false (plain_userCalled _ _) (memory_kept bob stored_plan)).mpr fun indexed member _ _ => ?_
  rw [mem_singleton.mp member]
  exact ⟨_, rfl, rfl⟩

theorem stored_spaced : Stored asciiClasses "viking://user/bob/peers/a b/memories/m.md"
    ["user", "bob", "peers", "a b", "memories", "m.md"] :=
  ⟨by decide, by decide, by decide, ⟨"user", by decide⟩, by decide⟩

def spaced : IndexedRecord true asciiClasses := memory _ ⟨_, stored_spaced⟩

theorem shown_and_not_readable : ¬ ShowsWhatIsRead nothing false bobWithLineFeed [plan] ∧ ¬ ShowsWhatIsRead nothing false bob [spaced] := by
  constructor
  · intro agrees
    have owned := agrees.owned (plain_userCalled _ _) (memory_kept bobWithLineFeed stored_plan) mem_cons_self rfl
    obtain ⟨target, resolved, owner⟩ := owned (.inl (by show Within _ _ _; decide))
    cases resolved
    exact absurd owner (by decide)
  · intro agrees
    have owned := agrees.owned (plain_userCalled _ _) (memory_kept bob stored_spaced) mem_cons_self rfl
    obtain ⟨target, resolved, -⟩ := owned (.inl (by show Within _ _ _; decide))
    cases resolved

end OwnMemories

end LoginomDock.Filters
