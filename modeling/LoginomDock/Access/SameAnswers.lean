import LoginomDock.Access.CreatorGrants
import LoginomDock.Access.UriViews
import LoginomDock.Access.UserSpaces

namespace LoginomDock.Access

open AclManager List

variable {classes : CharClasses} {store : ContextStore} {ctx : RequestContext} {action : AclLevel} {uri : Text} {parts path : List Text}

theorem toOption_liftUri {α : Type} (program : Except AccessError α) : (liftUri program).toOption = program.toOption := by
  cases program <;> rfl

theorem liftUri_ok {α : Type} (value : α) : liftUri (.ok value) = .ok value := rfl

theorem isAclUri_eq (read : uriParts uri = .ok path) : isAclUri uri = .ok (path.head? = some "resources".toList) := by
  rw [isAclUri, read]
  rfl

variable {audience : Audience} {failing : Failing}

variable {listed : Text}

section Segments

variable {spelled : Bool} {scope : Text} {below : List Text}

theorem segmentsView_control (control : controlPath (cutQuery (scope :: below)) = true) :
    segmentsView classes uri spelled (scope :: below) = .fixed (readable spelled) .nobody :=
  if_pos control

theorem segmentsView_resources (control : ¬ controlPath (cutQuery (scope :: below)) = true)
    (resources : (cutQuery (scope :: below)).head? = some "resources".toList) :
    segmentsView classes uri spelled (scope :: below) = .records uri :=
  (if_neg control).trans (if_pos resources)

theorem ite_ne_records {condition : Prop} [Decidable condition] {first second : View} (one : first ≠ .records listed)
    (two : second ≠ .records listed) : (if condition then first else second) ≠ .records listed := by
  split <;> assumption

-- Behind the control files and the resources all views are fixed.
theorem segmentsView_other (control : ¬ controlPath (cutQuery (scope :: below)) = true)
    (other : (cutQuery (scope :: below)).head? ≠ some "resources".toList) :
    segmentsView classes uri spelled (scope :: below) ≠ .records listed := by
  rw [show segmentsView classes uri spelled (scope :: below) = _ from (if_neg control).trans (if_neg other)]
  iterate 7 refine ite_ne_records (fun same => by cases same) ?_
  intro same
  cases same

end Segments

theorem fixed_of_view (safe : safeUriParts classes.isalpha uri = .ok parts)
    (view : viewOf classes uri = .fixed failing audience) :
    controlPath (cutQuery parts) = true ∨ (cutQuery parts).head? ≠ some "resources".toList := by
  obtain ⟨rest, rfl, rfl, -⟩ := safeUriParts_ok_iff.mp safe
  rw [viewOf, drop_left] at view
  cases read : names rest with
  | nil => exact .inr (Option.some_ne_none _).symm
  | cons scope below =>
    refine or_iff_not_imp_left.mpr fun control resources => ?_
    rw [read, segmentsView_resources control resources] at view
    cases view

section

variable (safe : safeUriParts classes.isalpha uri = .ok parts)

include safe

theorem records_of_view (view : viewOf classes uri = .records listed) :
    listed = uri ∧ controlPath (cutQuery parts) = false ∧ (cutQuery parts).head? = some "resources".toList := by
  obtain ⟨rest, rfl, rfl, -⟩ := safeUriParts_ok_iff.mp safe
  rw [viewOf, drop_left] at view
  cases read : names rest with
  | nil =>
    rw [read] at view
    cases view
  | cons scope below =>
    rw [read] at view
    by_cases control : controlPath (cutQuery (scope :: below)) = true
    · rw [segmentsView_control control] at view
      cases view
    by_cases resources : (cutQuery (scope :: below)).head? = some "resources".toList
    · rw [segmentsView_resources control resources] at view
      cases view
      exact ⟨rfl, Bool.eq_false_iff.mpr control, resources⟩
    · exact absurd view (segmentsView_other control resources)

theorem uriParts_of_safe : uriParts uri = .ok (cutQuery parts) := by
  obtain ⟨rest, rfl, rfl, -⟩ := safeUriParts_ok_iff.mp safe
  exact uriParts_scheme rest

theorem answer_fixed
    (view : viewOf classes uri = .fixed failing audience) : answer classes store ctx action uri = fixedAnswer failing audience ctx := by
  have read := uriParts_of_safe safe
  rw [answer_eq safe, decided, isWatchTaskControlUri_eq read, isAclUri_eq read, ← isAccessible_fixed safe view, ← toOption_liftUri, visible]
  rw [liftUri_ok, ok_bind, ok_bind, if_pos]
  · cases liftUri (isAccessible classes uri ctx) <;> rfl
  · rcases fixed_of_view safe view with control | other
    · rw [control, Bool.true_or]
    · rw [decide_eq_false other, Bool.not_false, Bool.or_true]

theorem answer_listed (view : viewOf classes uri = .records listed)
    (noBypass : ctx.bypassAcl = false) (notAdmin : ctx.role ≠ .admin) :
    answer classes store ctx action uri = (listAnswer classes store ctx action uri).toOption := by
  obtain ⟨-, control, resources⟩ := records_of_view safe view
  have read := uriParts_of_safe safe
  rw [answer_eq safe, decided, isWatchTaskControlUri_eq read, isAclUri_eq read, hasImplicitManage, isAclUri_eq read]
  rw [liftUri_ok, ok_bind, ok_bind, control, decide_eq_true resources, if_neg (by decide), ok_bind, ok_bind, noBypass,
    decide_eq_false notAdmin]
  rfl

end

section Lists

variable {given : DirectAcl}

theorem unionOf_bare {directMap : List (Text × DirectAcl)} {ancestors : List Text}
    (bare : ∀ other ∈ ancestors, (valueOf directMap other).getD .empty = .empty) : unionOf directMap .empty ancestors = .empty := by
  induction ancestors with
  | nil => rfl
  | cons first rest ih =>
    rw [unionOf, foldl_cons, bare first mem_cons_self, union_empty]
    exact ih fun other member => bare other (mem_cons_of_mem _ member)

theorem resolveMany_listed (filled : store ≠ []) (held : ∀ record ∈ store, record.uri = uri ∧ HasFields record (.of given .empty))
    (read : uriParts uri = .ok path) (resource : Resource path) : resolveMany store [uri] = .ok [(uri, .of given .empty)] := by
  have group : groupByUri (store.recordsForUris [uri]) uri = store := by
    rw [groupByUri_recordsForUris store (mem_singleton_self uri), filter_eq_self]
    exact fun record member => decide_eq_true (held record member).1
  have effective := effectiveFromRecords_eq filled fun record member => (held record member).2
  rw [resolveMany, show [uri].eraseDups = [uri] from rfl, mapUris_one, aclAncestors_eq read resource]
  dsimp only [map_ok, ok_bind]
  simp only [filter_cons, filter_nil, group, filled, ne_eq, not_false_eq_true, decide_true, decide_false, if_true,
    Bool.false_eq_true, if_false]
  rw [mapUris_one, group, effective]
  rfl

theorem resolveMany_unlisted (held : ∀ record ∈ store, HasFields record (.of given .empty)) (read : uriParts uri = .ok path)
    (resource : Resource path) (absent : ∀ record ∈ store, record.uri ≠ uri ∧ record.uri ∉ ((prefixes path).map canonical).dropLast) :
    resolveMany store [uri] = .ok [(uri, .of .empty .empty)] := by
  have group : groupByUri (store.recordsForUris [uri]) uri = [] := by
    rw [groupByUri_recordsForUris store (mem_singleton_self uri), filter_eq_nil_iff]
    exact fun record member same => (absent record member).1 (of_decide_eq_true same)
  rw [resolveMany, show [uri].eraseDups = [uri] from rfl, mapUris_one, aclAncestors_eq read resource]
  dsimp only [map_ok, ok_bind]
  simp only [filter_cons, filter_nil, group, ne_eq, not_true_eq_false, decide_true, decide_false, if_true, Bool.false_eq_true,
    if_false]
  rw [mapUris_nil, ok_bind, if_neg (cons_ne_nil _ _)]
  have directs : ∀ asked, mapUris (groupedUris (store.recordsForUris asked)) (fun uri => do
      let effective ← effectiveFromRecords (groupByUri (store.recordsForUris asked) uri)
      .ok effective.direct) = .ok ((groupedUris (store.recordsForUris asked)).map fun uri => (uri, given)) := by
    refine fun asked => mapUris_ok fun other member => ?_
    obtain ⟨-, record, inside, same⟩ := (mem_groupedUris _ _).mp member
    have filled : groupByUri (store.recordsForUris asked) other ≠ [] :=
      ne_nil_of_mem (mem_filter.mpr ⟨inside, decide_eq_true same⟩)
    rw [effectiveFromRecords_eq filled fun record member =>
      held record (mem_filter.mp (mem_filter.mp member).1).1]
    rfl
  have bare : ∀ asked other, other = uri ∨ other ∈ ((prefixes path).map canonical).dropLast →
      (valueOf ((groupedUris (store.recordsForUris asked)).map fun uri => (uri, given)) other).getD .empty = .empty := by
    intro asked other place
    rw [valueOf_map, if_neg]
    · rfl
    · intro grouped
      obtain ⟨-, record, inside, rfl⟩ := (mem_groupedUris _ _).mp grouped
      obtain ⟨notOwn, notAbove⟩ := absent record (mem_filter.mp inside).1
      exact place.elim notOwn notAbove
  have found : (valueOf [(uri, (prefixes path).map canonical)] uri).getD [] = (prefixes path).map canonical := by simp [valueOf]
  rw [directs, ok_bind, map_singleton, found, bare _ uri (.inl rfl), unionOf_bare fun other member => bare _ other (.inr member)]
  rfl

end Lists

theorem visible_listed (safe : safeUriParts classes.isalpha uri = .ok parts) (view : viewOf classes uri = .records listed)
    (nonroot : ctx.role ≠ .root) (noPeer : ctx.actorPeer = none) : (isAccessible classes uri ctx).toOption ≠ some false := by
  obtain ⟨-, control, resources⟩ := records_of_view safe view
  have read := uriParts_of_safe safe
  rw [isAccessible_eq safe nonroot, isHidden_noPeer noPeer, ok_bind, if_neg (by decide)]
  obtain ⟨rest, rfl, rfl, -⟩ := safeUriParts_ok_iff.mp safe
  cases segments_eq : names rest with
  | nil =>
    rw [segments_eq] at resources
    cases resources
  | cons scope below =>
    rw [segments_eq] at resources
    rw [shownByScope.eq_def]
    dsimp only
    rw [isWatchTaskControlUri_eq read, control, ok_bind, if_neg (by decide)]
    by_cases isScope : scope = "resources"
    · rw [if_pos isScope]
      intro same
      cases same
    · -- the scope has a query
      have query : '?' ∈ scope := by
        by_contra plain
        rw [cutQuery_cons plain] at resources
        exact isScope (Option.some.inj resources)
      have differs : ∀ known : Text, '?' ∉ known → scope ≠ known := fun known plain same => plain (same ▸ query)
      have unknown := shown_unknown segments_eq (.inr fun known => plain_of_visitable known query) nonroot
      rw [shown, isHidden_noPeer noPeer, ok_bind, if_neg (by decide)] at unknown
      rw [if_neg isScope, if_neg (differs _ (by decide)), if_neg (differs _ (by decide)), if_neg (differs _ (by decide)),
        if_neg (differs _ (by decide)), unknown]
      intro same
      cases same

def stranger : Principal := ⟨"user:zoe", by decide +kernel⟩

def strangers : EffectiveAcl := .of (manageBy stranger) .empty

def strangersRecord (uri : Text) : ContextRecord := strangers.setFields { id := [], uri := uri }

def plainUser (accountId userId : Text) (validAccount : validateAccountId accountId = none) (validUser : validateUserId userId = none) :
    RequestContext where
  user := ⟨accountId, userId, validAccount, validUser⟩
  role := .user

theorem valid_alice : validateUserId "alice" = none := by decide

def asker (accountId : Text) (validAccount : validateAccountId accountId = none) : RequestContext :=
  plainUser accountId "alice" validAccount valid_alice

theorem asker_role (accountId : Text) (validAccount : validateAccountId accountId = none) : (asker accountId validAccount).role = .user := rfl

variable {accountId : Text} (validAccount : validateAccountId accountId = none)

theorem strangers_refuse : aclAllows strangers (asker accountId validAccount) action = false := by
  rw [aclAllows, any_eq_false]
  intro principal member
  obtain ⟨entry, inside, rfl⟩ := mem_map.mp member
  have same : strangers.permissions.entries = [(stranger, .manage)] := by decide
  obtain rfl : entry = (stranger, .manage) := mem_singleton.mp (same ▸ (mem_filter.mp inside).1)
  exact of_decide_eq_false (by decide : decide (stranger.1 ∈ ["user:alice".toList, "user:*".toList]) = false) ∘ of_decide_eq_true

theorem length_cutQuery_le (parts : List Text) : (cutQuery parts).length ≤ parts.length := by
  induction parts with
  | nil => exact le_rfl
  | cons first rest ih =>
    rw [cutQuery]
    split
    · split <;> simp
    · simpa using ih

section

variable (safe : safeUriParts classes.isalpha uri = .ok parts) (view : viewOf classes uri = .records listed)

include safe view

theorem resource_of_records :
    Resource (cutQuery parts) := ⟨plain_of_uriParts (uriParts_of_safe safe), (records_of_view safe view).2.2⟩

theorem answer_own :
    answer classes [strangersRecord uri] (asker accountId validAccount) action uri = some false := by
  have resolved : resolveMany [strangersRecord uri] [uri] = .ok [(uri, strangers)] := by
    refine resolveMany_listed (cons_ne_nil _ _) (fun record member => ?_) (uriParts_of_safe safe) (resource_of_records safe view)
    obtain rfl := mem_singleton.mp member
    exact ⟨rfl, hasFields_setFields _ _⟩
  have found : (valueOf [(uri, strangers)] uri).getD .none = strangers := by simp [valueOf]
  have enabled : strangers.enabled = true := by decide
  rw [answer_listed safe view rfl (by rw [asker_role]; decide), listAnswer, resolved, ok_bind, found]
  dsimp only
  rw [enabled, if_neg (by decide), strangers_refuse]
  rfl

theorem answer_elsewhere
    (strange : ∀ record ∈ store, ∃ other, record = strangersRecord other ∧ other ≠ uri ∧ parts.length ≤ (normalizedUri other).length) :
    answer classes store (asker accountId validAccount) action uri ≠ some false := by
  have resolved : resolveMany store [uri] = .ok [(uri, .of .empty .empty)] := by
    have held : ∀ record ∈ store, HasFields record (.of (manageBy stranger) .empty) := by
      intro record member
      obtain ⟨other, rfl, -⟩ := strange record member
      exact hasFields_setFields _ _
    refine resolveMany_unlisted held (uriParts_of_safe safe) (resource_of_records safe view) fun record member => ?_
    obtain ⟨other, rfl, different, long⟩ := strange record member
    refine ⟨different, fun above => ?_⟩
    rw [← map_dropLast, dropLast_prefixes] at above
    obtain ⟨upper, starts, same⟩ := mem_map.mp above
    obtain ⟨filled, starts⟩ := (mem_prefixes _ upper).mp starts
    have plain := (resource_of_records safe view).plain.of_prefix (starts.trans (List.dropLast_prefix _))
    have same : canonical upper = other := same
    rw [← same, normalizedUri_canonical plain] at long
    have short := starts.length_le
    have few := length_cutQuery_le parts
    have some' := length_pos_iff.mpr (resource_of_records safe view).filled
    rw [length_dropLast] at short
    omega
  have found : (valueOf [(uri, EffectiveAcl.of .empty .empty)] uri).getD .none = .of .empty .empty := by simp [valueOf]
  rw [answer_listed safe view rfl (by rw [asker_role]; decide), listAnswer, resolved, ok_bind, found]
  dsimp only
  have bare : (EffectiveAcl.of Ranked.empty Ranked.empty).enabled = false := by decide
  rw [bare, if_pos (by decide), visible, toOption_liftUri]
  exact visible_listed safe view (by rw [asker_role]; decide) rfl

end

-- Whether only a peer may be meant
def Audience.Flat : Audience → Prop
  | .peer _ => False
  | .userPeer _ _ => False
  | _ => True

def Audience.Valid : Audience → Prop
  | .user id => validateUserId id = none
  | .peer id => id ≠ []
  | .userPeer id other => validateUserId id = none ∧ other ≠ []
  | _ => True

theorem Audience.Flat.sees (flat : audience.Flat) (user : Text) (peer : Option Text) :
    audience.sees user peer = audience.sees user none := by
  cases audience <;> first | rfl | cases flat

def anotherUser (id : Text) : Text := if id = ['a'] then ['b'] else ['a']

theorem anotherUser_valid (id : Text) : validateUserId (anotherUser id) = none := by
  rw [anotherUser]
  split <;> decide

theorem anotherUser_ne (id : Text) : anotherUser id ≠ id := by
  rw [anotherUser]
  split
  next same => rw [same]; decide
  next other => exact fun same => other same.symm

theorem anotherUser_filled (id : Text) : anotherUser id ≠ [] := by
  rw [anotherUser]
  split <;> decide

theorem Audience.ext_sees {first second : Audience} (validFirst : first.Valid) (validSecond : second.Valid)
    (same : ∀ user, validateUserId user = none → ∀ peer : Option Text, peer ≠ some [] → first.sees user peer = second.sees user peer) :
    first = second := by
  have none' : (none : Option Text) ≠ some [] := nofun
  have filled : ∀ {peer : Text}, peer ≠ [] → some peer ≠ some [] := fun other equal => other (Option.some.inj equal)
  have anyone := same ['a'] (by decide) none none'
  cases first with
  | everyone =>
    cases second with
    | everyone => rfl
    | nobody => cases anyone
    | user id => simpa [sees, anotherUser_ne] using same (anotherUser id) (anotherUser_valid id) none none'
    | peer id => simpa [sees, anotherUser_ne] using same ['a'] (by decide) (some (anotherUser id)) (filled (anotherUser_filled id))
    | userPeer id peer => simpa [sees, anotherUser_ne] using same (anotherUser id) (anotherUser_valid id) none none'
  | nobody =>
    cases second with
    | everyone => cases anyone
    | nobody => rfl
    | user id => simpa [sees] using same id validSecond none none'
    | peer id => cases anyone
    | userPeer id peer => simpa [sees] using same id validSecond.1 none none'
  | user id =>
    have own := same id validFirst none none'
    have other := same (anotherUser id) (anotherUser_valid id) none none'
    cases second with
    | everyone => simp [sees, anotherUser_ne] at other
    | nobody => simp [sees] at own
    | user id' => simpa [sees] using own
    | peer id' => simp [sees, anotherUser_ne] at other
    | userPeer id' peer =>
      have elsewhere := same id validFirst (some (anotherUser peer)) (filled (anotherUser_filled peer))
      simp [sees, anotherUser_ne] at elsewhere
  | peer id =>
    cases second with
    | everyone => simpa [sees, anotherUser_ne] using same ['a'] (by decide) (some (anotherUser id)) (filled (anotherUser_filled id))
    | nobody => cases anyone
    | user id' => simpa [sees, anotherUser_ne] using same (anotherUser id') (anotherUser_valid id') none none'
    | peer id' => simpa [sees] using same ['a'] (by decide) (some id) (filled validFirst)
    | userPeer id' peer => simpa [sees, anotherUser_ne] using same (anotherUser id') (anotherUser_valid id') none none'
  | userPeer id peer =>
    have own := same id validFirst.1 (some peer) (filled validFirst.2)
    cases second with
    | everyone => simpa [sees, anotherUser_ne] using same (anotherUser id) (anotherUser_valid id) none none'
    | nobody => simp [sees] at own
    | user id' =>
      have elsewhere := same id validFirst.1 (some (anotherUser peer)) (filled (anotherUser_filled peer))
      have here := same id validFirst.1 none none'
      simp [sees, anotherUser_ne] at elsewhere here
      exact absurd here elsewhere
    | peer id' => simpa [sees, anotherUser_ne] using same (anotherUser id) (anotherUser_valid id) none none'
    | userPeer id' peer' => simpa [sees] using own

-- What tells nobody apart is not said.
structure Normal (failing : Failing) (audience : Audience) : Prop where
  valid : audience.Valid
  always : failing = .always → audience = .nobody
  underPeer : failing = .underPeer → audience.Flat

theorem Normal.never (valid : audience.Valid) : Normal .never audience := ⟨valid, nofun, nofun⟩

theorem Normal.readable (spelled : Bool) (valid : audience.Valid) (flat : spelled = false → audience.Flat) :
    Normal (readable spelled) audience := by
  cases spelled with
  | true => exact Normal.never valid
  | false => exact ⟨valid, nofun, fun _ => flat rfl⟩

theorem tempAudience_flat (classes : CharClasses) (parts : List Text) : (tempAudience classes parts).Flat := by
  unfold tempAudience
  split
  · split
    · trivial
    · split <;> trivial
  · trivial

theorem tempAudience_valid (classes : CharClasses) (parts : List Text) : (tempAudience classes parts).Valid := by
  unfold tempAudience
  split
  · split
    · trivial
    · split
      next valid => exact valid
      next => trivial
  · trivial

theorem agentAudience_normal {spelled : Bool} {parts : List Text} (filled : ∀ part ∈ parts, part ≠ []) :
    (agentAudience spelled parts).Valid ∧ (spelled = false → (agentAudience spelled parts).Flat) := by
  unfold agentAudience
  split
  next scope agent others =>
    split
    · exact ⟨trivial, fun _ => trivial⟩
    next only => exact ⟨filled agent (by simp), fun unspelled => absurd (.inr unspelled) only⟩
  next => exact ⟨trivial, fun _ => trivial⟩

theorem userAudience_valid {path : List Text} (filled : ∀ part ∈ path, part ≠ []) : (userAudience path).Valid := by
  unfold userAudience
  split
  next scope id suffix =>
    split
    · trivial
    next valid =>
      rw [not_not] at valid
      split
      next collection peer others =>
        split
        · split
          · exact ⟨valid, filled peer (by simp)⟩
          · trivial
        · exact valid
      next => exact valid
  next => trivial

theorem normal_fixed (normal : Normal failing audience) (failing' : Failing) (audience' : Audience)
    (same : View.fixed failing audience = .fixed failing' audience') : Normal failing' audience' := by
  cases same
  exact normal

theorem normal_ite {condition : Prop} [Decidable condition] {first second : View}
    (one : ∀ failing audience, first = .fixed failing audience → Normal failing audience)
    (two : ∀ failing audience, second = .fixed failing audience → Normal failing audience) :
    ∀ failing audience, (if condition then first else second) = .fixed failing audience → Normal failing audience := by
  split <;> assumption

theorem normal_of_view (safe : safeUriParts classes.isalpha uri = .ok parts)
    (view : viewOf classes uri = .fixed failing audience) : Normal failing audience := by
  have plain := plain_of_uriParts (uriParts_of_safe safe)
  obtain ⟨rest, rfl, rfl, -⟩ := safeUriParts_ok_iff.mp safe
  have filled : ∀ part ∈ names rest, part ≠ [] := fun part member => (isName_of_mem_names member).1
  rw [viewOf, drop_left, segmentsView.eq_def] at view
  split at view
  · cases view
    exact Normal.never trivial
  next scope below read =>
    have nobody : Normal (readable (decide (rest.head? ≠ some '/'))) .nobody := Normal.readable _ trivial fun _ => trivial
    have agent := @agentAudience_normal (decide (rest.head? ≠ some '/')) (names rest) filled
    refine normal_ite (normal_fixed nobody) (normal_ite (fun _ _ same => by cases same) ?_) _ _ view
    refine normal_ite (normal_fixed (Normal.readable _ (tempAudience_valid ..) fun _ => tempAudience_flat ..)) ?_
    refine normal_ite (normal_fixed nobody) ?_
    refine normal_ite (normal_fixed ⟨trivial, (fun same => by cases same), fun _ => trivial⟩) ?_
    refine normal_ite (normal_fixed (Normal.readable _ agent.1 agent.2)) ?_
    refine normal_ite (normal_fixed ⟨trivial, fun _ => rfl, fun same => by cases same⟩) ?_
    refine normal_ite (normal_fixed (Normal.never (userAudience_valid fun part member => (plain part member).1.1))) ?_
    exact normal_ite (normal_fixed (Normal.never trivial)) (normal_fixed (Normal.never trivial))

def withPeer (accountId userId : Text) (validAccount : validateAccountId accountId = none) (validUser : validateUserId userId = none)
    (peer : Option Text) : RequestContext :=
  { plainUser accountId userId validAccount validUser with actorPeerId := peer }

theorem actorPeer_withPeer {userId : Text} (validUser : validateUserId userId = none) {peer : Option Text} (filled : peer ≠ some []) :
    (withPeer accountId userId validAccount validUser peer).actorPeer = peer := by
  rw [RequestContext.actorPeer, withPeer]
  cases peer with
  | none => rfl
  | some id =>
    have other : id ≠ [] := fun bare => filled (congrArg some bare)
    simp [Option.filter, other]

include validAccount in
theorem fixedAnswer_inj {failing failing' : Failing} {audience audience' : Audience} (normal : Normal failing audience)
    (normal' : Normal failing' audience') (same : ∀ ctx : RequestContext, ctx.user.accountId = accountId →
      fixedAnswer failing audience ctx = fixedAnswer failing' audience' ctx) : failing = failing' ∧ audience = audience' := by
  have asked : ∀ user, validateUserId user = none → ∀ peer : Option Text, peer ≠ some [] →
      (if failing.fails peer then none else some (audience.sees user peer)) =
        if failing'.fails peer then none else some (audience'.sees user peer) := by
    intro user valid peer filled
    have here := same (withPeer accountId user validAccount valid peer) rfl
    rw [fixedAnswer, fixedAnswer, actorPeer_withPeer validAccount valid filled] at here
    exact here
  have alone := asked ['a'] (by decide) none (by decide)
  have under := asked ['a'] (by decide) (some ['p']) (by decide)
  obtain rfl : failing = failing' := by
    cases failing <;> cases failing' <;> first | rfl | cases alone | cases under
  refine ⟨rfl, ?_⟩
  cases failing with
  | always => rw [normal.always rfl, normal'.always rfl]
  | never => exact Audience.ext_sees normal.valid normal'.valid fun user valid peer filled => Option.some.inj (asked user valid peer filled)
  | underPeer =>
    refine Audience.ext_sees normal.valid normal'.valid fun user valid peer _ => ?_
    rw [(normal.underPeer rfl).sees, (normal'.underPeer rfl).sees]
    exact Option.some.inj (asked user valid none (by decide))

theorem same_length {isalpha : Char → Bool} {first second path : Text} {firstParts secondParts : List Text}
    (validAccount : validateAccountId accountId = none) (safeFirst : safeUriParts isalpha first = .ok firstParts)
    (safeSecond : safeUriParts isalpha second = .ok secondParts) (mappedFirst : uriToPath isalpha accountId first = .ok path)
    (mappedSecond : uriToPath isalpha accountId second = .ok path) : firstParts.length = secondParts.length := by
  have stored : ∀ {uri : Text} {parts : List Text}, safeUriParts isalpha uri = .ok parts →
      Text.IsNames ("local" :: accountId :: parts.map shortenComponent) := by
    intro uri parts safe part member
    rcases mem_cons.mp member with rfl | member
    · decide
    · rcases mem_cons.mp member with rfl | member
      · exact (isId_account validAccount).isName
      · exact isNames_shorten (fun part inside => (isName_of_safe safe part inside).1) part member
  obtain ⟨parts, safe, shape⟩ := uriToPath_absolute mappedFirst
  obtain rfl : parts = firstParts := Except.ok.inj (safe.symm.trans safeFirst)
  obtain ⟨parts', safe', shape'⟩ := uriToPath_absolute mappedSecond
  obtain rfl : parts' = secondParts := Except.ok.inj (safe'.symm.trans safeSecond)
  have equal := (Text.absolute_inj (stored safe) (stored safe')).mp (shape.symm.trans shape')
  simpa using congrArg List.length equal

theorem listed_apart {first second : Text} {firstParts secondParts : List Text} {listed listed' : Text}
    (validAccount : validateAccountId accountId = none) (safeFirst : safeUriParts classes.isalpha first = .ok firstParts)
    (safeSecond : safeUriParts classes.isalpha second = .ok secondParts) (viewFirst : viewOf classes first = .records listed)
    (viewSecond : viewOf classes second = .records listed') (long : secondParts.length ≤ firstParts.length) (different : first ≠ second) :
    answer classes [strangersRecord first] (asker accountId validAccount) .read first ≠
      answer classes [strangersRecord first] (asker accountId validAccount) .read second := by
  rw [answer_own validAccount safeFirst viewFirst]
  refine (answer_elsewhere validAccount safeSecond viewSecond fun record member => ?_).symm
  refine ⟨first, mem_singleton.mp member, different, ?_⟩
  obtain ⟨rest, rfl, rfl, -⟩ := safeUriParts_ok_iff.mp safeFirst
  rwa [normalizedUri, drop_left]

theorem listed_not_fixed (validAccount : validateAccountId accountId = none)
    (safe : safeUriParts classes.isalpha uri = .ok parts) (view : viewOf classes uri = .records listed) :
    answer classes [strangersRecord uri] (asker accountId validAccount) .read uri ≠
      answer classes [] (asker accountId validAccount) .read uri := by
  rw [answer_own validAccount safe view]
  exact (answer_elsewhere validAccount safe view fun record member => absurd member not_mem_nil).symm

theorem same_answer_iff {classes : CharClasses} {accountId first second path : Text} (validAccount : validateAccountId accountId = none)
    (mappedFirst : uriToPath classes.isalpha accountId first = .ok path) (mappedSecond : uriToPath classes.isalpha accountId second = .ok path) :
    (∀ (store : ContextStore) (ctx : RequestContext) (action : AclLevel), ctx.user.accountId = accountId →
      answer classes store ctx action first = answer classes store ctx action second) ↔
        viewOf classes first = viewOf classes second := by
  obtain ⟨firstParts, safeFirst, -⟩ := uriToPath_absolute mappedFirst
  obtain ⟨secondParts, safeSecond, -⟩ := uriToPath_absolute mappedSecond
  have lengths := same_length validAccount safeFirst safeSecond mappedFirst mappedSecond
  cases viewFirst : viewOf classes first with
  | records listed =>
    obtain ⟨rfl, -⟩ := records_of_view safeFirst viewFirst
    cases viewSecond : viewOf classes second with
    | records listed' =>
      obtain ⟨rfl, -⟩ := records_of_view safeSecond viewSecond
      constructor
      · intro same
        by_contra other
        refine listed_apart validAccount safeFirst safeSecond viewFirst viewSecond lengths.ge (fun equal => other ?_) (same _ _ _ rfl)
        rw [equal]
      · intro equal
        cases equal
        exact fun _ _ _ _ => rfl
    | fixed failing audience =>
      refine ⟨fun same => ?_, nofun⟩
      refine absurd ?_ (listed_not_fixed validAccount safeFirst viewFirst)
      rw [same _ _ _ rfl, same _ _ _ rfl, answer_fixed safeSecond viewSecond, answer_fixed safeSecond viewSecond]
  | fixed failing audience =>
    cases viewSecond : viewOf classes second with
    | records listed =>
      refine ⟨fun same => ?_, nofun⟩
      obtain ⟨rfl, -⟩ := records_of_view safeSecond viewSecond
      refine absurd ?_ (listed_not_fixed validAccount safeSecond viewSecond)
      rw [← same _ _ _ rfl, ← same _ _ _ rfl, answer_fixed safeFirst viewFirst, answer_fixed safeFirst viewFirst]
    | fixed failing' audience' =>
      constructor
      · intro same
        have alike := fixedAnswer_inj validAccount (normal_of_view safeFirst viewFirst) (normal_of_view safeSecond viewSecond)
          fun ctx account => by
            have here := same [] ctx .read account
            rwa [answer_fixed safeFirst viewFirst, answer_fixed safeSecond viewSecond] at here
        rw [alike.1, alike.2]
      · intro equal store ctx action _
        cases equal
        rw [answer_fixed safeFirst viewFirst, answer_fixed safeSecond viewSecond]

theorem answered_alike_iff {classes : CharClasses} {accountId first second path : Text} (validAccount : validateAccountId accountId = none)
    (mappedFirst : uriToPath classes.isalpha accountId first = .ok path) (mappedSecond : uriToPath classes.isalpha accountId second = .ok path) :
    (∀ (store : ContextStore) (ctx : RequestContext) (action : AclLevel), ctx.user.accountId = accountId →
      answer classes store ctx action first = answer classes store ctx action second ∧
        ∀ uris answers, canAccessMany classes store ctx action true uris = .ok answers → first ∈ uris → second ∈ uris →
          valueOf answers first = valueOf answers second) ↔
        viewOf classes first = viewOf classes second := by
  obtain ⟨firstParts, safeFirst, -⟩ := uriToPath_absolute mappedFirst
  obtain ⟨secondParts, safeSecond, -⟩ := uriToPath_absolute mappedSecond
  rw [← same_answer_iff validAccount mappedFirst mappedSecond]
  refine ⟨fun same store ctx action account => (same store ctx action account).1, fun same store ctx action account => ?_⟩
  have alone := same store ctx action account
  refine ⟨alone, fun uris answers done memberFirst memberSecond => ?_⟩
  rw [answer_of_many done memberFirst safeFirst, answer_of_many done memberSecond safeSecond, alone]

namespace TrailingSlash

def asciiClasses : CharClasses := ⟨Char.isAlpha, Char.isDigit⟩

theorem account_valid : validateAccountId "acct" = none := by decide

theorem upload_answered_alike :
    viewOf asciiClasses "viking://upload/a" = viewOf asciiClasses "viking://upload/a/" ∧
      ∀ (store : ContextStore) (ctx : RequestContext) (action : AclLevel), ctx.user.accountId = "acct" →
        answer asciiClasses store ctx action "viking://upload/a" = answer asciiClasses store ctx action "viking://upload/a/" ∧
          ∀ uris answers, canAccessMany asciiClasses store ctx action true uris = .ok answers → "viking://upload/a".toList ∈ uris →
            "viking://upload/a/".toList ∈ uris → valueOf answers "viking://upload/a".toList = valueOf answers "viking://upload/a/".toList := by
  have first : uriToPath asciiClasses.isalpha "acct" "viking://upload/a" = .ok "/local/acct/upload/a" := by decide
  have second : uriToPath asciiClasses.isalpha "acct" "viking://upload/a/" = .ok "/local/acct/upload/a" := by
    decide
  have same : viewOf asciiClasses "viking://upload/a" = viewOf asciiClasses "viking://upload/a/" := by decide
  exact ⟨same, (answered_alike_iff account_valid first second).mpr same⟩

theorem slash_opens_directory :
    uriToPath asciiClasses.isalpha "acct" "viking://resources/dir" = uriToPath asciiClasses.isalpha "acct" "viking://resources/dir/" ∧
      answer asciiClasses [strangersRecord "viking://resources/dir"] (asker "acct" account_valid) .read "viking://resources/dir" =
        some false ∧
      answer asciiClasses [strangersRecord "viking://resources/dir"] (asker "acct" account_valid) .read "viking://resources/dir/" =
        some true := by
  decide +kernel

end TrailingSlash

end LoginomDock.Access
