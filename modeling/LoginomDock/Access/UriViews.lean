import LoginomDock.Access.CanAccess

namespace LoginomDock.Access

open List

-- Whom a URI is shown, without a role and as long as nothing fails
inductive Audience where
  | everyone
  | nobody
  | user (id : Text)
  | peer (id : Text)
  | userPeer (id peer : Text)
  deriving DecidableEq

inductive Failing where
  | never
  /-- Only the view of a peer asks for it -/
  | underPeer
  | always
  deriving DecidableEq

inductive View where
  | records (uri : Text)
  | fixed (failing : Failing) (audience : Audience)
  deriving DecidableEq

def Audience.sees (user : Text) (peer : Option Text) : Audience → Bool
  | everyone => true
  | nobody => false
  | .user id => user = id
  | .peer id => peer.all (· = id)
  | userPeer id other => user = id && peer.all (· = other)

def Failing.fails (peer : Option Text) : Failing → Bool
  | never => false
  | underPeer => peer.isSome
  | always => true

def fixedAnswer (failing : Failing) (audience : Audience) (ctx : RequestContext) : Option Bool :=
  if ctx.role = .root then some true
  else if failing.fails ctx.actorPeer then none
  else some (audience.sees ctx.user.userId ctx.actorPeer)

def userAudience (path : List Text) : Audience :=
  match path with
  | _ :: id :: suffix =>
    if validateUserId id ≠ none then .nobody
    else match suffix with
      | collection :: peer :: _ =>
        if collection = "peers" then
          match requirePeerIdSegment peer with
          | .ok _ => .userPeer id peer
          | .error _ => .nobody
        else .user id
      | _ => .user id
  | _ => .everyone

def tempAudience (classes : CharClasses) (parts : List Text) : Audience :=
  match parts with
  | _ :: space :: _ =>
    if isLegacyTempUriParts classes parts then .everyone
    else if validateUserId space = none then .user space
    else .nobody
  | _ => .everyone

def agentAudience (spelled : Bool) (parts : List Text) : Audience :=
  match parts with
  | _ :: agent :: _ => if agent ∈ agentSections ∨ spelled = false then .everyone else .peer agent
  | _ => .everyone

def controlPath (path : List Text) : Bool :=
  match path with
  | [scope, name] => scope = "resources" && name ∈ watchTaskControlNames
  | _ => false

def readable (spelled : Bool) : Failing := if spelled then .never else .underPeer

def segmentsView (classes : CharClasses) (uri : Text) (spelled : Bool) (parts : List Text) : View :=
  match parts with
  | [] => .fixed .never .everyone
  | scope :: _ =>
    let path := cutQuery parts
    if controlPath path then .fixed (readable spelled) .nobody
    else if path.head? = some "resources".toList then .records uri
    else if scope = "temp" then .fixed (readable spelled) (tempAudience classes parts)
    else if scope = "upload" then .fixed (readable spelled) .nobody
    else if scope = "_system" then .fixed .underPeer .nobody
    else if scope = "agent" then .fixed (readable spelled) (agentAudience spelled parts)
    else if spelled = false ∨ scope ∉ ["user", "queue", "~", "session"].map String.toList then .fixed .always .nobody
    else if scope = "user" then .fixed .never (userAudience path)
    else if scope = "queue" then .fixed .never .everyone
    else .fixed .never .nobody

def viewOf (classes : CharClasses) (uri : Text) : View :=
  let rest := uri.drop scheme.length
  segmentsView classes uri (rest.head? ≠ some '/') (names rest)

theorem names_spelled {rest : Text} (spelled : rest.head? ≠ some '/') (filled : rest ≠ []) :
    names rest = rest.takeWhile (· ≠ '/') :: names (rest.dropWhile (· ≠ '/')) := by
  have noSlash : '/' ∉ rest.takeWhile (· ≠ '/') := fun member => by simpa using mem_takeWhile_imp member
  have some' : rest.takeWhile (· ≠ '/') ≠ [] := by
    cases rest with
    | nil => exact absurd rfl filled
    | cons char rest =>
      rw [takeWhile_cons_of_pos]
      · exact cons_ne_nil _ _
      · simpa using spelled
  have whole := takeWhile_append_dropWhile (p := fun char => decide (char ≠ '/')) (l := rest)
  cases tail_eq : rest.dropWhile (· ≠ '/') with
  | nil =>
    rw [tail_eq, append_nil] at whole
    rw [names_nil, whole, names_of_noSlash (whole ▸ noSlash), if_neg filled]
  | cons char tail =>
    have slash : char = '/' := by
      have stops := head?_dropWhile_not (fun char => decide (char ≠ '/')) rest
      rw [tail_eq] at stops
      simpa using stops
    rw [tail_eq, slash] at whole
    rw [slash, ← nil_append ('/' :: tail), names_append_slash, names_nil, nil_append]
    conv_lhs => rw [← whole]
    rw [names_append_slash, names_of_noSlash noSlash, if_neg some', singleton_append]

theorem stripSlashes_eq_nil {rest : Text} (bare : names rest = []) : stripSlashes rest = [] := by
  rw [stripSlashes]
  by_cases filled : rest.dropWhile (· = '/') = []
  · rw [filled]
    rfl
  · have spelled : (rest.dropWhile (· = '/')).head? ≠ some '/' := by
      intro slash
      have stops := head?_dropWhile_not (fun char => decide (char = '/')) rest
      rw [slash] at stops
      simp at stops
    rw [← names_dropWhile, names_spelled spelled filled] at bare
    cases bare

variable {rest : Text}

theorem vikingScope_bare (bare : names rest = []) : vikingScope (scheme ++ rest) = .ok [] := by
  have yes : scheme.isPrefixOf (scheme ++ rest) = true := by simp
  rw [vikingScope, yes, drop_left, if_neg (by decide)]
  exact if_pos (stripSlashes_eq_nil bare)

theorem vikingScope_spelled (spelled : rest.head? ≠ some '/') {scope : Text} {below : List Text} (read : names rest = scope :: below)
    (known : scope ∈ visitableScopes) : vikingScope (scheme ++ rest) = .ok scope := by
  have yes : scheme.isPrefixOf (scheme ++ rest) = true := by simp
  have filled : rest ≠ [] := by
    rintro rfl
    cases read
  have first : rest.takeWhile (· ≠ '/') = scope := by
    rw [names_spelled spelled filled] at read
    exact (List.cons.inj read).1
  have stripped : stripSlashes rest ≠ [] := by
    intro bare
    rw [← names_stripSlashes, bare, names_nil] at read
    cases read
  rw [vikingScope, yes, drop_left, if_neg (by decide)]
  dsimp only
  rw [if_neg stripped, first, if_pos known]

theorem vikingScope_unknown {scope : Text} {below : List Text} (read : names rest = scope :: below)
    (unknown : rest.head? = some '/' ∨ scope ∉ visitableScopes) : ∃ message, vikingScope (scheme ++ rest) = .error (.value message) := by
  have yes : scheme.isPrefixOf (scheme ++ rest) = true := by simp
  have filled : rest ≠ [] := by
    rintro rfl
    cases read
  have stripped : stripSlashes rest ≠ [] := by
    intro bare
    rw [← names_stripSlashes, bare, names_nil] at read
    cases read
  have other : rest.takeWhile (· ≠ '/') ∉ visitableScopes := by
    by_cases slash : rest.head? = some '/'
    · have first : rest.takeWhile (· ≠ '/') = [] := by
        cases rest with
        | nil => rfl
        | cons char rest =>
          obtain rfl : char = '/' := by simpa using slash
          rfl
      rw [first]
      decide
    · rw [names_spelled slash filled] at read
      rw [(List.cons.inj read).1]
      exact unknown.resolve_left slash
  rw [vikingScope, yes, drop_left, if_neg (by decide)]
  dsimp only
  rw [if_neg stripped, if_neg other]
  exact ⟨_, rfl⟩

variable {ctx : RequestContext} {scope : Text} {below : List Text}

theorem plain_of_visitable (known : scope ∈ visitableScopes) : '?' ∉ scope := by
  revert scope
  decide

theorem cutQuery_cons (plain : '?' ∉ scope) : cutQuery (scope :: below) = scope :: cutQuery below := by rw [cutQuery, if_neg plain]

theorem uriParts_names (read : names rest = scope :: below) : uriParts (scheme ++ rest) = .ok (cutQuery (scope :: below)) := by
  rw [uriParts_scheme, read]

theorem isWatchTaskControlUri_eq {uri : Text} {path : List Text} (read : uriParts uri = .ok path) :
    isWatchTaskControlUri uri = .ok (controlPath path) := by
  rw [isWatchTaskControlUri, read, ok_bind]
  match path with
  | [] | [_] | [_, _] | _ :: _ :: _ :: _ => rfl

theorem isHidden_noPeer (noPeer : ctx.actorPeer = none) (uri : Text) : isHiddenByActorPeerView uri ctx = .ok false := by
  rw [isHiddenByActorPeerView, actorPeerViewUserSuffix, noPeer]
  rfl

section

variable (read : names rest = scope :: below) (unknown : rest.head? = some '/' ∨ scope ∉ visitableScopes)

include read unknown

theorem resolveUri_unknown :
    ∃ message, resolveUri (scheme ++ rest) = .error (.value message) := by
  obtain ⟨message, failed⟩ := vikingScope_unknown read unknown
  rw [resolveUri, failed]
  exact ⟨message, rfl⟩

theorem isHidden_unknown {peer : Text}
    (isPeer : ctx.actorPeer = some peer) : ∃ error, isHiddenByActorPeerView (scheme ++ rest) ctx = .error error := by
  obtain ⟨message, failed⟩ := resolveUri_unknown read unknown
  rw [isHiddenByActorPeerView, actorPeerViewUserSuffix, isPeer]
  dsimp only
  rw [failed]
  exact ⟨_, rfl⟩

end

theorem isHidden_elsewhere {uri : Text} {path : List Text} (read : uriParts uri = .ok path)
    (resolved : (∃ target, resolveUri uri = .ok target) ∨ ∃ message, resolveUri uri = .error (.namespaceShape message))
    (elsewhere : path.head? ≠ some "user".toList) : isHiddenByActorPeerView uri ctx = .ok false := by
  cases isPeer : ctx.actorPeer with
  | none => exact isHidden_noPeer isPeer uri
  | some peer =>
    rw [isHiddenByActorPeerView, actorPeerViewUserSuffix, isPeer]
    dsimp only
    rcases resolved with ⟨target, done⟩ | ⟨message, failed⟩
    · rw [done]
      dsimp only
      rw [read, ok_bind, if_neg]
      · rfl
      · intro same
        cases path with
        | nil => cases same
        | cons first rest =>
          refine elsewhere ?_
          cases rest with
          | nil => cases same
          | cons second rest =>
            rw [take_succ_cons, List.cons.injEq] at same
            exact congrArg some same.1
    · rw [failed]
      rfl

theorem resolveUri_other (spelled : rest.head? ≠ some '/') (read : names rest = scope :: below) (known : scope ∈ visitableScopes)
    (other : scope ≠ "user") :
    (∃ target, resolveUri (scheme ++ rest) = .ok target ∧ target.scope = scope ∧ scope ∉ ["~", "session"].map String.toList) ∨
      (∃ message, resolveUri (scheme ++ rest) = .error (.namespaceShape message)) ∧ scope ∈ ["~", "session"].map String.toList := by
  rw [resolveUri, vikingScope_spelled spelled read known, ok_bind, uriParts_names read, ok_bind, cutQuery_cons (plain_of_visitable known)]
  dsimp only
  rw [if_neg other]
  split
  next home => exact .inr ⟨⟨_, rfl⟩, home ▸ by decide⟩
  next notHome =>
    split
    next session => exact .inr ⟨⟨_, rfl⟩, session ▸ by decide⟩
    next notSession =>
      refine .inl ⟨_, rfl, rfl, fun member => ?_⟩
      rcases mem_cons.mp member with home | inside
      · exact notHome home
      · exact notSession (mem_singleton.mp inside)

def shown (uri : Text) (ctx : RequestContext) : Except AccessError Bool := do
  let hidden ← isHiddenByActorPeerView uri ctx
  if hidden then .ok false else namespaceIsAccessible uri ctx

theorem requirePeerIdSegment_error {peer : Text} {error : AccessError} (failed : requirePeerIdSegment peer = .error error) :
    ∃ message, error = .namespaceShape message := by
  rw [requirePeerIdSegment] at failed
  split at failed
  · cases failed
    exact ⟨_, rfl⟩
  · cases failed
  · cases failed
    exact ⟨_, rfl⟩
  next other notValue same =>
    -- a peer id has no other errors
    rw [normalizePeerId, normalizeIdentifierPart] at same
    by_cases blank : strip peer = []
    · rw [if_pos blank] at same
      cases same
    · rw [if_neg blank] at same
      cases checked : validateIdentifierPart (strip peer) "peer_id" with
      | none =>
        rw [checked] at same
        cases same
      | some message =>
        rw [checked] at same
        cases same
        exact absurd rfl (notValue _)

theorem shown_shapeless {uri message : Text} (nonroot : ctx.role ≠ .root) (failed : resolveUri uri = .error (.namespaceShape message)) :
    shown uri ctx = .ok false := by
  have hidden : isHiddenByActorPeerView uri ctx = .ok false := by
    rw [isHiddenByActorPeerView, actorPeerViewUserSuffix, failed]
    cases ctx.actorPeer <;> rfl
  rw [shown, hidden, ok_bind, if_neg (by decide), namespaceIsAccessible, if_neg nonroot, failed]

def peerShows (actorPeer : Option Text) : List Text → Bool
  | collection :: peer :: _ => !(collection = "peers") || actorPeer.all (· = peer)
  | _ => true

theorem isHidden_owned {uri id : Text} {suffix : List Text} (read : uriParts uri = .ok ("user" :: id :: suffix))
    {target : ResolvedNamespace} (resolved : resolveUri uri = .ok target) :
    isHiddenByActorPeerView uri ctx = .ok (id = ctx.user.userId && !peerShows ctx.actorPeer suffix) := by
  rw [isHiddenByActorPeerView, actorPeerViewUserSuffix, resolved]
  cases ctx.actorPeer with
  | none => cases suffix with
    | nil => simp [peerShows]
    | cons collection rest => cases rest <;> simp [peerShows]
  | some peer =>
    dsimp only
    rw [read, ok_bind, ok_bind, take_succ_cons, take_succ_cons, take_zero]
    by_cases own : id = ctx.user.userId
    · rw [if_pos (by rw [own]), decide_eq_true own, Bool.true_and]
      cases suffix with
      | nil => rfl
      | cons collection rest =>
        cases rest with
        | nil => rfl
        | cons other rest =>
          rw [peerShows]
          by_cases peers : collection = "peers" <;> by_cases same : peer = other <;> simp [peers, same]
    · rw [if_neg (by simpa using own), decide_eq_false own]
      rfl

theorem shown_owned {uri id : Text} {suffix : List Text} (nonroot : ctx.role ≠ .root) (read : uriParts uri = .ok ("user" :: id :: suffix))
    {target : ResolvedNamespace} (resolved : resolveUri uri = .ok target) (isUser : target.scope = "user")
    (owned : target.ownerUserId = some id) : shown uri ctx = .ok (id = ctx.user.userId && peerShows ctx.actorPeer suffix) := by
  have accessible : namespaceIsAccessible uri ctx = .ok (id = ctx.user.userId) := by
    rw [namespaceIsAccessible, if_neg nonroot, resolved]
    dsimp only
    rw [isUser, if_neg (by decide), if_neg (by decide), if_pos rfl, owned]
  rw [shown, isHidden_owned read resolved, ok_bind, accessible]
  generalize decide (id = ctx.user.userId) = own
  cases own <;> cases peerShows ctx.actorPeer suffix <;> rfl

theorem shown_user (spelled : rest.head? ≠ some '/') (read : names rest = "user".toList :: below) (nonroot : ctx.role ≠ .root) :
    shown (scheme ++ rest) ctx = .ok ((userAudience (cutQuery ("user" :: below))).sees ctx.user.userId ctx.actorPeer) := by
  have known : "user".toList ∈ visitableScopes := by decide
  have parts := uriParts_names read
  have step : resolveUri (scheme ++ rest) = resolveUserUri (cutQuery ("user" :: below)) := by
    rw [resolveUri, vikingScope_spelled spelled read known, ok_bind, parts, ok_bind, cutQuery_cons (plain_of_visitable known)]
    exact if_pos rfl
  rw [cutQuery_cons (plain_of_visitable known)] at parts step ⊢
  cases path : cutQuery below with
  | nil =>
    rw [path] at parts step
    have elsewhere : isHiddenByActorPeerView (scheme ++ rest) ctx = .ok false := by
      cases isPeer : ctx.actorPeer with
      | none => exact isHidden_noPeer isPeer _
      | some peer =>
        rw [isHiddenByActorPeerView, actorPeerViewUserSuffix, isPeer]
        dsimp only
        rw [step]
        dsimp only [resolveUserUri]
        rw [parts, ok_bind, if_neg (by simp)]
        rfl
    rw [shown, elsewhere, ok_bind, if_neg (by decide), namespaceIsAccessible, if_neg nonroot, step]
    rfl
  | cons id suffix =>
    rw [path] at parts step
    rw [resolveUserUri] at step
    dsimp only [userAudience]
    cases valid : validateUserId id with
    | some message =>
      rw [valid] at step
      rw [if_pos nofun, shown_shapeless nonroot step]
      rfl
    | none =>
      rw [valid] at step
      rw [if_neg (by simp)]
      match suffix with
      | [] =>
        rw [shown_owned nonroot parts step rfl rfl]
        simp [peerShows, Audience.sees, eq_comm]
      | [collection] =>
        rw [shown_owned nonroot parts step rfl rfl]
        simp [peerShows, Audience.sees, eq_comm]
      | collection :: peer :: others =>
        dsimp only at step ⊢
        rw [if_pos (cons_ne_nil _ _), validatePeerIdSegments] at step
        by_cases peers : collection = "peers"
        · rw [if_pos ⟨rfl, peers⟩] at step
          rw [if_pos peers]
          cases checked : requirePeerIdSegment peer with
          | error failed =>
            obtain ⟨message, rfl⟩ := requirePeerIdSegment_error checked
            rw [checked] at step
            rw [shown_shapeless nonroot step]
            rfl
          | ok _ =>
            rw [checked] at step
            rw [shown_owned nonroot parts step rfl rfl, peerShows, decide_eq_true peers]
            simp [Audience.sees, eq_comm]
        · rw [if_neg fun both => peers both.2] at step
          rw [if_neg peers, shown_owned nonroot parts step rfl rfl, peerShows, decide_eq_false peers]
          simp [Audience.sees, eq_comm]

section Answers

variable {classes : CharClasses} {parts : List Text}

-- What the storage shows once nothing is hidden
def shownByScope (classes : CharClasses) (uri : Text) (parts : List Text) (ctx : RequestContext) : Except AccessError Bool :=
  match parts with
  | [] => .ok true
  | scope :: rest => do
      let control ← isWatchTaskControlUri uri
      if control then .ok false
      else if scope = "resources" then .ok true
      else if scope = "temp" then
        .ok (match rest with
          | [] => true
          | space :: _ => space = ctx.user.userId || isLegacyTempUriParts classes parts)
      else if scope = "upload" then .ok (ctx.role = .root)
      else if scope = "_system" then .ok false
      else if scope = "agent" then
        .ok (match rest with
          | [] => true
          | agent :: _ => agent ∈ agentSections || match ctx.actorPeer with
            | none => true
            | some peer => agent = peer)
      else namespaceIsAccessible uri ctx

theorem isAccessible_eq {uri : Text} (safe : safeUriParts classes.isalpha uri = .ok parts) (nonroot : ctx.role ≠ .root) :
    isAccessible classes uri ctx = (do
      let hidden ← isHiddenByActorPeerView uri ctx
      if hidden then .ok false else shownByScope classes uri parts ctx) := by
  rw [isAccessible, safe, ok_bind, if_neg nonroot]
  rfl

theorem hidden_readable (read : names rest = scope :: below) (known : scope ∈ visitableScopes) (other : scope ≠ "user")
    {answer : Except AccessError Bool} {shownTo : Bool} (shown : answer.toOption = some shownTo) :
    (do
      let hidden ← isHiddenByActorPeerView (scheme ++ rest) ctx
      if hidden then .ok false else answer).toOption =
        if (readable (rest.head? ≠ some '/')).fails ctx.actorPeer then none else some shownTo := by
  by_cases slash : rest.head? = some '/'
  · have unreadable : readable (rest.head? ≠ some '/') = .underPeer := by simp [readable, slash]
    rw [unreadable]
    cases isPeer : ctx.actorPeer with
    | none =>
      rw [isHidden_noPeer isPeer, ok_bind, if_neg (by decide), shown]
      rfl
    | some peer =>
      obtain ⟨error, failed⟩ := @isHidden_unknown _ ctx _ _ read (.inl slash) _ isPeer
      rw [failed]
      rfl
  · have elsewhere : isHiddenByActorPeerView (scheme ++ rest) ctx = .ok false := by
      refine isHidden_elsewhere (uriParts_names read) ?_ ?_
      · rcases resolveUri_other slash read known other with ⟨target, done, -⟩ | ⟨shapeless, -⟩
        · exact .inl ⟨target, done⟩
        · exact .inr shapeless
      · rw [cutQuery_cons (plain_of_visitable known)]
        exact fun same => other (Option.some.inj same)
    have spelled : readable (rest.head? ≠ some '/') = .never := by simp [readable, slash]
    rw [elsewhere, ok_bind, if_neg (by decide), shown, spelled]
    rfl

theorem scope_of_control (isControl : controlPath (cutQuery (scope :: below)) = true) : scope = "resources" := by
  rw [cutQuery] at isControl
  split at isControl
  · split at isControl <;> cases isControl
  · rcases rest : cutQuery below with - | ⟨name, - | ⟨other, more⟩⟩ <;> rw [rest] at isControl
    · cases isControl
    · exact of_decide_eq_true (Bool.and_eq_true_iff.mp isControl).1
    · cases isControl

theorem temp_sees (classes : CharClasses) (scope space : Text) (others : List Text) :
    (tempAudience classes (scope :: space :: others)).sees ctx.user.userId ctx.actorPeer =
      (space = ctx.user.userId || isLegacyTempUriParts classes (scope :: space :: others)) := by
  rw [tempAudience]
  split
  next legacy => rw [legacy, Bool.or_true]; rfl
  next notLegacy =>
    rw [Bool.eq_false_iff.mpr notLegacy, Bool.or_false]
    split
    next => simp [Audience.sees, eq_comm]
    next invalid =>
      have other : space ≠ ctx.user.userId := fun same => invalid (same ▸ ctx.user.validUser)
      simp [Audience.sees, other]

theorem visitable_cases : ∀ scope ∈ visitableScopes, scope ∈ ["resources", "temp", "upload", "agent"].map String.toList ∨
    scope ∈ ["user", "queue", "~", "session"].map String.toList := by decide

theorem fixed_scopes (notResources : scope ≠ "resources") (notTemp : scope ≠ "temp") (notUpload : scope ≠ "upload")
    (notAgent : scope ≠ "agent") : scope ∉ ["resources", "temp", "upload", "agent"].map String.toList := by
  intro among
  rw [map_cons, map_cons, map_cons, map_cons, map_nil, mem_cons, mem_cons, mem_cons,
    mem_singleton] at among
  rcases among with same | same | same | same
  · exact notResources same
  · exact notTemp same
  · exact notUpload same
  · exact notAgent same

theorem shown_unknown (read : names rest = scope :: below) (unknown : rest.head? = some '/' ∨ scope ∉ visitableScopes)
    (nonroot : ctx.role ≠ .root) : (shown (scheme ++ rest) ctx).toOption = none := by
  obtain ⟨message, failed⟩ := resolveUri_unknown read unknown
  rw [shown]
  cases isPeer : ctx.actorPeer with
  | none =>
    rw [isHidden_noPeer isPeer, ok_bind, if_neg (by decide), namespaceIsAccessible, if_neg nonroot, failed]
    rfl
  | some peer =>
    obtain ⟨error, failed⟩ := isHidden_unknown read unknown isPeer
    rw [failed]
    rfl

theorem shown_last (spelled : rest.head? ≠ some '/') (read : names rest = scope :: below)
    (last : scope ∈ ["queue", "~", "session"].map String.toList) (nonroot : ctx.role ≠ .root) :
    shown (scheme ++ rest) ctx = .ok (scope = "queue") := by
  have known : ∀ scope ∈ ["queue", "~", "session"].map String.toList, scope ∈ visitableScopes ∧ scope ≠ "user" ∧
      (scope ∉ ["~", "session"].map String.toList ↔ scope = "queue") := by decide
  obtain ⟨visitable, notUser, queue⟩ := known scope last
  rcases resolveUri_other spelled read visitable notUser with ⟨target, done, same, other⟩ | ⟨⟨message, failed⟩, other⟩
  · have elsewhere : isHiddenByActorPeerView (scheme ++ rest) ctx = .ok false := by
      refine isHidden_elsewhere (uriParts_names read) (.inl ⟨target, done⟩) ?_
      rw [cutQuery_cons (plain_of_visitable visitable)]
      exact fun equal => notUser (Option.some.inj equal)
    rw [shown, elsewhere, ok_bind, if_neg (by decide), namespaceIsAccessible, if_neg nonroot, done]
    dsimp only
    rw [same, queue.mp other, if_pos (by decide), decide_eq_true rfl]
  · have notQueue : scope ≠ "queue" := fun equal => queue.mpr equal other
    rw [shown_shapeless nonroot failed, decide_eq_false notQueue]

theorem agent_sees {spelled : Bool} (reads : (readable spelled).fails ctx.actorPeer = false) (scope own : Text) (others : List Text) :
    (agentAudience spelled (scope :: own :: others)).sees ctx.user.userId ctx.actorPeer =
      (own ∈ agentSections || ctx.actorPeer.all (own = ·)) := by
  rw [agentAudience]
  split
  next everyone =>
    rcases everyone with section' | unspelled
    · rw [decide_eq_true section']
      rfl
    · rw [unspelled] at reads
      cases isPeer : ctx.actorPeer with
      | none => rw [Option.all_none, Bool.or_true]; rfl
      | some peer => rw [isPeer] at reads; cases reads
  next only =>
    rw [decide_eq_false fun section' => only (.inl section'), Bool.false_or]
    cases ctx.actorPeer <;> simp [Audience.sees, eq_comm]

theorem isAccessible_fixed {uri : Text} (safe : safeUriParts classes.isalpha uri = .ok parts) {failing : Failing} {audience : Audience}
    (view : viewOf classes uri = .fixed failing audience) : (isAccessible classes uri ctx).toOption = fixedAnswer failing audience ctx := by
  by_cases root : ctx.role = .root
  · rw [isAccessible, safe, ok_bind, if_pos root, fixedAnswer, if_pos root]
    rfl
  rw [isAccessible_eq safe root, fixedAnswer, if_neg root]
  obtain ⟨rest, rfl, rfl, -⟩ := safeUriParts_ok_iff.mp safe
  rw [viewOf, drop_left] at view
  cases read : names rest with
  | nil =>
    rw [read] at view
    cases view
    have elsewhere : isHiddenByActorPeerView (scheme ++ rest) ctx = .ok false := by
      have bare : uriParts (scheme ++ rest) = .ok [] := by rw [uriParts_scheme, read]; rfl
      refine isHidden_elsewhere bare (.inl ?_) nofun
      rw [resolveUri, vikingScope_bare read, ok_bind, bare]
      exact ⟨_, rfl⟩
    rw [elsewhere]
    rfl
  | cons scope below =>
    have path := uriParts_names read
    have control := isWatchTaskControlUri_eq path
    rw [read] at view
    rw [shownByScope.eq_def]
    dsimp only
    rw [control, ok_bind]
    rcases ite_eq_iff.mp view with ⟨isControl, view⟩ | ⟨notControl, view⟩
    · cases view
      have isScope := scope_of_control isControl
      rw [if_pos isControl]
      exact hidden_readable read (isScope ▸ by decide) (isScope ▸ by decide) rfl
    rw [if_neg notControl]
    rcases ite_eq_iff.mp view with ⟨-, view⟩ | ⟨notResources, view⟩
    · cases view
    have notScope : scope ≠ "resources" := by
      rintro rfl
      exact notResources (by rw [cutQuery_cons (by decide)]; rfl)
    rw [if_neg notScope]
    rcases ite_eq_iff.mp view with ⟨temp, view⟩ | ⟨notTemp, view⟩
    · cases view
      rw [if_pos temp]
      refine hidden_readable read (temp ▸ by decide) (temp ▸ by decide) ?_
      cases below with
      | nil => rfl
      | cons space others => exact congrArg some (temp_sees classes scope space others).symm
    rw [if_neg notTemp]
    rcases ite_eq_iff.mp view with ⟨upload, view⟩ | ⟨notUpload, view⟩
    · cases view
      rw [if_pos upload]
      refine hidden_readable read (upload ▸ by decide) (upload ▸ by decide) ?_
      rw [decide_eq_false root]
      rfl
    rw [if_neg notUpload]
    rcases ite_eq_iff.mp view with ⟨system, view⟩ | ⟨notSystem, view⟩
    · cases view
      rw [if_pos system]
      cases isPeer : ctx.actorPeer with
      | none =>
        rw [isHidden_noPeer isPeer]
        rfl
      | some peer =>
        obtain ⟨error, failed⟩ := @isHidden_unknown _ ctx _ _ read (.inr (system ▸ by decide)) _ isPeer
        rw [failed]
        rfl
    rw [if_neg notSystem]
    rcases ite_eq_iff.mp view with ⟨agent, view⟩ | ⟨notAgent, view⟩
    · cases view
      rw [if_pos agent]
      refine (hidden_readable read (agent ▸ by decide) (agent ▸ by decide) rfl).trans ?_
      by_cases fails : (readable (rest.head? ≠ some '/')).fails ctx.actorPeer
      · rw [if_pos fails, if_pos fails]
      · rw [if_neg fails, if_neg fails]
        cases below with
        | nil => rfl
        | cons own others =>
          rw [agent_sees (Bool.eq_false_iff.mpr fails)]
          cases ctx.actorPeer <;> rfl
    rw [if_neg notAgent]
    change (shown (scheme ++ rest) ctx).toOption = _
    rcases ite_eq_iff.mp view with ⟨unreadable, view⟩ | ⟨readable, view⟩
    · cases view
      refine shown_unknown read (unreadable.imp (fun slash => by simpa using slash) fun other known => ?_) root
      rcases visitable_cases scope known with among | last
      · exact fixed_scopes notScope notTemp notUpload notAgent among
      · exact other last
    rw [not_or, not_not] at readable
    have spelled : rest.head? ≠ some '/' := by simpa using readable.1
    rcases ite_eq_iff.mp view with ⟨rfl, view⟩ | ⟨notUser, view⟩
    · cases view
      rw [shown_user spelled read root]
      rfl
    rw [shown_last spelled read (mem_of_ne_of_mem notUser readable.2) root]
    rcases ite_eq_iff.mp view with ⟨queue, view⟩ | ⟨notQueue, view⟩
    · cases view
      rw [decide_eq_true queue]
      rfl
    · cases view
      rw [decide_eq_false notQueue]
      rfl

end Answers

end LoginomDock.Access
