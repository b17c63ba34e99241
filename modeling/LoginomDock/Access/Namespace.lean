import LoginomDock.Access.Uris

/-! Who owns a URI, and which URIs a request may see without access control lists. -/

namespace LoginomDock.Access

inductive Role where
  | root
  | admin
  | user
  | custom (name : Text)
  deriving DecidableEq

structure UserIdentifier where
  accountId : Text
  userId : Text
  validAccount : validateAccountId accountId = none
  validUser : validateUserId userId = none

structure RequestContext where
  user : UserIdentifier
  role : Role
  groupIds : List Text := []
  actorPeerId : Option Text := none
  bypassAcl : Bool := false

-- An empty peer is none.
def RequestContext.actorPeer (ctx : RequestContext) : Option Text := ctx.actorPeerId.filter (· ≠ [])

-- What Unicode says of a character
structure CharClasses where
  isalpha : Char → Bool
  isdecimal : Char → Bool

def visitableScopes : List Text :=
  ["resources", "user", "agent", "session", "temp", "queue", "upload", "~"].map String.toList

/-- `VikingURI(uri)` -/
def vikingScope (uri : Text) : Except AccessError Text :=
  if !scheme.isPrefixOf uri then .error schemeMissing
  else
    let path := uri.drop scheme.length
    if stripSlashes path = [] then .ok []
    else
      let scope := path.takeWhile (· ≠ '/')
      if scope ∈ visitableScopes then .ok scope
      else .error (.value ("Invalid scope '" ++ scope ++
        "'. Must be one of: agent, queue, resources, session, temp, upload, user"))

structure ResolvedNamespace where
  uri : Text
  scope : Text
  ownerUserId : Option Text := none
  isContainer : Bool := false

def requirePeerIdSegment (peerId : Text) : Except AccessError Unit :=
  match normalizePeerId peerId with
  | .ok none => .error (.namespaceShape "peer_id must not be empty")
  | .ok (some _) => .ok ()
  | .error (.value message) => .error (.namespaceShape message)
  | .error error => .error error

def validatePeerIdSegments (parts : List Text) : Except AccessError Unit :=
  match parts with
  | scope :: _ :: collection :: peer :: _ =>
    if scope = "user" ∧ collection = "peers" then requirePeerIdSegment peer else .ok ()
  | _ => .ok ()

def resolveUserUri (parts : List Text) : Except AccessError ResolvedNamespace :=
  match parts with
  | _ :: userId :: suffix =>
    match validateUserId userId with
    | some message => .error (.namespaceShape ("Invalid user_id: " ++ message))
    | none => do
        if suffix ≠ [] then validatePeerIdSegments parts
        .ok { uri := scheme ++ Text.joined ("user" :: userId :: suffix), scope := "user", ownerUserId := some userId }
  | _ => .ok { uri := scheme ++ "user", scope := "user", isContainer := true }

def resolveUri (uri : Text) : Except AccessError ResolvedNamespace := do
  let _ ← vikingScope uri
  let stripped := uri.rdropWhile (· = '/')
  let canonicalUri := if stripped = [] then scheme else stripped
  let parts ← uriParts uri
  match parts with
  | [] => .ok { uri := scheme, scope := [], isContainer := true }
  | scope :: _ =>
    if scope = "user" then resolveUserUri parts
    else if scope = "~" then
      .error (.namespaceShape ("Home alias URI is not canonical: " ++ Text.joined parts))
    else if scope = "session" then
      .error (.namespaceShape ("Legacy session URI is not canonical: " ++ Text.joined parts))
    else .ok { uri := canonicalUri, scope := scope }

def actorPeerViewUserSuffix (uri : Text) (ctx : RequestContext) : Except AccessError (Option (List Text)) :=
  match ctx.actorPeer with
  | none => .ok none
  | some _ => match resolveUri uri with
    | .error (.namespaceShape _) => .ok none
    | .error error => .error error
    | .ok _ => do
        let parts ← uriParts uri
        .ok (if parts.take 2 = ["user".toList, ctx.user.userId] then some (parts.drop 2) else none)

def isHiddenByActorPeerView (uri : Text) (ctx : RequestContext) : Except AccessError Bool := do
  let suffix ← actorPeerViewUserSuffix uri ctx
  match suffix with
  | some (collection :: peer :: _) => .ok (collection = "peers" && ctx.actorPeer ≠ some peer)
  | _ => .ok false

def watchTaskControlNames : List Text :=
  [".watch_tasks.json", ".watch_tasks.json.bak", ".watch_tasks.json.tmp"].map String.toList

def isWatchTaskControlUri (uri : Text) : Except AccessError Bool := do
  let parts ← uriParts uri
  match parts with
  | [scope, name] => .ok (scope = "resources" && name ∈ watchTaskControlNames)
  | _ => .ok false

/-- `is_accessible` of the namespaces -/
def namespaceIsAccessible (uri : Text) (ctx : RequestContext) : Except AccessError Bool :=
  if ctx.role = .root then .ok true
  else match resolveUri uri with
    | .error (.namespaceShape _) => .ok false
    | .error error => .error error
    | .ok target =>
      if target.scope ∈ ["", "resources", "temp", "queue"].map String.toList then .ok true
      else if target.scope = "upload" then .ok false
      else if target.scope = "user" then
        .ok (match target.ownerUserId with
          | some owner => owner = ctx.user.userId
          | none => true)
      else if target.scope = "agent" then do
        let parts ← uriParts target.uri
        .ok (match ctx.actorPeer, parts with
          | some peer, _ :: agent :: _ => agent = peer
          | _, _ => true)
      else .ok true

/-- `^\d{8}_[0-9a-f]{6}$` -/
def looksLikeLegacyTempLeaf (classes : CharClasses) (value : Text) : Bool :=
  let body := if value.getLast? = some '\n' then value.dropLast else value
  body.length = 15 && (body.take 8).all classes.isdecimal && body[8]? = some '_' && (body.drop 9).all (· ∈ hexAlphabet)

def isLegacyTempUriParts (classes : CharClasses) (parts : List Text) : Bool :=
  match parts with
  | scope :: leaf :: rest =>
    scope = "temp" && looksLikeLegacyTempLeaf classes leaf && !(rest.head?.any (looksLikeLegacyTempLeaf classes))
  | _ => false

def agentSections : List Text := ["skills", "endpoints", "tools", "payments"].map String.toList

/-- `_is_accessible` of the storage -/
def isAccessible (classes : CharClasses) (uri : Text) (ctx : RequestContext) : Except AccessError Bool := do
  let parts ← safeUriParts classes.isalpha uri
  if ctx.role = .root then .ok true
  else
    let hidden ← isHiddenByActorPeerView uri ctx
    if hidden then .ok false
    else match parts with
      | [] => .ok true
      | scope :: rest => do
          let control ← isWatchTaskControlUri uri
          if control then .ok false
          else if scope = "resources" then .ok true
          else if scope = "temp" then
            .ok (match rest with
              | [] => true
              | space :: _ => space = ctx.user.userId || isLegacyTempUriParts classes parts)
          else if scope = "upload" then .ok (ctx.role = .root)
          else if scope = "_system" then .ok false
          else if scope = "agent" then
            .ok (match rest with
              | [] => true
              | agent :: _ => agent ∈ agentSections || match ctx.actorPeer with
                | none => true
                | some peer => agent = peer)
          else namespaceIsAccessible uri ctx

end LoginomDock.Access
