import LoginomDock.Access.CanAccess
import LoginomDock.Access.UserSpaces
import LoginomDock.Filters.CompiledFilters

/-! A search is narrowed to what its caller may read, by a filter on the records of the store: on the account, on paths,
and on the tokens of the grants that a record holds. -/

namespace LoginomDock.Filters

open Access (AccessError AclError AclLevel CharClasses ContextRecord ContextStore DirectAcl RequestContext aclPrincipals canonical
  maskText safeUriParts uriParts userRoot vikingScope)

variable {V : Type}

def resourcesRoot : Text := "viking://resources"

def agentSharedRoots : List Text := ["viking://agent/skills"]

def canonicalUserRoot (ctx : RequestContext) : Text := userRoot ctx.user.userId

def visibleRoots (ctx : RequestContext) : List Text := resourcesRoot :: agentSharedRoots ++ [canonicalUserRoot ctx]

/-- `_encode_grant` -/
def grantToken (principal : Text) (level : AclLevel) : Text := maskText level ++ ':' :: principal

def aclGrantTokens (principals : List Text) (action : AclLevel) : List Text :=
  (principals.eraseDups.mergeSort fun first second => decide (first ≤ second)).flatMap fun principal =>
    ([AclLevel.read, .write, .manage].filter fun level => level.mask &&& action.mask = action.mask).map (grantToken principal)

def inScope (root : Text) : FilterExpr V := .pathScope "uri" root (-1)

def accountIs (ctx : RequestContext) : FilterExpr V := .eq "account_id" (.text ctx.user.accountId)

/-- The raw payload with the one condition `True`, which is `yes` among the values -/
def notAclEnabled (yes : V) : FilterExpr V := .rawDSL (.mustNot "acl_enabled" [.other yes] none)

def grantsAmong (field : String) (tokens : List Text) : FilterExpr V := .inn field.toList (tokens.map .text)

section Building

variable (yes : V) (ctx : RequestContext) (enabled : Bool)

def accessFilters : List (FilterExpr V) :=
  let readGrants := aclGrantTokens (aclPrincipals ctx) .read
  let legacy : FilterExpr V := .and [notAclEnabled yes, .or ((visibleRoots ctx).map inScope)]
  let shared : FilterExpr V :=
    .and [inScope resourcesRoot, .or [grantsAmong "acl_direct_grants" readGrants, grantsAmong "acl_inherited_grants" readGrants]]
  [legacy, shared, inScope (canonicalUserRoot ctx ++ "/resources")] ++ if ctx.role = .admin then [inScope resourcesRoot] else []

def tenantFilter : Option (FilterExpr V) :=
  if ctx.bypassAcl then some (accountIs ctx)
  else if ctx.role = .root then none
  else if !enabled then some (.and [accountIs ctx, .or ((visibleRoots ctx).map inScope)])
  else some (.and [accountIs ctx, .or (accessFilters yes ctx)])

def targetsWithinVisibleRoots (targets : List Text) : Except AccessError Bool :=
  if targets = [] then .ok false
  else do
    let rootParts ← (visibleRoots ctx).mapM uriParts
    let targetParts ← targets.mapM uriParts
    .ok (targetParts.all fun parts => rootParts.any fun root => root.isPrefixOf parts)

/-- Whether a filter counts, which `None` and an `and` of nothing do not -/
def counts : FilterExpr V → Bool
  | .noCondition | .rawDSL (.and []) => false
  | _ => true

def mergeFilters (filters : List (FilterExpr V)) : Option (FilterExpr V) :=
  match filters.filter counts with
  | [] => none
  | [filter] => some filter
  | filters => some (.and filters)

inductive ExtraFilter (V : Type) where
  | absent
  | given (filter : FilterExpr V)
  | dict (payload : Payload V)

def ExtraFilter.filters : ExtraFilter V → List (FilterExpr V)
  | .absent => []
  | .given filter => [filter]
  | .dict payload => if payload.isAll then [] else [.rawDSL payload]

-- What a search asks for besides its scope
structure SearchRequest (V : Type) where
  contextType : Option Text := none
  targetDirectories : List Text := []
  extraFilter : ExtraFilter V := .absent
  level : List (Scalar V) := []

namespace SearchRequest

variable (request : SearchRequest V)

def typeFilters : List (FilterExpr V) :=
  match request.contextType with
  | some (char :: rest) => [.eq "context_type" (.text (char :: rest))]
  | _ => []

def targets : List Text := request.targetDirectories.filter (· ≠ [])

def targetFilters : List (FilterExpr V) := if request.targets = [] then [] else [.or (request.targets.map inScope)]

def levelFilters : List (FilterExpr V) := if request.level = [] then [] else [.inn "level" request.level]

end SearchRequest

def narrowTargets (targets : List Text) : Except AccessError Bool :=
  if (tenantFilter yes ctx enabled).isSome && !enabled then targetsWithinVisibleRoots ctx targets else .ok false

def buildScopeFilter (request : SearchRequest V) : Except AccessError (Option (FilterExpr V)) := do
  let narrow ← narrowTargets yes ctx enabled request.targets
  let tenant := if narrow then some (accountIs ctx) else tenantFilter yes ctx enabled
  .ok (mergeFilters (request.typeFilters ++ tenant.toList ++ request.targetFilters ++ request.extraFilter.filters ++ request.levelFilters))

end Building

-- A uri as it is read back from the store: the path of a file or a directory that can be written
structure Stored (classes : CharClasses) (uri : Text) (parts : List Text) : Prop where
  names : Text.IsNames parts
  spelled : uri = canonical parts
  /-- White space at the end is cut by the adapter. -/
  stripped : Access.strip uri = uri
  valid : ∃ scope, vikingScope uri = .ok scope
  safe : safeUriParts classes.isalpha uri = .ok parts

-- A record of the store with what it holds under the fields that a scope reads
structure IndexedRecord [DecidableEq V] (yes : V) (classes : CharClasses) where
  accountId : Text
  record : ContextRecord
  fields : Text → FieldValue V
  stored : ∃ parts, Stored classes record.uri parts
  uri : fields "uri" = .scalar (.text record.uri)
  account : fields "account_id" = .scalar (.text accountId)
  enabled : valueMatches (fields "acl_enabled") [.other yes] = record.aclEnabled
  direct : ∀ token, valueMatches (fields "acl_direct_grants") [.text token] = decide (token ∈ record.directGrants)
  inherited : ∀ token, valueMatches (fields "acl_inherited_grants") [.text token] = decide (token ∈ record.inheritedGrants)

def accountStore [DecidableEq V] {yes : V} {classes : CharClasses} (ctx : RequestContext) (records : List (IndexedRecord yes classes)) :
    ContextStore :=
  (records.filter fun indexed => indexed.accountId = ctx.user.accountId).map IndexedRecord.record

/-- The lists that a uri has when `direct` is given on each: none where no lists are kept. -/
def keptAcl (direct : Text → DirectAcl) (uri : Text) : Access.EffectiveAcl :=
  match Access.aclAncestors uri with
  | .ok ancestors => .of (direct uri) (ancestors.dropLast.foldl (fun acl ancestor => acl.union (direct ancestor)) .empty)
  | .error _ => .none

-- The records hold the grants given to each and above it, and none is that of the watch control.
def KeepsAcl (store : ContextStore) : Prop :=
  ∃ direct : Text → DirectAcl, ∀ record ∈ store,
    Access.HasFields record (keptAcl direct record.uri) ∧ Access.isWatchTaskControlUri record.uri = .ok false

/-- `_can_access_many` answers that the uri may be read. -/
def Reads (classes : CharClasses) (store : ContextStore) (ctx : RequestContext) (enabled : Bool) (uri : Text) : Prop :=
  ∃ answers, Access.canAccessMany classes store ctx .read enabled [uri] = .ok answers ∧ Access.AclManager.valueOf answers uri = some true

end LoginomDock.Filters
