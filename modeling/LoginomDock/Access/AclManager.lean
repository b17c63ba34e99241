import LoginomDock.Access.Acl

namespace LoginomDock.Access

inductive CreatorAclGrant where
  | direct
  | inherited
  deriving DecidableEq

structure ContextRecord where
  id : Text
  uri : Text
  user : Option Text := none
  aclEnabled : Bool := false
  directGrants : List Text := []
  inheritedGrants : List Text := []
  creatorGrant : Option CreatorAclGrant := none
  deriving DecidableEq

abbrev ContextStore := List ContextRecord

/-- `**effective.context_fields()` -/
def EffectiveAcl.setFields (acl : EffectiveAcl) (record : ContextRecord) : ContextRecord where
  id := record.id
  uri := record.uri
  user := record.user
  aclEnabled := acl.enabled
  directGrants := acl.direct.entries.map encodeGrant
  inheritedGrants := acl.inherited.entries.map encodeGrant
  creatorGrant := record.creatorGrant

def normalizedUri (uri : Text) : List Text := names (uri.drop scheme.length)

namespace ContextStore

variable (store : ContextStore)

-- The records of the given paths; the batches and pages of the query are read to the end.
def recordsForUris (uris : List Text) : List ContextRecord :=
  store.filter fun record => uris.any fun uri => normalizedUri record.uri = normalizedUri uri

def subtreeRecords (uri : Text) : List ContextRecord :=
  store.filter fun record => (normalizedUri uri).isPrefixOf (normalizedUri record.uri)

def upsert (record : ContextRecord) : ContextStore :=
  if store.any fun other => other.id = record.id then store.map fun other => if other.id = record.id then record else other
  else store ++ [record]

def upsertMany (records : List ContextRecord) : ContextStore := records.foldl upsert store

end ContextStore

namespace AclManager

def fromContextFields (tokens : List Text) : Except AclError DirectAcl := do
  let entries ← tokens.mapM decodeGrant
  .ok (Ranked.ofList entries)

def effectiveFromRecord (record : ContextRecord) : Except AclError EffectiveAcl := do
  let direct ← fromContextFields record.directGrants
  let inherited ← fromContextFields record.inheritedGrants
  .ok ⟨record.aclEnabled || !direct.isEmpty || !inherited.isEmpty, direct, inherited⟩

section

variable (records : List ContextRecord)

def effectiveFromRecords : Except AclError EffectiveAcl :=
  match records with
  | [] => .ok .none
  | record :: rest => do
      let value ← effectiveFromRecord record
      let values ← rest.mapM effectiveFromRecord
      if values.all (· = value) then .ok value else .error (.inconsistent record.uri)

def groupByUri (uri : Text) : List ContextRecord := records.filter fun record => record.uri = uri

def groupedUris : List Text := ((records.map ContextRecord.uri).filter (· ≠ [])).eraseDups

end

def valueOf {α : Type} (entries : List (Text × α)) (uri : Text) : Option α := (entries.find? fun entry => entry.1 = uri).map Prod.snd

def mapUris {α : Type} (uris : List Text) (value : Text → Except AclError α) : Except AclError (List (Text × α)) :=
  uris.mapM fun uri => do
    let found ← value uri
    .ok (uri, found)

variable (store : ContextStore)

def unionOf (directMap : List (Text × DirectAcl)) (base : DirectAcl) (ancestors : List Text) : DirectAcl :=
  ancestors.foldl (fun acl ancestor => acl.union ((valueOf directMap ancestor).getD .empty)) base

def resolveMany (uris : List Text) : Except AclError (List (Text × EffectiveAcl)) := do
  let uniqueUris := uris.eraseDups
  let paths ← mapUris uniqueUris aclAncestors
  let exactRecords := store.recordsForUris uniqueUris
  let result ← mapUris (uniqueUris.filter fun uri => groupByUri exactRecords uri ≠ []) fun uri =>
    effectiveFromRecords (groupByUri exactRecords uri)
  let missing := uniqueUris.filter fun uri => groupByUri exactRecords uri = []
  if missing = [] then .ok result
  else
    let ancestorRecords := store.recordsForUris (missing.flatMap fun uri => (valueOf paths uri).getD [])
    let directMap ← mapUris (groupedUris ancestorRecords) fun uri => do
      let effective ← effectiveFromRecords (groupByUri ancestorRecords uri)
      .ok effective.direct
    .ok (result ++ missing.map fun uri =>
      let inherited := unionOf directMap .empty ((valueOf paths uri).getD []).dropLast
      (uri, EffectiveAcl.of ((valueOf directMap uri).getD .empty) inherited))

def resolve (uri : Text) : Except AclError EffectiveAcl := do
  let resolved ← resolveMany store [uri]
  .ok ((valueOf resolved uri).getD .none)

def parentOf (ancestors : List Text) : Option Text := ancestors.dropLast.getLast?

def basePermissions (parent : Option Text) : Except AclError DirectAcl :=
  match parent with
  | none => .ok .empty
  | some parent => do
      let effective ← resolve store parent
      .ok effective.permissions

def creatorAcl (creator : Text) : Except AclError DirectAcl := do
  let principal ← toPrincipal ("user:" ++ creator)
  .ok (Ranked.ofList [(principal, .manage)])

def newEffective (inherited : DirectAcl) (record : ContextRecord) : Except AclError EffectiveAcl :=
  match record.user.filter (· ≠ []), record.creatorGrant with
  | some creator, some .direct => do
      let acl ← creatorAcl creator
      .ok (.of acl inherited)
  | some creator, some .inherited => do
      let acl ← creatorAcl creator
      .ok (.of .empty (inherited.union acl))
  | _, _ => .ok (.of .empty inherited)

def isResource (record : ContextRecord) : Except AclError Bool := if record.uri = [] then .ok false else isAclUri record.uri

def materializeContextRecords (enabled : Bool) (records : List ContextRecord) : Except AclError (List ContextRecord) :=
  if !enabled then .ok (records.map fun record => { record with creatorGrant := none })
  else do
    let resources ← records.mapM fun record => do
      let resource ← isResource record
      .ok (record.uri, resource)
    let resourceUris := ((resources.filter Prod.snd).map Prod.fst).eraseDups
    if resourceUris = [] then .ok records
    else
      let existing := store.recordsForUris resourceUris
      let existingAcl ← mapUris (groupedUris existing) fun uri => effectiveFromRecords (groupByUri existing uri)
      let newUris := resourceUris.filter fun uri => (valueOf existingAcl uri).isNone
      let parents ← mapUris newUris fun uri => do
        let ancestors ← aclAncestors uri
        .ok (parentOf ancestors)
      let parentAcl ← resolveMany store (parents.filterMap Prod.snd)
      records.mapM fun record =>
        let stored := { record with creatorGrant := none }
        if record.uri ∉ resourceUris then .ok stored
        else match valueOf existingAcl record.uri with
          | some effective => .ok (effective.setFields stored)
          | none => do
              let parent := (valueOf parents record.uri).join
              let inherited := match parent with
                | some parent => ((valueOf parentAcl parent).getD .none).permissions
                | none => .empty
              let effective ← newEffective inherited record
              .ok (effective.setFields stored)

def materializeMovedRecord (record : ContextRecord) (newUri : Text) : Except AclError EffectiveAcl := do
  let acl ← isAclUri newUri
  if !acl then .ok .none
  else
    let ancestors ← aclAncestors newUri
    let inherited ← basePermissions store (parentOf ancestors)
    let fromResource ← isAclUri record.uri
    let direct ← if fromResource then fromContextFields record.directGrants else .ok .empty
    .ok (.of direct inherited)

def applySubtree (rootUri : Text) (records : List ContextRecord) (rootDirect : Option DirectAcl) :
    Except AclError ContextStore := do
  let grouped := groupedUris records
  if rootUri ∉ grouped then .error (.invalidArgument "ACL target has no context record; index it first")
  else
    let directMap ← mapUris grouped fun uri => do
      let effective ← effectiveFromRecords (groupByUri records uri)
      .ok (if uri = rootUri then rootDirect.getD effective.direct else effective.direct)
    let rootAncestors ← aclAncestors rootUri
    let base ← basePermissions store (parentOf rootAncestors)
    let effectiveByUri ← mapUris grouped fun uri => do
      let ancestors ← aclAncestors uri
      let inherited := unionOf directMap base (ancestors.dropLast.drop (rootAncestors.length - 1))
      .ok (EffectiveAcl.of ((valueOf directMap uri).getD .empty) inherited)
    let updated := records.filterMap fun record => (valueOf effectiveByUri record.uri).map fun acl => acl.setFields record
    .ok (store.upsertMany updated)

def refreshContextSubtree (uri : Text) : Except AclError ContextStore :=
  let records := store.subtreeRecords uri
  if records = [] then .ok store else applySubtree store uri records none

-- After a failure the old records are written again, which changes nothing.
def setDirect (uri : Text) (entries : List (Text × Text)) : Except AclError ContextStore := do
  let parts ← liftUri (uriParts uri)
  if parts = ["resources".toList] then .error (.invalidArgument "ACL cannot be set on viking://resources")
  else
    let proposed ← DirectAcl.ofRequest entries
    applySubtree store uri (store.subtreeRecords uri) (some proposed)

end AclManager

end LoginomDock.Access
