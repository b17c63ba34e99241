import LoginomDock.Library.Json
import LoginomDock.Access.CanAccess

/-! Sessions were once stored below the account, flat or below the directory of a user. They are still read where the
sessions of a user are asked for. -/

namespace LoginomDock.Access

inductive Node where
  | directory
  | file (data : List UInt8)
  deriving DecidableEq

structure Storage where
  nodes : List (List Text × Node)
  unique : (nodes.map Prod.fst).Nodup

inductive ListingError where
  | notFound
  /-- Any other error of the storage -/
  | storage
  | access (error : AccessError)
  | acl (error : AclError)
  deriving DecidableEq

structure Entry where
  name : Text
  isDir : Bool
  deriving DecidableEq

namespace Storage

variable (storage : Storage)

section

variable (path : List Text)

def node? : Option Node := (storage.nodes.find? fun node => node.1 = path).map Prod.snd

def has : Bool := (storage.node? path).isSome

def read : Except ListingError (List UInt8) :=
  match storage.node? path with
  | some (.file data) => .ok data
  | some .directory => .error .storage
  | none => .error .notFound

def children : List Entry :=
  storage.nodes.filterMap fun node => match node.1.getLast? with
    | some name => if node.1 = path ++ [name] then some ⟨name, node.2 = .directory⟩ else none
    | none => none

def ls : Except ListingError (List Entry) :=
  match storage.node? path with
  | some .directory => .ok (storage.children path)
  | some (.file _) => .error .storage
  | none => .error .notFound

-- What is below a directory: files whose names start with a dot only when asked for, and no deeper than the limit
def treeDirectory (showHidden : Bool) (nodeLimit levelLimit : Option Nat) : Except ListingError (List (List Text × Bool)) :=
  match storage.node? path with
  | some .directory =>
    let below := (storage.nodes.filter fun node => path.isPrefixOf node.1 && node.1 ≠ path).map fun node => (node.1, decide (node.2 = .directory))
    let shown := below.filter fun entry =>
      (showHidden || entry.2 || (entry.1.getLast?.bind List.head?) ≠ some '.') &&
        levelLimit.all (entry.1.length - path.length ≤ ·)
    .ok (match nodeLimit with
      | some limit => shown.take limit
      | none => shown)
  | some (.file _) => .error .storage
  | none => .error .notFound

end

end Storage

def listableScopes : List Text := ["resources", "user", "agent"].map String.toList

/-- `STORAGE_INTERNAL_ENTRY_NAMES` -/
def storageInternalEntryNames : List Text := ["_system", "tasks", ".path.ovlock", ".redirect.json", ".sync_log.json"].map String.toList

def isNameVisibleAtPath (name : Text) (parentPath : List Text) : Bool :=
  if parentPath.length = 2 ∧ parentPath.head? = some "local".toList then name ∈ listableScopes
  else name ∉ storageInternalEntryNames

def lsEntries (storage : Storage) (path : List Text) : Except ListingError (List Entry) := do
  let entries ← storage.ls path
  .ok (entries.filter fun entry => isNameVisibleAtPath entry.name path)

def liftAccess {α : Type} : Except AccessError α → Except ListingError α
  | .ok value => .ok value
  | .error error => .error (.access error)

section Paths

variable (isalpha : Char → Bool) (accountId : Text)

section

variable (uri : Text)

/-- `_uri_to_path`, as the components of the path -/
def storagePath : Except AccessError (List Text) := do
  let path ← uriToPath isalpha accountId uri
  .ok (names path)

def legacySessionPath : Except AccessError (List Text) := do
  let parts ← safeUriParts isalpha uri
  .ok ("local" :: accountId :: parts.map shortenComponent)

def legacyUserSessionPath : Except AccessError (Option (List Text)) := do
  let parts ← safeUriParts isalpha uri
  .ok (match parts with
    | scope :: user :: collection :: first :: rest =>
      if scope ≠ "user" ∨ collection ≠ "sessions" then none
      else some ("local".toList :: accountId :: ("session".toList :: user :: first :: rest).map shortenComponent)
    | _ => none)

def legacySessionAlias : Except AccessError (Option Text) := do
  let parts ← safeUriParts isalpha uri
  .ok (match parts with
    | scope :: _ :: collection :: suffix =>
      if scope ≠ "user" ∨ collection ≠ "sessions" then none
      else some (scheme ++ Text.joined ("session" :: suffix))
    | _ => none)

def isSessionRootUri : Except AccessError Bool := do
  let legacy ← legacySessionAlias isalpha uri
  .ok (legacy = some "viking://session".toList)

def isLegacyAgentIdUri : Except AccessError Bool := do
  let parts ← safeUriParts isalpha uri
  .ok (isLegacyAgentId parts)

def readPaths : Except AccessError (List (List Text)) := do
  let primary ← storagePath isalpha accountId uri
  let legacy ← legacySessionAlias isalpha uri
  match legacy with
  | none => .ok [primary]
  | some legacyUri => do
      let flat ← legacySessionPath isalpha accountId legacyUri
      let nested ← legacyUserSessionPath isalpha accountId uri
      .ok (primary :: flat :: nested.toList).eraseDups

end

def pathToUri (path : List Text) : Text :=
  match path with
  | _ :: account :: rest => scheme ++ Text.joined (if account = accountId then rest else account :: rest)
  | _ => scheme

def aliasUriForPath (requestUri : Text) (basePath entryPath : List Text) : Except AccessError Text := do
  let requestParts ← safeUriParts isalpha requestUri
  let legacyAgent ← isLegacyAgentIdUri isalpha requestUri
  let root := if requestUri = scheme then requestUri else requestUri.rdropWhile (· = '/')
  let preserves := requestUri = scheme ∨ requestUri = "viking://user" ∨ (requestParts.head? = some "agent".toList ∧ legacyAgent)
  if basePath.isPrefixOf entryPath then
    let relative := entryPath.drop basePath.length
    let separator := if "://".toList.isSuffixOf root then [] else ['/']
    let candidate := if relative = [] then root else root ++ separator ++ Text.joined relative
    let legacy ← legacySessionAlias isalpha requestUri
    if legacy.isSome ∨ preserves then .ok candidate
    else .ok (match storagePath isalpha accountId candidate with
      | .ok path => if path = entryPath then candidate else pathToUri accountId entryPath
      | .error _ => pathToUri accountId entryPath)
  else .ok (pathToUri accountId entryPath)

end Paths

section Sessions

-- `json.loads` of the decoded bytes; nothing where it fails
variable (loads : List UInt8 → Option Json) (storage : Storage)

def sessionMarkers : List Text := [".meta.json", "messages.jsonl", "history", "tool-results", "tools"].map String.toList

def ownerKeys : List String := ["created_by_user_id", "user_id", "owner_user_id", "created_by"]

def looksLikeLegacySessionDir (path : List Text) : Bool := sessionMarkers.any fun leaf => storage.has (path ++ [leaf])

def namedOwner (data : List UInt8) : Text :=
  match loads data with
  | some (.object members) =>
    (ownerKeys.findSome? fun key => match Json.member? key (.object members) with
      | some (.string value) => if strip value = [] then none else some (strip value)
      | _ => none).getD []
  | _ => []

def legacySessionOwner (sessionRootPath : List Text) : Except ListingError Text :=
  match storage.read (sessionRootPath ++ [".meta.json".toList]) with
  | .ok raw => .ok (namedOwner loads raw)
  | .error .notFound => .ok []
  | .error error => .error error

def legacySessionVisible (sessionRootPath : List Text) (ctx : RequestContext) (ownerHint : Option Text) : Except ListingError Bool :=
  if ctx.role = .root then .ok true
  else do
    let owner ← legacySessionOwner loads storage sessionRootPath
    .ok (if owner ≠ [] then owner = ctx.user.userId
      else match ownerHint.filter (· ≠ []) with
        | some hint => hint = ctx.user.userId
        | none => true)

/-- A path up to its first component `session`, and what follows -/
def splitSession : List Text → Option (List Text × List Text)
  | [] => none
  | part :: rest =>
    if part = "session" then some ([part], rest)
    else (splitSession rest).map fun halves => (part :: halves.1, halves.2)

def legacySessionPathVisible (path : List Text) (ownerUserId : Text) : Except ListingError Bool :=
  match splitSession path with
  | none => .ok true
  | some (_, []) => .ok true
  | some (root, first :: rest) =>
    if looksLikeLegacySessionDir storage (root ++ [first]) then do
      let owner ← legacySessionOwner loads storage (root ++ [first])
      .ok (owner ≠ [] && owner = ownerUserId)
    else match rest with
      | [] => .ok true
      | second :: _ =>
        if first ≠ ownerUserId then .ok false
        else if looksLikeLegacySessionDir storage (root ++ [first, second]) then do
          let owner ← legacySessionOwner loads storage (root ++ [first, second])
          .ok (owner = [] || owner = ownerUserId)
        else .ok true

structure Item where
  path : List Text
  entry : Entry
  uri : Text
  denied : Bool := false
  deriving DecidableEq

def setDefaults {α κ : Type} [DecidableEq κ] (key : α → κ) (known items : List α) : List α :=
  items.foldl (fun kept item => if kept.any fun other => key other = key item then kept else kept ++ [item]) known

def listed (entry : Entry) : Bool := entry.name ≠ [] && entry.name ∉ [['.'], ['.', '.']]

def nestedItem (ctx : RequestContext) (childPath : List Text) (outputRootUri owner : Text) (nested : Entry) : Except ListingError (List Item) :=
  if !listed nested || !nested.isDir then .ok []
  else if !looksLikeLegacySessionDir storage (childPath ++ [nested.name]) then .ok []
  else do
    let visible ← legacySessionVisible loads storage (childPath ++ [nested.name]) ctx (some owner)
    .ok (if visible then [⟨childPath ++ [nested.name], nested, outputRootUri ++ '/' :: nested.name, false⟩] else [])

section

variable (ctx : RequestContext) (path : List Text) (outputRootUri ownerUserId : Text)

def rootItem (entry : Entry) : Except ListingError (List Item) :=
  if !listed entry || !entry.isDir then .ok []
  else if looksLikeLegacySessionDir storage (path ++ [entry.name]) then do
    let owner ← legacySessionOwner loads storage (path ++ [entry.name])
    .ok (if owner = ownerUserId then [⟨path ++ [entry.name], entry, outputRootUri ++ '/' :: entry.name, false⟩] else [])
  else if entry.name ≠ ownerUserId then .ok []
  else match lsEntries storage (path ++ [entry.name]) with
    | .error .notFound => .ok []
    | .error error => .error error
    | .ok entries => do
        let items ← entries.mapM (nestedItem loads storage ctx (path ++ [entry.name]) outputRootUri entry.name)
        .ok items.flatten

def legacySessionRootItems : Except ListingError (List Item) :=
  match lsEntries storage path with
  | .error .notFound => .ok []
  | .error error => .error error
  | .ok entries => do
      let items ← entries.mapM (rootItem loads storage ctx path outputRootUri ownerUserId)
      .ok items.flatten

end

variable (isalpha : Char → Bool)

def sessionRootItems (ctx : RequestContext) (uri : Text) : Except ListingError (List Item) := do
  let primaryPath ← liftAccess (storagePath isalpha ctx.user.accountId uri)
  let outputRootUri := uri.rdropWhile (· = '/')
  let parts ← liftAccess (safeUriParts isalpha uri)
  let ownerUserId := (parts[1]?).getD []
  let primary ← match lsEntries storage primaryPath with
    | .error .notFound => .ok []
    | .error error => .error error
    | .ok entries => .ok ((entries.filter listed).map fun entry => ⟨primaryPath ++ [entry.name], entry, outputRootUri ++ '/' :: entry.name, false⟩)
  let legacyPath ← liftAccess (legacySessionPath isalpha ctx.user.accountId "viking://session")
  let legacy ← legacySessionRootItems loads storage ctx legacyPath outputRootUri ownerUserId
  .ok (setDefaults (fun item => item.entry.name) [] (primary ++ legacy.filter fun item => item.entry.name ≠ []))

def readPathVisible (requestUri : Text) (path primaryPath : List Text) : Except ListingError Bool :=
  if path = primaryPath then .ok true
  else do
    let legacy ← liftAccess (legacySessionAlias isalpha requestUri)
    if legacy.isSome then do
      let parts ← liftAccess (safeUriParts isalpha requestUri)
      legacySessionPathVisible loads storage path ((parts[1]?).getD [])
    else .ok true

def gather (accountId uri : Text) (primaryPath : List Text) (mergePaths : Bool) : List (List Text) → Option (List Item) →
    Except ListingError (Option (List Item))
  | [], found => .ok found
  | path :: rest, found => do
      let visible ← readPathVisible loads storage isalpha uri path primaryPath
      if !visible then gather accountId uri primaryPath mergePaths rest found
      else match lsEntries storage path with
        | .error .notFound => gather accountId uri primaryPath mergePaths rest found
        | .error error => .error error
        | .ok entries => do
            let items ← entries.mapM fun entry => do
              let entryUri ← liftAccess (aliasUriForPath isalpha accountId uri path (path ++ [entry.name]))
              .ok (⟨path ++ [entry.name], entry, entryUri, false⟩ : Item)
            let merged := setDefaults Item.uri (found.getD []) items
            if mergePaths then gather accountId uri primaryPath mergePaths rest (some merged) else .ok (some merged)

def listReadPathItems (ctx : RequestContext) (uri : Text) : Except ListingError (List Item) := do
  let isRoot ← liftAccess (isSessionRootUri isalpha uri)
  if isRoot then sessionRootItems loads storage isalpha ctx uri
  else do
    let primaryPath ← liftAccess (storagePath isalpha ctx.user.accountId uri)
    let legacy ← liftAccess (legacySessionAlias isalpha uri)
    let paths ← liftAccess (readPaths isalpha ctx.user.accountId uri)
    let found ← gather loads storage isalpha ctx.user.accountId uri primaryPath legacy.isSome paths none
    match found with
    | some items => .ok items
    | none => .error .notFound

end Sessions

section Trees

variable (loads : List UInt8 → Option Json) (storage : Storage) (classes : CharClasses) (store : ContextStore) (aclEnabled : Bool)
  (ctx : RequestContext)

def ancestorIsFiltered (entryPath basePath : List Text) : Bool :=
  (List.range (entryPath.length - 1)).any fun place =>
    basePath.length ≤ place && !isNameVisibleAtPath ((entryPath[place]?).getD []) (entryPath.take place)

def isPathEntryVisible (entryPath : List Text) (name : Text) (basePath : List Text) : Except AccessError Bool :=
  if ancestorIsFiltered entryPath basePath then .ok false
  else if entryPath ≠ [] ∧ !isNameVisibleAtPath name entryPath.dropLast then .ok false
  else if aclEnabled then .ok true
  else isAccessible classes (pathToUri ctx.user.accountId entryPath) ctx

def candidates (uri : Text) (path primaryPath : List Text) (limit : Option Nat) : List (List Text × Bool) → List Item →
    Except ListingError (List Item)
  | [], kept => .ok kept
  | entry :: rest, kept => do
      let name := (entry.1.getLast?).getD []
      let visible ← liftAccess (isPathEntryVisible classes aclEnabled ctx entry.1 name path)
      if !visible then candidates uri path primaryPath limit rest kept
      else do
        let readable ← readPathVisible loads storage classes.isalpha uri entry.1 primaryPath
        if !readable then candidates uri path primaryPath limit rest kept
        else do
          let entryUri ← liftAccess (aliasUriForPath classes.isalpha ctx.user.accountId uri path entry.1)
          let more := kept ++ [⟨entry.1, ⟨name, entry.2⟩, entryUri, false⟩]
          if limit.any (· ≤ more.length) then .ok more else candidates uri path primaryPath limit rest more

def visibleItems (uri : Text) (path : List Text) (found : List Item) : Except ListingError (List Item) :=
  if !aclEnabled then .ok found
  else match canAccessMany classes store ctx .read true (found.map Item.uri), isAclUri uri with
    | .error error, _ => .error (.acl error)
    | _, .error error => .error (.acl error)
    | .ok access, .ok exposes =>
      let allowed := fun item : Item => (AclManager.valueOf access item.uri).getD false
      if exposes then
        let denied := (found.filter fun item => item.entry.isDir && !allowed item).map Item.path
        .ok ((found.filter fun item => !(denied.any fun directory =>
          directory.isPrefixOf item.path && directory ≠ item.path && path.length < directory.length)).map fun item =>
            if allowed item then item else { item with denied := true })
      else .ok (found.filter allowed)

def treePage (uri : Text) (path primaryPath : List Text) (showAllHidden : Bool) (nodeLimit levelLimit rawLimit : Option Nat) :
    Except ListingError (Nat × List Item) := do
  let raw ← storage.treeDirectory path showAllHidden rawLimit levelLimit
  let found ← candidates loads storage classes aclEnabled ctx uri path primaryPath (if aclEnabled then none else nodeLimit) raw []
  let visible ← visibleItems classes store aclEnabled ctx uri path found
  .ok (raw.length, match nodeLimit with
    | some limit => visible.take limit
    | none => visible)

-- Whether too little is visible of a full page
def needMore (nodeLimit rawLimit : Option Nat) (page : Nat × List Item) : Bool :=
  match nodeLimit, rawLimit with
  | some limit, some read => page.2.length < limit && read ≤ page.1
  | _, _ => false

def treePages (uri : Text) (path primaryPath : List Text) (showAllHidden : Bool) (nodeLimit levelLimit : Option Nat) :
    Nat → Option Nat → Except ListingError (List Item)
  | 0, rawLimit => (treePage loads storage classes store aclEnabled ctx uri path primaryPath showAllHidden nodeLimit levelLimit rawLimit).map Prod.snd
  | rounds + 1, rawLimit => do
      let page ← treePage loads storage classes store aclEnabled ctx uri path primaryPath showAllHidden nodeLimit levelLimit rawLimit
      if needMore nodeLimit rawLimit page then
        treePages uri path primaryPath showAllHidden nodeLimit levelLimit rounds (rawLimit.map (· * 2))
      else .ok page.2

def firstVisible (uri : Text) (primaryPath : List Text) : List (List Text) → Except ListingError (Option (List Text))
  | [] => .ok none
  | path :: rest => do
      let visible ← readPathVisible loads storage classes.isalpha uri path primaryPath
      if visible && storage.has path then .ok (some path) else firstVisible uri primaryPath rest

def iterVisibleTreeEntries (uri : Text) (showAllHidden : Bool) (nodeLimit levelLimit : Option Nat) : Except ListingError (List Item) := do
  let primaryPath ← liftAccess (storagePath classes.isalpha ctx.user.accountId uri)
  let paths ← liftAccess (readPaths classes.isalpha ctx.user.accountId uri)
  let chosen ← firstVisible loads storage classes uri primaryPath paths
  match chosen with
  | none => do
      let isRoot ← liftAccess (isSessionRootUri classes.isalpha uri)
      if isRoot then .ok [] else .error .notFound
  | some path =>
    -- a limit of the nodes read is reached after as many rounds as there are nodes
    treePages loads storage classes store aclEnabled ctx uri path primaryPath showAllHidden nodeLimit levelLimit
      (storage.nodes.length + 1) (nodeLimit.map fun limit => max (limit * 4) limit)

end Trees

end LoginomDock.Access
