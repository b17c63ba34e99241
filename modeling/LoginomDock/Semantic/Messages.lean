import LoginomDock.Access.Namespace

namespace LoginomDock.Semantic

open Access (AccessError scheme vikingScope)

structure IngestOptions where
  searchTags : Option (List Text) := none
  searchTagMode : Text := "replace"
  deriving DecidableEq

-- The message ids are drawn, no two alike; here they are numbers.
structure SemanticMsg where
  id : Nat := 0
  uri : Text
  contextType : Text
  recursive : Bool := true
  accountId : Text := "default"
  userId : Text := "default"
  groupIds : List Text := []
  peerId : Text := "default"
  role : Text := "root"
  skipVectorization : Bool := false
  telemetryId : Text := []
  targetUri : Text := []
  lockHandoff : Option (List Text) := none
  isCodeRepo : Bool := false
  targetPreexisting : Option Bool := none
  ingestOptions : IngestOptions := {}
  coalesceKey : Text := []
  coalesceVersion : Nat := 0
  changes : Option (List (Text × List Text)) := none
  source : Option (List (Text × Text)) := none
  generationTrigger : Text := "semantic_refresh"
  aggregateDirectory : Bool := true
  useHierarchicalAggregation : Bool := false
  propagateToParent : Bool := true
  deriving DecidableEq

def buildSemanticCoalesceKey (contextType uri accountId userId peerId : Text) : Text :=
  ['|'].intercalate [contextType, accountId, userId, peerId, uri.rdropWhile (· = '/')]

namespace SemanticMsg

-- The fields that `from_dict` does not find, in its words
def missingFields (data : SemanticMsg) : List Text :=
  (if data.uri = [] then ["'uri'".toList] else []) ++ (if data.contextType = [] then ["'context_type'".toList] else [])

def fromDict (data : SemanticMsg) : Except Text SemanticMsg :=
  if data.missingFields = [] then .ok data
  else .error ("Missing required fields: [" ++ ", ".toList.intercalate data.missingFields ++ [']'])

section

variable (msg : SemanticMsg)

def isFlat : Bool := msg.contextType = "memory" && !msg.useHierarchicalAggregation

-- The messages that the window drops
def isPlainMemory : Bool := msg.contextType = "memory" && msg.coalesceKey = []

def memoryParentSemanticKey : Text :=
  ['|'].intercalate [msg.accountId, msg.userId, msg.peerId, msg.uri]

-- Additions and modifications that a stale message still has to summarise
def liveFileChanges : List (Text × List Text) :=
  ["added".toList, "modified".toList].filterMap fun kind =>
    match (msg.changes.getD []).lookup kind with
    | some (path :: paths) => some (kind, path :: paths)
    | _ => none

def keepsFileWork : Bool :=
  msg.generationTrigger = "content_write" && msg.liveFileChanges ≠ []

def downgraded : SemanticMsg :=
  { msg with aggregateDirectory := false, changes := some msg.liveFileChanges, coalesceKey := [], coalesceVersion := 0 }

end

structure Flags where
  recursive : Bool
  skipVectorization : Bool
  isCodeRepo : Bool
  targetPreexisting : Option Bool
  generationTrigger : Text
  aggregateDirectory : Bool
  useHierarchicalAggregation : Bool
  propagateToParent : Bool
  deriving DecidableEq

def flags (msg : SemanticMsg) : Flags where
  recursive := msg.recursive
  skipVectorization := msg.skipVectorization
  isCodeRepo := msg.isCodeRepo
  targetPreexisting := msg.targetPreexisting
  generationTrigger := msg.generationTrigger
  aggregateDirectory := msg.aggregateDirectory
  useHierarchicalAggregation := msg.useHierarchicalAggregation
  propagateToParent := msg.propagateToParent

def SameWork (first second : SemanticMsg) : Prop :=
  first.uri = second.uri ∧ first.changes = second.changes ∧ first.flags = second.flags

instance (first second : SemanticMsg) : Decidable (SameWork first second) := inferInstanceAs (Decidable (_ ∧ _))

def AtLeast (first second : Option (List (Text × List Text))) : Prop :=
  match first, second with
  | none, _ => True
  | some _, none => False
  | some done, some asked => ∀ change ∈ asked, ∀ path ∈ change.2, path ∈ (done.lookup change.1).getD []

instance : (first second : Option (List (Text × List Text))) → Decidable (AtLeast first second)
  | none, _ => inferInstanceAs (Decidable True)
  | some _, none => inferInstanceAs (Decidable False)
  | some done, some asked => inferInstanceAs (Decidable (∀ change ∈ asked, ∀ path ∈ change.2, path ∈ (done.lookup change.1).getD []))

def Covers (earlier later : SemanticMsg) : Prop :=
  earlier.accountId = later.accountId ∧ earlier.userId = later.userId ∧ earlier.peerId = later.peerId ∧
    earlier.uri = later.uri ∧ earlier.flags = later.flags ∧ AtLeast earlier.changes later.changes

instance (earlier later : SemanticMsg) : Decidable (Covers earlier later) := inferInstanceAs (Decidable (_ ∧ _))

end SemanticMsg

def parentOf (uri : Text) : Except AccessError (Option Text) := do
  let _ ← vikingScope uri
  let trimmed := uri.rdropWhile (· = '/')
  if !scheme.isPrefixOf trimmed then .ok none
  else if '/' ∉ trimmed.drop scheme.length then .ok (some scheme)
  else
    let parent := (trimmed.rdropWhile (· ≠ '/')).dropLast
    let _ ← vikingScope parent
    .ok (some parent)

end LoginomDock.Semantic
