import LoginomDock.Access.Uris

/-! `storage/expr.py`: expressions that a caller writes, the payload of the vector database that they are compiled to,
and what a record has to be to satisfy either. -/

namespace LoginomDock.Filters

open Access (strip stripSlashes scheme names)

/-- A value inside of a filter; `other` values are those of Python up to `==`. -/
inductive Scalar (V : Type) where
  | null
  | text (text : Text)
  | other (value : V)
  deriving DecidableEq

-- What a record holds under a field; a field that it does not have reads as null.
inductive FieldValue (V : Type) where
  | scalar (value : Scalar V)
  | list (items : List (Scalar V))
  deriving DecidableEq

inductive Bound where
  | gt
  | gte
  | lt
  | lte
  deriving DecidableEq

-- The bounds of a range that are given.
structure Bounds (V : Type) where
  gte : Option (Scalar V) := none
  gt : Option (Scalar V) := none
  lte : Option (Scalar V) := none
  lt : Option (Scalar V) := none

/-- The DSL of the vector database. The payload `{}` is `all`. -/
inductive Payload (V : Type) where
  | all
  | and (conds : List (Payload V))
  | or (conds : List (Payload V))
  | must (field : Text) (conds : List (Scalar V)) (para : Option Int)
  | mustNot (field : Text) (conds : List (Scalar V)) (para : Option Int)
  | range (field : Text) (bounds : Bounds V)
  | contains (field substring : Text)

/-- `None`, where a filter is expected, is `noCondition`. -/
inductive FilterExpr (V : Type) where
  | noCondition
  | and (conds : List (FilterExpr V))
  | or (conds : List (FilterExpr V))
  | eq (field : Text) (value : Scalar V)
  | inn (field : Text) (values : List (Scalar V))
  | range (field : Text) (bounds : Bounds V)
  | contains (field substring : Text)
  | timeRange (field : Text) (start stop : Option (Scalar V))
  | rawDSL (payload : Payload V)
  | pathScope (field path : Text) (depth : Int)

variable {V : Type}

def uriFieldNames : List Text := ["uri", "parent_uri"]

def encodeUri (value : Text) : Text :=
  let stripped := strip value
  if scheme <+: stripped then '/' :: stripSlashes (stripped.drop scheme.length) else value

def encodeUriFieldValue : Scalar V → Scalar V
  | .text value => .text (encodeUri value)
  | value => value

def encodeConds (field : Text) (conds : List (Scalar V)) : List (Scalar V) :=
  if field ∈ uriFieldNames then conds.map encodeUriFieldValue else conds

mutual

def normalizeFilterPayload : Payload V → Payload V
  | .all => .all
  | .and conds => .and (normalizeFilterPayloads conds)
  | .or conds => .or (normalizeFilterPayloads conds)
  | .must field conds para => .must field (encodeConds field conds) para
  | .mustNot field conds para => .mustNot field (encodeConds field conds) para
  | .range field bounds => .range field bounds
  | .contains field substring => .contains field substring

def normalizeFilterPayloads : List (Payload V) → List (Payload V)
  | [] => []
  | payload :: rest => normalizeFilterPayload payload :: normalizeFilterPayloads rest

end

def Payload.isAll : Payload V → Bool
  | .all => true
  | _ => false

/-- `[c for c in conds if c]`, and no operator around less than two conditions. -/
def combined (operator : List (Payload V) → Payload V) (conds : List (Payload V)) : Payload V :=
  match conds.filter fun cond => !cond.isAll with
  | [] => .all
  | [cond] => cond
  | conds => operator conds

mutual

def compileFilter : FilterExpr V → Payload V
  | .noCondition => .all
  | .rawDSL payload => normalizeFilterPayload payload
  | .and conds => combined .and (compileConds conds)
  | .or conds => combined .or (compileConds conds)
  | .eq field value => .must field (encodeConds field [value]) (if field ∈ uriFieldNames then some 0 else none)
  | .inn field values => .must field (encodeConds field values) none
  | .pathScope field path depth => .must field (encodeConds field [.text path]) (some depth)
  | .range field bounds => .range field bounds
  | .contains field substring => .contains field substring
  | .timeRange field start stop => .range field { gte := start, lt := stop }

/-- `None` compiles to `{}`, which is dropped as the `None` itself is. -/
def compileConds : List (FilterExpr V) → List (Payload V)
  | [] => []
  | cond :: rest => compileFilter cond :: compileConds rest

end

def normalizePath (value : Text) : Text := if ['/'] <+: strip value then strip value else '/' :: strip value

/-- `_normalize_path(value).rstrip("/") or "/"` -/
def pathOf (value : Text) : Text :=
  let path := (normalizePath value).rdropWhile (· = '/')
  if path = [] then ['/'] else path

def relativeDepth (value expected : Text) : Option Nat :=
  if value = expected then some 0
  else if expected = ['/'] then some (names value).length
  else if expected ++ ['/'] <+: value then some (names (value.drop (expected.length + 1))).length
  else none

def pathMatches (depth : Option Int) : FieldValue V → Scalar V → Bool
  | .scalar (.text value), .text expected =>
    match relativeDepth (pathOf value) (pathOf expected), depth with
    | none, _ => false
    | some _, none => true
    | some relative, some depth => depth < 0 || (relative : Int) ≤ depth
  | _, _ => false

section Values

variable [DecidableEq V]

def valueMatches (value : FieldValue V) (conds : List (Scalar V)) : Bool :=
  match value with
  | .list items => conds.any (· ∈ items)
  | .scalar value => value ∈ conds

def isSubstring (substring text : Text) : Bool := decide (substring <:+: text)

def containsText (value : FieldValue V) (substring : Text) : Bool :=
  match value with
  | .scalar (.text text) => isSubstring substring text
  | .list items => items.any fun
      | .text text => isSubstring substring text
      | _ => false
  | _ => false

/-- A comparison of Python's with a bound; nothing where it raises `TypeError`. -/
abbrev Comparison (V : Type) := Bound → FieldValue V → Scalar V → Option Bool

variable (meets : Comparison V)

def inRange (value : FieldValue V) (bounds : Bounds V) : Bool :=
  let passes (bound : Bound) (limit : Option (Scalar V)) : Bool := limit.all fun limit => meets bound value limit = some true
  value ≠ .scalar .null && passes .gt bounds.gt && passes .gte bounds.gte && passes .lt bounds.lt && passes .lte bounds.lte

-- The operator on one field. A depth is read on a path field only, and there every depth is meant when none is given.
def mustMatch (value : FieldValue V) (field : Text) (conds : List (Scalar V)) (para : Option Int) : Bool :=
  if field ∈ uriFieldNames then conds.any (pathMatches para value) else valueMatches value conds

mutual

def matchesFilter (fields : Text → FieldValue V) : Payload V → Bool
  | .all => true
  | .and conds => matchesAll fields conds
  | .or conds => matchesAny fields conds
  | .must field conds para => mustMatch (fields field) field conds para
  | .mustNot field conds para => !mustMatch (fields field) field conds para
  | .range field bounds => inRange meets (fields field) bounds
  | .contains field substring => containsText (fields field) substring

def matchesAll (fields : Text → FieldValue V) : List (Payload V) → Bool
  | [] => true
  | cond :: rest => matchesFilter fields cond && matchesAll fields rest

def matchesAny (fields : Text → FieldValue V) : List (Payload V) → Bool
  | [] => false
  | cond :: rest => matchesFilter fields cond || matchesAny fields rest

end

end Values

end LoginomDock.Filters
