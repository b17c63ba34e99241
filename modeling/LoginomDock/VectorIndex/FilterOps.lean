import LoginomDock.VectorIndex.FieldGroups

namespace LoginomDock.VectorIndex

structure RangeOp where
  fields : List Text
  rangeOut : Bool
  greaterThan : ℚ
  greaterThanEqual : Bool
  lessThan : ℚ
  lessThanEqual : Bool
  radius : ℚ
  center : List ℚ

inductive FilterOp where
  | andOp (ignoreEmptyCondition : Bool) (conds : List FilterOp)
  | orOp (conds : List FilterOp)
  | mustOp (fields : List Text) (conds : List Text) (depth : Int)
  | mustNotOp (fields : List Text) (conds : List Text) (depth : Int)
  | rangeOp (range : RangeOp)
  | labelInOp (labels : List Nat)
  | prefixOp (field value : Text)
  | containsOp (field substring : Text)
  | regexOp (field pattern : Text)

/-- `DBL_MAX` -/
def dblMax : ℚ := (2 ^ 53 - 1) * 2 ^ 971

def getJsonDoubleValue : Json → Option ℚ
  | .double value => some value
  | value => value.int64?.map Int.cast

def textOf? : Json → Option Text
  | .string value => some (cString value)
  | _ => none

def textMember? (name : String) (doc : Json) : Option Text := (doc.member? name).bind textOf?

def parseFields (doc : Json) : Option (List Text) :=
  match doc.member? "field" with
  | some (.string field) => some [cString field]
  | some (.array items) => if items.filterMap textOf? = [] then none else some (items.filterMap textOf?)
  | _ => none

def parseCondItems (isId isType : Bool) : List Json → Option (List Text)
  | [] => some []
  | item :: rest =>
    match item, item.int64? with
    | _, some number =>
      if isType then none else (parseCondItems true isType rest).map (decimal number :: ·)
    | .string text, _ =>
      if isId then none else (parseCondItems isId true rest).map (text :: ·)
    | .bool flag, _ =>
      if isType then none
      else (parseCondItems true isType rest).map ((if flag then ['1'] else ['0']) :: ·)
    | _, _ => none

def parseConds (doc : Json) : Option (List Text) :=
  match doc.member? "conds" with
  | none => none
  | some (.array items) => parseCondItems false false items
  | some _ => some []

def isSpace (char : Char) : Bool := char ∈ [' ', '\t', '\n', '\x0b', '\x0c', '\r']

/-- `std::stoi`; nothing where it throws -/
def stoi (text : Text) : Option Int :=
  let sign : Int := if text.head? = some '-' then -1 else 1
  let unsigned := if text.head? = some '-' ∨ text.head? = some '+' then text.tail else text
  let digits := unsigned.takeWhile Char.isDigit
  let value := sign * digits.foldl (fun (total : Int) digit => 10 * total + (digit.toNat - '0'.toNat)) 0
  if digits = [] ∨ value < -2 ^ 31 ∨ 2 ^ 31 ≤ value then none else some value

-- The depth of a path condition; nothing when the parameter is refused.
def parseDirSemanticPara (doc : Json) : Option Int :=
  let depthOf := fun para : Text =>
    let packed := para.filter fun char => !isSpace char
    if "-d=" <+: packed then (stoi (packed.drop 3)).map fun depth => max (-1) (min 50 depth)
    else some (-1)
  match doc.member? "para" with
  | none => some (-1)
  | some (.string para) => depthOf (cString para)
  | some (.array (.string para :: _)) => depthOf (cString para)
  | some (.array _) => some (-1)
  | some _ => none

def parseMust (make : List Text → List Text → Int → FilterOp) (doc : Json) : Option FilterOp := do
  let fields ← parseFields doc
  let conds ← parseConds doc
  let depth ← parseDirSemanticPara doc
  return make fields conds depth

def parseBound (doc : Json) (including excluding : String) : Option (Option (ℚ × Bool)) :=
  match doc.member? including, doc.member? excluding with
  | some value, _ => (getJsonDoubleValue value).map fun bound => some (bound, true)
  | none, some value => (getJsonDoubleValue value).map fun bound => some (bound, false)
  | none, none => some none

def parseCenter (doc : Json) : Option (List ℚ) :=
  match doc.member? "center" with
  | none => some []
  | some (.array items) => if items = [] then none else items.mapM getJsonDoubleValue
  | some _ => none

def parseRadius (doc : Json) : Option ℚ :=
  match doc.member? "radius" with
  | none => some 0
  | some value => (getJsonDoubleValue value).bind fun radius => if radius < 0 then none else some radius

def parseRange (rangeOut : Bool) (doc : Json) : Option RangeOp := do
  let fields ← parseFields doc
  let center ← parseCenter doc
  let radius ← parseRadius doc
  match fields, center with
  | [_], _ => do
      let around := center.head?.filter fun _ => center.length = 1
      let greater ← parseBound doc "gte" "gt"
      let less ← parseBound doc "lte" "lt"
      if around = none ∧ greater = none ∧ less = none then none
      else
        let low := greater.getD ((around.map fun at' => (at' - radius, true)).getD (-dblMax, false))
        let high := less.getD ((around.map fun at' => (at' + radius, true)).getD (dblMax, false))
        return ⟨fields, rangeOut, low.1, low.2, high.1, high.2, radius, center⟩
  | [_, _], [_, _] => return ⟨fields, rangeOut, -dblMax, false, dblMax, false, radius, center⟩
  | _, _ => none

def parseLabel (value : Json) : Option Nat :=
  match value.uint64?, value.int64? with
  | some label, _ => some label
  | none, some number => some (number % 2 ^ 64).toNat
  | none, none => none

def parseLabels (doc : Json) : Option (List Nat) :=
  match doc.member? "labels" with
  | some (.array items) => if items = [] then none else items.mapM parseLabel
  | _ => none

def parseTextOp (make : Text → Text → FilterOp) (name : String) (doc : Json) : Option FilterOp := do
  let field ← textMember? "field" doc
  let value ← textMember? name doc
  return make field value

-- The operators without inner conditions.
def parseLeaf (opname : Text) (doc : Json) : Option FilterOp :=
  if opname = "must" then parseMust .mustOp doc
  else if opname = "must_not" then parseMust .mustNotOp doc
  else if opname = "range" ∨ opname = "geo_range" then (parseRange false doc).map .rangeOp
  else if opname = "range_out" then (parseRange true doc).map .rangeOp
  else if opname = "label_in" then (parseLabels doc).map .labelInOp
  else if opname = "prefix" then parseTextOp .prefixOp "prefix" doc
  else if opname = "contains" then parseTextOp .containsOp "substring" doc
  else if opname = "regex" then parseTextOp .regexOp "pattern" doc
  else none

def ignoresEmptyCondition (doc : Json) : Bool :=
  match doc.member? "ignore_empty_condition" with
  | some (.bool flag) => flag
  | _ => false

mutual

def parseFilterJsonDoc : Json → Option FilterOp
  | .object members =>
    match textMember? "op" (.object members) with
    | none => none
    | some opname =>
      if opname = "and" then
        (parseLogicMember members).map (.andOp (ignoresEmptyCondition (.object members)))
      else if opname = "or" then (parseLogicMember members).map .orOp
      else parseLeaf opname (.object members)
  | _ => none
termination_by structural doc => doc

def parseLogicMember : List (Text × Json) → Option (List FilterOp)
  | [] => none
  | (name, value) :: rest => if name = "conds" then parseLogicConds value else parseLogicMember rest
termination_by structural members => members

def parseLogicConds : Json → Option (List FilterOp)
  | .array [] => none
  | .array (item :: rest) => parseAllConds (item :: rest)
  | _ => none
termination_by structural doc => doc

def parseAllConds : List Json → Option (List FilterOp)
  | [] => some []
  | item :: rest =>
    match parseFilterJsonDoc item, parseAllConds rest with
    | some op, some ops => some (op :: ops)
    | _, _ => none
termination_by structural items => items

end

def parseFilterJsonDocOutter (doc : Json) : Option FilterOp := parseFilterJsonDoc ((doc.member? "filter").getD doc)

-- What a filter is evaluated against: the fields, the offsets of labels, and regular expressions.
structure FilterContext where
  groups : FieldBitmapGroupSet
  offsetOf : Nat → Option Nat
  regexSearch : Text → Option (Text → Bool)

/-- A condition's own rows into the rows so far, by `and` or by `or`. -/
def onResult (isAnd : Bool) (pres own : Option Bitmap) : Option Bitmap :=
  match pres with
  | none => own
  | some rows => if isAnd then own.map (rows ∩ ·) else some (rows ∪ own.getD ∅)

namespace FilterOp

def mustSelf (context : FilterContext) (fields conds : List Text) (depth : Int) : Option Bitmap :=
  let field := fields.headD []
  if context.groups.isPathFieldName field then context.groups.makePathFieldCopy field conds depth
  else context.groups.makeFieldCopy field conds

def mustNotSelf (context : FilterContext) (fields conds : List Text) (depth : Int) : Bitmap :=
  let field := fields.headD []
  if context.groups.isPathFieldName field then context.groups.makePathFieldExcludeCopy field conds depth
  else context.groups.makeFieldExcludeCopy field conds

/-- Into the rows of an `and`, a `must_not` excludes the rows of its keys, on a path field too. -/
def calcMustNot (context : FilterContext) (pres : Option Bitmap) (isAnd : Bool) (fields conds : List Text)
    (depth : Int) : Bitmap :=
  match pres with
  | none => mustNotSelf context fields conds depth
  | some rows =>
    if isAnd then rows \ (context.groups.makeFieldCopy (fields.headD []) conds).getD ∅
    else rows ∪ mustNotSelf context fields conds depth

def rangeSelf (context : FilterContext) (range : RangeOp) : Option Bitmap :=
  if range.fields.length = 2 ∧ range.center.length = 2 then
    context.groups.makeRange2dCopy range.fields range.center range.radius
  else
    context.groups.makeRangeCopy range.rangeOut (range.fields.headD []) range.lessThan range.lessThanEqual
      range.greaterThan range.greaterThanEqual

def labelInSelf (context : FilterContext) (labels : List Nat) : Option Bitmap :=
  match labels.filterMap context.offsetOf with
  | [] => none
  | offsets => some offsets.toFinset

mutual

def calcBitmap (context : FilterContext) (pres : Option Bitmap) (isAnd : Bool) : FilterOp → Option Bitmap
  | andOp ignore conds =>
    onResult isAnd pres (if ignore then meetPresent context none conds else meetAll context none conds)
  | orOp conds => onResult isAnd pres (joinAll context none conds)
  | mustOp fields conds depth =>
    if conds = [] then none else onResult isAnd pres (mustSelf context fields conds depth)
  | mustNotOp fields conds depth => some (calcMustNot context pres isAnd fields conds depth)
  | rangeOp range => onResult isAnd pres (rangeSelf context range)
  | labelInOp labels => if labels = [] then none else onResult isAnd pres (labelInSelf context labels)
  | prefixOp field value =>
    if value = [] then none else onResult isAnd pres (context.groups.makeFieldPrefixCopy field value)
  | containsOp field substring =>
    if substring = [] then none else onResult isAnd pres (context.groups.makeFieldContainsCopy field substring)
  | regexOp field pattern =>
    if pattern = [] then none
    else onResult isAnd pres (context.groups.makeFieldRegexCopy field (context.regexSearch pattern))
termination_by structural op => op

/-- `and` that passes over conditions without a bitmap -/
def meetPresent (context : FilterContext) (pres : Option Bitmap) : List FilterOp → Option Bitmap
  | [] => pres
  | cond :: rest =>
    match calcBitmap context none true cond with
    | none => meetPresent context pres rest
    | some rows => meetPresent context (some ((pres.map (· ∩ rows)).getD rows)) rest
termination_by structural conds => conds

def meetAll (context : FilterContext) (pres : Option Bitmap) : List FilterOp → Option Bitmap
  | [] => pres
  | cond :: rest =>
    match calcBitmap context pres true cond with
    | none => none
    | some rows => meetAll context (some rows) rest
termination_by structural conds => conds

def joinAll (context : FilterContext) (pres : Option Bitmap) : List FilterOp → Option Bitmap
  | [] => pres
  | cond :: rest => joinAll context (calcBitmap context pres false cond) rest
termination_by structural conds => conds

end

end FilterOp

end LoginomDock.VectorIndex
