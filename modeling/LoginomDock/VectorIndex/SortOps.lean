import Mathlib.Data.Rat.Floor
import Mathlib.Data.Finset.Sort
import LoginomDock.VectorIndex.FilterOps

namespace LoginomDock.VectorIndex

open RangedMap

inductive SorterOpType where
  | single1d
  | multiSingle1d
  | center1d
  deriving DecidableEq

structure SorterOp where
  type : SorterOpType
  fields : List Text
  orderAscs : List Bool
  center1d : ℚ
  topk : Int

structure CounterOp where
  fields : List Text
  gt : Int
  maxEntry : Int

inductive SorterOpBase where
  | sort (op : SorterOp)
  | count (op : CounterOp)

namespace SorterOp

def loadFields (doc : Json) : Option (List Text) :=
  match doc.member? "field" with
  | some (.string field) => some [cString field]
  | some (.array items) => if items = [] then none else items.mapM textOf?
  | _ => none

def orderAsc? (value : Json) : Option Bool :=
  (textOf? value).bind fun order =>
    if order = "desc" then some false else if order = "asc" then some true else none

def loadOrderAscs (doc : Json) : Option (List Bool) :=
  match doc.member? "order" with
  | none => some []
  | some (.array items) => items.mapM orderAsc?
  | some value => (orderAsc? value).map fun asc => [asc]

def double? : Json → Option ℚ
  | .double value => some value
  | _ => none

def loadCenters (doc : Json) : Option (List ℚ) :=
  match doc.member? "center" with
  | none => some []
  | some (.array items) => items.mapM double?
  | some value => (double? value).map fun center => [center]

def loadTopk (doc : Json) : Option Int :=
  match doc.member? "topk" with
  | none => some 0
  | some (.integer value) => if -2 ^ 31 ≤ value ∧ value < 2 ^ 31 then some value else none
  | some _ => none

def loadType (doc : Json) : Option SorterOpType :=
  match doc.member? "type" with
  | none => some .single1d
  | some value => (textOf? value).bind fun type => if type = "center1d" then some .center1d else none

def validate (type : SorterOpType) (fields : List Text) (orderAscs : List Bool) (centers : List ℚ) (topk : Int) :
    Option SorterOp :=
  if type = .center1d then
    match fields, orderAscs, centers with
    | [_], [], [center] | [_], [true], [center] => some ⟨.center1d, fields, [true], center, topk⟩
    | _, _, _ => none
  else match fields, orderAscs with
    | [_], [] => some ⟨.single1d, fields, [false], 0, topk⟩
    | [_], [asc] => some ⟨.single1d, fields, [asc], 0, topk⟩
    | [_], _ => none
    | _, [] => some ⟨.multiSingle1d, fields, fields.map fun _ => false, 0, topk⟩
    | _, [asc] => some ⟨.multiSingle1d, fields, fields.map fun _ => asc, 0, topk⟩
    | _, _ => if orderAscs.length = fields.length then some ⟨.multiSingle1d, fields, orderAscs, 0, topk⟩ else none

def loadJsonDoc (doc : Json) : Option SorterOp := do
  let fields ← loadFields doc
  let orderAscs ← loadOrderAscs doc
  let centers ← loadCenters doc
  let topk ← loadTopk doc
  let type ← loadType doc
  validate type fields orderAscs centers topk

end SorterOp

/-- A number as `int`; a fraction is cut off. -/
def intMember (name : String) (default : Int) (doc : Json) : Option Int :=
  let asInt := fun value : Int => (value + 2 ^ 31) % 2 ^ 32 - 2 ^ 31
  match doc.member? name with
  | none => some default
  | some (.double value) => some (asInt (if value < 0 then ⌈value⌉ else ⌊value⌋))
  | some value => value.int64?.map asInt

def CounterOp.loadJsonDoc (doc : Json) : Option CounterOp := do
  let fields ← if (doc.member? "field").isSome then parseFields doc else some []
  let gt ← intMember "gt" (-1) doc
  let maxEntry ← intMember "max_entry" 10000 doc
  return ⟨fields, gt, maxEntry⟩

def parseSorterJsonDoc (doc : Json) : Option SorterOpBase :=
  (textMember? "op" doc).bind fun opname =>
    if opname = "sort" then (SorterOp.loadJsonDoc doc).map .sort
    else if opname = "count" then (CounterOp.loadJsonDoc doc).map .count
    else none

def parseSorterJsonDocOutter (doc : Json) : Option SorterOpBase :=
  match doc.member? "counter", doc.member? "sorter" with
  | some counter, _ => parseSorterJsonDoc counter
  | none, some sorter => parseSorterJsonDoc sorter
  | none, none => parseSorterJsonDoc doc

structure SorterResult where
  offsets : List Nat := []
  scores : List (Option ℚ) := []
  extraJson : Option (List (Text × Int)) := none

def RecallResult.toSorterResult (result : RecallResult) : SorterResult :=
  { offsets := result.offsets, scores := result.scores }

namespace SorterOp

def isSmallRatioBitmap (groups : FieldBitmapGroupSet) (validSize : Nat) : Bool :=
  decide (validSize < 10000) || decide ((validSize : ℚ) / (1 + groups.elementSize) < 5 / 1000)

def conditions (op : SorterOp) (groups : FieldBitmapGroupSet) : Option (List (RangedMap × Bool)) :=
  (op.fields.mapM groups.getRangedmap).map fun maps => maps.zip op.orderAscs

-- The comparison of the small-bitmap path: values closer than the tolerance are equal, and so is a missing value to any
-- other.
def comesLater (conditions : List (RangedMap × Bool)) (left right : Nat) : Bool :=
  match conditions with
  | [] => false
  | (map, asc) :: rest =>
    match map.getScoreByOffset left, map.getScoreByOffset right with
    | some l, some r =>
      if 1 / 10 ^ 9 < l - r ∨ l - r < -(1 / 10 ^ 9) then xor (decide (l < r)) asc
      else comesLater rest left right
    | _, _ => comesLater rest left right

def fartherFrom (center : ℚ) (map : RangedMap) (asc : Bool) (left right : Nat) : Bool :=
  match map.getScoreByOffset left, map.getScoreByOffset right with
  | some l, some r =>
    if |l - center| ≠ |r - center| then xor (decide (|r - center| < |l - center|)) asc else decide (r < l)
  | _, _ => asc

def later (op : SorterOp) (conditions : List (RangedMap × Bool)) (left right : Nat) : Bool :=
  match op.type, conditions with
  | .center1d, (map, asc) :: _ => fartherFrom op.center1d map asc left right
  | _, _ => comesLater conditions left right

-- How many rows are asked for: one at least, and as an unsigned number.
def searchK (op : SorterOp) : Nat := max 1 (op.topk % 2 ^ 32).toNat

section

variable (std : StdOrder) (op : SorterOp) (groups : FieldBitmapGroupSet)

def calcTopkResultWithSmallBitmap (valid : Bitmap) : Option SorterResult :=
  (op.conditions groups).map fun conditions =>
    let offsets := (std.popAll (op.later conditions) valid.sort).take op.searchK
    { offsets := offsets
      scores := offsets.map fun offset => (conditions.head?).bind fun first => first.1.getScoreByOffset offset }

-- The scan of the slots. The inner option is the source's null, the outer one a call that does not return.
def calcTopkResultFiltered (skips : Nat → Bool) : Option (Option SorterResult) :=
  match op.type with
  | .single1d =>
    match groups.getRangedmap (op.fields.headD []) with
    | none => some none
    | some map => (map.getTopkResult op.topk (op.orderAscs.headD false) skips).map fun result =>
      some (RecallResult.toSorterResult result)
  | .multiSingle1d =>
    match op.conditions groups with
    | some ((map, asc) :: rest) =>
      (map.getTopkResultWithConditions std op.topk asc skips rest).map fun result =>
        some (RecallResult.toSorterResult result)
    | _ => some none
  | .center1d =>
    match groups.getRangedmap (op.fields.headD []) with
    | none => some none
    | some map => (map.getTopkResultCenter1d op.topk op.center1d skips).map fun result =>
      some (RecallResult.toSorterResult result)

def calcTopkResult (valid : Option Bitmap) :
    Option (Option SorterResult) :=
  match valid with
  | none => op.calcTopkResultFiltered std groups fun _ => false
  | some rows =>
    if isSmallRatioBitmap groups rows.card then some (op.calcTopkResultWithSmallBitmap std groups rows)
    else op.calcTopkResultFiltered std groups fun offset => decide (offset ∉ rows)

end

end SorterOp

def totalCountKey : Text := "__total_count__"

def CounterOp.calcTopkResult (op : CounterOp) (groups : FieldBitmapGroupSet) (valid : Option Bitmap) :
    Option SorterResult :=
  if op.fields = [] then
    some { extraJson := some [(totalCountKey, ((valid.map Finset.card).getD groups.elementSize : Nat))] }
  else
    (groups.countFieldEnums op.fields valid).map fun counts : Table Text Nat =>
      let wanted := (Table.inOrder counts).filter fun entry => decide (op.gt < (entry.2 : Int))
      let cut := if 0 < op.maxEntry then wanted.take op.maxEntry.toNat else wanted
      { extraJson := if counts.entries = [] then none else some (cut.map fun entry => (entry.1, (entry.2 : Int))) }

namespace SorterOpBase

def calcTopkResult (std : StdOrder) (groups : FieldBitmapGroupSet) (valid : Option Bitmap) :
    SorterOpBase → Option (Option SorterResult)
  | sort op => op.calcTopkResult std groups valid
  | count op => some (op.calcTopkResult groups valid)

def isCount : SorterOpBase → Bool
  | count _ => true
  | sort _ => false

end SorterOpBase

end LoginomDock.VectorIndex
