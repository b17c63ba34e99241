import Mathlib.Data.Char
import Mathlib.Data.Finset.Card
import LoginomDock.Library.Batch
import LoginomDock.Library.Json
import LoginomDock.VectorIndex.RangedMap
import LoginomDock.VectorIndex.DirIndex

/-! For each field of the schema the index keeps a bitmap for each key, the numbers of the field, or the tree of its
paths. -/

namespace LoginomDock.VectorIndex

structure FieldsDict where
  strKvMap : Table Text Text := ∅
  dblKvMap : Table Text ℚ := ∅

namespace FieldsDict

def listItem : Json → Text
  | .string value => cString value
  | value => (value.int64?.map decimal).getD []

def addMember (fields : FieldsDict) (name : Text) (value : Json) : FieldsDict :=
  let key := cString name
  match value with
  | .integer _ =>
    match value.int64? with
    | some number =>
      ⟨fields.strKvMap.insert key (decimal number), fields.dblKvMap.insert key number⟩
    | none => fields
  | .double number => { fields with dblKvMap := fields.dblKvMap.insert key number }
  | .string text => { fields with strKvMap := fields.strKvMap.insert key (cString text) }
  | .bool flag => { fields with strKvMap := fields.strKvMap.insert key (if flag then ['1'] else ['0']) }
  | .array items => { fields with strKvMap := fields.strKvMap.insert key ([';'].intercalate (items.map listItem)) }
  | .null | .object _ => fields

-- A document that cannot be read gives no fields, as no document does.
def parseFromJson : Option Json → FieldsDict
  | some (.object members) => members.foldl (fun fields member => fields.addMember member.1 member.2) {}
  | _ => {}

end FieldsDict

inductive GroupKind where
  | bitmaps
  | rangedMap
  | both
  | dir
  deriving DecidableEq

/-- `get_type_id`: the group of a field type, nothing for a type that is not known. -/
def getTypeId (fieldType : Text) : Option GroupKind :=
  if fieldType = "int64" then some .both
  else if fieldType = "float32" then some .rangedMap
  else if fieldType = "string" ∨ fieldType = "bool" ∨ fieldType = "list<string>" ∨
      fieldType = "list<int64>" then some .bitmaps
  else if fieldType = "path" then some .dir
  else none

structure FieldBitmapGroup where
  kind : GroupKind
  bitmapGroup : Table Text Bitmap := ∅
  rangedmap : Option RangedMap := none
  dirIndex : Option TrieNode := none
  elementSize : Nat := 0

def normalizePathKey (key : Text) : Text := if key = [] ∨ key.head? = some '/' then key else '/' :: key

def splitKeys (text : Text) : List Text := if ';' ∈ text then (text.splitOn ';').filter (· ≠ []) else [text]

namespace FieldBitmapGroup

def create (kind : GroupKind) : FieldBitmapGroup where
  kind := kind
  rangedmap := if kind = .both ∨ kind = .rangedMap then some {} else none
  dirIndex := if kind = .dir then some .root else none

section

variable (group : FieldBitmapGroup) (key : Text)

def keyOf : Text :=
  if group.dirIndex.isSome then normalizePathKey key else key

def getBitmap : Option Bitmap := group.bitmapGroup.lookup key

def editableBitmap : Bitmap := (group.getBitmap key).getD ∅

end

section

variable (offset : Nat) (group : FieldBitmapGroup) (key : Text)

def setBit : FieldBitmapGroup :=
  let key := group.keyOf key
  { group with
    bitmapGroup := group.bitmapGroup.insert key (insert offset (group.editableBitmap key))
    dirIndex := if (group.getBitmap key).isSome then group.dirIndex
      else group.dirIndex.map fun trie => trie.addKey key }

def unsetBit : FieldBitmapGroup :=
  let key := group.keyOf key
  { group with bitmapGroup := group.bitmapGroup.insert key ((group.editableBitmap key).erase offset) }

end

section

variable (group : FieldBitmapGroup)

def addString (text : Text) (offset : Nat) : FieldBitmapGroup :=
  { (splitKeys text).foldl (setBit offset) group with elementSize := max (offset + 1) group.elementSize }

def addDouble (value : ℚ) (offset : Nat) : FieldBitmapGroup :=
  let editable := group.rangedmap.getD {}
  match editable.addOffsetAndScore offset value with
  | none => { group with rangedmap := some editable }
  | some added =>
    { group with rangedmap := some added, elementSize := max (offset + 1) group.elementSize }

def deleteString (text : Text) (offset : Nat) : FieldBitmapGroup :=
  if group.elementSize ≤ offset then group else (splitKeys text).foldl (unsetBit offset) group

-- The value itself is not looked at.
def deleteDouble (_ : ℚ) (offset : Nat) : FieldBitmapGroup :=
  if group.elementSize ≤ offset then group
  else { group with rangedmap := some ((group.rangedmap.getD {}).deleteOffset offset) }

def getBitmapWhere (test : Text → Bool) : Option Bitmap :=
  match group.bitmapGroup.entries.filter fun entry => test entry.1 with
  | [] => none
  | first :: rest => some (rest.foldl (fun bits entry => bits ∪ entry.2) first.2)

def getBitmapByPrefix (start : Text) : Option Bitmap :=
  group.getBitmapWhere fun key => decide (start <+: key)

def getBitmapByContains (substring : Text) : Option Bitmap :=
  group.getBitmapWhere fun key => decide (substring <:+: key)

/-- `search` is `std::regex_search` for the pattern, absent when the pattern is not valid. -/
def getBitmapByRegex (search : Option (Text → Bool)) : Option Bitmap :=
  search.bind group.getBitmapWhere

end

def countFieldEnums (name : Text) (group : FieldBitmapGroup) (valid : Option Bitmap) : Table Text Nat × Table Text Bitmap :=
  let kept := fun bits : Bitmap => match valid with
    | some rows => bits ∩ rows
    | none => bits
  let bitmaps := group.bitmapGroup.entries.foldl (fun table entry => table.insert entry.1 (kept entry.2)) ∅
  let counts := group.bitmapGroup.entries.foldl (fun table entry => table.insert entry.1 (kept entry.2).card) ∅
  match group.rangedmap with
  | none => (counts, bitmaps)
  | some map =>
    (counts.insert name (match valid with
      | some rows => rows.card
      | none => map.offsetToValue.length), bitmaps)

def countFieldEnumsWithin (group : FieldBitmapGroup) (first : Table Text Bitmap) : Table Text Nat :=
  (Table.inOrder first).foldl (fun counts outer =>
    let joint := group.bitmapGroup.entries.foldl (fun table entry =>
      if (entry.2 ∩ outer.2).card = 0 then table
      else table.insert (outer.1 ++ ',' :: entry.1) (entry.2 ∩ outer.2).card) counts
    if group.rangedmap.isSome then joint.insert outer.1 outer.2.card else joint) ∅

end FieldBitmapGroup

structure FieldBitmapGroupSet where
  elementSize : Nat := 0
  groups : Table Text FieldBitmapGroup := ∅

namespace FieldBitmapGroupSet

def ofSchema (schema : List (Text × Text)) : FieldBitmapGroupSet where
  groups := schema.foldl (fun groups field =>
    match getTypeId field.2 with
    | none => groups
    | some kind => if field.1 ∈ groups then groups else groups.insert field.1 (.create kind)) ∅

section

variable (set : FieldBitmapGroupSet)

def updateGroup (field : Text) (change : FieldBitmapGroup → FieldBitmapGroup) :
    FieldBitmapGroupSet :=
  match set.groups.lookup field with
  | none => set
  | some group => { set with groups := set.groups.insert field (change group) }

def addStrings (values : Table Text Text) (offset : Nat) : FieldBitmapGroupSet :=
  let added := values.entries.foldl (fun set entry => set.updateGroup entry.1 (·.addString entry.2 offset)) set
  { added with elementSize := max set.elementSize (offset + 1) }

def addDoubles (values : Table Text ℚ) (offset : Nat) : FieldBitmapGroupSet :=
  let added := values.entries.foldl (fun set entry => set.updateGroup entry.1 (·.addDouble entry.2 offset)) set
  { added with elementSize := max set.elementSize (offset + 1) }

def deleteStrings (values : Table Text Text) (offset : Nat) : FieldBitmapGroupSet :=
  if set.elementSize ≤ offset then set
  else values.entries.foldl (fun set entry => set.updateGroup entry.1 (·.deleteString entry.2 offset)) set

def deleteDoubles (values : Table Text ℚ) (offset : Nat) : FieldBitmapGroupSet :=
  if set.elementSize ≤ offset then set
  else values.entries.foldl (fun set entry => set.updateGroup entry.1 (·.deleteDouble entry.2 offset)) set

def deleteRowData (offset : Nat) (oldFields : FieldsDict) : FieldBitmapGroupSet :=
  let set := if oldFields.strKvMap.entries = [] then set else set.deleteStrings oldFields.strKvMap offset
  if oldFields.dblKvMap.entries = [] then set else set.deleteDoubles oldFields.dblKvMap offset

def addRowData (offset : Nat) (fields oldFields : FieldsDict) : FieldBitmapGroupSet :=
  let set := set.deleteRowData offset oldFields
  let set := if fields.strKvMap.entries = [] then set else set.addStrings fields.strKvMap offset
  if fields.dblKvMap.entries = [] then set else set.addDoubles fields.dblKvMap offset

def isPathFieldName (field : Text) : Bool :=
  (set.groups.lookup field).any fun group => group.kind = .dir

def getBitmap (field key : Text) : Option Bitmap :=
  (set.groups.lookup field).bind fun group => group.getBitmap key

-- All rows that were ever there.
def makeFullTemp : Bitmap := Finset.range set.elementSize

end

def unionAll (bitmaps : List Bitmap) : Bitmap := bitmaps.foldr (· ∪ ·) ∅

section

variable (set : FieldBitmapGroupSet)

def makeFieldCopy (field : Text) (keys : List Text) : Option Bitmap :=
  match keys with
  | [] => none
  | [key] => set.getBitmap field key
  | _ => some (unionAll (keys.filterMap (set.getBitmap field)))

def makePathFieldCopy (field : Text) (keys : List Text) (depth : Int) : Option Bitmap :=
  match set.groups.lookup field with
  | none => none
  | some group =>
    if depth = -1 ∧ (['/'] ∈ keys ∨ [] ∈ keys) then some set.makeFullTemp
    else group.dirIndex.map fun trie =>
      unionAll ((keys.flatMap fun key => trie.getMergedBitmaps key depth).filterMap group.getBitmap)

def makePathFieldExcludeCopy (field : Text) (keys : List Text) (depth : Int) : Bitmap :=
  set.makeFullTemp \ (set.makePathFieldCopy field keys depth).getD ∅

def makeFieldExcludeCopy (field : Text) (keys : List Text) : Bitmap :=
  set.makeFullTemp \ (set.makeFieldCopy field keys).getD ∅

def makeFieldPrefixCopy (field start : Text) : Option Bitmap :=
  (set.groups.lookup field).bind fun group =>
    group.getBitmapByPrefix (if set.isPathFieldName field then normalizePathKey start else start)

def makeFieldContainsCopy (field substring : Text) : Option Bitmap :=
  (set.groups.lookup field).bind fun group => group.getBitmapByContains substring

def makeFieldRegexCopy (field : Text) (search : Option (Text → Bool)) : Option Bitmap :=
  (set.groups.lookup field).bind fun group => group.getBitmapByRegex search

def getRangedmap (field : Text) : Option RangedMap :=
  (set.groups.lookup field).bind FieldBitmapGroup.rangedmap

def makeRangeCopy (rangeOut : Bool) (field : Text) (lowerThan : ℚ) (includeLe : Bool)
    (greaterThan : ℚ) (includeGe : Bool) : Option Bitmap :=
  (set.getRangedmap field).bind fun map => map.getRangeBitmap rangeOut lowerThan includeLe greaterThan includeGe

def makeRange2dCopy (fields : List Text) (center : List ℚ) (radius : ℚ) : Option Bitmap :=
  match fields, center with
  | [xField, yField], [x, y] =>
    match set.getRangedmap xField, set.getRangedmap yField with
    | some xMap, some yMap => RangedMap.getRange2dBitmap xMap yMap x y radius
    | _, _ => none
  | _, _ => none

def countFieldEnums (fields : List Text) (valid : Option Bitmap) : Option (Table Text Nat) :=
  match fields with
  | [field] => (set.groups.lookup field).map fun group => (group.countFieldEnums field valid).1
  | [first, second] =>
    match set.groups.lookup first, set.groups.lookup second with
    | some outer, some inner => some (inner.countFieldEnumsWithin (outer.countFieldEnums first valid).2)
    | _, _ => none
  | _ => none

end

end FieldBitmapGroupSet

end LoginomDock.VectorIndex
