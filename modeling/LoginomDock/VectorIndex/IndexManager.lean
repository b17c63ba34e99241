import LoginomDock.VectorIndex.SortOps
import LoginomDock.VectorIndex.FlatIndex

namespace LoginomDock.VectorIndex

structure IndexManager (V : Type) where
  vectorIndex : FlatIndex V
  fieldSets : FieldBitmapGroupSet := {}
  updateTimestamp : Nat := 0
  filterLayoutOffsets : List (Option Nat) := []
  filterLayoutRowsByOffset : List (Option Nat) := []
  filterLayoutInverseBase : Nat := 0
  filterLayoutInverseReady : Bool := false
  nextFilterToken : Nat := 1
  filterTokenOrder : List Nat := []
  filterTokenCache : Table Nat Bitmap := ∅

-- What the manager takes from elsewhere: vectors, the standard algorithms, regular expressions and the reading of JSON.
structure Runtime (Q V : Type) where
  metric : Metric Q V
  std : RangedMap.StdOrder
  regexSearch : Text → Option (Text → Bool)
  parseJson : Text → Option Json

structure AddDataRequest (Q : Type) where
  label : Nat
  vector : Option Q
  sparseRawTerms : List Text := []
  sparseValues : List ℚ := []
  fieldsStr : Text := []
  oldFieldsStr : Text := []

structure DeleteDataRequest where
  label : Nat
  oldFieldsStr : Text := []

structure SearchRequest (Q : Type) where
  query : Option Q
  sparseRawTerms : List Text := []
  sparseValues : List ℚ := []
  topk : Nat
  dsl : Text

structure SearchResult where
  labels : List Nat := []
  scores : List (Option ℚ) := []
  extraJson : Option (List (Text × Int)) := none

structure FilterResult where
  eligibleCount : Nat := 0
  bitsetWords : List Nat := []
  nativeFilterToken : Nat := 0
  deriving DecidableEq

structure SearchContext where
  filterOp : Option FilterOp := none
  sorterOp : Option SorterOpBase := none

def parseDslQuery (parseJson : Text → Option Json) (dsl : Text) : Option SearchContext :=
  if dsl = [] then some {}
  else match parseJson (cString dsl) with
    | none => none
    | some doc =>
      if doc.isObject = false then none
      else
        let hasFilter := (doc.member? "filter").isSome
        let hasSorter := (doc.member? "sorter").isSome
        some {
          filterOp := if hasFilter || !hasSorter then parseFilterJsonDocOutter doc else none
          sorterOp := if hasSorter then parseSorterJsonDocOutter doc else none }

namespace IndexManager

variable {Q V : Type} (runtime : Runtime Q V)

section

variable (manager : IndexManager V)

def offsetOf (label : Nat) : Option Nat :=
  let offset := manager.vectorIndex.getOffsetByLabel label
  if offset < 0 then none else some offset.toNat

def filterContext : FilterContext where
  groups := manager.fieldSets
  offsetOf := manager.offsetOf
  regexSearch := runtime.regexSearch

def calculateFilterBitmap (filter : Option FilterOp) : Option (Option Bitmap) :=
  match filter with
  | none => some none
  | some op => (op.calcBitmap (manager.filterContext runtime) none true).map some

def handleSorterQuery (filter : Option FilterOp) (sorter : SorterOpBase)
    (bitmap : Option Bitmap) : Option SearchResult :=
  if sorter.isCount && filter.isNone then
    some { extraJson := some [(totalCountKey, (manager.vectorIndex.currentCount : Int))] }
  else
    (sorter.calcTopkResult runtime.std manager.fieldSets bitmap).map fun result =>
      match result with
      | none => {}
      | some found => {
          labels := found.offsets.map manager.vectorIndex.getLabelByOffset
          scores := found.scores
          extraJson := found.extraJson }

def performVectorRecall (request : SearchRequest Q) (query : Q) (bitmap : Option Bitmap) :
    SearchResult × IndexManager V :=
  let sparse := if request.sparseRawTerms = [] ∨ request.sparseValues = [] then none
    else some ⟨request.sparseRawTerms, request.sparseValues⟩
  let found := manager.vectorIndex.searchKnn runtime.metric query request.topk bitmap sparse
  ({ labels := found.2.1, scores := found.2.2.map some }, { manager with vectorIndex := found.1 })

end

structure Reply (V α : Type) where
  ret : Int
  result : α
  manager : IndexManager V

-- Nothing when the call does not return.
def search (manager : IndexManager V) (request : SearchRequest Q) : Option (Reply V SearchResult) :=
  match parseDslQuery runtime.parseJson request.dsl with
  | none => some ⟨-1, {}, manager⟩
  | some context =>
    match manager.calculateFilterBitmap runtime context.filterOp with
    | none => some ⟨-1, {}, manager⟩
    | some bitmap =>
      match context.sorterOp, request.query with
      | some sorter, _ =>
        (manager.handleSorterQuery runtime context.filterOp sorter bitmap).map fun result => ⟨0, result, manager⟩
      | none, some query =>
        let found := manager.performVectorRecall runtime request query bitmap
        some ⟨0, found.1, found.2⟩
      | none, none => some ⟨0, {}, manager⟩

def kFilterTokenCacheCapacity : Nat := 32

section

variable (manager : IndexManager V)

def cacheFilterBitmap (bitmap : Bitmap) : Nat × IndexManager V :=
  let first := manager.nextFilterToken
  let token := if first = 0 then 1 else first
  let order := manager.filterTokenOrder ++ [token]
  let dropped := order.take (order.length - kFilterTokenCacheCapacity)
  (token, { manager with
    nextFilterToken := (token + 1) % 2 ^ 64
    filterTokenOrder := order.drop (order.length - kFilterTokenCacheCapacity)
    filterTokenCache := dropped.foldl (fun cache old => cache.erase old) (manager.filterTokenCache.insert token bitmap) })

def clearFilterTokenCache : IndexManager V :=
  { manager with filterTokenOrder := [], filterTokenCache := ∅ }

def clearFilterLayout : IndexManager V :=
  { manager with
    filterLayoutOffsets := []
    filterLayoutRowsByOffset := []
    filterLayoutInverseBase := 0
    filterLayoutInverseReady := false }

/-- The result with `token_found`. -/
def searchWithFilterToken (request : SearchRequest Q) (token : Nat) :
    Reply V (SearchResult × Bool) :=
  match request.query with
  | none => ⟨0, ({}, false), manager⟩
  | some query =>
    if token = 0 then ⟨0, ({}, false), manager⟩
    else match manager.filterTokenCache.lookup token with
      | none => ⟨0, ({}, false), manager⟩
      | some bitmap =>
        let found := manager.performVectorRecall runtime request query (some bitmap)
        ⟨0, (found.1, true), found.2⟩

end

def kFilterLayoutInverseMaxSpanFactor : Nat := 4

-- Rows are kept with 32 bits, and the last number of 32 bits stands for a missing row.
def storedRow (row : Nat) : Option Nat := if row % 2 ^ 32 = 2 ^ 32 - 1 then none else some (row % 2 ^ 32)

def inverseRows (base : Nat) : List (Option Nat) → Nat → List (Option Nat) → Option (List (Option Nat))
  | [], _, rows => some rows
  | none :: rest, row, rows => inverseRows base rest (row + 1) rows
  | some offset :: rest, row, rows =>
    if (rows[offset - base]?).join.isSome then none
    else inverseRows base rest (row + 1) (rows.set (offset - base) (storedRow row))

def setFilterLayout (manager : IndexManager V) (orderedLabels : List Nat) : IndexManager V :=
  let offsets := orderedLabels.map manager.offsetOf
  let laid := { manager.clearFilterLayout with filterLayoutOffsets := offsets }
  match offsets.filterMap id with
  | [] => laid
  | first :: rest =>
    let low := rest.foldl min first
    let high := rest.foldl max first
    let span := high - low + 1
    if kFilterLayoutInverseMaxSpanFactor * (first :: rest).length < span then laid
    else match inverseRows low offsets 0 (List.replicate span none) with
      | none => laid
      | some rows => { laid with
          filterLayoutRowsByOffset := rows
          filterLayoutInverseBase := low
          filterLayoutInverseReady := true }

def eligible (bitmap : Option Bitmap) (offset : Option Nat) : Bool :=
  match offset, bitmap with
  | none, _ => false
  | some _, none => true
  | some offset, some bits => decide (offset ∈ bits)

def setWordBit (words : List Nat) (row : Nat) : List Nat :=
  words.set (row / 32) (words.getD (row / 32) 0 ||| 2 ^ (row % 32))

def emptyWords (rows : Nat) : List Nat := List.replicate ((rows + 31) / 32) 0

def projectRows (bitmap : Option Bitmap) : List (Option Nat) → Nat → FilterResult → FilterResult
  | [], _, result => result
  | offset :: rest, row, result =>
    projectRows bitmap rest (row + 1) (if eligible bitmap offset then
      { result with eligibleCount := result.eligibleCount + 1, bitsetWords := setWordBit result.bitsetWords row }
      else result)

section

variable (manager : IndexManager V)

def withToken (bitmap : Option Bitmap) (limit : Nat) (result : FilterResult) :
    FilterResult × IndexManager V :=
  match bitmap with
  | none => (result, manager)
  | some bits =>
    if 0 < result.eligibleCount ∧ result.eligibleCount ≤ limit then
      let cached := manager.cacheFilterBitmap bits
      ({ result with nativeFilterToken := cached.1 }, cached.2)
    else (result, manager)

def evaluateFilter (dsl : Text) (maxCachedCandidates : Nat) : Reply V FilterResult :=
  match parseDslQuery runtime.parseJson dsl with
  | none => ⟨-1, {}, manager⟩
  | some context =>
    match manager.calculateFilterBitmap runtime context.filterOp with
    | none => ⟨-1, {}, manager⟩
    | some bitmap =>
      let offsets := manager.filterLayoutOffsets
      let kept := manager.withToken bitmap maxCachedCandidates
        (projectRows bitmap offsets 0 { bitsetWords := emptyWords offsets.length })
      ⟨0, kept.1, kept.2⟩

def countInverse (bits : Bitmap) : Nat :=
  (bits.sort.filter fun offset => decide (manager.filterLayoutInverseBase ≤ offset) &&
    ((manager.filterLayoutRowsByOffset[offset - manager.filterLayoutInverseBase]?).join).isSome).length

end

def routeRows (bitmap : Option Bitmap) (threshold total : Nat) :
    List (Option Nat) → Nat → List Nat → FilterResult → FilterResult
  | [], _, _, result => result
  | offset :: rest, row, narrow, result =>
    if eligible bitmap offset = false then routeRows bitmap threshold total rest (row + 1) narrow result
    else
      let counted := { result with eligibleCount := result.eligibleCount + 1 }
      if total ≤ threshold then routeRows bitmap threshold total rest (row + 1) narrow counted
      else if counted.bitsetWords = [] then
        let narrow := narrow ++ [row % 2 ^ 32]
        if counted.eligibleCount ≤ threshold then routeRows bitmap threshold total rest (row + 1) narrow counted
        else routeRows bitmap threshold total rest (row + 1) []
          { counted with bitsetWords := narrow.foldl setWordBit (emptyWords total) }
      else routeRows bitmap threshold total rest (row + 1) narrow
        { counted with bitsetWords := setWordBit counted.bitsetWords row }

def evaluateFilterForRouting (manager : IndexManager V) (dsl : Text) (nativeThreshold : Nat) : Reply V FilterResult :=
  if nativeThreshold = 0 then manager.evaluateFilter runtime dsl 0
  else match parseDslQuery runtime.parseJson dsl with
    | none => ⟨-1, {}, manager⟩
    | some context =>
      match manager.calculateFilterBitmap runtime context.filterOp with
      | none => ⟨-1, {}, manager⟩
      | some bitmap =>
        let offsets := manager.filterLayoutOffsets
        let narrow := manager.filterLayoutInverseReady && (bitmap.map Finset.card).any (· ≤ nativeThreshold)
        let counted := if narrow then { eligibleCount := ((bitmap.map manager.countInverse).getD 0) }
          else routeRows bitmap nativeThreshold offsets.length offsets 0 [] {}
        let limit := if narrow then counted.eligibleCount else nativeThreshold
        let kept := manager.withToken bitmap limit counted
        ⟨0, kept.1, kept.2⟩

def parseFields (text : Text) : FieldsDict := .parseFromJson (if text = [] then none else runtime.parseJson (cString text))

def addRow (manager : IndexManager V) (data : AddDataRequest Q) (offset : Nat) : IndexManager V :=
  let fields := parseFields runtime data.fieldsStr
  let oldFields := parseFields runtime data.oldFieldsStr
  { manager with fieldSets := manager.fieldSets.addRowData offset fields oldFields }

-- The index after the rows, whether one of them was applied, and whether one has thrown.
def addRows : List (AddDataRequest Q) → IndexManager V → Bool → IndexManager V × Bool × Bool
  | [], manager, hasUpdate => (manager, hasUpdate, false)
  | data :: rest, manager, hasUpdate =>
    let added := manager.vectorIndex.addPoint runtime.metric data.vector data.label
      (some ⟨data.sparseRawTerms, data.sparseValues⟩)
    let manager := { manager with vectorIndex := added.1 }
    if added.2 then (manager, hasUpdate, true)
    else match manager.offsetOf data.label with
      | none => addRows rest manager hasUpdate
      | some offset => addRows rest (manager.addRow runtime data offset) true

section

variable (manager : IndexManager V)

def afterUpdate (now : Nat) : IndexManager V :=
  { manager.clearFilterLayout.clearFilterTokenCache with updateTimestamp := now }

-- The index after the batch, and whether the call has thrown.
def addData (data : List (AddDataRequest Q)) (now : Nat) : IndexManager V × Bool :=
  match addRows runtime data manager false with
  | (manager, _, true) => (manager, true)
  | (manager, true, false) => (manager.afterUpdate now, false)
  | (manager, false, false) => (manager, false)

def deleteRow (data : DeleteDataRequest) (offset : Nat) : IndexManager V :=
  { manager with
    fieldSets := manager.fieldSets.deleteRowData offset (parseFields runtime data.oldFieldsStr)
    vectorIndex := manager.vectorIndex.removePoint data.label }

end

def deleteRows : List DeleteDataRequest → IndexManager V → Bool → IndexManager V × Bool
  | [], manager, hasUpdate => (manager, hasUpdate)
  | data :: rest, manager, hasUpdate =>
    match manager.offsetOf data.label with
    | none => deleteRows rest manager hasUpdate
    | some offset => deleteRows rest (manager.deleteRow runtime data offset) true

def deleteData (manager : IndexManager V) (data : List DeleteDataRequest) (now : Nat) : IndexManager V :=
  match deleteRows runtime data manager false with
  | (manager, true) => manager.afterUpdate now
  | (manager, false) => manager

end IndexManager

end LoginomDock.VectorIndex
