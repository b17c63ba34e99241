import LoginomDock.VectorIndex.RangedMap
import LoginomDock.VectorIndex.SparseRows
import Mathlib.Logic.Function.Basic
import Mathlib.Data.Finset.Sort

/-! The dense vectors lie side by side in one buffer, each with its label and its logical offset; two maps find the
place of a label and of an offset. -/

namespace LoginomDock.VectorIndex

structure Element (V : Type) where
  vector : V
  label : Nat
  offset : Nat

structure FlatIndex (V : Type) where
  buffer : Nat → Element V
  capacity : Nat
  currentCount : Nat := 0
  labelMap : Table Nat Nat := ∅
  offsetMap : Table Nat Nat := ∅
  nextLogicalOffset : Nat := 0
  sparse : Option SparseRowIndex

structure FlatFile (V : Type) where
  capacity : Nat
  currentCount : Nat
  elements : List (Element V)
  nextLogicalOffset : Nat
  sparse : Option SparseFile

structure SparseGiven where
  rawTerms : List Text
  values : List ℚ

-- How vectors are encoded and compared, and terms hashed.
structure Metric (Q V : Type) where
  encode : Q → V
  dense : V → V → ℚ
  sparseHead : SparseDatapoint → SparseDatapoint → ℚ
  reverse : Bool
  alpha : ℚ
  hash : Text → Nat

namespace FlatIndex

variable {Q V : Type} (metric : Metric Q V)

def create (memory : Nat → Element V) (maxElementCount : Nat) (enableSparse : Bool) : FlatIndex V where
  buffer := memory
  capacity := max 1 maxElementCount
  sparse := if enableSparse then some {} else none

def makeSparsePoint (sparse : SparseRowIndex) (given : SparseGiven) : Option (SparseRowIndex × SparseDatapoint) :=
  if given.rawTerms.length ≠ given.values.length then none
  else sparse.indexByTerms (given.rawTerms.map metric.hash) given.values

section

variable (index : FlatIndex V)

def writeElement (place : Nat) (vector : Option Q) (label : Nat) : FlatIndex V :=
  let old := index.buffer place
  let written := { old with vector := (vector.map metric.encode).getD old.vector, label := label }
  { index with buffer := Function.update index.buffer place written }

def appendElement (vector : Option Q) (label : Nat) : FlatIndex V :=
  let place := index.currentCount
  let offset := index.nextLogicalOffset % 2 ^ 32
  writeElement metric { index with
    capacity := if index.capacity ≤ index.currentCount then index.currentCount * 2 + 1 else index.capacity
    labelMap := index.labelMap.insert label place
    offsetMap := index.offsetMap.insert offset place
    buffer := Function.update index.buffer place { index.buffer place with offset := offset }
    nextLogicalOffset := (index.nextLogicalOffset + 1) % 2 ^ 64
    currentCount := index.currentCount + 1 } place vector label

def sparseRow (given : Option SparseGiven) : Option (FlatIndex V × Option SparseDatapoint) :=
  match index.sparse, given with
  | some sparse, some given =>
    (makeSparsePoint metric sparse given).map fun made => ({ index with sparse := some made.1 }, some made.2)
  | _, _ => some (index, none)

-- The index, and whether the call has thrown.
def addPoint (vector : Option Q) (label : Nat) (given : Option SparseGiven) :
    FlatIndex V × Bool :=
  match sparseRow metric index given with
  | none => (index, true)
  | some (index, row) =>
    match index.labelMap.lookup label, index.sparse with
    | some place, none => (writeElement metric index place vector label, false)
    | some place, some sparse =>
      match row with
      | none => (writeElement metric index place vector label, false)
      | some row =>
        match sparse.update place row with
        | none => (index, true)
        | some updated => (writeElement metric { index with sparse := some updated } place vector label, false)
    | none, none => (appendElement metric index vector label, false)
    | none, some sparse =>
      if index.currentCount ≠ sparse.rows then (index, true)
      else match sparse.append (row.getD ⟨[], []⟩) with
        | none => (index, true)
        | some appended => (appendElement metric { index with sparse := some appended } vector label, false)

def moveLast (place last : Nat) : FlatIndex V :=
  let moved := index.buffer last
  { index with
    buffer := Function.update index.buffer place moved
    labelMap := index.labelMap.insert moved.label place
    offsetMap := index.offsetMap.insert moved.offset place
    sparse := index.sparse.map fun sparse =>
      ((sparse.sparseDataset.getRow last).bind (sparse.update place)).getD sparse }

def removePoint (label : Nat) : FlatIndex V :=
  match index.labelMap.lookup label with
  | none => index
  | some place =>
    let last := index.currentCount - 1
    let unmapped := { index with
      labelMap := index.labelMap.erase label
      offsetMap := index.offsetMap.erase (index.buffer place).offset }
    let moved := if 0 < index.currentCount ∧ place ≠ last then moveLast unmapped place last else unmapped
    { moved with
      sparse := moved.sparse.map SparseRowIndex.popBack
      currentCount := index.currentCount - 1 }

def save : FlatFile V where
  capacity := index.capacity
  currentCount := index.currentCount
  elements := (List.range index.capacity).map index.buffer
  nextLogicalOffset := index.nextLogicalOffset
  sparse := index.sparse.map SparseRowIndex.saveData

def rebuildMaps : FlatIndex V :=
  let elements := (List.range index.currentCount).map fun place => (place, index.buffer place)
  let maxOffset := elements.foldl (fun high entry => max high entry.2.offset) 0
  { index with
    labelMap := elements.foldl (fun map entry => map.insert entry.2.label entry.1) ∅
    offsetMap := elements.foldl (fun map entry => map.insert entry.2.offset entry.1) ∅
    nextLogicalOffset := if 0 < index.currentCount ∧ index.nextLogicalOffset ≤ maxOffset then (maxOffset + 1) % 2 ^ 32
      else index.nextLogicalOffset }

def load (file : FlatFile V) : FlatIndex V :=
  let rebuilt := rebuildMaps { index with
    capacity := if file.capacity < file.currentCount then index.capacity else file.capacity
    currentCount := file.currentCount
    buffer := fun place => (file.elements[place]?).getD (index.buffer place)
    nextLogicalOffset := file.nextLogicalOffset }
  { rebuilt with
    sparse := rebuilt.sparse.map fun sparse => (file.sparse.map sparse.loadData).getD sparse }

/-- A 32-bit offset as `int`, -1 for a label that is not there. -/
def getOffsetByLabel (label : Nat) : Int :=
  match index.labelMap.lookup label with
  | none => -1
  | some place =>
    let offset := (index.buffer place).offset
    if offset < 2 ^ 31 then offset else (offset : Int) - 2 ^ 32

def getLabelByOffset (offset : Nat) : Nat :=
  match index.offsetMap.lookup offset with
  | none => 2 ^ 64 - 1
  | some place => (index.buffer place).label

end

/-- The best `k` so far in ascending order, as the priority queue holds them. -/
def pushBest (k : Nat) (best : List (ℚ × Nat)) (entry : ℚ × Nat) : List (ℚ × Nat) :=
  let placed := fun rest : List (ℚ × Nat) =>
    rest.orderedInsert (fun first second => first.1 < second.1 ∨ first.1 = second.1 ∧ first.2 ≤ second.2) entry
  if best.length < k then placed best
  else match best with
    | [] => best
    | worst :: rest => if worst.1 < entry.1 then placed rest else best

section

variable (index : FlatIndex V)

def transformSparseQuery (given : Option SparseGiven) : FlatIndex V × Option SparseDatapoint :=
  match index.sparse, given with
  | some sparse, some given =>
    if metric.alpha = 0 then (index, none)
    else match makeSparsePoint metric sparse given with
      | none => (index, none)
      | some made => ({ index with sparse := some made.1 }, some made.2)
  | _, _ => (index, none)

def computeScore (query : V) (view : Option SparseDatapoint) (place : Nat) : ℚ :=
  let turned := fun raw : ℚ => if metric.reverse then 1 - raw else raw
  let denseScore := turned (metric.dense query (index.buffer place).vector)
  match index.sparse, view with
  | some sparse, some view =>
    if metric.alpha ≤ 0 then denseScore
    else
      let row := (sparse.sparseDataset.getRow place).getD ⟨[], []⟩
      denseScore * (1 - metric.alpha) + turned (metric.sparseHead view row) * metric.alpha
  | _, _ => denseScore

def searchPlaces (bitmap : Option Bitmap) : List Nat :=
  match bitmap with
  | none => List.range index.currentCount
  | some offsets => offsets.sort.filterMap fun offset => index.offsetMap.lookup offset

def searchKnn (query : Q) (k : Nat) (bitmap : Option Bitmap) (given : Option SparseGiven) :
    FlatIndex V × List Nat × List ℚ :=
  if k = 0 ∨ index.currentCount = 0 then (index, [], [])
  else
    let numbered := transformSparseQuery metric index given
    let scored := (searchPlaces numbered.1 bitmap).map fun place =>
      (computeScore metric numbered.1 (metric.encode query) numbered.2 place, (numbered.1.buffer place).label)
    let best := (scored.foldl (pushBest k) []).reverse
    (numbered.1, best.map Prod.snd, best.map Prod.fst)

end

end FlatIndex

end LoginomDock.VectorIndex
