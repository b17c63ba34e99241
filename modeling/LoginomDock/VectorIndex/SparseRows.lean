import Mathlib.Data.List.Sort
import LoginomDock.Library.Table
import LoginomDock.Library.Text
import Mathlib.Algebra.Order.Field.Rat

namespace LoginomDock.VectorIndex

-- Term numbers with their values.
structure SparseDatapoint where
  indices : List Nat
  values : List ℚ
  deriving DecidableEq

/-- Compressed rows: row `i` lies between the places `i` and `i + 1` of `offsets`. -/
structure SparseDataset where
  entries : Nat := 0
  flatIndices : List Nat := []
  flatValues : List ℚ := []
  offsets : List Nat := [0]
  deriving DecidableEq

section

variable {α : Type} (target : List α) (place : Nat) (source : List α)

/-- `std::copy` into a vector from a place on -/
def copyAt : List α :=
  target.take place ++ source ++ target.drop (place + source.length)

/-- `vector::insert` at a place -/
def insertAt : List α :=
  target.take place ++ source ++ target.drop place

end

/-- `vector::erase` of a range -/
def eraseRange {α : Type} (target : List α) (first last : Nat) : List α := target.take first ++ target.drop last

namespace SparseDataset

def size (data : SparseDataset) : Nat := data.offsets.length - 1

-- Nothing where the source returns an error.
def append (data : SparseDataset) (row : SparseDatapoint) : Option SparseDataset :=
  if row.values.length ≠ row.indices.length then none
  else some {
    entries := data.entries + row.indices.length
    flatIndices := data.flatIndices ++ row.indices
    flatValues := data.flatValues ++ row.values
    offsets := data.offsets ++ [data.entries + row.indices.length] }

/-- Make room for `newLen` elements where `oldLen` were, and copy the new ones there. -/
def replaceRange {α : Type} (zero : α) (flat : List α) (oldStart oldEnd : Nat) (source : List α) : List α :=
  let oldLen := oldEnd - oldStart
  let room :=
    if source.length = oldLen then flat
    else if oldLen < source.length then insertAt flat oldEnd (List.replicate (source.length - oldLen) zero)
    else eraseRange flat (oldStart + source.length) oldEnd
  copyAt room oldStart source

-- Nothing where the source throws or returns an error.
def update (data : SparseDataset) (idx : Nat) (row : SparseDatapoint) : Option SparseDataset :=
  if data.size ≤ idx ∨ row.values.length ≠ row.indices.length then none
  else
    let oldStart := data.offsets.getD idx 0
    let oldEnd := data.offsets.getD (idx + 1) 0
    let shifted := fun place : Nat => place + row.indices.length - (oldEnd - oldStart)
    some {
      entries := shifted data.entries
      flatIndices := replaceRange 0 data.flatIndices oldStart oldEnd row.indices
      flatValues := replaceRange 0 data.flatValues oldStart oldEnd row.values
      offsets := data.offsets.take (idx + 1) ++ (data.offsets.drop (idx + 1)).map shifted }

def getRow (data : SparseDataset) (idx : Nat) : Option SparseDatapoint :=
  if data.size ≤ idx then none
  else
    let start := data.offsets.getD idx 0
    let stop := data.offsets.getD (idx + 1) 0
    some ⟨(data.flatIndices.take stop).drop start, (data.flatValues.take stop).drop start⟩

def popBack (data : SparseDataset) : SparseDataset :=
  if data.offsets.length ≤ 1 then data
  else
    let lastStart := data.offsets.getD (data.offsets.length - 2) 0
    let count := data.offsets.getD (data.offsets.length - 1) 0 - lastStart
    { entries := data.entries - count
      flatIndices := if 0 < count then data.flatIndices.take lastStart else data.flatIndices
      flatValues := if 0 < count then data.flatValues.take lastStart else data.flatValues
      offsets := data.offsets.dropLast }

end SparseDataset

structure SparseRowIndex where
  indexTerm : List Nat := []
  termIndex : Table Nat Nat := ∅
  sparseDataset : SparseDataset := {}

structure SparseFile where
  terms : List Nat
  rows : List SparseDatapoint

namespace SparseRowIndex

def rows (sparse : SparseRowIndex) : Nat := sparse.sparseDataset.size

def numberTerm (sparse : SparseRowIndex) (term : Nat) : SparseRowIndex × Nat :=
  match sparse.termIndex.lookup term with
  | some number => (sparse, number)
  | none =>
    let number := sparse.termIndex.keys.length
    ({ sparse with
      indexTerm := sparse.indexTerm ++ [term]
      termIndex := sparse.termIndex.insert term number }, number)

structure TermValue where
  term : Nat
  number : Nat
  value : ℚ

def addValue (row : List TermValue) (entry : TermValue) : List TermValue :=
  if entry.term ∈ row.map TermValue.term then
    row.map fun other => if other.term = entry.term then { other with value := other.value + entry.value } else other
  else row ++ [entry]

def indexTerms : List (Nat × ℚ) → SparseRowIndex → List TermValue → SparseRowIndex × List TermValue
  | [], sparse, row => (sparse, row)
  | (term, value) :: rest, sparse, row =>
    let numbered := sparse.numberTerm term
    indexTerms rest numbered.1 (addValue row ⟨term, numbered.2, value⟩)

section

variable (sparse : SparseRowIndex)

def indexByTerms (terms : List Nat) (values : List ℚ) :
    Option (SparseRowIndex × SparseDatapoint) :=
  if terms.length ≠ values.length then none
  else
    let indexed := indexTerms (terms.zip values) sparse []
    let sorted := indexed.2.insertionSort fun first second => first.number ≤ second.number
    some (indexed.1, ⟨sorted.map TermValue.number, sorted.map TermValue.value⟩)

def append (row : SparseDatapoint) : Option SparseRowIndex :=
  (sparse.sparseDataset.append row).map fun data => { sparse with sparseDataset := data }

def update (idx : Nat) (row : SparseDatapoint) : Option SparseRowIndex :=
  (sparse.sparseDataset.update idx row).map fun data => { sparse with sparseDataset := data }

def popBack : SparseRowIndex :=
  { sparse with sparseDataset := sparse.sparseDataset.popBack }

def saveData : SparseFile where
  terms := sparse.indexTerm
  rows := (List.range sparse.rows).filterMap sparse.sparseDataset.getRow

end

def loadTerms : List Nat → Nat → SparseRowIndex → SparseRowIndex × Bool
  | [], _, sparse => (sparse, true)
  | term :: rest, number, sparse =>
    if term ∈ sparse.termIndex then (sparse, false)
    else loadTerms rest (number + 1) { sparse with
      indexTerm := sparse.indexTerm ++ [term]
      termIndex := sparse.termIndex.insert term number }

def loadRows (cols : Nat) : List SparseDatapoint → SparseRowIndex → SparseRowIndex
  | [], sparse => sparse
  | row :: rest, sparse =>
    if cols < row.indices.length then sparse else loadRows cols rest ((sparse.append row).getD sparse)

def loadData (sparse : SparseRowIndex) (file : SparseFile) : SparseRowIndex :=
  let emptied := { sparse with sparseDataset := {} }
  match loadTerms file.terms 0 emptied with
  | (loaded, false) => loaded
  | (loaded, true) => loadRows file.terms.length file.rows loaded

end SparseRowIndex

end LoginomDock.VectorIndex
