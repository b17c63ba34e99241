import LoginomDock.Client.VariantFrames
import Mathlib.Data.Finset.Prod
import Mathlib.Data.List.Sort
import Mathlib.Data.Prod.Lex

/-! `variant-native-values.mjs`: a native read of a table with the evidence of its host, and what a port shows of it. -/

namespace LoginomDock.Client.NativeTable

open Json List UploadLineage

structure Evidence where
  expected : Option Json
  lifecycle : Option Json
  dateProfile : Option Json
  consistency : Option Json

structure Column where
  fields : List (Text × Json)
  index : Nat
  type : Option NativeType

structure TableCell where
  row : Nat
  column : Nat
  cell : AdaptedCell

def TableCell.key (cell : TableCell) : Nat × Nat := (cell.row, cell.column)

/-- `a.row - b.row || a.column - b.column` is not positive. -/
def NotAfter (first second : TableCell) : Prop := toLex first.key ≤ toLex second.key

instance : DecidableRel NotAfter := fun _ _ => inferInstanceAs (Decidable (_ ≤ _))

instance : Std.Total NotAfter := ⟨fun _ _ => le_total _ _⟩

instance : IsTrans TableCell NotAfter := ⟨fun _ _ _ => le_trans⟩

structure Coverage where
  cellsRead : Nat
  rowsRead : Nat
  columnsRead : Nat
  tableComplete : Bool

structure TableRead where
  contract : String := "collapse-native-full-1"
  schema : List Column
  rowCount : Nat
  cells : List TableCell
  binding : List (String × Option Json)
  coverage : Coverage
  precision : List (String × String) := [("cells", "exact_native"), ("temporal", "native_serial_only")]
  consistency : List (String × Json) := [("kind", .string "observed_local"), ("changed", .bool false),
    ("exclusive_operation", .bool true), ("stability_basis", .string "owned_static_completed_fixture"),
    ("atomic_snapshot", .bool false), ("unobserved_aba_excluded", .bool false)]
  limitations : List String

-- The key that `codes[c.type]` looks up, where it is one.
def propertyKey : Json → Text
  | .integer value => LoginomDock.decimal value
  | .string text => text
  | .array [item] => propertyKey item
  | _ => []

def codes : Text → Option NativeType
  | ['1'] => some .boolean | ['2'] => some .datetime | ['3'] => some .real | ['4'] => some .integer | ['5'] => some .string
  | ['6'] => some .variant
  | _ => none

def column (place : Json × Nat) : Column where
  fields := membersOf (some place.1)
  index := place.2
  type := (get? place.1 "type").bind fun code => codes (propertyKey code)

def identityNames : List String := ["read_id", "document_id", "workflow_id", "package_id", "node_id", "port_guid"]

def boundNames : List String := identityNames ++ ["port", "source", "execution", "schema", "row_count"]

def rowCountOf (raw : Json) : Option Nat :=
  (safeInteger (get? raw "row_count")).bind fun count => if 0 ≤ count then some count.toNat else none

def arrayOf : Option Json → Except TableError (List Json)
  | some (.array items) => .ok items
  | _ => .error .typeError

def textOf : Option Json → Except TableError Text
  | some (.string text) => .ok text
  | _ => .error .typeError

section Checks

-- How numbers that are not integers are written.
variable (number : ℚ → Text)

def same (first second : Option Json) : Bool := first.map (stringify number) = second.map (stringify number)

def checkEvidence (raw : Json) (evidence : Evidence) : Except TableError (List Json) := do
  need ([evidence.expected, evidence.lifecycle, evidence.consistency].all truthy) "trusted host evidence required"
  need (identityNames.all fun name => isFilledText (get? raw name)) "complete host identity"
  need (["owner", "object"].all fun name => (integer (get? (get? raw "source") name)).isSome) "source identity"
  need (integer (get? raw "method") = some 321 && integer (get? raw "interface") = some 116 && integer (get? raw "port") = some 0)
    "fixed reader contract"
  need (strictEquals (get? evidence.lifecycle "id") (get? raw "read_id")) "read lifecycle identity"
  boundNames.forM fun name => need (same number (get? raw name) (get? evidence.expected name)) ("stale/foreign " ++ name)
  let execution := get? raw "execution"
  need (isText (get? execution "status") "completed") "completed execution binding"
  need (((← textOf (get? raw "document_id")) ++ [':']).isPrefixOf (← textOf (get? execution "execution_id"))) "completed execution binding"
  need (isTrue (get? raw "owner_rechecked") && isTrue (get? raw "cache_identity_rechecked")) "binding guards missing"
  need (isText (get? evidence.consistency "kind") "observed_local" && isFalse (get? evidence.consistency "changed") &&
    isTrue (get? evidence.consistency "exclusive_operation") &&
    isText (get? evidence.consistency "stability_basis") "owned_static_completed_fixture") "observed change or missing operation exclusion"
  need (isText (get? evidence.lifecycle "status") "completed" && isTrue (get? evidence.lifecycle "published") &&
    integer (get? evidence.lifecycle "pending") = some 0 && isFalse (get? evidence.lifecycle "retired")) "unfinished or retired read"
  let cells ← arrayOf (get? raw "cells")
  need (["requests", "releasedRequests", "releasedResponses"].all fun name =>
    integer (get? evidence.lifecycle name) = some (cells.length : Int)) "unfinished or retired read"
  return cells

end Checks

structure ReadState where
  seen : List (Nat × Nat) := []
  rows : List Nat := []
  columns : List Nat := []
  messages : List Int := []

section Reading

variable (representation : Bytes → Text) (schema : List Column) (rowCount : Nat) (dateProfile : Option Json)

def readCell (state : ReadState) (cell : Json) : Except TableError (ReadState × TableCell) :=
  match natural (get? cell "row"), natural (get? cell "column") with
  | some row, some column => do
    need (row < rowCount && column < schema.length) "cell address"
    need ((row, column) ∉ state.seen) "duplicate cell"
    match safeInteger (get? cell "message_id") with
    | none => throw (.refused "missing/duplicate response ID")
    | some message =>
      need (message ∉ state.messages) "missing/duplicate response ID"
      let adapted ← adaptCell representation cell (schema[column]?.bind Column.type) dateProfile
      return ({ seen := (row, column) :: state.seen, rows := state.rows.insert row, columns := state.columns.insert column,
                messages := message :: state.messages }, ⟨row, column, adapted⟩)
  | _, _ => .error (.refused "cell address")

def readCells : List Json → ReadState → Except TableError (ReadState × List TableCell)
  | [], state => .ok (state, [])
  | cell :: rest, state => do
    let (after, read) ← readCell representation schema rowCount dateProfile state cell
    let (last, others) ← readCells rest after
    return (last, read :: others)

end Reading

def distinctNames (schema : List Column) : Bool :=
  (schema.map fun column => member? "name" (.object column.fields)).Pairwise fun first second => strictEquals first second = false

def readTable (representation : Bytes → Text) (raw : Json) (dateProfile : Option Json) (rawCells : List Json) :
    Except TableError TableRead := do
  let schema := (← arrayOf (get? raw "schema")).zipIdx.map column
  match rowCountOf raw with
  | none => throw (.refused "table bounds/schema")
  | some rowCount =>
    need (0 < schema.length && schema.length ≤ 8 && distinctNames schema) "table bounds/schema"
    need (schema.all fun column => column.type.isSome) "unknown schema type"
    need (rawCells.length ≤ 400) "cell bound"
    need (rowCount ≠ 0 || isTrue (get? raw "empty_count_attested")) "empty native count/schema proof missing"
    let (state, cells) ← readCells representation schema rowCount dateProfile rawCells {}
    need (state.rows.length ≤ 50) "row read bound"
    let complete := rowCount ≤ 50 && state.seen.length = rowCount * schema.length
    return { schema, rowCount, cells := cells.insertionSort NotAfter
             binding := (identityNames ++ ["execution"]).map fun name => (name, get? raw name)
             coverage := ⟨state.seen.length, state.rows.length, state.columns.length, complete⟩
             limitations := ["no_server_snapshot", "unobserved_aba_risk"] ++ if complete then [] else ["partial_table"] }

def adaptRead (number : ℚ → Text) (representation : Bytes → Text) (raw : Json) (evidence : Evidence) : Except TableError TableRead := do
  readTable representation raw evidence.dateProfile (← checkEvidence number raw evidence)

structure UserPort where
  schema : List Column
  rowCount : Nat
  sample : List (List AdaptedCell)
  sampleRows : Nat
  exactTable : Option (List (List AdaptedCell))
  sampleComplete : Bool
  readCoverage : Coverage
  cellPrecision : List (String × String)
  readConsistency : List (String × Json)
  binding : List (String × Option Json)
  limitations : List String

namespace TableRead

variable (table : TableRead)

def rowAt (row : Nat) : List AdaptedCell := (table.cells.filter fun cell => cell.row = row).map TableCell.cell

def sampleFrom : Nat → Nat → List (List AdaptedCell)
  | 0, _ => []
  | count + 1, row => if (table.rowAt row).length ≠ table.schema.length then [] else table.rowAt row :: sampleFrom count (row + 1)

/-- `serialized` is `JSON.stringify`. -/
def nativeUserPort (serialized : UserPort → Text) (sampleRows : Int := 10) : Except TableError UserPort := do
  need (0 ≤ sampleRows && sampleRows ≤ 100) "public sample bound"
  let sample := table.sampleFrom (min sampleRows.toNat table.rowCount) 0
  let port : UserPort := {
    schema := table.schema, rowCount := table.rowCount, sample, sampleRows := sample.length
    exactTable := if table.coverage.tableComplete then some ((range table.rowCount).map table.rowAt) else none
    sampleComplete := table.coverage.tableComplete && sample.length = table.rowCount
    readCoverage := table.coverage, cellPrecision := table.precision, readConsistency := table.consistency
    binding := table.binding, limitations := table.limitations }
  need (utf8Bytes (serialized port) ≤ 1048576) "exact serialized output limit"
  return port

end TableRead

structure ReadFrom (raw : Json) (cell : TableCell) : Prop where
  row : natural (get? raw "row") = some cell.row
  column : natural (get? raw "column") = some cell.column
  value : ∃ payload, payloadOf raw = some payload ∧ Carries payload cell.cell

namespace TableRead

variable {table : TableRead}

def FullyRead (table : TableRead) (row : Nat) : Prop := ∀ column < table.schema.length, ∃ cell, ⟨row, column, cell⟩ ∈ table.cells

def HoldsRow (table : TableRead) (row : Nat) (cells : List AdaptedCell) : Prop :=
  cells.length = table.schema.length ∧ ∀ column cell, cells[column]? = some cell → ⟨row, column, cell⟩ ∈ table.cells

def IsTable (table : TableRead) (rows : List (List AdaptedCell)) : Prop :=
  rows.length = table.rowCount ∧ ∀ row cells, rows[row]? = some cells → table.HoldsRow row cells

structure IsSample (table : TableRead) (limit : Nat) (sample : List (List AdaptedCell)) : Prop where
  short : sample.length ≤ min limit table.rowCount
  rows : ∀ row cells, sample[row]? = some cells → table.HoldsRow row cells
  longest : sample.length < min limit table.rowCount → ¬table.FullyRead sample.length

structure Projects (table : TableRead) (limit : Nat) (port : UserPort) : Prop where
  present : port.exactTable.isSome = true ↔ table.coverage.tableComplete = true
  whole : ∀ rows, port.exactTable = some rows → table.IsTable rows
  sample : table.IsSample limit port.sample
  complete : port.sampleComplete = true ↔ table.IsTable port.sample

-- The cells lie in the table, in order, and a table that is read whole is marked. A table of more rows is never read whole.
structure Sound (table : TableRead) : Prop where
  inside : ∀ cell ∈ table.cells, cell.row < table.rowCount ∧ cell.column < table.schema.length
  ordered : (table.cells.map TableCell.key).Pairwise fun first second => toLex first < toLex second
  complete : table.coverage.tableComplete = true ↔ table.rowCount ≤ 50 ∧ ∀ row < table.rowCount, table.FullyRead row
  few : (∀ row < table.rowCount, table.FullyRead row) → table.rowCount ≤ 50

structure ReadsExactly (table : TableRead) (raw : Json) : Prop extends Sound table where
  rowCount : rowCountOf raw = some table.rowCount
  columns : (listOf (get? raw "schema")).length = table.schema.length
  cells : ∃ order, order.Perm (listOf (get? raw "cells")) ∧ Forall₂ ReadFrom order table.cells

theorem eq_range {places : List Nat} {count : Nat} (increasing : places.Pairwise (· < ·)) (below : ∀ place ∈ places, place < count)
    (enough : count ≤ places.length) : places = range count := by
  have distinct : places.Nodup := increasing.imp Nat.ne_of_lt
  have inRange : places.Subperm (range count) := subperm_of_subset distinct fun place inside => mem_range.mpr (below place inside)
  have same : places.Perm (range count) := inRange.perm_of_length_le (by rwa [length_range])
  exact same.eq_of_pairwise (fun _ _ _ _ first second => absurd first (Nat.lt_asymm second)) increasing pairwise_lt_range

section

variable (sound : table.Sound) {row : Nat} (filled : table.schema.length ≤ (table.rowAt row).length)

include sound filled

theorem columns_range :
    (table.cells.filter fun cell => cell.row = row).map TableCell.column = range table.schema.length := by
  apply eq_range
  · refine pairwise_map.mpr (((pairwise_map.mp sound.ordered).filter _).imp_of_mem ?_)
    intro first second here there earlier
    have inFirst : first.row = row := by simpa using (mem_filter.mp here).2
    have inSecond : second.row = row := by simpa using (mem_filter.mp there).2
    simpa [Prod.Lex.toLex_lt_toLex, TableCell.key, inFirst, inSecond] using earlier
  · simp only [mem_map, forall_exists_index, and_imp]
    rintro - cell inRow rfl
    exact (sound.inside cell (mem_of_mem_filter inRow)).2
  · simpa [rowAt] using filled

theorem holdsRow_rowAt :
    table.HoldsRow row (table.rowAt row) := by
  have columns := columns_range sound filled
  constructor
  · simpa [rowAt] using congrArg length columns
  · intro column adapted found
    rw [rowAt, getElem?_map] at found
    obtain ⟨cell, here, rfl⟩ := Option.map_eq_some_iff.mp found
    have place := congrArg (·[column]?) columns
    simp only [getElem?_map, here, Option.map_some] at place
    obtain ⟨_, isColumn⟩ := List.getElem?_eq_some_iff.mp place.symm
    rw [getElem_range] at isColumn
    obtain ⟨member, isRow⟩ := mem_filter.mp (mem_of_getElem? here)
    rw [← of_decide_eq_true isRow, isColumn]
    exact member

end

theorem HoldsRow.fullyRead {row : Nat} {cells : List AdaptedCell} (holds : table.HoldsRow row cells) : table.FullyRead row := by
  intro column inside
  rw [← holds.1] at inside
  exact ⟨_, holds.2 column _ (getElem?_eq_getElem inside)⟩

theorem FullyRead.filled {row : Nat} (full : table.FullyRead row) : table.schema.length ≤ (table.rowAt row).length := by
  have inRow : range table.schema.length ⊆ (table.cells.filter fun cell => cell.row = row).map TableCell.column := by
    intro column inside
    obtain ⟨cell, member⟩ := full column (mem_range.mp inside)
    exact mem_map.mpr ⟨_, mem_filter.mpr ⟨member, by simp⟩, rfl⟩
  simpa [rowAt] using (subperm_of_subset nodup_range inRow).length_le

theorem sampleFrom_spec (sound : table.Sound) (count row : Nat) :
    (table.sampleFrom count row).length ≤ count ∧
      (∀ place cells, (table.sampleFrom count row)[place]? = some cells → table.HoldsRow (row + place) cells) ∧
      ((table.sampleFrom count row).length < count → ¬table.FullyRead (row + (table.sampleFrom count row).length)) := by
  induction count generalizing row with
  | zero => simp [sampleFrom]
  | succ count ih =>
    rw [sampleFrom]
    split
    next short =>
      refine ⟨Nat.zero_le _, nofun, fun _ full => short ?_⟩
      exact (holdsRow_rowAt sound full.filled).1
    next whole =>
      obtain ⟨bound, rows, longest⟩ := ih (row + 1)
      refine ⟨by simpa using bound, ?_, fun less => ?_⟩
      · rintro (_ | place) cells found
        · cases found
          exact holdsRow_rowAt sound (not_not.mp whole).ge
        · rw [show row + (place + 1) = row + 1 + place by omega]
          exact rows place cells found
      · rw [length_cons, show ∀ size, row + (size + 1) = row + 1 + size by omega]
        exact longest (by simpa using less)

theorem nativeUserPort_projects (sound : table.Sound) {serialized : UserPort → Text} {sampleRows : Int} {port : UserPort}
    (returned : table.nativeUserPort serialized sampleRows = .ok port) : table.Projects sampleRows.toNat port := by
  simp only [nativeUserPort, bind_ok_iff, need_eq_ok] at returned
  obtain ⟨-, -, -, -, made⟩ := returned
  cases made
  obtain ⟨bound, rows, longest⟩ := sampleFrom_spec sound (min sampleRows.toNat table.rowCount) 0
  simp only [Nat.zero_add] at rows longest
  refine ⟨?_, ?_, ⟨bound, rows, longest⟩, ?_⟩
  · cases table.coverage.tableComplete <;> simp
  · intro shown present
    rw [Option.ite_none_right_eq_some] at present
    obtain ⟨complete, made⟩ := present
    cases made
    refine ⟨by simp, fun row cells found => ?_⟩
    rw [getElem?_map] at found
    obtain ⟨place, inside, rfl⟩ := Option.map_eq_some_iff.mp found
    obtain ⟨less, rfl⟩ := List.getElem?_eq_some_iff.mp inside
    rw [getElem_range] at *
    exact holdsRow_rowAt sound ((sound.complete.mp complete).2 row (by simpa using less)).filled
  · simp only [Bool.and_eq_true, decide_eq_true_eq]
    constructor
    · rintro ⟨-, length⟩
      exact ⟨length, rows⟩
    · rintro ⟨length, -⟩
      have full : ∀ row < table.rowCount, table.FullyRead row := fun row inside =>
        (rows row _ (getElem?_eq_getElem (length.symm ▸ inside))).fullyRead
      exact ⟨sound.complete.mpr ⟨sound.few full, full⟩, length⟩

end TableRead

section Soundness

variable {representation : Bytes → Text} {schema : List Column} {rowCount : Nat} {dateProfile : Option Json}

theorem readCell_ok {state after : ReadState} {raw : Json} {cell : TableCell}
    (read : readCell representation schema rowCount dateProfile state raw = .ok (after, cell)) :
    ReadFrom raw cell ∧ (cell.row < rowCount ∧ cell.column < schema.length) ∧ cell.key ∉ state.seen ∧
      after.seen = cell.key :: state.seen ∧ after.rows = state.rows.insert cell.row := by
  rw [readCell] at read
  split at read
  next row column isRow isColumn =>
    simp only [bind_ok_iff, need_eq_ok, Bool.and_eq_true, decide_eq_true_eq] at read
    obtain ⟨-, inside, -, fresh, read⟩ := read
    split at read
    next => cases read
    next =>
      simp only [bind_ok_iff, need_eq_ok] at read
      obtain ⟨-, -, adapted, done, returned⟩ := read
      cases returned
      exact ⟨⟨isRow, isColumn, adaptCell_carries done⟩, inside, fresh, rfl, rfl⟩
  next => cases read

theorem readCells_ok {raws : List Json} {state last : ReadState} {cells : List TableCell}
    (read : readCells representation schema rowCount dateProfile raws state = .ok (last, cells)) :
    Forall₂ ReadFrom raws cells ∧ (∀ cell ∈ cells, cell.row < rowCount ∧ cell.column < schema.length) ∧
      last.seen = (cells.map TableCell.key).reverse ++ state.seen ∧ (state.seen.Nodup → last.seen.Nodup) ∧
      state.rows ⊆ last.rows ∧ ∀ cell ∈ cells, cell.row ∈ last.rows := by
  induction raws generalizing state cells with
  | nil =>
    rw [readCells] at read
    cases read
    exact ⟨.nil, forall_mem_nil _, rfl, id, fun _ => id, forall_mem_nil _⟩
  | cons raw rest ih =>
    simp only [readCells, bind_ok_iff] at read
    obtain ⟨⟨after, first⟩, here, ⟨final, others⟩, later, returned⟩ := read
    cases returned
    obtain ⟨source, inside, fresh, seen, rows⟩ := readCell_ok here
    obtain ⟨each, insides, allSeen, distinct, kept, allRows⟩ := ih later
    rw [seen] at allSeen distinct
    rw [rows] at kept
    refine ⟨.cons source each, ?_, allSeen.trans (by simp), fun before => distinct (nodup_cons.mpr ⟨fresh, before⟩), ?_, ?_⟩
    · exact forall_mem_cons.mpr ⟨inside, insides⟩
    · exact fun row known => kept (mem_insert_of_mem known)
    · exact forall_mem_cons.mpr ⟨kept mem_insert_self, allRows⟩

/-- As many addresses of a table as it has cells are all of its addresses. -/
theorem length_eq_mul_iff {keys : List (Nat × Nat)} {rows columns : Nat} (distinct : keys.Nodup)
    (inside : ∀ key ∈ keys, key.1 < rows ∧ key.2 < columns) :
    keys.length = rows * columns ↔ ∀ row < rows, ∀ column < columns, (row, column) ∈ keys := by
  have within : keys.toFinset ⊆ Finset.range rows ×ˢ Finset.range columns := by
    intro key member
    simpa using inside key (mem_toFinset.mp member)
  have size : (Finset.range rows ×ˢ Finset.range columns).card = rows * columns := by simp
  rw [← toFinset_card_of_nodup distinct, ← size]
  constructor
  · intro all row isRow column isColumn
    rw [← mem_toFinset, Finset.eq_of_subset_of_card_le within all.ge]
    simp [isRow, isColumn]
  · intro all
    refine congrArg Finset.card (within.antisymm fun key member => ?_)
    obtain ⟨isRow, isColumn⟩ := Finset.mem_product.mp member
    exact mem_toFinset.mpr (all _ (Finset.mem_range.mp isRow) _ (Finset.mem_range.mp isColumn))

theorem listOf_of_arrayOf {value : Option Json} {items : List Json} (read : arrayOf value = .ok items) : listOf value = items := by
  unfold arrayOf at read
  split at read <;> cases read
  rfl

theorem checkEvidence_cells {number : ℚ → Text} {raw : Json} {evidence : Evidence} {cells : List Json}
    (checked : checkEvidence number raw evidence = .ok cells) : listOf (get? raw "cells") = cells := by
  simp only [checkEvidence, bind_ok_iff] at checked
  obtain ⟨-, -, -, -, -, -, -, -, -, -, -, -, -, -, -, -, -, -, -, -, -, -, -, -, -, -, found, array, -, -, returned⟩ := checked
  cases returned
  rw [listOf_of_arrayOf array]

theorem readTable_exact {raw : Json} {rawCells : List Json} {table : TableRead} (isCells : listOf (get? raw "cells") = rawCells)
    (read : readTable representation raw dateProfile rawCells = .ok table) : table.ReadsExactly raw := by
  simp only [readTable, bind_ok_iff] at read
  obtain ⟨columns, array, read⟩ := read
  split at read
  next => cases read
  next rowCount isCount =>
    simp only [bind_ok_iff, need_eq_ok, Bool.and_eq_true, decide_eq_true_eq] at read
    obtain ⟨-, ⟨⟨some, -⟩, -⟩, -, -, -, -, -, -, ⟨state, cells⟩, taken, -, few, returned⟩ := read
    obtain ⟨each, inside, seen, distinct, -, rows⟩ := readCells_ok taken
    rw [append_nil] at seen
    have order : (cells.insertionSort NotAfter).Perm cells := perm_insertionSort _ _
    have single : (cells.map TableCell.key).Nodup := by simpa [seen] using distinct nodup_nil
    have ordered : ((cells.insertionSort NotAfter).map TableCell.key).Pairwise fun first second => toLex first < toLex second := by
      have apart := pairwise_map.mp ((order.map TableCell.key).nodup_iff.mpr single)
      exact pairwise_map.mpr ((pairwise_insertionSort NotAfter cells).and apart |>.imp fun both => lt_of_le_of_ne both.1 both.2)
    obtain ⟨taken, matched, moved⟩ := perm_comp_forall₂ order (Forall₂.flip each)
    cases returned
    have read : ∀ row column, (row, column) ∈ cells.map TableCell.key ↔ ∃ cell, ⟨row, column, cell⟩ ∈ cells.insertionSort NotAfter := by
      intro row column
      simp only [mem_insertionSort, mem_map]
      constructor
      · rintro ⟨⟨_, _, cell⟩, member, ⟨⟩⟩
        exact ⟨cell, member⟩
      · rintro ⟨cell, member⟩
        exact ⟨_, member, rfl⟩
    have all : state.seen.length = rowCount * (columns.zipIdx.map column).length ↔
        ∀ row < rowCount, ∀ place < (columns.zipIdx.map column).length, ∃ cell, ⟨row, place, cell⟩ ∈ cells.insertionSort NotAfter := by
      simp only [← read]
      rw [seen, length_reverse]
      exact length_eq_mul_iff single (by simpa [TableCell.key] using inside)
    refine ⟨⟨by simpa using inside, ordered, ?_, fun full => ?_⟩, isCount, ?_, taken, isCells ▸ moved, matched.flip⟩
    · simpa [TableRead.FullyRead] using fun _ => all
    · -- A row that is read whole has a cell, so the rows that are counted are all of them.
      have counted : range rowCount ⊆ state.rows := by
        intro row isRow
        obtain ⟨cell, member⟩ := full row (mem_range.mp isRow) 0 some
        exact rows _ ((mem_insertionSort _).mp member)
      have fewer := (subperm_of_subset nodup_range counted).length_le
      rw [length_range] at fewer
      exact fewer.trans few
    · rw [listOf_of_arrayOf array]
      simp

theorem adaptRead_exact (number : ℚ → Text) (representation : Bytes → Text) {raw : Json} {evidence : Evidence} {table : TableRead}
    (accepted : adaptRead number representation raw evidence = .ok table) :
    table.ReadsExactly raw ∧ ∀ (serialized : UserPort → Text) (sampleRows : Int) (port : UserPort),
      table.nativeUserPort serialized sampleRows = .ok port → table.Projects sampleRows.toNat port := by
  obtain ⟨cells, checked, read⟩ := bind_ok_iff.mp accepted
  have reads := readTable_exact (checkEvidence_cells checked) read
  exact ⟨reads, fun serialized sampleRows port => TableRead.nativeUserPort_projects reads.toSound⟩

end Soundness

section Example

def payloadJson (bytes : List Int) : Json := .array (bytes.map .integer)

def rawCell (column tag size : Int) (bytes : List Int) : Json :=
  .object [("row", .integer 0), ("column", .integer column), ("tag", .integer tag), ("payload", payloadJson bytes),
    ("frame_size", .integer size), ("message_id", .integer (100 + column))]

def smallRead : Json := .object (
  (identityNames.map fun name => (name.toList, .string "d".toList)) ++
  [("method".toList, .integer 321), ("interface".toList, .integer 116), ("port".toList, .integer 0),
   ("source".toList, .object [("owner".toList, .integer 0), ("object".toList, .integer 9)]),
   ("execution".toList, .object [("status".toList, .string "completed".toList), ("execution_id".toList, .string "d:1".toList)]),
   ("schema".toList, .array (["A", "B"].map fun name => .object [("name".toList, .string name.toList), ("type".toList, .integer 6)])),
   ("row_count".toList, .integer 1), ("owner_rechecked".toList, .bool true), ("cache_identity_rechecked".toList, .bool true),
   ("cells".toList, .array [rawCell 1 20 60 ([20, 0] ++ replicate 8 255), rawCell 0 8 60 ([8] ++ replicate 9 0 ++ [2, 0, 0, 0, 233, 253, 104, 105])])])

def smallEvidence : Evidence where
  expected := smallRead
  lifecycle := Json.object ([("id".toList, .string "d".toList), ("status".toList, .string "completed".toList), ("published".toList, .bool true),
    ("pending".toList, .integer 0), ("retired".toList, .bool false)] ++
    ["requests", "releasedRequests", "releasedResponses"].map fun name => (name.toList, .integer 2))
  dateProfile := none
  consistency := Json.object [("kind", .string "observed_local"), ("changed", .bool false),
    ("exclusive_operation".toList, .bool true), ("stability_basis".toList, .string "owned_static_completed_fixture".toList)]

theorem adaptRead_exact_small : ∃ table, adaptRead (fun _ => []) (fun _ => []) smallRead smallEvidence = .ok table ∧ table.ReadsExactly smallRead := by
  have accepted : (adaptRead (fun _ => []) (fun _ => []) smallRead smallEvidence).isOk = true := by decide
  cases read : adaptRead (fun _ => []) (fun _ => []) smallRead smallEvidence with
  | ok table => exact ⟨table, rfl, (adaptRead_exact _ _ read).1⟩
  | error =>
    rw [read] at accepted
    cases accepted

end Example

end LoginomDock.Client.NativeTable
