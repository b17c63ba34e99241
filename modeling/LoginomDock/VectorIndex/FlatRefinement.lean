import LoginomDock.Library.Runs
import LoginomDock.VectorIndex.FlatIndex
import LoginomDock.VectorIndex.SparseMatrix

/-! What the index is for: a map from labels to rows, each with a vector, sparse values and an offset that no other
label ever gets. -/

namespace LoginomDock.VectorIndex

open List

section Refinement

-- The vector is absent as long as none was given for the label.
structure FlatRow (V : Type) where
  vector : Option V
  sparse : Nat → Option ℚ
  offset : Nat

structure FlatMap (V : Type) where
  rows : Table Nat (FlatRow V) := ∅
  issued : List Nat := []

variable {Q V : Type} (metric : Metric Q V)

def SparseGiven.meaning (given : SparseGiven) : Nat → Option ℚ :=
  givenValue ((given.rawTerms.map metric.hash).zip given.values)

namespace FlatMap

section

variable (map : FlatMap V) (vector : Option Q) (label : Nat) (given : Option SparseGiven)

def give : FlatMap V :=
  match map.rows.lookup label with
  | some row => { map with rows := map.rows.insert label {
      row with
      vector := (vector.map metric.encode).or row.vector
      sparse := (given.map (SparseGiven.meaning metric)).getD row.sparse } }
  | none => {
      rows := map.rows.insert label {
        vector := vector.map metric.encode
        sparse := (given.map (SparseGiven.meaning metric)).getD fun _ => none
        offset := map.issued.length }
      issued := map.issued ++ [label] }

def add : FlatMap V :=
  if ∃ data ∈ given, data.rawTerms.length ≠ data.values.length then map else map.give metric vector label given

end

def remove (map : FlatMap V) (label : Nat) : FlatMap V := { map with rows := map.rows.erase label }

end FlatMap

structure FlatLayout where
  labels : List Nat
  rows : List SparseDatapoint
  sparse : SparseRowIndex

namespace FlatIndex

structure Describes (index : FlatIndex V) (map : FlatMap V) (layout : FlatLayout) : Prop where
  count : index.currentCount = layout.labels.length
  capacity : index.currentCount ≤ index.capacity
  nodup : layout.labels.Nodup
  labelMap : ∀ label place, index.labelMap.lookup label = some place ↔ layout.labels[place]? = some label
  offsetMap : ∀ offset place, index.offsetMap.lookup offset = some place ↔
    place < layout.labels.length ∧ (index.buffer place).offset = offset
  label : ∀ place label, layout.labels[place]? = some label → (index.buffer place).label = label
  live : ∀ label, label ∈ layout.labels ↔ ∃ row, map.rows.lookup label = some row
  row : ∀ place label row, layout.labels[place]? = some label → map.rows.lookup label = some row →
    (index.buffer place).offset = row.offset ∧ (∀ vector, row.vector = some vector →
      (index.buffer place).vector = vector) ∧
        ∃ point, layout.rows[place]? = some point ∧ RowMeans layout.sparse.indexTerm point row.sparse
  issued : ∀ label row, map.rows.lookup label = some row → map.issued[row.offset]? = some label
  next : index.nextLogicalOffset = map.issued.length
  bounded : map.issued.length ≤ 2 ^ 32
  sparse : index.sparse = some layout.sparse
  numbered : layout.sparse.Numbered
  holds : layout.sparse.sparseDataset.Holds layout.rows
  rowCount : layout.rows.length = layout.labels.length

namespace Describes

variable {metric} {index : FlatIndex V} {map : FlatMap V} {layout : FlatLayout}

theorem create (memory : Nat → Element V) (maxElementCount : Nat) :
    Describes (.create memory maxElementCount true) {} ⟨[], [], {}⟩ := by
  constructor <;> simp [FlatIndex.create, SparseDataset.Holds.empty, SparseRowIndex.numbered_empty]

section

variable (describes : Describes index map layout)

include describes

theorem placed {label : Nat} {row : FlatRow V}
    (there : map.rows.lookup label = some row) : ∃ place : Nat, layout.labels[place]? = some label :=
  mem_iff_getElem?.mp ((describes.live label).mpr ⟨row, there⟩)

theorem place_unique {label first second : Nat}
    (atFirst : layout.labels[first]? = some label) (atSecond : layout.labels[second]? = some label) : first = second := by
  rw [← describes.labelMap] at atFirst atSecond
  rw [atFirst, Option.some_inj] at atSecond
  exact atSecond

theorem offset_inj {first second : Nat} {one two : FlatRow V}
    (inFirst : map.rows.lookup first = some one) (inSecond : map.rows.lookup second = some two)
    (same : one.offset = two.offset) : first = second := by
  have here := describes.issued first one inFirst
  rw [same, describes.issued second two inSecond, Option.some_inj] at here
  exact here.symm

theorem offset_lt {label : Nat} {row : FlatRow V}
    (there : map.rows.lookup label = some row) : row.offset < map.issued.length :=
  (List.getElem?_eq_some_iff.mp (describes.issued label row there)).1

theorem withTerms {sparse : SparseRowIndex} (numbered : sparse.Numbered)
    (grown : layout.sparse.indexTerm <+: sparse.indexTerm) (same : sparse.sparseDataset = layout.sparse.sparseDataset) :
    Describes { index with sparse := some sparse } map { layout with sparse := sparse } where
  __ := describes
  row place label row at' there := by
    obtain ⟨offset, vector, point, found, means⟩ := describes.row place label row at' there
    exact ⟨offset, vector, point, found, means.grow grown⟩
  sparse := rfl
  numbered := numbered
  holds := same ▸ describes.holds

theorem sparseRow {given : SparseGiven}
    (same : given.rawTerms.length = given.values.length) :
    ∃ sparse point, FlatIndex.sparseRow metric index (some given) =
        some ({ index with sparse := some sparse }, some point) ∧
      Describes { index with sparse := some sparse } map { layout with sparse := sparse } ∧
        RowMeans sparse.indexTerm point (given.meaning metric) := by
  obtain ⟨after, point, found, numbered, grown, data, means⟩ :=
    @SparseRowIndex.indexByTerms_spec _ describes.numbered (given.rawTerms.map metric.hash) given.values
      (by simpa using same)
  refine ⟨after, point, ?_, describes.withTerms numbered grown data, means⟩
  simp [FlatIndex.sparseRow, describes.sparse, makeSparsePoint, same, found]

theorem congr {rows : Table Nat (FlatRow V)}
    (same : ∀ label, rows.lookup label = map.rows.lookup label) : Describes index { map with rows := rows } layout where
  __ := describes
  live label := by simpa only [same] using describes.live label
  row place label row at' there := describes.row place label row at' (by rwa [← same])
  issued label row there := describes.issued label row (by rwa [← same])

end

section

variable (describes : Describes index map layout)

include describes

theorem write {place label : Nat} {row : FlatRow V}
    (at' : layout.labels[place]? = some label) (there : map.rows.lookup label = some row) {data : SparseDataset}
    {rows : List SparseDatapoint} (holds : data.Holds rows) (length : rows.length = layout.rows.length)
    (others : ∀ other, other ≠ place → rows[other]? = layout.rows[other]?) {point : SparseDatapoint}
    {meaning : Nat → Option ℚ} (here : rows[place]? = some point)
    (means : RowMeans layout.sparse.indexTerm point meaning) (vector : Option Q) :
    Describes (writeElement metric { index with sparse := some { layout.sparse with sparseDataset := data } } place
        vector label)
      { map with rows := map.rows.insert label {
          row with vector := (vector.map metric.encode).or row.vector, sparse := meaning } }
      { layout with rows := rows, sparse := { layout.sparse with sparseDataset := data } } := by
  have oldRow := describes.row place label row at' there
  have offset : ∀ other, ((Function.update index.buffer place { index.buffer place with
      vector := (vector.map metric.encode).getD (index.buffer place).vector, label := label }) other).offset =
        (index.buffer other).offset := by
    intro other
    by_cases same : other = place
    · simp [same]
    · simp [same]
  constructor
  · exact describes.count
  · exact describes.capacity
  · exact describes.nodup
  · exact describes.labelMap
  · intro offset' other
    simp only [writeElement, offset]
    exact describes.offsetMap offset' other
  · intro other own atOther
    simp only [writeElement]
    by_cases same : other = place
    · subst same
      rw [at', Option.some_inj] at atOther
      simp [atOther]
    · simpa [same] using describes.label other own atOther
  · intro own
    rw [describes.live, Table.lookup_insert_if]
    by_cases same : own = label
    · subst same
      simp [there]
    · simp [same]
  · intro other own found atOther given
    rw [Table.lookup_insert_if] at given
    by_cases same : other = place
    · subst same
      rw [at', Option.some_inj] at atOther
      subst atOther
      rw [if_pos rfl, Option.some_inj] at given
      subst given
      refine ⟨by simpa only [writeElement, offset] using oldRow.1, ?_, point, here, means⟩
      intro encoded last
      cases vector with
      | none => simpa [writeElement] using oldRow.2.1 encoded (by simpa using last)
      | some vector => simpa [writeElement] using last
    · have different : own ≠ label := by
        rintro rfl
        exact same (describes.place_unique atOther at')
      rw [if_neg different] at given
      obtain ⟨kept, encoded, old, found', meansOld⟩ := describes.row other own found atOther given
      refine ⟨by simpa only [writeElement, offset] using kept, ?_, old, by rw [others other same, found'], meansOld⟩
      simpa [writeElement, same] using encoded
  · intro own found given
    rw [Table.lookup_insert_if] at given
    by_cases same : own = label
    · subst same
      rw [if_pos rfl, Option.some_inj] at given
      subst given
      exact describes.issued own row there
    · rw [if_neg same] at given
      exact describes.issued own found given
  · exact describes.next
  · exact describes.bounded
  · rfl
  · exact ⟨describes.numbered.number, describes.numbered.size⟩
  · exact holds
  · exact length.trans describes.rowCount

-- A new label gets the last place and the next offset.
theorem append {label : Nat} (absent : map.rows.lookup label = none)
    (few : map.issued.length < 2 ^ 32) {data : SparseDataset} {point : SparseDatapoint} {meaning : Nat → Option ℚ}
    (holds : data.Holds (layout.rows ++ [point])) (means : RowMeans layout.sparse.indexTerm point meaning)
    (vector : Option Q) :
    Describes (appendElement metric { index with sparse := some { layout.sparse with sparseDataset := data } } vector label)
      ⟨map.rows.insert label ⟨vector.map metric.encode, meaning, map.issued.length⟩, map.issued ++ [label]⟩
      ⟨layout.labels ++ [label], layout.rows ++ [point], { layout.sparse with sparseDataset := data }⟩ := by
  have fresh : label ∉ layout.labels := by
    rw [describes.live]
    rintro ⟨row, there⟩
    rw [absent] at there
    cases there
  have offset : index.nextLogicalOffset % 2 ^ 32 = map.issued.length := by
    rw [describes.next, Nat.mod_eq_of_lt few]
  have count := describes.count
  -- what is stored at each place after the call
  have atLast : ∀ place, place = index.currentCount → (appendElement metric { index with
      sparse := some { layout.sparse with sparseDataset := data } } vector label).buffer place =
        ⟨(vector.map metric.encode).getD (index.buffer place).vector, label, map.issued.length⟩ := by
    rintro place rfl
    simp only [appendElement, writeElement, offset, Function.update_self]
  have before : ∀ place, place < index.currentCount → (appendElement metric { index with
      sparse := some { layout.sparse with sparseDataset := data } } vector label).buffer place = index.buffer place := by
    intro place less
    simp [appendElement, writeElement, Nat.ne_of_lt less]
  have offsets : ∀ place, place < index.currentCount → (index.buffer place).offset < map.issued.length := by
    intro place less
    have inside : layout.labels[place]? = some layout.labels[place] := getElem?_eq_getElem (by omega)
    obtain ⟨row, there⟩ := (describes.live _).mp (mem_of_getElem? inside)
    rw [(describes.row place _ row inside there).1]
    exact describes.offset_lt there
  constructor
  · simp [appendElement, writeElement, count]
  · simp only [appendElement, writeElement]
    split <;> omega
  · rw [nodup_append]
    refine ⟨describes.nodup, by simp, ?_⟩
    rintro other inside last member rfl
    exact fresh (mem_singleton.mp member ▸ inside)
  · intro other place
    simp only [appendElement, writeElement, Table.lookup_insert_if]
    by_cases same : other = label
    · subst same
      rw [if_pos rfl, Option.some_inj, count]
      constructor
      · rintro rfl
        simp
      · intro there
        by_contra different
        rcases Nat.lt_or_ge place layout.labels.length with less | more
        · rw [getElem?_append_left less] at there
          exact fresh (mem_of_getElem? there)
        · rw [getElem?_eq_none (by simp; omega)] at there
          cases there
    · rw [if_neg same, describes.labelMap]
      rcases Nat.lt_or_ge place layout.labels.length with less | more
      · rw [getElem?_append_left less]
      · rw [getElem?_append_right more, getElem?_eq_none more]
        have single : ∀ i : Nat, ([label] : List Nat)[i]? ≠ some other := by
          intro i
          cases i <;> simp [Ne.symm same]
        simp [single]
  · intro other place
    have lookup : (appendElement metric { index with
        sparse := some { layout.sparse with sparseDataset := data } } vector label).offsetMap.lookup other =
          if other = map.issued.length then some index.currentCount else index.offsetMap.lookup other := by
      simp only [appendElement, writeElement, Table.lookup_insert_if, offset]
    rw [lookup, List.length_append, length_singleton, ← count]
    rcases Nat.lt_trichotomy place index.currentCount with less | equal | more
    · rw [before place less]
      have old := describes.offsetMap other place
      rw [← count] at old
      have small := offsets place less
      by_cases same : other = map.issued.length
      · rw [if_pos same, Option.some_inj]
        omega
      · rw [if_neg same, old]
        omega
    · rw [atLast place equal]
      by_cases same : other = map.issued.length
      · simp [same, equal]
      · have gone : index.offsetMap.lookup other ≠ some place := by
          rw [Ne, describes.offsetMap, ← count]
          omega
        simp [same, gone, Ne.symm same]
    · have gone : index.offsetMap.lookup other ≠ some place := by
        rw [Ne, describes.offsetMap, ← count]
        omega
      split
      · rw [Option.some_inj]
        omega
      · simp only [gone, false_iff]
        omega
  · intro place own there
    rcases Nat.lt_or_ge place layout.labels.length with less | more
    · rw [getElem?_append_left less] at there
      rw [before place (by omega)]
      exact describes.label place own there
    · have last : place = layout.labels.length := by
        have inside := (List.getElem?_eq_some_iff.mp there).1
        simp at inside
        omega
      rw [last] at there
      rw [atLast place (by omega)]
      simpa using there
  · intro own
    rw [mem_append, describes.live, mem_singleton, Table.lookup_insert_if]
    by_cases same : own = label
    · simp [same]
    · simp [same]
  · intro place own row there given
    rw [Table.lookup_insert_if] at given
    rcases Nat.lt_or_ge place layout.labels.length with less | more
    · rw [getElem?_append_left less] at there
      have different : own ≠ label := fun same => fresh (same ▸ mem_of_getElem? there)
      rw [if_neg different] at given
      rw [before place (by omega)]
      obtain ⟨kept, encoded, old, found, meansOld⟩ := describes.row place own row there given
      have inside : place < layout.rows.length := by rw [describes.rowCount]; exact less
      exact ⟨kept, encoded, old, by rw [getElem?_append_left inside, found], meansOld⟩
    · have last : place = layout.labels.length := by
        have inside := (List.getElem?_eq_some_iff.mp there).1
        simp at inside
        omega
      have own' : own = label := by
        rw [last] at there
        simpa using there.symm
      rw [if_pos own', Option.some_inj] at given
      subst given
      rw [atLast place (by omega)]
      refine ⟨rfl, ?_, point, by simp [last, ← describes.rowCount], means⟩
      intro encoded some'
      simp [show vector.map metric.encode = some encoded from some']
  · intro own row given
    rw [Table.lookup_insert_if] at given
    by_cases same : own = label
    · rw [if_pos same, Option.some_inj] at given
      subst given
      simp [same]
    · rw [if_neg same] at given
      exact SparseRowIndex.getElem?_of_prefix (prefix_append _ _) (describes.issued own row given)
  · simp only [appendElement, writeElement, describes.next, List.length_append, length_singleton]
    rw [Nat.mod_eq_of_lt (by omega)]
  · rw [List.length_append, length_singleton]
    exact few
  · rfl
  · exact ⟨describes.numbered.number, describes.numbered.size⟩
  · exact holds
  · simp [describes.rowCount]

theorem give (few : map.issued.length < 2 ^ 32) (vector : Option Q)
    (label : Nat) {start : FlatIndex V} {given : Option SparseGiven} {point : Option SparseDatapoint}
    (row : FlatIndex.sparseRow metric start given = some (index, point))
    (none' : given = none → point = none)
    (means : ∀ data, given = some data →
      ∃ made, point = some made ∧ RowMeans layout.sparse.indexTerm made (data.meaning metric)) :
    ∃ after, Describes (addPoint metric start vector label given).1 (map.give metric vector label given) after := by
  have rowCount := describes.rowCount
  cases there : map.rows.lookup label with
  | some old =>
    obtain ⟨place, at'⟩ := describes.placed there
    have found := (describes.labelMap label place).mpr at'
    have inside : place < layout.labels.length := (List.getElem?_eq_some_iff.mp at').1
    cases given with
    | none =>
      rw [none' rfl] at row
      obtain ⟨-, -, kept, atPlace, meansOld⟩ := describes.row place label old at' there
      have same : ({ index with sparse := some layout.sparse } : FlatIndex V) = index := by
        rw [← describes.sparse]
      have written := @write Q V metric index map layout describes place label old at' there _ _ describes.holds
        rfl (fun _ _ => rfl) _ _ atPlace meansOld vector
      rw [same] at written
      simp only [addPoint, row, found, describes.sparse, FlatMap.give, there, Option.map_none, Option.getD_none]
      exact ⟨_, written⟩
    | some data =>
      obtain ⟨made, rfl, meansMade⟩ := means data rfl
      obtain ⟨updated, changed, held⟩ := describes.holds.update (by omega : place < layout.rows.length) meansMade.paired
      simp only [addPoint, row, found, describes.sparse, SparseRowIndex.update, changed, Option.map_some,
        FlatMap.give, there, Option.getD_some]
      exact ⟨_, describes.write at' there held (by simp)
        (fun other different => getElem?_set_ne (Ne.symm different))
        (getElem?_set_self (by omega)) meansMade vector⟩
  | none =>
    have absent : index.labelMap.lookup label = none := by
      by_contra mapped
      obtain ⟨place, mapped⟩ := Option.ne_none_iff_exists'.mp mapped
      obtain ⟨old, known⟩ := (describes.live label).mp (mem_of_getElem? ((describes.labelMap _ _).mp mapped))
      rw [there] at known
      cases known
    have rows : layout.sparse.rows = index.currentCount := by
      rw [SparseRowIndex.rows, describes.holds.size, rowCount, describes.count]
    cases given with
    | none =>
      rw [none' rfl] at row
      obtain ⟨appended, added, held⟩ := @SparseDataset.Holds.append _ _ describes.holds ⟨[], []⟩ rfl
      simp only [addPoint, row, absent, describes.sparse, rows, ne_eq, not_true, if_false, Option.getD_none,
        SparseRowIndex.append, added, Option.map_some, FlatMap.give, there, Option.map_none]
      exact ⟨_, describes.append there few held (.empty _) vector⟩
    | some data =>
      obtain ⟨made, rfl, meansMade⟩ := means data rfl
      obtain ⟨appended, added, held⟩ := describes.holds.append meansMade.paired
      simp only [addPoint, row, absent, describes.sparse, rows, ne_eq, not_true, if_false, Option.getD_some,
        SparseRowIndex.append, added, Option.map_some, FlatMap.give, there]
      exact ⟨_, describes.append there few held meansMade vector⟩

theorem addPoint (few : map.issued.length < 2 ^ 32) (vector : Option Q)
    (label : Nat) (given : Option SparseGiven) :
    ∃ after, Describes (addPoint metric index vector label given).1 (map.add metric vector label given) after := by
  cases given with
  | none =>
    have row : FlatIndex.sparseRow metric index none = some (index, none) := by
      simp [FlatIndex.sparseRow]
    simpa [FlatMap.add] using describes.give few vector label row (fun _ => rfl) (by simp)
  | some data =>
    by_cases same : data.rawTerms.length = data.values.length
    · obtain ⟨sparse, point, row, more, means⟩ := describes.sparseRow same
      have given := more.give few vector label row (by simp) (by
        rintro _ ⟨⟩
        exact ⟨point, rfl, means⟩)
      simpa [FlatMap.add, same] using given
    · refine ⟨layout, ?_⟩
      have refused : FlatIndex.sparseRow metric index (some data) = none := by
        simp [FlatIndex.sparseRow, describes.sparse, makeSparsePoint, same]
      simpa [FlatIndex.addPoint, refused, FlatMap.add, same] using describes

end

end Describes

end FlatIndex

def swapRemove {α : Type} (items : List α) (place : Nat) : List α :=
  match items.getLast? with
  | none => []
  | some last => (items.set place last).dropLast

def cameFrom (place last here : Nat) : Nat := if here = place then last else here

section

variable {α : Type} {items : List α} {place : Nat} (inside : place < items.length)

include inside

theorem getElem?_swapRemove (here : Nat) :
    (swapRemove items place)[here]? =
      if here < items.length - 1 then items[cameFrom place (items.length - 1) here]? else none := by
  have last : items.getLast? = some items[items.length - 1] := by
    rw [getLast?_eq_getElem?, getElem?_eq_getElem (by omega)]
  rw [swapRemove, last]
  by_cases less : here < items.length - 1
  · rw [if_pos less, getElem?_dropLast, length_set, if_pos less, getElem?_set, cameFrom]
    by_cases same : place = here
    · simp [same, show here < items.length by omega]
    · rw [if_neg same, if_neg (Ne.symm same)]
  · rw [if_neg less, getElem?_eq_none (by simp; omega)]

theorem length_swapRemove :
    (swapRemove items place).length = items.length - 1 := by
  have last : items.getLast? = some items[items.length - 1] := by
    rw [getLast?_eq_getElem?, getElem?_eq_getElem (by omega)]
  simp [swapRemove, last]

end

namespace FlatIndex

namespace Describes

variable {metric} {index : FlatIndex V} {map : FlatMap V} {layout : FlatLayout}

theorem offset_place_inj (describes : Describes index map layout) {first second : Nat}
    (inFirst : first < layout.labels.length) (inSecond : second < layout.labels.length)
    (same : (index.buffer first).offset = (index.buffer second).offset) : first = second := by
  have one := (describes.offsetMap _ first).mpr ⟨inFirst, rfl⟩
  have two := (describes.offsetMap _ second).mpr ⟨inSecond, rfl⟩
  rw [same, two, Option.some_inj] at one
  exact one.symm

theorem sparse_swapRemove (describes : Describes index map layout) {place : Nat} (inside : place < layout.labels.length) :
    ∃ data : SparseDataset, data.Holds (swapRemove layout.rows place) ∧
      (if place ≠ layout.labels.length - 1 then
        ((layout.sparse.sparseDataset.getRow (layout.labels.length - 1)).bind (layout.sparse.update place)).getD layout.sparse
      else layout.sparse).popBack = { layout.sparse with sparseDataset := data } := by
  have count := describes.rowCount
  have last : layout.rows.getLast? = some layout.rows[layout.labels.length - 1] := by
    rw [getLast?_eq_getElem?, getElem?_eq_getElem (by omega)]
    simp [count]
  have some' : layout.rows.set place layout.rows[layout.labels.length - 1] ≠ [] := by
    rw [Ne, ← length_eq_zero_iff, length_set]
    omega
  by_cases different : place ≠ layout.labels.length - 1
  · have paired := describes.holds.paired layout.rows[layout.labels.length - 1] (getElem_mem _)
    obtain ⟨updated, changed, held⟩ := describes.holds.update (by omega : place < layout.rows.length) paired
    refine ⟨updated.popBack, ?_, ?_⟩
    · rw [swapRemove, last]
      exact held.popBack some'
    · have row := describes.holds.getRow (i := layout.labels.length - 1) (by omega)
      rw [if_pos different, row, Option.bind_some, SparseRowIndex.update, changed]
      rfl
  · rw [not_not] at different
    subst different
    refine ⟨layout.sparse.sparseDataset.popBack, ?_, by simp [SparseRowIndex.popBack]⟩
    rw [swapRemove, last]
    simp only [set_getElem_self]
    exact describes.holds.popBack (by rw [Ne, ← length_eq_zero_iff]; omega)

section Found

variable {label place : Nat} (found : index.labelMap.lookup label = some place) (inside : place < index.currentCount)

include found inside

theorem removePoint_buffer {here : Nat} (less : here < index.currentCount - 1) :
    (removePoint index label).buffer here = index.buffer (cameFrom place (index.currentCount - 1) here) := by
  simp only [removePoint, found, cameFrom]
  by_cases moves : place ≠ index.currentCount - 1
  · rw [if_pos ⟨by omega, moves⟩]
    by_cases same : here = place <;> simp [moveLast, same]
  · rw [if_neg (fun both => moves both.2), if_neg (by omega)]

theorem removePoint_labelMap (own : Nat) : (removePoint index label).labelMap.lookup own =
    if own = (index.buffer (index.currentCount - 1)).label ∧ place ≠ index.currentCount - 1 then some place
    else if own = label then none else index.labelMap.lookup own := by
  simp only [removePoint, found]
  by_cases moves : place ≠ index.currentCount - 1
  · rw [if_pos ⟨by omega, moves⟩]
    simp [moveLast, Table.lookup_insert_if, Table.lookup_erase_if, moves]
  · rw [if_neg (fun both => moves both.2), Table.lookup_erase_if]
    simp [moves]

theorem removePoint_offsetMap (offset : Nat) : (removePoint index label).offsetMap.lookup offset =
    if offset = (index.buffer (index.currentCount - 1)).offset ∧ place ≠ index.currentCount - 1 then some place
    else if offset = (index.buffer place).offset then none else index.offsetMap.lookup offset := by
  simp only [removePoint, found]
  by_cases moves : place ≠ index.currentCount - 1
  · rw [if_pos ⟨by omega, moves⟩]
    simp [moveLast, Table.lookup_insert_if, Table.lookup_erase_if, moves]
  · rw [if_neg (fun both => moves both.2), Table.lookup_erase_if]
    simp [moves]

theorem removePoint_sparse : (removePoint index label).sparse = index.sparse.map fun sparse =>
    (if place ≠ index.currentCount - 1 then
      ((sparse.sparseDataset.getRow (index.currentCount - 1)).bind (sparse.update place)).getD sparse
    else sparse).popBack := by
  simp only [removePoint, found]
  by_cases moves : place ≠ index.currentCount - 1
  · rw [if_pos ⟨by omega, moves⟩]
    simp [moveLast, moves, Function.comp_def]
  · rw [if_neg (fun both => moves both.2)]
    simp [moves]

omit inside in
theorem removePoint_rest : (removePoint index label).currentCount = index.currentCount - 1 ∧
    (removePoint index label).capacity = index.capacity ∧
      (removePoint index label).nextLogicalOffset = index.nextLogicalOffset := by
  simp only [removePoint, found]
  split <;> simp [moveLast]

end Found

theorem remove (describes : Describes index map layout) (label : Nat) :
    ∃ after, Describes (removePoint index label) (map.remove label) after := by
  cases found : index.labelMap.lookup label with
  | none =>
    have absent : map.rows.lookup label = none := by
      by_contra there
      obtain ⟨row, there⟩ := Option.ne_none_iff_exists'.mp there
      obtain ⟨place, at'⟩ := describes.placed there
      rw [← describes.labelMap, found] at at'
      cases at'
    refine ⟨layout, ?_⟩
    simp only [removePoint, found]
    refine describes.congr fun other => ?_
    rw [Table.lookup_erase_if]
    by_cases same : other = label
    · rw [if_pos same, same, absent]
    · rw [if_neg same]
  | some place =>
    have count := describes.count
    have at' := (describes.labelMap label place).mp found
    have inside : place < index.currentCount := by
      rw [count]
      exact (List.getElem?_eq_some_iff.mp at').1
    obtain ⟨data, held, sparse⟩ := describes.sparse_swapRemove (count ▸ inside)
    have labels := @getElem?_swapRemove _ layout.labels _ (count ▸ inside)
    have rows := @getElem?_swapRemove _ layout.rows _ (by rw [describes.rowCount, ← count]; exact inside)
    have length := @length_swapRemove _ layout.labels _ (count ▸ inside)
    have rowLength := @length_swapRemove _ layout.rows _ (by rw [describes.rowCount, ← count]; exact inside)
    rw [describes.rowCount] at rows rowLength
    rw [← count] at labels rows length rowLength sparse
    obtain ⟨lastLabel, lastThere⟩ : ∃ own, layout.labels[index.currentCount - 1]? = some own :=
      ⟨_, getElem?_eq_getElem (by omega)⟩
    have lastOwn := describes.label _ _ lastThere
    have buffer := fun here (less : here < index.currentCount - 1) => removePoint_buffer found inside less
    have rest := removePoint_rest found
    have reach : ∀ here, here < index.currentCount - 1 → cameFrom place (index.currentCount - 1) here < index.currentCount ∧
        cameFrom place (index.currentCount - 1) here ≠ place := by
      intro here less
      rw [cameFrom]
      split <;> omega
    refine ⟨⟨swapRemove layout.labels place, swapRemove layout.rows place,
      { layout.sparse with sparseDataset := data }⟩, ?_⟩
    constructor
    · rw [rest.1, length]
    · rw [rest.1, rest.2.1]
      exact (Nat.sub_le _ _).trans describes.capacity
    · -- two places whose elements come from one place are one place
      rw [nodup_iff_getElem?_ne_getElem?]
      intro first second less bound same
      rw [length] at bound
      obtain ⟨own, there⟩ : ∃ own, layout.labels[cameFrom place (index.currentCount - 1) second]? = some own :=
        ⟨_, getElem?_eq_getElem (by have := (reach second bound).1; omega)⟩
      rw [labels, labels, if_pos (by omega), if_pos bound, there] at same
      have equal := describes.place_unique same there
      simp only [cameFrom] at equal
      split at equal <;> split at equal <;> omega
    · intro own here
      rw [removePoint_labelMap found inside, labels, lastOwn]
      by_cases moved : own = lastLabel ∧ place ≠ index.currentCount - 1
      · rw [if_pos moved, Option.some_inj]
        constructor
        · rintro rfl
          rw [if_pos (by omega), cameFrom, if_pos rfl, lastThere, moved.1]
        · intro there
          split at there
          next less =>
            rw [moved.1] at there
            have equal := describes.place_unique there lastThere
            rw [cameFrom] at equal
            split at equal <;> omega
          next => cases there
      · rw [if_neg moved]
        by_cases gone : own = label
        · rw [if_pos gone]
          constructor
          · intro none'
            cases none'
          · intro there
            split at there
            next less => exact absurd (describes.place_unique there (gone ▸ at')) (reach here less).2
            next => cases there
        · rw [if_neg gone, describes.labelMap]
          have notPlace : layout.labels[place]? ≠ some own := by
            rw [at']
            exact fun same => gone (Option.some_inj.mp same).symm
          by_cases less : here < index.currentCount - 1
          · rw [if_pos less, cameFrom]
            by_cases same : here = place
            · have notLast : layout.labels[index.currentCount - 1]? ≠ some own := by
                rw [lastThere]
                intro equal
                exact moved ⟨(Option.some_inj.mp equal).symm, by omega⟩
              simp [same, notPlace, notLast]
            · simp [same]
          · rw [if_neg less]
            refine iff_of_false ?_ (by simp)
            intro there
            have bound := (List.getElem?_eq_some_iff.mp there).1
            have atLast : here = index.currentCount - 1 := by omega
            rw [atLast, lastThere, Option.some_inj] at there
            by_cases same : place = index.currentCount - 1
            · exact notPlace (by rw [same, lastThere, there])
            · exact moved ⟨there.symm, same⟩
    · intro offset here
      rw [removePoint_offsetMap found inside, length]
      have inj := fun first second (bound : first < index.currentCount) (bound' : second < index.currentCount) =>
        describes.offset_place_inj (count ▸ bound) (count ▸ bound')
      by_cases moved : offset = (index.buffer (index.currentCount - 1)).offset ∧ place ≠ index.currentCount - 1
      · rw [if_pos moved, Option.some_inj]
        constructor
        · rintro rfl
          have less : place < index.currentCount - 1 := by omega
          rw [buffer place less, cameFrom, if_pos rfl]
          exact ⟨less, moved.1.symm⟩
        · rintro ⟨less, same⟩
          rw [buffer here less, moved.1] at same
          have equal := inj _ _ (reach here less).1 (by omega) same
          rw [cameFrom] at equal
          split at equal <;> omega
      · rw [if_neg moved]
        by_cases gone : offset = (index.buffer place).offset
        · rw [if_pos gone]
          refine iff_of_false (by simp) ?_
          rintro ⟨less, same⟩
          rw [buffer here less, gone] at same
          exact (reach here less).2 (inj _ _ (reach here less).1 inside same)
        · rw [if_neg gone, describes.offsetMap, ← count]
          by_cases less : here < index.currentCount - 1
          · rw [buffer here less, cameFrom]
            by_cases same : here = place
            · have notLast : (index.buffer (index.currentCount - 1)).offset ≠ offset :=
                fun equal => moved ⟨equal.symm, by omega⟩
              simp [same, notLast, Ne.symm gone]
            · rw [if_neg same]
              exact and_congr_left fun _ => by omega
          · refine iff_of_false ?_ (fun both => less both.1)
            rintro ⟨bound, same⟩
            have atLast : here = index.currentCount - 1 := by omega
            by_cases last : place = index.currentCount - 1
            · exact gone (by rw [last, ← atLast, same])
            · exact moved ⟨by rw [← atLast, same], last⟩
    · intro here own there
      rw [labels] at there
      split at there
      next less =>
        rw [buffer here less]
        exact describes.label _ own there
      next => cases there
    · intro own
      rw [FlatMap.remove, Table.lookup_erase_if, mem_iff_getElem?]
      by_cases gone : own = label
      · rw [if_pos gone]
        refine iff_of_false ?_ (by simp)
        rintro ⟨here, there⟩
        rw [labels] at there
        split at there
        next less => exact (reach here less).2 (describes.place_unique there (gone ▸ at'))
        next => cases there
      · rw [if_neg gone, ← describes.live, mem_iff_getElem?]
        constructor
        · rintro ⟨here, there⟩
          rw [labels] at there
          split at there
          next => exact ⟨_, there⟩
          next => cases there
        · rintro ⟨here, there⟩
          have bound := (List.getElem?_eq_some_iff.mp there).1
          have other : here ≠ place := by
            rintro rfl
            rw [at', Option.some_inj] at there
            exact gone there.symm
          by_cases last : here = index.currentCount - 1
          · refine ⟨place, ?_⟩
            rw [labels, if_pos (by omega), cameFrom, if_pos rfl, ← last, there]
          · refine ⟨here, ?_⟩
            rw [labels, if_pos (by omega), cameFrom, if_neg other, there]
    · intro here own row there given
      rw [labels] at there
      split at there
      next less =>
        rw [FlatMap.remove, Table.lookup_erase_if] at given
        split at given
        next => cases given
        next =>
          obtain ⟨kept, encoded, point, stored, means⟩ := describes.row _ own row there given
          rw [buffer here less]
          exact ⟨kept, encoded, point, by rw [rows, if_pos less, stored], means⟩
      next => cases there
    · intro own row given
      rw [FlatMap.remove, Table.lookup_erase_if] at given
      split at given
      next => cases given
      next => exact describes.issued own row given
    · rw [rest.2.2]
      exact describes.next
    · exact describes.bounded
    · rw [removePoint_sparse found inside, describes.sparse, Option.map_some, sparse]
    · exact ⟨describes.numbered.number, describes.numbered.size⟩
    · exact held
    · rw [length, rowLength]

theorem foldl_max_lt {α : Type} (items : List α) (size : α → Nat) {bound : Nat} (start : Nat) (less : start < bound)
    (each : ∀ item ∈ items, size item < bound) :
    items.foldl (fun high item => max high (size item)) start < bound := by
  induction items generalizing start with
  | nil => exact less
  | cons item rest ih =>
    exact ih _ (max_lt less (each item (by simp))) fun other member => each other (by simp [member])

-- An index with the elements and the offsets of another one, and with its rows and terms read back.
theorem reload (describes : Describes index map layout) {other : FlatIndex V} {sparse : SparseRowIndex}
    (own : other.sparse = some sparse) (numbered : sparse.Numbered)
    (apart : sparse.indexTerm = [] ∨ layout.sparse.indexTerm = []) :
    Describes (load other (save index)) map { layout with sparse := sparse.loadData layout.sparse.saveData } := by
  have known : ∀ row ∈ layout.sparse.saveData.rows, ∃ meaning, RowMeans layout.sparse.saveData.terms row meaning := by
    intro row member
    rw [SparseRowIndex.saveData_rows describes.holds] at member
    obtain ⟨place, there⟩ := mem_iff_getElem?.mp member
    have inside : place < layout.labels.length := by
      rw [← describes.rowCount]
      exact (List.getElem?_eq_some_iff.mp there).1
    have at' : layout.labels[place]? = some layout.labels[place] := getElem?_eq_getElem inside
    obtain ⟨flat, given⟩ := (describes.live _).mp (mem_of_getElem? at')
    obtain ⟨-, -, point, stored, means⟩ := describes.row place _ flat at' given
    rw [there, Option.some_inj] at stored
    exact ⟨_, stored ▸ means⟩
  obtain ⟨next, rows, starts⟩ := SparseRowIndex.loadData_spec numbered apart describes.numbered.nodup known
  rw [SparseRowIndex.saveData_rows describes.holds] at rows
  have count := describes.count
  have room : ¬ index.capacity < index.currentCount := Nat.not_lt.mpr describes.capacity
  have buffer : ∀ place, place < index.currentCount → (load other (save index)).buffer place = index.buffer place := by
    intro place less
    have inside : place < index.capacity := less.trans_le describes.capacity
    simp [load, rebuildMaps, save, inside]
  -- the elements by their places, as the maps are rebuilt from them
  have elements : (List.range index.currentCount).map (fun place => (place, (load other (save index)).buffer place)) =
      (List.range index.currentCount).map fun place => (place, index.buffer place) :=
    map_congr_left fun place member => by rw [buffer place (mem_range.mp member)]
  have offsets : ∀ place, place < index.currentCount → (index.buffer place).offset < map.issued.length := by
    intro place less
    have inside : layout.labels[place]? = some layout.labels[place] := getElem?_eq_getElem (by omega)
    obtain ⟨row, there⟩ := (describes.live _).mp (mem_of_getElem? inside)
    rw [(describes.row place _ row inside there).1]
    exact describes.offset_lt there
  have labelOf : ∀ place, place < index.currentCount → layout.labels[place]? = some (index.buffer place).label := by
    intro place less
    have inside : layout.labels[place]? = some layout.labels[place] := getElem?_eq_getElem (by omega)
    rw [inside, describes.label place _ inside]
  have labelNodup : (((List.range index.currentCount).map fun place => (place, index.buffer place)).map
      fun entry => entry.2.label).Nodup := by
    rw [map_map]
    refine Nodup.map_on ?_ nodup_range
    intro first inFirst second inSecond same
    have one := labelOf first (mem_range.mp inFirst)
    have two := labelOf second (mem_range.mp inSecond)
    exact describes.place_unique (one.trans (congrArg some same)) two
  have offsetNodup : (((List.range index.currentCount).map fun place => (place, index.buffer place)).map
      fun entry => entry.2.offset).Nodup := by
    rw [map_map]
    refine Nodup.map_on ?_ nodup_range
    intro first inFirst second inSecond same
    exact describes.offset_place_inj (count ▸ mem_range.mp inFirst) (count ▸ mem_range.mp inSecond) same
  constructor
  · exact count
  · have kept : (load other (save index)).capacity = index.capacity := if_neg room
    rw [kept]
    exact describes.capacity
  · exact describes.nodup
  · intro own place
    have rebuilt : (load other (save index)).labelMap = ((List.range index.currentCount).map fun place =>
        (place, (load other (save index)).buffer place)).foldl (fun rest item => rest.insert item.2.label item.1) ∅ := rfl
    rw [rebuilt, elements, Table.lookup_foldl_insert _ (fun entry : Nat × Element V => entry.2.label) Prod.fst labelNodup]
    constructor
    · rintro (⟨entry, member, rfl, rfl⟩ | ⟨-, none'⟩)
      · obtain ⟨place, inside, rfl⟩ := mem_map.mp member
        exact labelOf place (mem_range.mp inside)
      · cases none'
    · intro there
      have inside : place < index.currentCount := by
        rw [count]
        exact (List.getElem?_eq_some_iff.mp there).1
      exact .inl ⟨_, mem_map.mpr ⟨place, mem_range.mpr inside, rfl⟩, describes.label place own there, rfl⟩
  · intro offset place
    have rebuilt : (load other (save index)).offsetMap = ((List.range index.currentCount).map fun place =>
        (place, (load other (save index)).buffer place)).foldl (fun rest item => rest.insert item.2.offset item.1) ∅ := rfl
    rw [rebuilt, elements, Table.lookup_foldl_insert _ (fun entry : Nat × Element V => entry.2.offset) Prod.fst offsetNodup]
    constructor
    · rintro (⟨entry, member, rfl, rfl⟩ | ⟨-, none'⟩)
      · obtain ⟨place, inside, rfl⟩ := mem_map.mp member
        have less := mem_range.mp inside
        exact ⟨by rw [← count]; exact less, by rw [buffer place less]⟩
      · cases none'
    · rintro ⟨inside, same⟩
      rw [← count] at inside
      rw [buffer place inside] at same
      exact .inl ⟨_, mem_map.mpr ⟨place, mem_range.mpr inside, rfl⟩, same, rfl⟩
  · intro place own there
    have inside : place < index.currentCount := by
      rw [count]
      exact (List.getElem?_eq_some_iff.mp there).1
    rw [buffer place inside]
    exact describes.label place own there
  · exact describes.live
  · intro place own row there given
    have inside : place < index.currentCount := by
      rw [count]
      exact (List.getElem?_eq_some_iff.mp there).1
    obtain ⟨kept, encoded, point, stored, means⟩ := describes.row place own row there given
    rw [buffer place inside]
    exact ⟨kept, encoded, point, stored, means.grow starts⟩
  · exact describes.issued
  · have rebuilt : (load other (save index)).nextLogicalOffset =
        if 0 < index.currentCount ∧ index.nextLogicalOffset ≤ ((List.range index.currentCount).map fun place =>
            (place, (load other (save index)).buffer place)).foldl (fun high entry => max high entry.2.offset) 0 then
          ((((List.range index.currentCount).map fun place =>
            (place, (load other (save index)).buffer place)).foldl (fun high entry => max high entry.2.offset) 0) + 1) % 2 ^ 32
        else index.nextLogicalOffset := rfl
    rw [rebuilt, elements, if_neg, describes.next]
    rintro ⟨some', beyond⟩
    have below := foldl_max_lt ((List.range index.currentCount).map fun place => (place, index.buffer place))
      (fun entry => entry.2.offset) 0 (Nat.zero_lt_of_lt (offsets 0 some')) (by
        intro entry member
        obtain ⟨place, inside, rfl⟩ := mem_map.mp member
        exact offsets place (mem_range.mp inside))
    rw [describes.next] at beyond
    omega
  · exact describes.bounded
  · simp only [load, rebuildMaps, save, own, describes.sparse, Option.map_some, Option.getD_some]
  · exact next
  · exact rows
  · exact describes.rowCount

end Describes

end FlatIndex

/-- What can be done with an index whose files lie in directories; `create` makes a new index over some memory. -/
inductive FlatCall (Q V : Type) where
  | add (vector : Option Q) (label : Nat) (given : Option SparseGiven)
  | remove (label : Nat)
  | save (dir : Text)
  | load (dir : Text)
  | create (memory : Nat → Element V) (maxElementCount : Nat)

structure FlatState (V : Type) where
  index : FlatIndex V
  files : Table Text (FlatFile V)

structure FlatSpec (V : Type) where
  map : FlatMap V
  files : Table Text (FlatMap V)

def FlatState.initial (memory : Nat → Element V) (maxElementCount : Nat) : FlatState V :=
  ⟨.create memory maxElementCount true, ∅⟩

def FlatSpec.initial : FlatSpec V := ⟨{}, ∅⟩

/-- A directory without a file makes `load` throw. -/
def FlatState.step (state : FlatState V) : FlatCall Q V → FlatState V
  | .add vector label given => { state with index := (state.index.addPoint metric vector label given).1 }
  | .remove label => { state with index := state.index.removePoint label }
  | .save dir => { state with files := state.files.insert dir state.index.save }
  | .load dir => { state with index := ((state.files.lookup dir).map state.index.load).getD state.index }
  | .create memory maxElementCount => { state with index := .create memory maxElementCount true }

def FlatSpec.step (spec : FlatSpec V) : FlatCall Q V → FlatSpec V
  | .add vector label given => { spec with map := spec.map.add metric vector label given }
  | .remove label => { spec with map := spec.map.remove label }
  | .save dir => { spec with files := spec.files.insert dir spec.map }
  | .load dir => { spec with map := (spec.files.lookup dir).getD spec.map }
  | .create _ _ => { spec with map := {} }

def FlatState.run (state : FlatState V) (calls : List (FlatCall Q V)) : FlatState V := calls.foldl (step metric) state

def FlatSpec.run (spec : FlatSpec V) (calls : List (FlatCall Q V)) : FlatSpec V := calls.foldl (step metric) spec

def FlatIndex.terms (index : FlatIndex V) : List Nat := (index.sparse.map SparseRowIndex.indexTerm).getD []

def FlatFile.terms (file : FlatFile V) : List Nat := (file.sparse.map SparseFile.terms).getD []

def FlatState.Allows (state : FlatState V) (spec : FlatSpec V) : FlatCall Q V → Prop
  | .add _ _ _ => spec.map.issued.length < 2 ^ 32
  | .load dir => ∀ file ∈ state.files.lookup dir, ∀ saved ∈ spec.files.lookup dir,
      (state.index.terms = [] ∨ file.terms = []) ∧ spec.map.issued <+: saved.issued
  | _ => True

structure FlatState.Refines (state : FlatState V) (spec : FlatSpec V) : Prop where
  index : ∃ layout, state.index.Describes spec.map layout
  files : ∀ dir, (state.files.lookup dir = none ∧ spec.files.lookup dir = none) ∨
    ∃ index saved layout, state.files.lookup dir = some (FlatIndex.save index) ∧ spec.files.lookup dir = some saved ∧
      index.Describes saved layout

structure FlatSpec.Keeps (before after : FlatSpec V) (call : FlatCall Q V) : Prop where
  issued : (∃ memory count, call = .create memory count) ∨ before.map.issued <+: after.map.issued
  offset : ∀ label row, before.map.rows.lookup label = some row →
    (∃ after', after.map.rows.lookup label = some after' ∧ after'.offset = row.offset) ∨ call = .remove label ∨
      (∃ dir, call = .load dir) ∨ ∃ memory count, call = .create memory count

variable {metric} {state : FlatState V} {spec : FlatSpec V}

theorem FlatState.refines_initial (memory : Nat → Element V) (maxElementCount : Nat) :
    (FlatState.initial memory maxElementCount).Refines FlatSpec.initial where
  index := ⟨_, .create memory maxElementCount⟩
  files _ := .inl ⟨rfl, rfl⟩

theorem FlatState.Refines.step (refines : state.Refines spec) {call : FlatCall Q V} (allowed : state.Allows spec call) :
    (state.step metric call).Refines (spec.step metric call) := by
  obtain ⟨⟨layout, describes⟩, files⟩ := refines
  cases call with
  | add vector label given => exact ⟨describes.addPoint allowed vector label given, files⟩
  | remove label => exact ⟨describes.remove label, files⟩
  | save dir =>
    refine ⟨⟨layout, describes⟩, fun other => ?_⟩
    simp only [FlatState.step, FlatSpec.step, Table.lookup_insert_if]
    by_cases same : other = dir
    · simp only [if_pos same]
      exact .inr ⟨state.index, spec.map, layout, rfl, rfl, describes⟩
    · simp only [if_neg same]
      exact files other
  | load dir =>
    refine ⟨?_, files⟩
    rcases files dir with ⟨none', noneSaved⟩ | ⟨index, saved, there, found, known, old⟩
    · simp only [FlatState.step, FlatSpec.step, none', noneSaved]
      exact ⟨layout, describes⟩
    · have apart := (allowed _ found _ known).1
      simp only [FlatIndex.terms, FlatFile.terms, FlatIndex.save, describes.sparse, old.sparse, Option.map_some,
        Option.getD_some] at apart
      simp only [FlatState.step, FlatSpec.step, found, known]
      exact ⟨_, old.reload describes.sparse describes.numbered apart⟩
  | create memory maxElementCount => exact ⟨⟨_, .create memory maxElementCount⟩, files⟩

section

variable (map : FlatMap V) (vector : Option Q) (label : Nat) (given : Option SparseGiven)

include map vector label given

theorem FlatMap.issued_add :
    map.issued <+: (map.add metric vector label given).issued := by
  rw [add]
  split
  · exact prefix_rfl
  · rw [give]
    split
    · exact prefix_rfl
    · exact prefix_append _ _

theorem FlatMap.offset_add {other : Nat}
    {row : FlatRow V} (there : map.rows.lookup other = some row) :
    ∃ after, (map.add metric vector label given).rows.lookup other = some after ∧ after.offset = row.offset := by
  rw [add]
  split
  · exact ⟨row, there, rfl⟩
  · rw [give]
    by_cases same : other = label
    · subst same
      simp [there]
    · split <;> simp [same, there]

end

theorem FlatState.keeps (state : FlatState V) (spec : FlatSpec V) {call : FlatCall Q V}
    (files : ∀ dir saved, spec.files.lookup dir = some saved → ∃ file, state.files.lookup dir = some file)
    (allowed : state.Allows spec call) : FlatSpec.Keeps spec (spec.step metric call) call := by
  cases call with
  | add vector label given =>
    exact ⟨.inr (FlatMap.issued_add ..), fun other row there => .inl (FlatMap.offset_add _ _ _ _ there)⟩
  | remove label =>
    refine ⟨.inr prefix_rfl, fun other row there => ?_⟩
    by_cases same : other = label
    · exact .inr (.inl (by rw [same]))
    · exact .inl ⟨row, by simp [FlatSpec.step, FlatMap.remove, same, there], rfl⟩
  | save dir => exact ⟨.inr prefix_rfl, fun _ row there => .inl ⟨row, there, rfl⟩⟩
  | load dir =>
    refine ⟨.inr ?_, fun _ _ _ => .inr (.inr (.inl ⟨dir, rfl⟩))⟩
    cases known : spec.files.lookup dir with
    | none => simp [FlatSpec.step, known]
    | some saved =>
      obtain ⟨file, found⟩ := files dir saved known
      simpa [FlatSpec.step, known] using (allowed file found saved known).2
  | create memory maxElementCount =>
    exact ⟨.inl ⟨_, _, rfl⟩, fun _ _ _ => .inr (.inr (.inr ⟨_, _, rfl⟩))⟩

theorem FlatState.Refines.known (refines : state.Refines spec) {dir : Text} {saved : FlatMap V}
    (there : spec.files.lookup dir = some saved) : ∃ file, state.files.lookup dir = some file := by
  rcases refines.files dir with ⟨-, none'⟩ | ⟨index, -, -, found, -⟩
  · rw [there] at none'
    cases none'
  · exact ⟨_, found⟩

theorem FlatState.Refines.run (refines : state.Refines spec) (calls : List (FlatCall Q V))
    (allowed : AtEach calls fun before call => (state.run metric before).Allows (spec.run metric before) call) :
    (state.run metric calls).Refines (spec.run metric calls) ∧ AtEach calls fun before call =>
      FlatSpec.Keeps (spec.run metric before) (spec.run metric (before ++ [call])) call := by
  induction calls generalizing state spec with
  | nil => exact ⟨refines, atEach_nil _⟩
  | cons call rest ih =>
    rw [atEach_cons] at allowed ⊢
    obtain ⟨here, later⟩ := ih (refines.step allowed.1) allowed.2
    exact ⟨here, state.keeps spec (fun _ _ => refines.known) allowed.1, later⟩

-- A label and its offset lead to each other, and nothing else leads anywhere.
structure FlatIndex.Answers (index : FlatIndex V) (map : FlatMap V) : Prop where
  held : ∀ label row, map.rows.lookup label = some row → index.getLabelByOffset row.offset = label ∧
    index.getOffsetByLabel label = if row.offset < 2 ^ 31 then (row.offset : Int) else row.offset - 2 ^ 32
  noLabel : ∀ label, map.rows.lookup label = none → index.getOffsetByLabel label = -1
  noOffset : ∀ offset, (∀ label row, map.rows.lookup label = some row → row.offset ≠ offset) → index.getLabelByOffset offset = 2 ^ 64 - 1

theorem FlatIndex.Describes.answers {index : FlatIndex V} {map : FlatMap V} {layout : FlatLayout} (describes : index.Describes map layout) :
    index.Answers map := by
  have rowAt {label place : Nat} (at' : layout.labels[place]? = some label) :
      ∃ row, map.rows.lookup label = some row ∧ (index.buffer place).offset = row.offset := by
    obtain ⟨row, there⟩ := (describes.live label).mp (mem_of_getElem? at')
    exact ⟨row, there, (describes.row _ _ _ at' there).1⟩
  constructor
  · intro label row there
    obtain ⟨place, at'⟩ := describes.placed there
    have offset := (describes.row _ _ _ at' there).1
    rw [getLabelByOffset, (describes.offsetMap _ _).mpr ⟨(List.getElem?_eq_some_iff.mp at').1, offset⟩, getOffsetByLabel,
      (describes.labelMap _ _).mpr at', ← offset]
    exact ⟨describes.label _ _ at', rfl⟩
  · intro label absent
    rw [getOffsetByLabel]
    cases found : index.labelMap.lookup label with
    | none => rfl
    | some place =>
      obtain ⟨row, there, -⟩ := rowAt ((describes.labelMap _ _).mp found)
      rw [absent] at there
      cases there
  · intro offset free
    rw [getLabelByOffset]
    cases found : index.offsetMap.lookup offset with
    | none => rfl
    | some place =>
      obtain ⟨inside, same⟩ := (describes.offsetMap _ _).mp found
      obtain ⟨row, there, held⟩ := rowAt (getElem?_eq_getElem inside)
      exact absurd (held.symm.trans same) (free _ _ there)

theorem labels_answer_offsets (memory : Nat → Element V) (maxElementCount : Nat) (calls : List (FlatCall Q V))
    (allowed : AtEach calls fun before call =>
      ((FlatState.initial memory maxElementCount).run metric before).Allows (FlatSpec.initial.run metric before) call) :
    ((FlatState.initial memory maxElementCount).run metric calls).index.Answers (FlatSpec.initial.run metric calls).map := by
  obtain ⟨layout, describes⟩ := ((FlatState.refines_initial memory maxElementCount).run calls allowed).1.index
  exact describes.answers

end Refinement

namespace ReloadedIndex

def metric : Metric Unit Unit := ⟨id, fun _ _ => 0, fun _ _ => 0, false, 0, List.length⟩

def memory : Nat → Element Unit := fun _ => ⟨(), 0, 0⟩

def row : FlatCall Unit Unit := .add (some ()) 7 (some ⟨["term"], [1]⟩)

-- A new index reads the file; the one that wrote it cannot, as it knows the term already.
def fresh : List (FlatCall Unit Unit) := [row, .save [], .create memory 10, .load []]

def again : List (FlatCall Unit Unit) := [row, .save [], .load []]

theorem row_answers : ((FlatState.initial memory 10).run metric [row]).index.Answers (FlatSpec.initial.run metric [row]).map :=
  labels_answer_offsets memory 10 [row] (by simp [row, atEach_cons, FlatState.Allows, FlatSpec.initial, FlatSpec.run])

end ReloadedIndex

end LoginomDock.VectorIndex
