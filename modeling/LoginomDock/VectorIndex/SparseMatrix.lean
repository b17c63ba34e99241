import LoginomDock.Library.Compressed
import LoginomDock.VectorIndex.SparseRows

namespace LoginomDock.VectorIndex

open List

structure SparseDataset.Holds (data : SparseDataset) (rows : List SparseDatapoint) : Prop where
  paired : ∀ row ∈ rows, row.values.length = row.indices.length
  entries : data.entries = (rows.map fun row => row.indices.length).sum
  offsets : data.offsets = rowStarts (rows.map fun row => row.indices.length)
  indices : data.flatIndices = (rows.map SparseDatapoint.indices).flatten
  values : data.flatValues = (rows.map SparseDatapoint.values).flatten

theorem SparseDataset.replaceRange_eq {α : Type} (zero : α) (flat : List α) {start stop : Nat} (ordered : start ≤ stop)
    (inside : stop ≤ flat.length) (source : List α) :
    replaceRange zero flat start stop source = flat.take start ++ source ++ flat.drop stop := by
  have reach : min start flat.length = start := by omega
  rcases Nat.lt_trichotomy source.length (stop - start) with fewer | same | more
  · have place : start + source.length ≤ flat.length := by omega
    simp only [replaceRange, if_neg (Nat.ne_of_lt fewer), if_neg (Nat.not_lt.mpr fewer.le), copyAt, eraseRange]
    have cut : (flat.take (start + source.length)).length = start + source.length := by simp; omega
    rw [take_append_of_le_length (by omega), take_take, drop_append_of_le_length (by omega),
      drop_eq_nil_of_le (by omega), nil_append, Nat.min_eq_left (by omega)]
  · simp only [replaceRange, if_pos same, copyAt]
    rw [show start + source.length = stop by omega]
  · have longer : source.length ≠ stop - start := by omega
    simp only [replaceRange, if_neg longer, if_pos more, copyAt, insertAt]
    have cut : (flat.take stop).length = stop := by simp; omega
    have room : start + source.length =
        (flat.take stop ++ List.replicate (source.length - (stop - start)) zero).length := by
      simp; omega
    rw [room, drop_left, append_assoc (flat.take stop), take_append_of_le_length (by omega),
      take_take, Nat.min_eq_left ordered]

namespace SparseDataset.Holds

variable {data : SparseDataset} {rows : List SparseDatapoint}

theorem empty : ({} : SparseDataset).Holds [] := ⟨by simp, rfl, rfl, rfl, rfl⟩

theorem size (holds : data.Holds rows) : data.size = rows.length := by
  simp [SparseDataset.size, holds.offsets]

theorem valueLengths (holds : data.Holds rows) :
    (rows.map SparseDatapoint.values).map List.length = rows.map fun row => row.indices.length := by
  rw [map_map]
  exact map_congr_left holds.paired

theorem indexLengths (rows : List SparseDatapoint) :
    (rows.map SparseDatapoint.indices).map List.length = rows.map fun row => row.indices.length := by
  rw [map_map]
  rfl

variable {i : Nat}

section

variable (holds : data.Holds rows)

include holds

theorem start (inside : i ≤ rows.length) :
    data.offsets.getD i 0 = ((rows.map fun row => row.indices.length).take i).sum := by
  rw [holds.offsets, rowStarts_getD (by simpa using inside)]

theorem append {row : SparseDatapoint} (paired : row.values.length = row.indices.length) :
    ∃ appended, data.append row = some appended ∧ appended.Holds (rows ++ [row]) := by
  refine ⟨_, if_neg (by simp [paired]), ?_⟩
  constructor
  · intro other member
    rcases mem_append.mp member with old | new
    · exact holds.paired other old
    · rw [mem_singleton.mp new, paired]
  · simp [holds.entries]
  · simp only [map_append, map_cons, map_nil, rowStarts_concat, holds.offsets, holds.entries]
  · simp [holds.indices]
  · simp [holds.values]

theorem getRow (inside : i < rows.length) : data.getRow i = some rows[i] := by
  have small : ¬ data.size ≤ i := by rw [holds.size]; omega
  have start := holds.start (i := i) (Nat.le_of_lt inside)
  have stop := holds.start (i := i + 1) inside
  simp only [SparseDataset.getRow, if_neg small, start, stop]
  have indices := drop_take_succ_flatten_eq_getElem (rows.map SparseDatapoint.indices) i (by simpa using inside)
  have values := drop_take_succ_flatten_eq_getElem (rows.map SparseDatapoint.values) i (by simpa using inside)
  rw [indexLengths] at indices
  rw [holds.valueLengths] at values
  rw [holds.indices, holds.values, indices, values]
  simp

theorem update (inside : i < rows.length) {row : SparseDatapoint}
    (paired : row.values.length = row.indices.length) :
    ∃ updated, data.update i row = some updated ∧ updated.Holds (rows.set i row) := by
  have small : ¬ (data.size ≤ i ∨ row.values.length ≠ row.indices.length) := by
    rw [holds.size]
    omega
  refine ⟨_, if_neg small, ?_⟩
  have mapped : i < (rows.map fun row => row.indices.length).length := by simpa using inside
  have next := sum_take_succ (rows.map fun row => row.indices.length) i mapped
  -- what lies between two neighbouring starts is the old row
  have length : ((rows.map fun row => row.indices.length).take (i + 1)).sum -
      ((rows.map fun row => row.indices.length).take i).sum = (rows.map fun row => row.indices.length)[i] := by
    omega
  have total : ((rows.map fun row => row.indices.length).take (i + 1)).sum ≤
      (rows.map fun row => row.indices.length).sum := by
    have split := congrArg List.sum (take_append_drop (i + 1) (rows.map fun row => row.indices.length))
    rw [sum_append] at split
    omega
  have indexTotal : (rows.map SparseDatapoint.indices).flatten.length = (rows.map fun row => row.indices.length).sum := by
    rw [length_flatten, indexLengths]
  have valueTotal : (rows.map SparseDatapoint.values).flatten.length = (rows.map fun row => row.indices.length).sum := by
    rw [length_flatten, holds.valueLengths]
  have start := holds.start (i := i) (Nat.le_of_lt inside)
  have stop := holds.start (i := i + 1) inside
  rw [start, stop]
  constructor
  · intro other member
    rcases mem_or_eq_of_mem_set member with old | rfl
    · exact holds.paired other old
    · exact paired
  · have whole := sum_take_set mapped row.indices.length (k := (rows.map fun row => row.indices.length).length) mapped
    rw [take_of_length_le (by simp), take_length] at whole
    rw [map_set, whole, length, holds.entries]
  · rw [map_set, rowStarts_set mapped, holds.offsets, length]
  · dsimp only
    rw [holds.indices, replaceRange_eq _ _ (by omega) (by omega), map_set,
      flatten_set (by simpa using inside), indexLengths]
  · dsimp only
    rw [holds.values, replaceRange_eq _ _ (by omega) (by omega), map_set,
      flatten_set (by simpa using inside), holds.valueLengths]

theorem popBack (some : rows ≠ []) : data.popBack.Holds rows.dropLast := by
  obtain ⟨before, last, rfl⟩ : ∃ before last, rows = before ++ [last] :=
    ⟨rows.dropLast, rows.getLast some, (dropLast_append_getLast some).symm⟩
  have lengths := holds.offsets
  have many : ¬ data.offsets.length ≤ 1 := by simp [lengths]
  have first : data.offsets.length - 2 = before.length := by simp [lengths]
  have second : data.offsets.length - 1 = before.length + 1 := by simp [lengths]
  have start := holds.start (i := before.length) (by simp)
  have stop := holds.start (i := before.length + 1) (by simp)
  simp only [map_append, map_cons, map_nil] at start stop
  rw [take_left' (by simp)] at start
  rw [take_of_length_le (by simp), sum_append, sum_singleton] at stop
  rw [SparseDataset.popBack, if_neg many, first, second, start, stop]
  rw [dropLast_concat]
  have paired := holds.paired
  have total : (before.map SparseDatapoint.values).flatten.length = (before.map fun row => row.indices.length).sum := by
    rw [length_flatten, map_map]
    exact congrArg List.sum (map_congr_left fun row member => paired row (by simp [member]))
  have indexTotal : (before.map SparseDatapoint.indices).flatten.length =
      (before.map fun row => row.indices.length).sum := by
    rw [length_flatten, indexLengths]
  constructor
  · exact fun row member => paired row (by simp [member])
  · simp [holds.entries]
  · simp only [lengths, map_append, map_cons, map_nil, rowStarts_concat, dropLast_concat]
  · dsimp only
    rw [holds.indices]
    by_cases none' : last.indices.length = 0
    · simp [eq_nil_of_length_eq_zero none']
    · rw [if_pos (by omega), ← indexTotal]
      simp
  · dsimp only
    rw [holds.values]
    by_cases none' : last.indices.length = 0
    · have same := paired last (by simp)
      simp [eq_nil_of_length_eq_zero none', eq_nil_of_length_eq_zero (same.trans none')]
    · rw [if_pos (by omega), ← total]
      simp

end

end SparseDataset.Holds

def givenValue (pairs : List (Nat × ℚ)) (term : Nat) : Option ℚ :=
  if term ∈ pairs.map Prod.fst then some ((pairs.filter fun pair => pair.1 = term).map Prod.snd).sum else none

theorem givenValue_concat (pairs : List (Nat × ℚ)) (term other : Nat) (value : ℚ) :
    givenValue (pairs ++ [(term, value)]) other =
      if other = term then some ((givenValue pairs term).getD 0 + value) else givenValue pairs other := by
  by_cases same : other = term
  · subst same
    by_cases known : other ∈ pairs.map Prod.fst
    · simp only [givenValue, known, if_true, map_append, mem_append, true_or, filter_append,
        sum_append, Option.getD_some]
      simp
    · have none' : pairs.filter (fun pair => pair.1 = other) = [] := by
        rw [filter_eq_nil_iff]
        intro pair member equal
        exact known (mem_map.mpr ⟨pair, member, by simpa using equal⟩)
      simp [givenValue, known, none']
  · have rest : other ∈ (pairs ++ [(term, value)]).map Prod.fst ↔ other ∈ pairs.map Prod.fst := by simp [same]
    rw [if_neg same, givenValue, givenValue, if_congr rest rfl rfl]
    simp [Ne.symm same]

structure RowMeans (terms : List Nat) (row : SparseDatapoint) (meaning : Nat → Option ℚ) : Prop where
  paired : row.values.length = row.indices.length
  nodup : row.indices.Nodup
  known : ∀ number ∈ row.indices, number < terms.length
  value : ∀ term value, meaning term = some value ↔
    ∃ number, terms[number]? = some term ∧ (number, value) ∈ row.indices.zip row.values

theorem RowMeans.empty (terms : List Nat) : RowMeans terms ⟨[], []⟩ fun _ => none := by
  constructor <;> simp

theorem RowMeans.grow {terms more : List Nat} {row : SparseDatapoint} {meaning : Nat → Option ℚ}
    (means : RowMeans terms row meaning) (grown : terms <+: more) : RowMeans more row meaning := by
  refine ⟨means.paired, means.nodup, fun number member => (means.known number member).trans_le grown.length_le, ?_⟩
  intro term value
  rw [means.value]
  refine exists_congr fun number => and_congr_left fun member => ?_
  have inside := means.known number (of_mem_zip member).1
  obtain ⟨rest, rfl⟩ := grown
  rw [getElem?_append_left inside]

theorem RowMeans.length_le {terms : List Nat} {row : SparseDatapoint} {meaning : Nat → Option ℚ}
    (means : RowMeans terms row meaning) : row.indices.length ≤ terms.length := by
  have inside : row.indices ⊆ List.range terms.length := fun number member =>
    mem_range.mpr (means.known number member)
  simpa using (subperm_of_subset means.nodup inside).length_le

namespace SparseRowIndex

structure Numbered (sparse : SparseRowIndex) : Prop where
  number : ∀ term place, sparse.termIndex.lookup term = some place ↔ sparse.indexTerm[place]? = some term
  size : sparse.termIndex.keys.length = sparse.indexTerm.length

theorem numbered_empty {data : SparseDataset} : Numbered ⟨[], ∅, data⟩ := ⟨by simp, rfl⟩

variable {sparse : SparseRowIndex}

theorem Numbered.nodup (numbered : sparse.Numbered) : sparse.indexTerm.Nodup := by
  rw [nodup_iff_getElem?_ne_getElem?]
  intro first second less inside same
  obtain ⟨term, there⟩ := List.getElem?_eq_some_iff.mp (getElem?_eq_getElem inside)
  have one := (numbered.number _ _).mpr (same ▸ getElem?_eq_getElem inside)
  have two := (numbered.number _ _).mpr (getElem?_eq_getElem inside)
  have equal : first = second := Option.some_inj.mp (one.symm.trans two)
  omega

theorem Numbered.insert (numbered : sparse.Numbered) {term : Nat}
    (fresh : sparse.termIndex.lookup term = none) :
    Numbered { sparse with
      indexTerm := sparse.indexTerm ++ [term]
      termIndex := sparse.termIndex.insert term sparse.indexTerm.length } := by
  have absent : term ∉ sparse.indexTerm := by
    intro member
    obtain ⟨place, there⟩ := mem_iff_getElem?.mp member
    rw [← numbered.number, fresh] at there
    cases there
  constructor
  · intro other place
    rw [Table.lookup_insert_if]
    rcases Nat.lt_trichotomy place sparse.indexTerm.length with less | equal | more
    · rw [getElem?_append_left less, ← numbered.number]
      by_cases same : other = term
      · subst same
        simp [fresh]
        omega
      · rw [if_neg same]
    · subst equal
      have beyond : sparse.termIndex.lookup other ≠ some sparse.indexTerm.length := by
        rw [Ne, numbered.number]
        simp
      by_cases same : other = term
      · simp [same]
      · simp [same, beyond, Ne.symm same]
    · rw [getElem?_eq_none (by simp; omega)]
      have beyond : sparse.termIndex.lookup other ≠ some place := by
        rw [Ne, numbered.number, getElem?_eq_none (by omega)]
        simp
      by_cases same : other = term
      · simp [same]
        omega
      · simp [same, beyond]
  · have new : term ∉ sparse.termIndex := by
      rw [← AList.lookup_eq_none, fresh]
    rw [AList.keys_insert, length_cons, erase_of_not_mem (by simpa [AList.mem_keys] using new), numbered.size]
    simp

theorem numberTerm_spec (numbered : sparse.Numbered) (term : Nat) :
    (sparse.numberTerm term).1.Numbered ∧ sparse.indexTerm <+: (sparse.numberTerm term).1.indexTerm ∧
      (sparse.numberTerm term).1.sparseDataset = sparse.sparseDataset ∧
        (sparse.numberTerm term).1.indexTerm[(sparse.numberTerm term).2]? = some term := by
  rw [numberTerm]
  cases found : sparse.termIndex.lookup term with
  | some number => exact ⟨numbered, prefix_rfl, rfl, (numbered.number _ _).mp found⟩
  | none =>
    rw [numbered.size]
    exact ⟨numbered.insert found, prefix_append _ _, rfl, by simp⟩

structure Collected (sparse : SparseRowIndex) (pairs : List (Nat × ℚ)) (row : List TermValue) : Prop where
  nodup : (row.map TermValue.term).Nodup
  placed : ∀ entry ∈ row, sparse.indexTerm[entry.number]? = some entry.term
  value : ∀ term value, givenValue pairs term = some value ↔ ∃ entry ∈ row, entry.term = term ∧ entry.value = value

end SparseRowIndex

namespace SparseRowIndex

variable {pairs : List (Nat × ℚ)} {row : List TermValue}

theorem Collected.addValue {sparse : SparseRowIndex}
    (collected : Collected sparse pairs row) {entry : TermValue}
    (placed : sparse.indexTerm[entry.number]? = some entry.term) :
    Collected sparse (pairs ++ [(entry.term, entry.value)]) (addValue row entry) := by
  by_cases known : entry.term ∈ row.map TermValue.term
  · -- the term has its entry, whose value grows
    obtain ⟨old, inside, same⟩ := mem_map.mp known
    have before : givenValue pairs entry.term = some old.value := (collected.value _ _).mpr ⟨old, inside, same, rfl⟩
    have terms : ∀ other : TermValue, TermValue.term
        (if other.term = entry.term then { other with value := other.value + entry.value } else other) = other.term := by
      intro other
      split <;> rfl
    rw [SparseRowIndex.addValue, if_pos known]
    constructor
    · rw [map_map]
      have same : (TermValue.term ∘ fun other : TermValue =>
          if other.term = entry.term then { other with value := other.value + entry.value } else other) =
            TermValue.term := funext terms
      rw [same]
      exact collected.nodup
    · intro changed member
      obtain ⟨other, there, rfl⟩ := mem_map.mp member
      have kept := collected.placed other there
      split <;> exact kept
    · intro term value
      rw [givenValue_concat]
      by_cases equal : term = entry.term
      · subst equal
        rw [if_pos rfl, before, Option.getD_some, Option.some_inj]
        constructor
        · rintro rfl
          exact ⟨_, mem_map.mpr ⟨old, inside, rfl⟩, by simp [same], by simp [same]⟩
        · rintro ⟨changed, member, own, rfl⟩
          obtain ⟨other, there, rfl⟩ := mem_map.mp member
          rw [terms] at own
          have one : other = old := inj_on_of_nodup_map collected.nodup there inside (own.trans same.symm)
          simp [one, same]
      · rw [if_neg equal, collected.value]
        constructor
        · rintro ⟨other, there, rfl, rfl⟩
          exact ⟨other, mem_map.mpr ⟨other, there, if_neg equal⟩, rfl, rfl⟩
        · rintro ⟨changed, member, own, rfl⟩
          obtain ⟨other, there, rfl⟩ := mem_map.mp member
          rw [terms] at own
          have unchanged : ¬ other.term = entry.term := own ▸ equal
          exact ⟨other, there, own, by simp [unchanged]⟩
  · rw [SparseRowIndex.addValue, if_neg known]
    have before : givenValue pairs entry.term = none := by
      by_contra given
      obtain ⟨value, given⟩ := Option.ne_none_iff_exists'.mp given
      obtain ⟨other, there, same, -⟩ := (collected.value _ _).mp given
      exact known (mem_map.mpr ⟨other, there, same⟩)
    constructor
    · rw [map_append, nodup_append]
      refine ⟨collected.nodup, by simp, ?_⟩
      rintro term member other fresh rfl
      rw [map_singleton, mem_singleton] at fresh
      exact known (fresh ▸ member)
    · intro other member
      rcases mem_append.mp member with old | new
      · exact collected.placed other old
      · rw [mem_singleton.mp new]
        exact placed
    · intro term value
      rw [givenValue_concat]
      by_cases equal : term = entry.term
      · subst equal
        rw [if_pos rfl, before, Option.getD_none, zero_add, Option.some_inj]
        constructor
        · rintro rfl
          exact ⟨entry, by simp, rfl, rfl⟩
        · rintro ⟨other, member, own, rfl⟩
          rcases mem_append.mp member with old | new
          · exact absurd (mem_map.mpr ⟨other, old, own⟩) known
          · rw [mem_singleton.mp new]
      · rw [if_neg equal, collected.value]
        constructor
        · rintro ⟨other, there, own, rfl⟩
          exact ⟨other, by simp [there], own, rfl⟩
        · rintro ⟨other, member, own, rfl⟩
          rcases mem_append.mp member with old | new
          · exact ⟨other, old, own, rfl⟩
          · rw [mem_singleton.mp new] at own
            exact absurd own.symm equal

theorem getElem?_of_prefix {α : Type} {first second : List α} (starts : first <+: second) {place : Nat} {value : α}
    (there : first[place]? = some value) : second[place]? = some value := by
  obtain ⟨rest, rfl⟩ := starts
  rw [getElem?_append_left (List.getElem?_eq_some_iff.mp there).1, there]

theorem Collected.grow {sparse more : SparseRowIndex}
    (collected : Collected sparse pairs row) (grown : sparse.indexTerm <+: more.indexTerm) :
    Collected more pairs row :=
  ⟨collected.nodup, fun entry member => getElem?_of_prefix grown (collected.placed entry member), collected.value⟩

theorem indexTerms_spec (rest : List (Nat × ℚ)) {sparse : SparseRowIndex} (numbered : sparse.Numbered) (collected : Collected sparse pairs row) :
    (indexTerms rest sparse row).1.Numbered ∧ sparse.indexTerm <+: (indexTerms rest sparse row).1.indexTerm ∧
      (indexTerms rest sparse row).1.sparseDataset = sparse.sparseDataset ∧
        Collected (indexTerms rest sparse row).1 (pairs ++ rest) (indexTerms rest sparse row).2 := by
  induction rest generalizing sparse pairs row with
  | nil => exact ⟨numbered, prefix_rfl, rfl, by simpa [indexTerms] using collected⟩
  | cons pair rest ih =>
    obtain ⟨term, value⟩ := pair
    obtain ⟨next, grown, data, there⟩ := numberTerm_spec numbered term
    have more := @Collected.addValue _ _ _ (collected.grow grown) ⟨term, (sparse.numberTerm term).2, value⟩ there
    obtain ⟨last, further, same, all⟩ := ih next more
    rw [indexTerms]
    exact ⟨last, grown.trans further, same.trans data, by simpa using all⟩

theorem indexByTerms_spec {sparse : SparseRowIndex} (numbered : sparse.Numbered) {terms : List Nat} {values : List ℚ}
    (same : terms.length = values.length) :
    ∃ after row, sparse.indexByTerms terms values = some (after, row) ∧ after.Numbered ∧
      sparse.indexTerm <+: after.indexTerm ∧ after.sparseDataset = sparse.sparseDataset ∧
        RowMeans after.indexTerm row (givenValue (terms.zip values)) := by
  have none' : Collected sparse [] [] := ⟨by simp, by simp, by simp [givenValue]⟩
  obtain ⟨after, grown, data, collected⟩ := indexTerms_spec (terms.zip values) numbered none'
  refine ⟨_, _, if_neg (not_not.mpr same), after, grown, data, ?_⟩
  let sorted := (indexTerms (terms.zip values) sparse []).2.insertionSort fun first second => first.number ≤ second.number
  have perm : sorted.Perm (indexTerms (terms.zip values) sparse []).2 := perm_insertionSort _ _
  have zipped : (sorted.map TermValue.number).zip (sorted.map TermValue.value) =
      sorted.map fun entry => (entry.number, entry.value) := zip_map'
  constructor
  · simp
  · -- terms with one number are one term
    have entries : (indexTerms (terms.zip values) sparse []).2.Nodup := collected.nodup.of_map _
    refine (nodup_map_iff_inj_on (perm.nodup_iff.mpr entries)).mpr ?_
    intro first inFirst second inSecond number
    have one := collected.placed first (perm.subset inFirst)
    have two := collected.placed second (perm.subset inSecond)
    rw [number, two, Option.some_inj] at one
    exact inj_on_of_nodup_map collected.nodup (perm.subset inFirst) (perm.subset inSecond) one.symm
  · intro number member
    obtain ⟨entry, inside, rfl⟩ := mem_map.mp member
    have there := collected.placed entry (perm.subset inside)
    by_contra beyond
    rw [getElem?_eq_none (by omega)] at there
    cases there
  · intro term value
    rw [zipped]
    have all := collected.value term value
    rw [nil_append] at all
    rw [all]
    constructor
    · rintro ⟨entry, inside, rfl, rfl⟩
      exact ⟨entry.number, collected.placed entry inside, mem_map.mpr ⟨entry, perm.mem_iff.mpr inside, rfl⟩⟩
    · rintro ⟨number, there, member⟩
      obtain ⟨entry, inside, pair⟩ := mem_map.mp member
      obtain ⟨rfl, rfl⟩ := Prod.mk.inj pair
      rw [collected.placed entry (perm.subset inside), Option.some_inj] at there
      exact ⟨entry, perm.subset inside, there, rfl⟩

end SparseRowIndex

namespace SparseRowIndex

theorem saveData_rows {sparse : SparseRowIndex} {rows : List SparseDatapoint} (holds : sparse.sparseDataset.Holds rows) :
    sparse.saveData.rows = rows := by
  have each : ∀ i ∈ List.range rows.length,
      sparse.sparseDataset.getRow i = (some ∘ fun i => rows.getD i ⟨[], []⟩) i := by
    intro i inside
    rw [holds.getRow (mem_range.mp inside), Function.comp_apply, getD_eq_getElem?_getD,
      getElem?_eq_getElem (mem_range.mp inside), Option.getD_some]
  simp only [saveData, SparseRowIndex.rows, holds.size]
  rw [filterMap_congr each, filterMap_eq_map]
  exact ext_getElem (by simp) fun k first second => by simp [getD_eq_getElem?_getD, second]

theorem loadTerms_spec (terms : List Nat) {sparse : SparseRowIndex} (numbered : sparse.Numbered) (nodup : terms.Nodup)
    (fresh : ∀ term ∈ terms, term ∉ sparse.indexTerm) :
    (loadTerms terms sparse.indexTerm.length sparse).2 = true ∧
      (loadTerms terms sparse.indexTerm.length sparse).1.Numbered ∧
        (loadTerms terms sparse.indexTerm.length sparse).1.indexTerm = sparse.indexTerm ++ terms ∧
          (loadTerms terms sparse.indexTerm.length sparse).1.sparseDataset = sparse.sparseDataset := by
  induction terms generalizing sparse with
  | nil => simpa [loadTerms] using numbered
  | cons term rest ih =>
    rw [nodup_cons] at nodup
    have absent : sparse.termIndex.lookup term = none := by
      by_contra there
      obtain ⟨place, there⟩ := Option.ne_none_iff_exists'.mp there
      exact fresh term (by simp) (mem_of_getElem? ((numbered.number _ _).mp there))
    have notMember : term ∉ sparse.termIndex := AList.lookup_eq_none.mp absent
    have next := ih (numbered.insert absent) nodup.2 (by
      intro other member inside
      rcases mem_append.mp inside with old | new
      · exact fresh other (by simp [member]) old
      · exact nodup.1 (mem_singleton.mp new ▸ member))
    rw [loadTerms, if_neg notMember]
    simpa using next

theorem loadRows_spec (cols : Nat) (rows : List SparseDatapoint) {sparse : SparseRowIndex} {before : List SparseDatapoint}
    (holds : sparse.sparseDataset.Holds before) (paired : ∀ row ∈ rows, row.values.length = row.indices.length)
    (small : ∀ row ∈ rows, row.indices.length ≤ cols) :
    (loadRows cols rows sparse).sparseDataset.Holds (before ++ rows) ∧
      (loadRows cols rows sparse).indexTerm = sparse.indexTerm ∧
        (loadRows cols rows sparse).termIndex = sparse.termIndex := by
  induction rows generalizing sparse before with
  | nil => simpa [loadRows] using holds
  | cons row rest ih =>
    obtain ⟨appended, found, held⟩ := holds.append (paired row (by simp))
    have here : (sparse.append row).getD sparse = { sparse with sparseDataset := appended } := by
      simp [SparseRowIndex.append, found]
    rw [loadRows, if_neg (Nat.not_lt.mpr (small row (by simp))), here]
    have more := @ih { sparse with sparseDataset := appended } _ held
      (fun other member => paired other (by simp [member])) (fun other member => small other (by simp [member]))
    simpa using more

theorem loadData_spec {sparse : SparseRowIndex} (numbered : sparse.Numbered) {file : SparseFile}
    (apart : sparse.indexTerm = [] ∨ file.terms = []) (nodup : file.terms.Nodup)
    (known : ∀ row ∈ file.rows, ∃ meaning, RowMeans file.terms row meaning) :
    (sparse.loadData file).Numbered ∧ (sparse.loadData file).sparseDataset.Holds file.rows ∧
      file.terms <+: (sparse.loadData file).indexTerm := by
  have emptied : Numbered { sparse with sparseDataset := {} } := ⟨numbered.number, numbered.size⟩
  have paired : ∀ row ∈ file.rows, row.values.length = row.indices.length :=
    fun row member => (known row member).elim fun _ means => means.paired
  have small : ∀ row ∈ file.rows, row.indices.length ≤ file.terms.length :=
    fun row member => (known row member).elim fun _ means => means.length_le
  have terms : (loadTerms file.terms 0 { sparse with sparseDataset := {} }).2 = true ∧
      (loadTerms file.terms 0 { sparse with sparseDataset := {} }).1.Numbered ∧
        file.terms <+: (loadTerms file.terms 0 { sparse with sparseDataset := {} }).1.indexTerm ∧
          (loadTerms file.terms 0 { sparse with sparseDataset := {} }).1.sparseDataset = {} := by
    rcases apart with none' | none'
    · have loaded := loadTerms_spec file.terms emptied nodup (by simp [none'])
      have zero : ({ sparse with sparseDataset := {} } : SparseRowIndex).indexTerm.length = 0 := by simp [none']
      rw [zero] at loaded
      refine ⟨loaded.1, loaded.2.1, ?_, loaded.2.2.2⟩
      rw [loaded.2.2.1]
      simp [none']
    · rw [none', loadTerms]
      exact ⟨rfl, emptied, List.nil_prefix, rfl⟩
  obtain ⟨read, next, starts, data⟩ := terms
  have rows := @loadRows_spec file.terms.length file.rows _ [] (data ▸ SparseDataset.Holds.empty) paired small
  rw [loadData]
  cases loaded : loadTerms file.terms 0 { sparse with sparseDataset := {} } with
  | mk index complete =>
    rw [loaded] at read next starts rows
    subst read
    refine ⟨⟨?_, ?_⟩, by simpa using rows.1, by simpa [rows.2.1] using starts⟩
    · simpa only [rows.2.1, rows.2.2] using next.number
    · simpa only [rows.2.1, rows.2.2] using next.size

end SparseRowIndex

end LoginomDock.VectorIndex
