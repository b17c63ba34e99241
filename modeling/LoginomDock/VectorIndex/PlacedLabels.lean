import LoginomDock.VectorIndex.FlatRefinement

namespace LoginomDock.VectorIndex

variable {Q V : Type} {metric : Metric Q V} {index after : FlatIndex V}

def SparseGiven.Mismatched (given : SparseGiven) : Prop := given.rawTerms.length ≠ given.values.length

namespace SparseDataset

variable {data : SparseDataset}

theorem length_append {row : SparseDatapoint} {more : SparseDataset} (appended : data.append row = some more) :
    more.offsets.length = data.offsets.length + 1 := by
  rw [append] at appended
  split at appended
  · cases appended
  · cases appended
    simp

theorem length_update {idx : Nat} {row : SparseDatapoint} {more : SparseDataset}
    (updated : data.update idx row = some more) : more.offsets.length = data.offsets.length := by
  rw [update] at updated
  split at updated
  · cases updated
  · cases updated
    simp
    omega

theorem length_popBack : data.popBack.offsets.length = max (data.offsets.length - 1) (min 1 data.offsets.length) := by
  rw [popBack]
  split
  · omega
  · simp
    omega

end SparseDataset

theorem SparseRowIndex.indexTerms_dataset (entries : List (Nat × ℚ)) (sparse : SparseRowIndex) (row : List TermValue) :
    (indexTerms entries sparse row).1.sparseDataset = sparse.sparseDataset := by
  induction entries generalizing sparse row with
  | nil => rfl
  | cons entry rest ih =>
    rw [indexTerms, ih, numberTerm]
    split <;> rfl

theorem makeSparsePoint_spec (metric : Metric Q V) (sparse : SparseRowIndex) (given : SparseGiven) :
    (FlatIndex.makeSparsePoint metric sparse given = none ↔ given.Mismatched) ∧
      ∀ made, FlatIndex.makeSparsePoint metric sparse given = some made →
        made.1.sparseDataset = sparse.sparseDataset ∧ made.2.values.length = made.2.indices.length := by
  rw [FlatIndex.makeSparsePoint, SparseGiven.Mismatched]
  by_cases same : given.rawTerms.length = given.values.length
  · rw [if_neg (not_not_intro same), SparseRowIndex.indexByTerms, if_neg (by simpa using same)]
    refine ⟨by simp [same], ?_⟩
    rintro made ⟨⟩
    exact ⟨SparseRowIndex.indexTerms_dataset _ _ _, by simp⟩
  · rw [if_pos same]
    exact ⟨by simp [same], fun _ made => by cases made⟩

namespace FlatIndex

def Placed (index : FlatIndex V) : Prop := ∀ label place, index.labelMap.lookup label = some place →
  place < index.currentCount ∧ (index.buffer place).label = label

structure Shaped (index : FlatIndex V) : Prop where
  placed : index.Placed
  rows : ∀ sparse ∈ index.sparse, sparse.sparseDataset.offsets.length = index.currentCount + 1

structure SamePlaces (index after : FlatIndex V) : Prop where
  labelMap : after.labelMap = index.labelMap
  buffer : ∀ place, (after.buffer place).label = (index.buffer place).label ∧
    (after.buffer place).offset = (index.buffer place).offset
  count : after.currentCount = index.currentCount

theorem shaped_create (memory : Nat → Element V) (maxElementCount : Nat) (enableSparse : Bool) :
    (create memory maxElementCount enableSparse).Shaped := by
  refine ⟨?_, ?_⟩
  · intro label place there
    cases there
  · intro sparse given
    cases enableSparse with
    | true =>
      cases given
      rfl
    | false => cases given

theorem SamePlaces.refl (index : FlatIndex V) : SamePlaces index index := ⟨rfl, fun _ => ⟨rfl, rfl⟩, rfl⟩

section

variable (same : SamePlaces index after)

include same

theorem SamePlaces.placed (placed : index.Placed) : after.Placed := by
  intro label place there
  rw [same.labelMap] at there
  rw [same.count, (same.buffer place).1]
  exact placed label place there

theorem SamePlaces.shaped (shaped : index.Shaped)
    (rows : ∀ sparse ∈ after.sparse, sparse.sparseDataset.offsets.length = index.currentCount + 1) : after.Shaped where
  placed := same.placed shaped.placed
  rows := by
    rw [same.count]
    exact rows

theorem SamePlaces.offsets (label : Nat) :
    after.getOffsetByLabel label = index.getOffsetByLabel label := by
  rw [getOffsetByLabel, getOffsetByLabel, same.labelMap]
  cases index.labelMap.lookup label with
  | none => rfl
  | some place => simp only [(same.buffer place).2]

end

theorem sparseRow_spec (metric : Metric Q V) (shaped : index.Shaped) (given : Option SparseGiven) :
    (sparseRow metric index given = none ↔ index.sparse.isSome = true ∧ ∃ data ∈ given, data.Mismatched) ∧
      ∀ made, sparseRow metric index given = some made → SamePlaces index made.1 ∧ made.1.Shaped ∧
        made.1.sparse.isSome = index.sparse.isSome ∧ ∀ row ∈ made.2, row.values.length = row.indices.length := by
  unfold sparseRow
  split
  next sparse data known =>
    obtain ⟨fails, makes⟩ := makeSparsePoint_spec metric sparse data
    constructor
    · simp [fails, known]
    · intro made there
      obtain ⟨point, done, rfl⟩ := Option.map_eq_some_iff.mp there
      obtain ⟨rows, paired⟩ := makes point done
      refine ⟨⟨rfl, fun _ => ⟨rfl, rfl⟩, rfl⟩, ⟨shaped.placed, ?_⟩, by rw [known]; rfl, ?_⟩
      · rintro _ ⟨⟩
        rw [rows]
        exact shaped.rows sparse known
      · rintro _ ⟨⟩
        exact paired
  next unmade =>
    constructor
    · constructor
      · intro impossible
        cases impossible
      · rintro ⟨enabled, data, given', -⟩
        obtain ⟨sparse, known⟩ := Option.isSome_iff_exists.mp enabled
        exact absurd given' (fun given' => unmade sparse data known given')
    · rintro _ ⟨⟩
      exact ⟨.refl index, shaped, rfl, nofun⟩

theorem writeElement_spec (placed : index.Placed) {label place : Nat} (there : index.labelMap.lookup label = some place)
    (vector : Option Q) : SamePlaces index (writeElement metric index place vector label) := by
  refine ⟨rfl, fun other => ?_, rfl⟩
  by_cases same : other = place
  · subst same
    simp [writeElement, (placed label other there).2]
  · simp [writeElement, same]

theorem appendElement_offsets (placed : index.Placed) (vector : Option Q) (label : Nat) {other : Nat}
    (different : other ≠ label) :
    (appendElement metric index vector label).getOffsetByLabel other = index.getOffsetByLabel other := by
  rw [getOffsetByLabel, getOffsetByLabel]
  have lookup : (appendElement metric index vector label).labelMap.lookup other = index.labelMap.lookup other := by
    simp [appendElement, writeElement, different]
  rw [lookup]
  cases there : index.labelMap.lookup other with
  | none => rfl
  | some place =>
    have before := (placed other place there).1
    simp [appendElement, writeElement, before.ne]

theorem appendElement_shaped (placed : index.Placed) (vector : Option Q) (label : Nat)
    (rows : ∀ sparse ∈ index.sparse, sparse.sparseDataset.offsets.length = index.currentCount + 2) :
    (appendElement metric index vector label).Shaped := by
  refine ⟨fun other place there => ?_, fun sparse given => rows sparse given⟩
  have lookup : (appendElement metric index vector label).labelMap.lookup other =
      if other = label then some index.currentCount else index.labelMap.lookup other := Table.lookup_insert_if _ _ _ _
  rw [lookup] at there
  split at there
  next same =>
    cases there
    simp [appendElement, writeElement, same]
  next =>
    obtain ⟨inside, label'⟩ := placed other place there
    refine ⟨Nat.lt_succ_of_lt inside, ?_⟩
    simpa [appendElement, writeElement, inside.ne] using label'

structure Added (index after : FlatIndex V) (label : Nat) (given : Option SparseGiven) (threw : Bool) : Prop where
  shaped : after.Shaped
  sparse : after.sparse.isSome = index.sparse.isSome
  throws : threw = true ↔ index.sparse.isSome = true ∧ ∃ data ∈ given, data.Mismatched
  offsets : ∀ other, after.getOffsetByLabel other = index.getOffsetByLabel other ∨
    (other = label ∧ index.labelMap.lookup label = none ∧ threw = false)

theorem exists_update {data : SparseDataset} {idx : Nat} {row : SparseDatapoint} (inside : idx < data.size)
    (paired : row.values.length = row.indices.length) : ∃ more, data.update idx row = some more := by
  rw [SparseDataset.update, if_neg (by simp [paired, inside])]
  exact ⟨_, rfl⟩

theorem addPoint_spec (metric : Metric Q V) (shaped : index.Shaped) (vector : Option Q) (label : Nat) (given : Option SparseGiven) :
    Added index (index.addPoint metric vector label given).1 label given (index.addPoint metric vector label given).2 := by
  obtain ⟨fails, makes⟩ := sparseRow_spec metric shaped given
  unfold addPoint
  cases made : sparseRow metric index given with
  | none => exact ⟨shaped, rfl, ⟨fun _ => fails.mp made, fun _ => rfl⟩, fun _ => .inl rfl⟩
  | some result =>
    obtain ⟨now, row⟩ := result
    obtain ⟨same, shapedNow, enabled, paired⟩ := makes _ made
    have quiet : ¬ (index.sparse.isSome = true ∧ ∃ data ∈ given, data.Mismatched) := by
      rw [← fails, made]
      exact Option.some_ne_none _
    have written : ∀ (now' : FlatIndex V) (place : Nat), SamePlaces index now' → now'.Shaped → now'.sparse.isSome = index.sparse.isSome → now'.labelMap.lookup label = some place →
          Added index (writeElement metric now' place vector label) label given false := by
      intro now' place same shaped enabled there
      have wrote : SamePlaces now' (writeElement metric now' place vector label) :=
        writeElement_spec shaped.placed there vector
      refine ⟨wrote.shaped shaped shaped.rows, enabled, by simpa using quiet, fun other => .inl ?_⟩
      exact (wrote.offsets other).trans (same.offsets other)
    have appended : ∀ now' : FlatIndex V, SamePlaces index now' → now'.labelMap.lookup label = none →
        now'.sparse.isSome = index.sparse.isSome →
        (∀ sparse ∈ now'.sparse, sparse.sparseDataset.offsets.length = now'.currentCount + 2) →
          Added index (appendElement metric now' vector label) label given false := by
      intro now' same absent enabled rows
      have placed := same.placed shaped.placed
      refine ⟨appendElement_shaped placed vector label rows, enabled, by simpa using quiet, fun other => ?_⟩
      by_cases own : other = label
      · exact .inr ⟨own, same.labelMap ▸ absent, rfl⟩
      · exact .inl ((appendElement_offsets placed vector label own).trans (same.offsets other))
    cases there : now.labelMap.lookup label with
    | some place =>
      cases known : now.sparse with
      | none =>
        simp only [there, known]
        exact written now place same shapedNow enabled there
      | some sparse =>
        simp only [there, known]
        cases row with
        | none => exact written now place same shapedNow enabled there
        | some row =>
          have rows := shapedNow.rows sparse known
          have inside : place < sparse.sparseDataset.size := by
            rw [SparseDataset.size, rows]
            exact (shapedNow.placed label place there).1
          obtain ⟨more, updated⟩ := exists_update inside (paired row rfl)
          have sameNow : SamePlaces index { now with sparse := some { sparse with sparseDataset := more } } :=
            ⟨same.labelMap, same.buffer, same.count⟩
          have step := written { now with sparse := some { sparse with sparseDataset := more } } place sameNow
            ⟨shapedNow.placed, ?_⟩ (by rw [← enabled, known]; rfl) there
          · simpa [SparseRowIndex.update, updated] using step
          · rintro _ ⟨⟩
            exact (SparseDataset.length_update updated).trans rows
    | none =>
      cases known : now.sparse with
      | none =>
        simp only [there, known]
        refine appended now same there enabled ?_
        rw [known]
        exact fun _ member => by cases member
      | some sparse =>
        have rows := shapedNow.rows sparse known
        have full : ¬ now.currentCount ≠ sparse.rows := by
          rw [SparseRowIndex.rows, SparseDataset.size, rows]
          simp
        have paired' : (row.getD ⟨[], []⟩).values.length = (row.getD ⟨[], []⟩).indices.length := by
          cases row with
          | none => rfl
          | some row => exact paired row rfl
        have append : sparse.sparseDataset.append (row.getD ⟨[], []⟩) = some _ :=
          if_neg (not_not_intro paired')
        simp only [there, known]
        rw [if_neg full, SparseRowIndex.append, append]
        refine appended { now with sparse := some _ } ⟨same.labelMap, same.buffer, same.count⟩ there
          (by rw [← enabled, known]; rfl) ?_
        rintro _ ⟨⟩
        exact (SparseDataset.length_append append).trans (congrArg (· + 1) rows)

theorem removePoint_spec (shaped : index.Shaped) (label : Nat) :
    (index.removePoint label).Shaped ∧ (index.removePoint label).sparse.isSome = index.sparse.isSome := by
  cases found : index.labelMap.lookup label with
  | none =>
    have unchanged : index.removePoint label = index := by simp [removePoint, found]
    rw [unchanged]
    exact ⟨shaped, rfl⟩
  | some place =>
    obtain ⟨inside, -⟩ := shaped.placed label place found
    have lookup := Describes.removePoint_labelMap found inside
    have buffer := fun here (less : here < index.currentCount - 1) => Describes.removePoint_buffer found inside less
    have sparse := Describes.removePoint_sparse found inside
    have count := (Describes.removePoint_rest found).1
    refine ⟨⟨fun own here there => ?_, ?_⟩, by rw [sparse, Option.isSome_map]⟩
    · rw [lookup] at there
      rw [count]
      split at there
      next moved =>
        cases there
        have less : place < index.currentCount - 1 := by omega
        refine ⟨less, ?_⟩
        rw [buffer place less, cameFrom, if_pos rfl, moved.1]
      next stays =>
        split at there
        · cases there
        next different =>
          obtain ⟨within, label'⟩ := shaped.placed own here there
          have apart : here ≠ place := by
            rintro rfl
            exact different (label'.symm.trans (shaped.placed label here found).2)
          have less : here < index.currentCount - 1 := by
            by_contra last
            have same : here = index.currentCount - 1 := by omega
            exact stays ⟨by rw [← same, label'], by omega⟩
          refine ⟨less, ?_⟩
          rw [buffer here less, cameFrom, if_neg apart, label']
    · rw [sparse, count]
      intro after given
      obtain ⟨before, known, rfl⟩ := Option.map_eq_some_iff.mp given
      have rows := shaped.rows before known
      have moved : (if place ≠ index.currentCount - 1 then
          ((before.sparseDataset.getRow (index.currentCount - 1)).bind (before.update place)).getD before
          else before).sparseDataset.offsets.length = index.currentCount + 1 := by
        split
        · cases updated : (before.sparseDataset.getRow (index.currentCount - 1)).bind (before.update place) with
          | none => exact rows
          | some more =>
            obtain ⟨row, -, updates⟩ := Option.bind_eq_some_iff.mp updated
            obtain ⟨data, changed, rfl⟩ := Option.map_eq_some_iff.mp updates
            exact (SparseDataset.length_update changed).trans rows
        · exact rows
      rw [SparseRowIndex.popBack, SparseDataset.length_popBack, moved]
      omega

theorem searchKnn_spec (metric : Metric Q V) (shaped : index.Shaped) (query : Q) (k : Nat) (bitmap : Option Bitmap)
    (given : Option SparseGiven) : SamePlaces index (index.searchKnn metric query k bitmap given).1 ∧
      (index.searchKnn metric query k bitmap given).1.Shaped ∧
        (index.searchKnn metric query k bitmap given).1.sparse.isSome = index.sparse.isSome := by
  have numbers : SamePlaces index (transformSparseQuery metric index given).1 ∧
      (transformSparseQuery metric index given).1.Shaped ∧
        (transformSparseQuery metric index given).1.sparse.isSome = index.sparse.isSome := by
    unfold transformSparseQuery
    split
    next sparse data known =>
      split
      · exact ⟨.refl index, shaped, rfl⟩
      · cases made : makeSparsePoint metric sparse data with
        | none => exact ⟨.refl index, shaped, rfl⟩
        | some point =>
          obtain ⟨rows, -⟩ := (makeSparsePoint_spec metric sparse data).2 point made
          refine ⟨⟨rfl, fun _ => ⟨rfl, rfl⟩, rfl⟩, ⟨shaped.placed, ?_⟩, by rw [known]; rfl⟩
          rintro _ ⟨⟩
          rw [rows]
          exact shaped.rows sparse known
    next => exact ⟨.refl index, shaped, rfl⟩
  unfold searchKnn
  split
  · exact ⟨.refl index, shaped, rfl⟩
  · exact numbers

end FlatIndex

end LoginomDock.VectorIndex
