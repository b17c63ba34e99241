import LoginomDock.VectorIndex.FilterTokens

namespace LoginomDock.VectorIndex

open List IndexManager Option Nat

namespace IndexManager

variable {Q V : Type}

def eligibleRows (bitmap : Option Bitmap) : List (Option Nat) → Nat → List Nat
  | [], _ => []
  | offset :: rest, row =>
    if eligible bitmap offset then row :: eligibleRows bitmap rest (row + 1) else eligibleRows bitmap rest (row + 1)

section Rows

variable (bitmap : Option Bitmap) (offsets : List (Option Nat)) (row : Nat)

theorem length_eligibleRows : (eligibleRows bitmap offsets row).length = (offsets.filter (eligible bitmap)).length := by
  induction offsets generalizing row with
  | nil => rfl
  | cons offset rest ih =>
    rw [eligibleRows, filter_cons]
    split
    · rw [length_cons, length_cons, ih]
    · exact ih _

theorem projectRows_eq (result : FilterResult) : projectRows bitmap offsets row result =
    { result with
      eligibleCount := result.eligibleCount + (eligibleRows bitmap offsets row).length
      bitsetWords := (eligibleRows bitmap offsets row).foldl setWordBit result.bitsetWords } := by
  induction offsets generalizing row result with
  | nil => rfl
  | cons offset rest ih =>
    rw [projectRows, ih, eligibleRows]
    split
    · simp only [length_cons, foldl_cons]
      congr 1
      omega
    · rfl

end Rows

theorem length_setWordBit (words : List Nat) (row : Nat) : (setWordBit words row).length = words.length := length_set

theorem length_foldl_setWordBit (rows words : List Nat) : (rows.foldl setWordBit words).length = words.length := by
  induction rows generalizing words with
  | nil => rfl
  | cons row rest ih => rw [foldl_cons, ih, length_setWordBit]

section Routes

variable {bitmap : Option Bitmap} {threshold total : Nat}

theorem routeRows_few (few : total ≤ threshold) (offsets : List (Option Nat)) (row : Nat) (narrow : List Nat) (result : FilterResult) :
    routeRows bitmap threshold total offsets row narrow result =
      { result with eligibleCount := result.eligibleCount + (eligibleRows bitmap offsets row).length } := by
  induction offsets generalizing row result with
  | nil => rfl
  | cons offset rest ih =>
    rw [routeRows, eligibleRows]
    cases found : eligible bitmap offset with
    | false =>
      rw [if_pos rfl, ih]
      rfl
    | true =>
      rw [if_neg Bool.noConfusion]
      simp only [few, if_true]
      rw [ih]
      simp only [length_cons]
      congr 1
      omega

theorem routeRows_wide (many : threshold < total) (offsets : List (Option Nat)) (row : Nat) {result : FilterResult}
    (wide : result.bitsetWords ≠ []) : routeRows bitmap threshold total offsets row [] result =
      { result with
        eligibleCount := result.eligibleCount + (eligibleRows bitmap offsets row).length
        bitsetWords := (eligibleRows bitmap offsets row).foldl setWordBit result.bitsetWords } := by
  induction offsets generalizing row result with
  | nil => rfl
  | cons offset rest ih =>
    rw [routeRows, eligibleRows]
    cases found : eligible bitmap offset with
    | false =>
      rw [if_pos rfl, ih _ wide]
      rfl
    | true =>
      have wide' : setWordBit result.bitsetWords row ≠ [] := by
        rwa [← length_pos_iff, length_setWordBit, length_pos_iff]
      rw [if_neg Bool.noConfusion]
      simp only [not_le.mpr many, wide, if_false, if_true, length_cons, foldl_cons]
      rw [ih _ wide']
      simp only
      congr 1
      omega

theorem routeRows_narrow (many : threshold < total) {offsets : List (Option Nat)} {row : Nat} (short : row + offsets.length ≤ 2 ^ 32)
    {narrow : List Nat} {result : FilterResult} (noWords : result.bitsetWords = []) (kept : narrow.length = result.eligibleCount)
    (within : result.eligibleCount ≤ threshold) : routeRows bitmap threshold total offsets row narrow result =
      { result with
        eligibleCount := result.eligibleCount + (eligibleRows bitmap offsets row).length
        bitsetWords := if threshold < result.eligibleCount + (eligibleRows bitmap offsets row).length then
          (narrow ++ eligibleRows bitmap offsets row).foldl setWordBit (emptyWords total) else [] } := by
  induction offsets generalizing row narrow result with
  | nil =>
    rw [routeRows, eligibleRows]
    simp only [length_nil, add_zero, not_lt.mpr within, if_false]
    cases result
    simp only at noWords
    rw [noWords]
  | cons offset rest ih =>
    rw [length_cons] at short
    rw [routeRows, eligibleRows]
    cases found : eligible bitmap offset with
    | false =>
      rw [if_pos rfl, ih (by omega) noWords kept within]
      rfl
    | true =>
      have stored : row % 2 ^ 32 = row := mod_eq_of_lt (by omega)
      rw [if_neg Bool.noConfusion]
      simp only [not_le.mpr many, noWords, stored, if_false, if_true, length_cons]
      by_cases more : result.eligibleCount + 1 ≤ threshold
      · have kept' : (narrow ++ [row]).length = ({ result with eligibleCount := result.eligibleCount + 1 } : FilterResult).eligibleCount := by
          rw [length_append, length_singleton, kept]
        have rest' := ih (show row + 1 + rest.length ≤ 2 ^ 32 by omega) (by exact noWords) kept' more
        simp only [noWords] at rest'
        rw [if_pos more, rest']
        simp only [append_assoc, singleton_append]
        rw [add_assoc, add_comm 1]
      · have some' : (narrow ++ [row]).foldl setWordBit (emptyWords total) ≠ [] := by
          rw [← length_pos_iff, length_foldl_setWordBit, emptyWords, length_replicate]
          omega
        rw [if_neg more, routeRows_wide many _ _ some']
        simp only
        rw [if_pos (by omega), ← foldl_append, append_assoc, singleton_append, add_assoc, add_comm 1]

end Routes

-- Each row before the last number of 32 bits is kept as it is.
theorem storedRow_isSome {row : Nat} (short : row + 1 < 2 ^ 32) : (storedRow row).isSome = true := by
  rw [storedRow, mod_eq_of_lt (by omega), if_neg (by omega)]
  rfl

theorem inverseRows_spec {base : Nat} {offsets : List (Option Nat)} {row : Nat} {rows after : List (Option Nat)}
    (short : row + offsets.length < 2 ^ 32) (reach : ∀ offset, some offset ∈ offsets → base ≤ offset ∧ offset - base < rows.length)
    (inverted : inverseRows base offsets row rows = some after) :
    (offsets.filterMap id).Nodup ∧ (∀ offset, some offset ∈ offsets → (rows[offset - base]?).join = none) ∧
      ∀ place, (after[place]?).join.isSome ↔ (rows[place]?).join.isSome ∨ some (base + place) ∈ offsets := by
  induction offsets generalizing row rows with
  | nil =>
    cases inverted
    exact ⟨.nil, nofun, fun place => by simp⟩
  | cons offset rest ih =>
    rw [length_cons] at short
    cases offset with
    | none =>
      rw [inverseRows] at inverted
      obtain ⟨distinct, absent, final⟩ := ih (by omega) (fun offset member => reach offset (mem_cons_of_mem _ member)) inverted
      refine ⟨distinct, fun offset member => absent offset ?_, fun place => ?_⟩
      · exact (mem_cons.mp member).resolve_left nofun
      · rw [final, mem_cons]
        simp
    | some offset =>
      obtain ⟨above, inside⟩ := reach offset mem_cons_self
      rw [inverseRows] at inverted
      split at inverted
      next => cases inverted
      next fresh =>
        have reach' : ∀ other, some other ∈ rest → base ≤ other ∧ other - base < (rows.set (offset - base) (storedRow row)).length := by
          intro other member
          rw [length_set]
          exact reach other (mem_cons_of_mem _ member)
        obtain ⟨distinct, absent, final⟩ := ih (by omega) reach' inverted
        have filled := storedRow_isSome (show row + 1 < 2 ^ 32 by omega)
        have once : some offset ∉ rest := by
          intro member
          have again := absent offset member
          rw [getElem?_set_self inside, join_some] at again
          rw [again] at filled
          cases filled
        refine ⟨?_, fun other member => ?_, fun place => ?_⟩
        · rw [filterMap_cons_some (by rfl), nodup_cons]
          exact ⟨fun member => once (by simpa using member), distinct⟩
        · rcases mem_cons.mp member with same | later
          · cases same
            simpa using fresh
          · have other' := absent other later
            rw [getElem?_set] at other'
            split at other'
            next same =>
              rw [← same]
              simpa using fresh
            next => exact other'
        · rw [final, getElem?_set, mem_cons]
          by_cases same : offset - base = place
          · subst same
            have isOffset : base + (offset - base) = offset := by omega
            simp only [if_true, inside, join_some, filled, isOffset, true_or]
            simp
          · have other : base + place ≠ offset := by omega
            simp [same, other]

theorem foldl_bound {R : Nat → Nat → Prop} {pick : Nat → Nat → Nat} (trans : ∀ {a b c}, R a b → R b c → R a c)
    (refl : ∀ a, R a a) (one : ∀ a b, R (pick a b) a) (two : ∀ a b, R (pick a b) b) (first : Nat) (rest : List Nat) :
    ∀ value ∈ first :: rest, R (rest.foldl pick first) value := by
  induction rest generalizing first with
  | nil => simpa using refl first
  | cons second rest ih =>
    have bound := ih (pick first second) (pick first second) mem_cons_self
    intro value member
    rw [foldl_cons]
    rcases mem_cons.mp member with rfl | later
    · exact trans bound (one _ _)
    · rcases mem_cons.mp later with rfl | later
      · exact trans bound (two _ _)
      · exact ih _ value (mem_cons_of_mem _ later)

theorem foldl_min_le (first : Nat) (rest : List Nat) : ∀ value ∈ first :: rest, rest.foldl min first ≤ value :=
  @foldl_bound (· ≤ ·) min le_trans le_refl min_le_left min_le_right first rest

theorem le_foldl_max (first : Nat) (rest : List Nat) : ∀ value ∈ first :: rest, value ≤ rest.foldl max first :=
  @foldl_bound (· ≥ ·) max (fun above more => le_trans more above) le_refl le_max_left le_max_right first rest

structure Inverted (manager : IndexManager V) : Prop where
  once : (manager.filterLayoutOffsets.filterMap id).Nodup
  knows : ∀ offset, manager.filterLayoutInverseBase ≤ offset ∧
    ((manager.filterLayoutRowsByOffset[offset - manager.filterLayoutInverseBase]?).join).isSome ↔
      some offset ∈ manager.filterLayoutOffsets

section Layouts

variable {manager before : IndexManager V} {labels : List Nat}

theorem setFilterLayout_offsets (before : IndexManager V) (labels : List Nat) :
    (before.setFilterLayout labels).filterLayoutOffsets = labels.map before.offsetOf := by
  rw [setFilterLayout]
  simp only
  split
  · rfl
  · split
    · rfl
    · split <;> rfl

theorem setFilterLayout_inverted (short : labels.length < 2 ^ 32)
    (ready : (before.setFilterLayout labels).filterLayoutInverseReady = true) : (before.setFilterLayout labels).Inverted := by
  rw [setFilterLayout] at ready ⊢
  simp only at ready ⊢
  split at ready
  next => cases ready
  next first rest isKnown =>
    have known : ∀ offset, some offset ∈ labels.map before.offsetOf ↔ offset ∈ first :: rest := by
      intro offset
      rw [← isKnown]
      simp
    have low := foldl_min_le first rest
    have high := le_foldl_max first rest
    split at ready
    next => cases ready
    next wide =>
      split at ready
      next => cases ready
      next rows inverted =>
        have reach : ∀ offset, some offset ∈ labels.map before.offsetOf → rest.foldl min first ≤ offset ∧ offset - rest.foldl min first <
            (List.replicate (rest.foldl max first - rest.foldl min first + 1) (none : Option Nat)).length := by
          intro offset member
          have least := low offset ((known offset).mp member)
          have most := high offset ((known offset).mp member)
          rw [length_replicate]
          omega
        have short' : 0 + (labels.map before.offsetOf).length < 2 ^ 32 := by rwa [Nat.zero_add, length_map]
        obtain ⟨distinct, -, final⟩ := inverseRows_spec short' reach inverted
        have fresh : ∀ place : Nat,
            ((List.replicate (rest.foldl max first - rest.foldl min first + 1) (none : Option Nat))[place]?).join = none := by
          intro place
          rw [getElem?_replicate]
          split <;> rfl
        rw [if_neg wide]
        constructor
        · exact distinct
        · intro offset
          simp only [final, fresh]
          constructor
          · rintro ⟨above, absurd | member⟩
            · cases absurd
            · rwa [Nat.add_sub_cancel' above] at member
          · intro member
            have above := (reach offset member).1
            rw [Nat.add_sub_cancel' above]
            exact ⟨above, .inr member⟩

theorem length_filter_eligible (bits : Bitmap) (offsets : List (Option Nat)) : (offsets.filter (eligible (some bits))).length =
    ((offsets.filterMap id).filter fun offset => decide (offset ∈ bits)).length := by
  induction offsets with
  | nil => rfl
  | cons offset rest ih =>
    cases offset with
    | none => exact ih
    | some offset =>
      rw [filterMap_cons_some (by rfl), filter_cons, filter_cons]
      by_cases member : offset ∈ bits
      · simp [eligible, member, ih]
      · simp [eligible, member, ih]

theorem Inverted.countInverse_eq (inverted : manager.Inverted) (bits : Bitmap) :
    manager.countInverse bits = (eligibleRows (some bits) manager.filterLayoutOffsets 0).length := by
  rw [length_eligibleRows, length_filter_eligible, countInverse]
  apply Perm.length_eq
  apply (perm_ext_iff_of_nodup ((bits.sort_nodup _).filter _) (inverted.once.filter _)).mpr
  intro offset
  have known := inverted.knows offset
  simp only [mem_filter, Finset.mem_sort, Bool.and_eq_true, decide_eq_true_eq, known, mem_filterMap, id, exists_eq_right]
  exact and_comm

theorem countInverse_le (manager : IndexManager V) (bits : Bitmap) : manager.countInverse bits ≤ bits.card := by
  rw [countInverse, ← Finset.length_sort (· ≤ ·)]
  exact length_filter_le _ _

end Layouts

section Evaluations

theorem withToken_spec (manager : IndexManager V) (bitmap : Option Bitmap) (limit : Nat) {result : FilterResult}
    (noToken : result.nativeFilterToken = 0) :
    (manager.withToken bitmap limit result).1.eligibleCount = result.eligibleCount ∧
      (manager.withToken bitmap limit result).1.bitsetWords = result.bitsetWords ∧
        ((manager.withToken bitmap limit result).1.nativeFilterToken ≠ 0 ↔
          bitmap.isSome ∧ 0 < result.eligibleCount ∧ result.eligibleCount ≤ limit) ∧
          ((manager.withToken bitmap limit result).1.nativeFilterToken = 0 →
            (manager.withToken bitmap limit result).2 = manager) := by
  cases bitmap with
  | none => exact ⟨rfl, rfl, by simp [withToken, noToken], fun _ => rfl⟩
  | some bits =>
    simp only [withToken]
    split
    next few =>
      have issued : (manager.cacheFilterBitmap bits).1 ≠ 0 := by
        rw [cacheFilterBitmap]
        simp only
        split
        · exact one_ne_zero
        · assumption
      exact ⟨rfl, rfl, by simp [issued, few], fun none => absurd none issued⟩
    next few => exact ⟨rfl, rfl, by simp [noToken, few], fun _ => rfl⟩

variable {manager : IndexManager V} {bitmap : Option Bitmap} {threshold : Nat}

theorem narrow_count (inverted : manager.filterLayoutInverseReady = true → manager.Inverted)
    (narrow : (manager.filterLayoutInverseReady && (bitmap.map Finset.card).any (· ≤ threshold)) = true) :
    (bitmap.map manager.countInverse).getD 0 = (eligibleRows bitmap manager.filterLayoutOffsets 0).length ∧
      (eligibleRows bitmap manager.filterLayoutOffsets 0).length ≤ threshold := by
  rw [Bool.and_eq_true] at narrow
  obtain ⟨ready, few⟩ := narrow
  cases bitmap with
  | none => cases few
  | some bits =>
    have counted := (inverted ready).countInverse_eq bits
    have most := manager.countInverse_le bits
    have few : bits.card ≤ threshold := by simpa using few
    constructor
    · exact counted
    · omega

theorem counted_eq (short : manager.filterLayoutOffsets.length < 2 ^ 32)
    (inverted : manager.filterLayoutInverseReady = true → manager.Inverted) (positive : 0 < threshold) :
    (if manager.filterLayoutInverseReady && (bitmap.map Finset.card).any (· ≤ threshold) then
        { eligibleCount := ((bitmap.map manager.countInverse).getD 0) }
      else routeRows bitmap threshold manager.filterLayoutOffsets.length manager.filterLayoutOffsets 0 [] {} : FilterResult) =
    { eligibleCount := (eligibleRows bitmap manager.filterLayoutOffsets 0).length
      bitsetWords := if threshold < (eligibleRows bitmap manager.filterLayoutOffsets 0).length then
        (eligibleRows bitmap manager.filterLayoutOffsets 0).foldl setWordBit (emptyWords manager.filterLayoutOffsets.length) else [] } := by
  split
  next narrow =>
    obtain ⟨counted, few⟩ := narrow_count inverted narrow
    rw [counted, if_neg few.not_gt]
  next =>
    rcases lt_or_ge threshold manager.filterLayoutOffsets.length with many | few
    · rw [routeRows_narrow many (by omega) rfl rfl positive.le]
      simp only [Nat.zero_add, nil_append]
    · have most : (eligibleRows bitmap manager.filterLayoutOffsets 0).length ≤ manager.filterLayoutOffsets.length := by
        rw [length_eligibleRows]
        exact length_filter_le _ _
      rw [routeRows_few few, if_neg (by omega)]
      simp only [Nat.zero_add]

variable {before : IndexManager V} {runtime : Runtime Q V} {dsl : Text} {context : SearchContext}

theorem isSome_of_calculated {filter : Option FilterOp} (calculated : manager.calculateFilterBitmap runtime filter = some bitmap) :
    bitmap.isSome = filter.isSome := by
  cases filter with
  | none =>
    cases calculated
    rfl
  | some op =>
    simp only [calculateFilterBitmap, map_eq_some_iff] at calculated
    obtain ⟨bits, -, rfl⟩ := calculated
    rfl

theorem evaluateFilter_eq (parsed : parseDslQuery runtime.parseJson dsl = some context)
    (calculated : manager.calculateFilterBitmap runtime context.filterOp = some bitmap) (limit : Nat) :
    (manager.evaluateFilter runtime dsl limit).ret = 0 ∧
      (manager.evaluateFilter runtime dsl limit).result.eligibleCount = (eligibleRows bitmap manager.filterLayoutOffsets 0).length ∧
        (manager.evaluateFilter runtime dsl limit).result.bitsetWords =
          (eligibleRows bitmap manager.filterLayoutOffsets 0).foldl setWordBit (emptyWords manager.filterLayoutOffsets.length) := by
  have kept := @withToken_spec _ manager bitmap limit
    (projectRows bitmap manager.filterLayoutOffsets 0 { bitsetWords := emptyWords manager.filterLayoutOffsets.length })
    (by rw [projectRows_eq])
  simp only [projectRows_eq, Nat.zero_add] at kept
  simp only [evaluateFilter, parsed, calculated, projectRows_eq, Nat.zero_add, true_and]
  exact ⟨kept.1, kept.2.1⟩

structure Laid (manager before : IndexManager V) (labels : List Nat) : Prop where
  offsets : manager.filterLayoutOffsets = (before.setFilterLayout labels).filterLayoutOffsets
  rows : manager.filterLayoutRowsByOffset = (before.setFilterLayout labels).filterLayoutRowsByOffset
  base : manager.filterLayoutInverseBase = (before.setFilterLayout labels).filterLayoutInverseBase
  ready : manager.filterLayoutInverseReady = (before.setFilterLayout labels).filterLayoutInverseReady

theorem Laid.inverted {labels : List Nat} (laid : manager.Laid before labels) (short : labels.length < 2 ^ 32)
    (ready : manager.filterLayoutInverseReady = true) : manager.Inverted := by
  have inverted := setFilterLayout_inverted short (laid.ready.symm.trans ready)
  constructor
  · rw [laid.offsets]
    exact inverted.once
  · rw [laid.offsets, laid.rows, laid.base]
    exact inverted.knows

theorem Laid.short {labels : List Nat} (laid : manager.Laid before labels) (short : labels.length < 2 ^ 32) :
    manager.filterLayoutOffsets.length < 2 ^ 32 := by
  rwa [laid.offsets, setFilterLayout_offsets, length_map]

structure RoutesAs (runtime : Runtime Q V) (manager : IndexManager V) (dsl : Text) (threshold : Nat) (routed full : Reply V FilterResult) :
    Prop where
  ret : routed.ret = full.ret
  eligibleCount : routed.result.eligibleCount = full.result.eligibleCount
  bitsetWords : routed.result.bitsetWords = if threshold < full.result.eligibleCount then full.result.bitsetWords else []
  token : routed.result.nativeFilterToken ≠ 0 ↔
    (∃ context, parseDslQuery runtime.parseJson dsl = some context ∧ context.filterOp.isSome) ∧
      0 < full.result.eligibleCount ∧ full.result.eligibleCount ≤ threshold
  kept : routed.result.nativeFilterToken = 0 → routed.manager = manager

theorem route_evaluation_agrees (runtime : Runtime Q V) {manager before : IndexManager V} {labels : List Nat}
    (laid : manager.Laid before labels) (short : labels.length < 2 ^ 32) (dsl : Text) {threshold : Nat} (positive : 0 < threshold)
    (maxCachedCandidates : Nat) : RoutesAs runtime manager dsl threshold (manager.evaluateFilterForRouting runtime dsl threshold)
      (manager.evaluateFilter runtime dsl maxCachedCandidates) := by
  cases parsed : parseDslQuery runtime.parseJson dsl with
  | none =>
    simp only [evaluateFilterForRouting, evaluateFilter, positive.ne', if_false, parsed]
    exact ⟨rfl, rfl, by simp, by simp [parsed], fun _ => rfl⟩
  | some context =>
    cases calculated : manager.calculateFilterBitmap runtime context.filterOp with
    | none =>
      simp only [evaluateFilterForRouting, evaluateFilter, positive.ne', if_false, parsed, calculated]
      exact ⟨rfl, rfl, by simp, by simp, fun _ => rfl⟩
    | some bitmap =>
      obtain ⟨ret, count, words⟩ := evaluateFilter_eq parsed calculated maxCachedCandidates
      have exists' : (∃ context, parseDslQuery runtime.parseJson dsl = some context ∧ context.filterOp.isSome) ↔ bitmap.isSome := by
        rw [isSome_of_calculated calculated, parsed]
        simp
      have limit : (eligibleRows bitmap manager.filterLayoutOffsets 0).length ≤
          (if manager.filterLayoutInverseReady && (bitmap.map Finset.card).any (· ≤ threshold) then
            (eligibleRows bitmap manager.filterLayoutOffsets 0).length else threshold) ↔
            (eligibleRows bitmap manager.filterLayoutOffsets 0).length ≤ threshold := by
        split
        next narrow => exact iff_of_true (le_refl _) (narrow_count (laid.inverted short) narrow).2
        next => exact Iff.rfl
      have counted := @counted_eq _ _ bitmap _ (laid.short short) (laid.inverted short) positive
      rw [evaluateFilterForRouting, if_neg positive.ne', parsed]
      simp only [calculated, counted]
      obtain ⟨sameCount, sameWords, token, kept⟩ := withToken_spec manager bitmap
        (if manager.filterLayoutInverseReady && (bitmap.map Finset.card).any (· ≤ threshold) then
          (eligibleRows bitmap manager.filterLayoutOffsets 0).length else threshold)
        (show (FilterResult.mk (eligibleRows bitmap manager.filterLayoutOffsets 0).length
          (if threshold < (eligibleRows bitmap manager.filterLayoutOffsets 0).length then
            (eligibleRows bitmap manager.filterLayoutOffsets 0).foldl setWordBit (emptyWords manager.filterLayoutOffsets.length)
          else []) 0).nativeFilterToken = 0 from rfl)
      constructor
      · exact ret.symm
      · rw [count]
        exact sameCount
      · rw [count, words]
        exact sameWords
      · rw [exists', count]
        apply token.trans
        exact and_congr_right' (and_congr_right' limit)
      · exact kept

end Evaluations

theorem inverseRows_missing (base missing : Nat) (offsets : List (Option Nat)) (row : Nat) (rows : List (Option Nat)) :
    inverseRows base (List.replicate missing none ++ offsets) row rows = inverseRows base offsets (row + missing) rows := by
  induction missing generalizing row with
  | zero => rfl
  | succ missing ih =>
    rw [replicate_succ, cons_append, inverseRows, ih]
    congr 1
    omega

theorem filterMap_missing (missing : Nat) (offsets : List (Option Nat)) :
    (List.replicate missing none ++ offsets).filterMap id = offsets.filterMap id := by
  induction missing with
  | zero => rfl
  | succ missing ih => rwa [replicate_succ, cons_append, filterMap_cons_none (by rfl)]

theorem filter_missing (bitmap : Option Bitmap) (missing : Nat) (offsets : List (Option Nat)) :
    (List.replicate missing none ++ offsets).filter (eligible bitmap) = offsets.filter (eligible bitmap) := by
  induction missing with
  | zero => rfl
  | succ missing ih => rwa [replicate_succ, cons_append, filter_cons_of_neg (by simp [eligible])]

theorem setFilterLayout_unkept {before : IndexManager V} {absent label offset missing : Nat} (unkept : storedRow missing = none)
    (noRow : before.offsetOf absent = none) (row : before.offsetOf label = some offset) :
    before.setFilterLayout (List.replicate missing absent ++ [label]) = { before with
      filterLayoutOffsets := List.replicate missing none ++ [some offset]
      filterLayoutRowsByOffset := [none]
      filterLayoutInverseBase := offset
      filterLayoutInverseReady := true } := by
  have offsets : (List.replicate missing absent ++ [label]).map before.offsetOf = List.replicate missing none ++ [some offset] := by
    rw [map_append, map_replicate, noRow, map_singleton, row]
  have known : (List.replicate missing none ++ [some offset]).filterMap id = [offset] := filterMap_missing _ _
  have inverted : inverseRows offset (List.replicate missing none ++ [some offset]) 0 [none] = some [none] := by
    rw [inverseRows_missing, inverseRows, Nat.sub_self, Nat.zero_add, unkept]
    rfl
  rw [setFilterLayout, offsets]
  simp only [known, foldl_nil, Nat.sub_self]
  simp [inverted, clearFilterLayout, kFilterLayoutInverseMaxSpanFactor]

end IndexManager

namespace LastRow

open HalfAppliedBatch (runtime manager query)

def filled : IndexManager Unit := (manager.addData runtime
  [{ label := 7, vector := some (), fieldsStr := "mine" }, { label := 8, vector := some (), fieldsStr := "mine" }] 1).1

theorem two_rows_route :
    RoutesAs runtime (filled.setFilterLayout [7, 9, 8]) "query" 1
      ((filled.setFilterLayout [7, 9, 8]).evaluateFilterForRouting runtime "query" 1)
      ((filled.setFilterLayout [7, 9, 8]).evaluateFilter runtime "query" 1) ∧
      ((filled.setFilterLayout [7, 9, 8]).evaluateFilterForRouting runtime "query" 1).result = ⟨2, [5], 0⟩ :=
  ⟨route_evaluation_agrees runtime ⟨rfl, rfl, rfl, rfl⟩ (by decide) "query" one_pos 1, by decide⟩

def lastRow : Nat := 2 ^ 32 - 1

theorem storedRow_lastRow : storedRow lastRow = none := by decide

theorem counts_unkept {missing : Nat} (unkept : storedRow missing = none) :
    ((filled.setFilterLayout (List.replicate missing 9 ++ [8])).evaluateFilterForRouting runtime "query" 2).result.eligibleCount = 0 ∧
      ((filled.setFilterLayout (List.replicate missing 9 ++ [8])).evaluateFilter runtime "query" 2).result.eligibleCount = 1 := by
  rw [setFilterLayout_unkept unkept (show filled.offsetOf 9 = none by decide)
    (show filled.offsetOf 8 = some 1 by decide)]
  generalize laid : ({ filled with
    filterLayoutOffsets := List.replicate missing none ++ [some 1]
    filterLayoutRowsByOffset := [none]
    filterLayoutInverseBase := 1
    filterLayoutInverseReady := true } : IndexManager Unit) = laidOut
  have both : (parseDslQuery runtime.parseJson "query").map
      (fun context => filled.calculateFilterBitmap runtime context.filterOp) = some (some (some {1, 0})) := by decide
  cases parsed : parseDslQuery runtime.parseJson "query" with
  | none =>
    rw [parsed] at both
    cases both
  | some context =>
    rw [parsed, map_some, some_inj] at both
    have same : SameFilters filled laidOut := by
      subst laid
      exact ⟨rfl, fun _ => rfl⟩
    have calculated := (same.calculate context.filterOp).trans both
    have rows : (eligibleRows (some {1, 0}) laidOut.filterLayoutOffsets 0).length = 1 := by
      rw [length_eligibleRows, ← laid, filter_missing]
      rfl
    constructor
    · have inverse : laidOut.countInverse {1, 0} = 0 := by
        apply length_eq_zero_iff.mpr
        apply filter_eq_nil_iff.mpr
        intro offset _
        have none' : (([none] : List (Option Nat))[offset - 1]?).join = none := by cases offset - 1 <;> rfl
        simp [← laid, none']
      have ready : laidOut.filterLayoutInverseReady = true := by rw [← laid]
      have narrow : (laidOut.filterLayoutInverseReady &&
          (some ({1, 0} : Bitmap).card).any (· ≤ 2)) = true := by
        rw [ready]
        rfl
      rw [evaluateFilterForRouting, if_neg (by decide), parsed]
      simp only [calculated, narrow, if_true, map_some, getD_some, inverse]
      rfl
    · rw [(evaluateFilter_eq parsed calculated 2).2.1, rows]

theorem last_row_not_counted :
    ((filled.setFilterLayout (List.replicate lastRow 9 ++ [8])).evaluateFilterForRouting runtime "query" 2).result.eligibleCount ≠
      ((filled.setFilterLayout (List.replicate lastRow 9 ++ [8])).evaluateFilter runtime "query" 2).result.eligibleCount := by
  obtain ⟨routed, full⟩ := counts_unkept storedRow_lastRow
  rw [routed, full]
  exact zero_ne_one

end LastRow

end LoginomDock.VectorIndex
