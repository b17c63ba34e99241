import LoginomDock.VectorIndex.CenterCursors
import LoginomDock.VectorIndex.RangedRuns
import LoginomDock.VectorIndex.SortOps

namespace LoginomDock.VectorIndex

open List

namespace RangedMap

-- Nearer, or as near with a value that is not greater
def closer (center : ℚ) (first second : ℚ × Nat) : Bool :=
  decide (|center - first.1| < |center - second.1|) ||
    (decide (|center - first.1| = |center - second.1|) && decide (first.1 ≤ second.1))

def unskipped (map : RangedMap) (skips : Nat → Bool) : List (ℚ × Nat) := map.entries.filter fun entry => !skips entry.2

def ranking (map : RangedMap) (center : ℚ) (skips : Nat → Bool) : List (ℚ × Nat) :=
  let keeps := fun entry : ℚ × Nat => !skips entry.2
  ((map.entries.filter fun entry => decide (entry.1 = center)).filter keeps) ++
    List.merge ((map.entries.filter fun entry => decide (entry.1 < center)).reverse.filter keeps)
      ((map.entries.filter fun entry => !decide (entry.1 ≤ center)).filter keeps) (closer center)

section Ranking

variable {center : ℚ}

theorem closer_iff (first second : ℚ × Nat) : closer center first second = true ↔ |center - first.1| < |center - second.1| ∨
    |center - first.1| = |center - second.1| ∧ first.1 ≤ second.1 := by
  simp [closer]

theorem closer_trans (first second third : ℚ × Nat) (one : closer center first second = true)
    (two : closer center second third = true) : closer center first third = true := by
  rw [closer_iff] at one two ⊢
  rcases one with less | ⟨same, below⟩
  · left
    rcases two with less' | ⟨same', _⟩
    · exact less.trans less'
    · rwa [← same']
  · rcases two with less' | ⟨same', below'⟩
    · left
      rwa [same]
    · exact .inr ⟨same.trans same', below.trans below'⟩

theorem closer_total (first second : ℚ × Nat) : (closer center first second || closer center second first) = true := by
  rw [Bool.or_eq_true, closer_iff, closer_iff]
  rcases lt_trichotomy |center - first.1| |center - second.1| with less | same | more
  · exact .inl (.inl less)
  · rcases le_total first.1 second.1 with below | above
    · exact .inl (.inr ⟨same, below⟩)
    · exact .inr (.inr ⟨same.symm, above⟩)
  · exact .inr (.inl more)

theorem closer_across {first second : ℚ × Nat} (left : first.1 < center) (right : center < second.1) :
    closer center first second = true ↔ |center - first.1| ≤ |center - second.1| := by
  rw [closer_iff, le_iff_lt_or_eq (a := |center - first.1|)]
  exact or_congr_right (and_iff_left (left.trans right).le)

theorem mergeAround_eq {left right : List (ℚ × Nat)} (below : ∀ entry ∈ left, entry.1 < center)
    (above : ∀ entry ∈ right, center < entry.1) (count : Nat) :
    mergeAround center count left right = (List.merge left right (closer center)).take count := by
  induction count generalizing left right with
  | zero => rfl
  | succ count ih =>
    cases left with
    | nil =>
      cases right with
      | nil => rw [mergeAround, nil_merge, take_nil]
      | cons r right =>
        rw [mergeAround, ih below fun entry member => above entry (mem_cons_of_mem _ member), nil_merge, nil_merge,
          take_succ_cons]
    | cons l left =>
      have below' : ∀ entry ∈ left, entry.1 < center := fun entry member => below entry (mem_cons_of_mem _ member)
      cases right with
      | nil => rw [mergeAround, ih below' above, merge_right, merge_right, take_succ_cons]
      | cons r right =>
        have across := closer_across (below l mem_cons_self) (above r mem_cons_self)
        rw [mergeAround]
        by_cases nearer : |center - l.1| ≤ |center - r.1|
        · rw [if_pos nearer, ih below' above, cons_merge_cons_pos _ _ _ (across.mpr nearer), take_succ_cons]
        · rw [if_neg nearer, ih below fun entry member => above entry (mem_cons_of_mem _ member),
            cons_merge_cons_neg _ _ _ (mt across.mp nearer), take_succ_cons]

variable {map : RangedMap} (valid : map.Valid) (skips : Nat → Bool)

theorem around_eq (map : RangedMap) (topk : Int) (center : ℚ) (skips : Nat → Bool) :
    map.around topk center skips = (map.ranking center skips).take topk.toNat := by
  rw [around, ranking, mergeAround_eq, take_append]
  · congr 2
    rw [length_take]
    omega
  · intro entry member
    have inside := mem_of_mem_filter member
    rw [mem_reverse] at inside
    exact of_decide_eq_true (mem_filter.mp inside).2
  · intro entry member
    have inside := (mem_filter.mp (mem_of_mem_filter member)).2
    simpa using inside

include valid

theorem ranking_perm : (map.ranking center skips).Perm (map.unskipped skips) := by
  have whole := Cuts.filter_append_filter_not (ordered_entries valid (downward_isBelow center true))
  simp only [isBelow, if_true] at whole
  rw [from_center valid center] at whole
  rw [ranking, unskipped]
  conv_rhs => rw [← whole, filter_append, filter_append]
  rw [filter_reverse]
  generalize (map.entries.filter fun entry => decide (entry.1 = center)).filter (fun entry => !skips entry.2) = same
  generalize (map.entries.filter fun entry => decide (entry.1 < center)).filter (fun entry => !skips entry.2) = left
  generalize (map.entries.filter fun entry => !decide (entry.1 ≤ center)).filter (fun entry => !skips entry.2) = right
  have merged : (same ++ List.merge left.reverse right (closer center)).Perm (same ++ (left.reverse ++ right)) :=
    (merge_perm_append _).append_left same
  have turned : (same ++ (left.reverse ++ right)).Perm (same ++ (left ++ right)) :=
    ((reverse_perm left).append_right right).append_left same
  have swapped : (same ++ (left ++ right)).Perm (left ++ (same ++ right)) := by
    rw [← append_assoc, ← append_assoc]
    exact perm_append_comm.append_right right
  exact (merged.trans turned).trans swapped

theorem ranking_ordered : (map.ranking center skips).Pairwise fun first second => closer center first second = true := by
  have atCenter : ∀ entry ∈ (map.entries.filter fun entry => decide (entry.1 = center)).filter (fun entry => !skips entry.2),
      entry.1 = center :=
    fun entry member => of_decide_eq_true (mem_filter.mp (mem_of_mem_filter member)).2
  -- what is at the center is closer than anything
  have nearest : ∀ first second : ℚ × Nat, first.1 = center → closer center first second = true := by
    intro first second same
    rw [closer_iff, same, sub_self, abs_zero]
    rcases (abs_nonneg (center - second.1)).eq_or_lt with zero | away
    · exact .inr ⟨zero, (sub_eq_zero.mp (abs_eq_zero.mp zero.symm)).le⟩
    · exact .inl away
  rw [ranking, pairwise_append]
  refine ⟨?_, ?_, fun first member second _ => nearest first second (atCenter first member)⟩
  · exact pairwise_of_forall_mem_list fun first member second _ => nearest first second (atCenter first member)
  · refine pairwise_merge closer_trans closer_total _ _ ?_ ?_
    · have descending := pairwise_reverse.mpr (Pairwise.filter (fun entry : ℚ × Nat => decide (entry.1 < center)) valid.ordered)
      refine Pairwise.filter _ (descending.imp_of_mem fun {first second} inFirst inSecond below => ?_)
      have left := of_decide_eq_true (mem_filter.mp (mem_reverse.mp inFirst)).2
      have left' := of_decide_eq_true (mem_filter.mp (mem_reverse.mp inSecond)).2
      rw [closer_iff, abs_of_pos (sub_pos.mpr left), abs_of_pos (sub_pos.mpr left')]
      rcases below.eq_or_lt with same | less
      · exact .inr ⟨by rw [same], same.ge⟩
      · exact .inl (sub_lt_sub_left less center)
    · have ascending := Pairwise.filter (fun entry : ℚ × Nat => !decide (entry.1 ≤ center)) valid.ordered
      refine Pairwise.filter _ (ascending.imp_of_mem fun {first second} inFirst inSecond below => ?_)
      have right : center < first.1 := by simpa using (mem_filter.mp inFirst).2
      have right' : center < second.1 := by simpa using (mem_filter.mp inSecond).2
      rw [closer_iff, abs_of_neg (sub_neg.mpr right), abs_of_neg (sub_neg.mpr right')]
      rcases below.eq_or_lt with same | less
      · exact .inr ⟨by rw [same], same.le⟩
      · exact .inl (neg_lt_neg (sub_lt_sub_left less center))

end Ranking

structure Nearest (map : RangedMap) (center : ℚ) (topk : Nat) (skips : Nat → Bool) (taken : List (ℚ × Nat)) : Prop where
  rows : ∀ entry ∈ taken, map.valueOf entry.2 = some entry.1 ∧ skips entry.2 = false
  once : (taken.map Prod.snd).Nodup
  count : taken.length = min topk (map.unskipped skips).length
  ordered : taken.Pairwise fun first second => |center - first.1| ≤ |center - second.1|
  others : ∀ entry ∈ taken, ∀ other ∈ map.unskipped skips, other ∉ taken → |center - entry.1| ≤ |center - other.1|

variable {map : RangedMap} {center : ℚ} {skips : Nat → Bool} {topk : Int}

theorem distance_le {first second : ℚ × Nat} (near : closer center first second = true) :
    |center - first.1| ≤ |center - second.1| := by
  rcases (closer_iff _ _).mp near with less | ⟨same, _⟩
  · exact less.le
  · exact same.le

theorem nearest_around (valid : map.Valid) : map.Nearest center topk.toNat skips (map.around topk center skips) := by
  have perm := @ranking_perm center _ valid skips
  have ordered := @ranking_ordered center _ valid skips
  have once : ((map.ranking center skips).map Prod.snd).Nodup :=
    (perm.map Prod.snd).nodup_iff.mpr (valid.distinct.sublist (filter_sublist.map Prod.snd))
  rw [around_eq]
  refine ⟨fun entry member => ?_, ?_, ?_, ?_, fun entry member other isOther apart => ?_⟩
  · obtain ⟨inside, kept⟩ := mem_filter.mp (perm.mem_iff.mp (mem_of_mem_take member))
    exact ⟨(valid.values _ _).mpr inside, by simpa using kept⟩
  · exact once.sublist ((take_sublist _ _).map Prod.snd)
  · rw [length_take, perm.length_eq]
  · exact (ordered.sublist (take_sublist _ _)).imp distance_le
  · have later : other ∈ (map.ranking center skips).drop topk.toNat := by
      have inside := perm.mem_iff.mpr isOther
      rw [← take_append_drop topk.toNat (map.ranking center skips)] at inside
      exact (mem_append.mp inside).resolve_left apart
    rw [← take_append_drop topk.toNat (map.ranking center skips)] at ordered
    exact distance_le ((pairwise_append.mp ordered).2.2 entry member other later)

def unskippedRows (map : RangedMap) (skips : Nat → Bool) : Bitmap := ((map.unskipped skips).map Prod.snd).toFinset

end RangedMap

namespace SorterOp

open RangedMap

def aroundCenter (field : Text) (center : ℚ) (topk : Int) : SorterOp where
  type := .center1d
  fields := [field]
  orderAscs := [true]
  center1d := center
  topk := topk

variable {map : RangedMap} {center : ℚ} {skips : Nat → Bool} {topk : Int} {std : StdOrder} {field : Text}
  {groups : FieldBitmapGroupSet}

section

variable {first second : ℚ × Nat} (isFirst : map.getScoreByOffset first.2 = some first.1)
  (isSecond : map.getScoreByOffset second.2 = some second.1)

include isFirst isSecond

-- Among rows with values: farther than the other, or as far with a greater value
theorem fartherFrom_iff : fartherFrom center map true first.2 second.2 = true ↔
      |center - first.1| < |center - second.1| ∨ |center - first.1| = |center - second.1| ∧ second.1 < first.1 := by
  rw [fartherFrom, isFirst, isSecond]
  simp only [abs_sub_comm _ center]
  by_cases same : |center - first.1| = |center - second.1|
  · simp [same]
  · have apart := lt_or_gt_of_ne same
    simp [same, le_iff_lt_or_eq]

theorem not_fartherFrom (not' : fartherFrom center map true first.2 second.2 = false) :
    |center - second.1| < |center - first.1| ∨ |center - first.1| = |center - second.1| ∧ first.1 ≤ second.1 := by
  have none' := mt (@fartherFrom_iff _ center _ _ isFirst isSecond).mpr (by simp [not'])
  rw [not_or, not_and, not_lt, not_lt] at none'
  rcases none'.1.eq_or_lt with same | less
  · exact .inr ⟨same.symm, none'.2 same.symm⟩
  · exact .inl less

end

theorem score_of_mem (valid : map.Valid) {entry : ℚ × Nat} (member : entry ∈ map.entries) :
    map.getScoreByOffset entry.2 = some entry.1 := by
  have known := (valid.values entry.2 entry.1).mpr member
  rw [valueOf] at known
  rw [getScoreByOffset]
  cases there : map.offsetToValue[entry.2]? with
  | none => simp [there] at known
  | some value => simpa [there] using known

theorem strictWeak_fartherFrom (valid : map.Valid) (skips : Nat → Bool) :
    StrictWeak (fartherFrom center map true) ((map.unskippedRows skips).sort (· ≤ ·)) := by
  have row : ∀ offset ∈ (map.unskippedRows skips).sort (· ≤ ·), ∃ value, map.getScoreByOffset offset = some value := by
    intro offset member
    rw [Finset.mem_sort, unskippedRows, mem_toFinset, mem_map] at member
    obtain ⟨entry, inside, rfl⟩ := member
    exact ⟨entry.1, score_of_mem valid (mem_of_mem_filter inside)⟩
  have farther {a b : Nat} {x y : ℚ} (isFirst : map.getScoreByOffset a = some x) (isSecond : map.getScoreByOffset b = some y) :=
    @fartherFrom_iff _ center (x, a) (y, b) isFirst isSecond
  constructor
  · intro a inside
    obtain ⟨x, isX⟩ := row a inside
    have self' := farther isX isX
    simp only [lt_irrefl, and_false, or_self, iff_false, Bool.not_eq_true] at self'
    exact self'
  · intro a inA b inB c inC first second
    obtain ⟨x, isX⟩ := row a inA
    obtain ⟨y, isY⟩ := row b inB
    obtain ⟨z, isZ⟩ := row c inC
    rw [farther isX isY] at first
    rw [farther isY isZ] at second
    rw [farther isX isZ]
    rcases first with less | ⟨same, above⟩ <;> rcases second with less' | ⟨same', above'⟩
    · exact .inl (less.trans less')
    · exact .inl (less.trans_eq same')
    · exact .inl (same.trans_lt less')
    · exact .inr ⟨same.trans same', above'.trans above⟩
  · intro a inA b inB c inC first
    obtain ⟨x, isX⟩ := row a inA
    obtain ⟨y, isY⟩ := row b inB
    obtain ⟨z, isZ⟩ := row c inC
    rw [farther isX isZ] at first
    rw [farther isX isY, farther isY isZ]
    rcases first with less | ⟨same, above⟩
    · rcases lt_or_ge |center - x| |center - y| with near | far
      · exact .inl (.inl near)
      · exact .inr (.inl (far.trans_lt less))
    · rcases lt_trichotomy |center - x| |center - y| with near | same' | far
      · exact .inl (.inl near)
      · rcases lt_or_ge y x with below | beyond
        · exact .inl (.inr ⟨same', below⟩)
        · exact .inr (.inr ⟨same'.symm.trans same, above.trans_le beyond⟩)
      · exact .inr (.inl (far.trans_eq same))

theorem popped (valid : map.Valid) (skips : Nat → Bool) (lawful : std.Lawful) : ∃ entries : List (ℚ × Nat),
    std.popAll (fartherFrom center map true) ((map.unskippedRows skips).sort (· ≤ ·)) = entries.map Prod.snd ∧
      entries.Perm (map.unskipped skips) ∧ entries.Pairwise fun first second =>
        |center - second.1| < |center - first.1| ∨ |center - first.1| = |center - second.1| ∧ first.1 ≤ second.1 := by
  have once : ((map.unskipped skips).map Prod.snd).Nodup := valid.distinct.sublist (filter_sublist.map Prod.snd)
  have perm : (std.popAll (fartherFrom center map true) ((map.unskippedRows skips).sort (· ≤ ·))).Perm
      ((map.unskipped skips).map Prod.snd) := by
    refine (lawful.popAll_perm _ _).trans (perm_of_nodup_nodup_toFinset_eq (Finset.sort_nodup _ _) once ?_)
    rw [Finset.sort_toFinset, unskippedRows]
  have ordered := lawful.popAll_ordered _ _ (@strictWeak_fartherFrom _ center valid skips)
  generalize std.popAll (fartherFrom center map true) ((map.unskippedRows skips).sort (· ≤ ·)) = offsets at perm ordered
  -- each offset with its value
  have valued := perm.map fun offset => ((map.getScoreByOffset offset).getD 0, offset)
  rw [map_map] at valued
  have same : (map.unskipped skips).map ((fun offset => ((map.getScoreByOffset offset).getD 0, offset)) ∘ Prod.snd) =
      map.unskipped skips := by
    refine (map_congr_left fun entry member => ?_).trans (map_id _)
    simp only [Function.comp_apply, score_of_mem valid (mem_of_mem_filter member), Option.getD_some, id]
  rw [same] at valued
  refine ⟨_, ?_, valued, ?_⟩
  · rw [map_map]
    exact (map_id _).symm
  · rw [pairwise_map]
    refine ordered.imp_of_mem fun {first second} inFirst inSecond not' => ?_
    obtain ⟨one, memberOne, rfl⟩ := mem_map.mp (perm.mem_iff.mp inFirst)
    obtain ⟨two, memberTwo, rfl⟩ := mem_map.mp (perm.mem_iff.mp inSecond)
    have scoreOne := score_of_mem valid (mem_of_mem_filter memberOne)
    have scoreTwo := score_of_mem valid (mem_of_mem_filter memberTwo)
    simp only [scoreOne, scoreTwo, Option.getD_some]
    exact not_fartherFrom scoreOne scoreTwo not'

theorem smallBitmap_eq (valid : map.Valid) (lawful : std.Lawful) (known : groups.getRangedmap field = some map) (positive : 1 ≤ topk)
    (isInt : topk < 2 ^ 31) (skips : Nat → Bool) : ∃ (entries : List (ℚ × Nat)) (small : SorterResult),
      (aroundCenter field center topk).calcTopkResultWithSmallBitmap std groups (map.unskippedRows skips) = some small ∧
        small.scores = (entries.take topk.toNat).map (fun entry => some entry.1) ∧ entries.Perm (map.unskipped skips) ∧
          entries.Pairwise fun first second =>
            |center - second.1| < |center - first.1| ∨ |center - first.1| = |center - second.1| ∧ first.1 ≤ second.1 := by
  obtain ⟨entries, isOffsets, perm, ordered⟩ := @popped _ center _ valid skips lawful
  have conditions : (aroundCenter field center topk).conditions groups = some [(map, true)] := by
    simp [SorterOp.conditions, aroundCenter, known]
  have count : (aroundCenter field center topk).searchK = topk.toNat := by
    simp only [searchK, aroundCenter]
    omega
  have compare : (aroundCenter field center topk).later [(map, true)] = fartherFrom center map true := rfl
  have run : (aroundCenter field center topk).calcTopkResultWithSmallBitmap std groups (map.unskippedRows skips) =
      some { offsets := (entries.map Prod.snd).take topk.toNat
             scores := ((entries.map Prod.snd).take topk.toNat).map map.getScoreByOffset } := by
    rw [calcTopkResultWithSmallBitmap, conditions, Option.map_some, count, compare, isOffsets]
    rfl
  refine ⟨entries, _, run, ?_, perm, ordered⟩
  simp only
  rw [← map_take, map_map]
  refine map_congr_left fun entry member => ?_
  exact score_of_mem valid (mem_of_mem_filter (perm.mem_iff.mp (mem_of_mem_take member)))

section Insertion

variable {less : Nat → Nat → Bool} {items : List Nat}

def insertBy (less : Nat → Nat → Bool) (item : Nat) : List Nat → List Nat
  | [] => [item]
  | first :: rest => if less first item then first :: insertBy less item rest else item :: first :: rest

def sortBy (less : Nat → Nat → Bool) (items : List Nat) : List Nat := items.foldr (insertBy less) []

theorem insertBy_perm (less : Nat → Nat → Bool) (item : Nat) (items : List Nat) : (insertBy less item items).Perm (item :: items) := by
  induction items with
  | nil => exact .refl _
  | cons first rest ih =>
    rw [insertBy]
    split
    · exact (ih.cons first).trans (.swap ..)
    · exact .refl _

theorem sortBy_perm (less : Nat → Nat → Bool) (items : List Nat) : (sortBy less items).Perm items := by
  induction items with
  | nil => exact .refl _
  | cons item rest ih => exact (insertBy_perm less item _).trans (ih.cons item)

theorem insertBy_ordered {item : Nat} (strict : StrictWeak less (item :: items))
    (ordered : items.Pairwise fun first second => less second first = false) :
    (insertBy less item items).Pairwise fun first second => less second first = false := by
  induction items with
  | nil => exact pairwise_singleton ..
  | cons first rest ih =>
    obtain ⟨head, tail⟩ := pairwise_cons.mp ordered
    have firstIn : first ∈ item :: first :: rest := by simp
    rw [insertBy]
    split
    next before =>
      have fewer : StrictWeak less (item :: rest) := by
        have sub : item :: rest ⊆ item :: first :: rest := cons_subset_cons _ (subset_cons_self ..)
        exact ⟨fun a inA => strict.irrefl a (sub inA), fun a inA b inB c inC => strict.trans a (sub inA) b (sub inB) c (sub inC),
          fun a inA b inB c inC => strict.incomparable a (sub inA) b (sub inB) c (sub inC)⟩
      refine pairwise_cons.mpr ⟨fun other member => ?_, ih fewer tail⟩
      rcases mem_cons.mp ((insertBy_perm less item rest).mem_iff.mp member) with rfl | later
      · by_contra back
        rw [Bool.not_eq_false] at back
        have loop := strict.trans first firstIn other (by simp) first firstIn before back
        rw [strict.irrefl first firstIn] at loop
        cases loop
      · exact head other later
    next behind =>
      rw [Bool.not_eq_true] at behind
      refine pairwise_cons.mpr ⟨fun other member => ?_, ordered⟩
      rcases mem_cons.mp member with rfl | later
      · exact behind
      · by_contra back
        rw [Bool.not_eq_false] at back
        rcases strict.incomparable other (by simp [later]) first firstIn item (by simp) back with one | two
        · rw [head other later] at one
          cases one
        · rw [behind] at two
          cases two

theorem sortBy_ordered (strict : StrictWeak less items) : (sortBy less items).Pairwise fun first second => less second first = false := by
  induction items with
  | nil => exact .nil
  | cons item rest ih =>
    have sub : rest ⊆ item :: rest := subset_cons_self ..
    have fewer : StrictWeak less rest :=
      ⟨fun a inA => strict.irrefl a (sub inA), fun a inA b inB c inC => strict.trans a (sub inA) b (sub inB) c (sub inC),
        fun a inA b inB c inC => strict.incomparable a (sub inA) b (sub inB) c (sub inC)⟩
    have same : ∀ other, other ∈ item :: sortBy less rest → other ∈ item :: rest := fun other member =>
      ((sortBy_perm less rest).cons item).mem_iff.mp member
    have strict' : StrictWeak less (item :: sortBy less rest) :=
      ⟨fun a inA => strict.irrefl a (same a inA),
        fun a inA b inB c inC => strict.trans a (same a inA) b (same b inB) c (same c inC),
        fun a inA b inB c inC => strict.incomparable a (same a inA) b (same b inB) c (same c inC)⟩
    exact insertBy_ordered strict' (ih fewer)

end Insertion

def insertionStd : StdOrder where
  sort := sortBy
  popAll less items := (sortBy less items).reverse

theorem insertionStd_lawful : insertionStd.Lawful where
  sort_perm := sortBy_perm
  sort_ordered _ _ := sortBy_ordered
  popAll_perm less items := (reverse_perm _).trans (sortBy_perm less items)
  popAll_ordered _ _ strict := pairwise_reverse.mpr (sortBy_ordered strict)

def twoRows : RangedMap := ⟨[some 1, some 3], [⟨1, 3, {1, 0}, [1, 3], [0, 1]⟩]⟩

def twoRowGroups : FieldBitmapGroupSet :=
  { groups := (∅ : Table Text FieldBitmapGroup).insert ['n'] { kind := .rangedMap, rangedmap := some twoRows } }

end SorterOp

end LoginomDock.VectorIndex
