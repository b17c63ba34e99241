import LoginomDock.Filters.FilterExpr

/-! The expression is given a meaning of its own, by its constructors, and the payload is compared with it, at the
expression and at every part of it. -/

namespace LoginomDock.Filters

open Access (strip stripSlashes scheme names)
open List

variable {V : Type}

def uriOf (value : Text) : Text := pathOf (encodeUri value)

-- The path is the root or lies at most so many segments below it; a negative depth is no limit.
def Within (depth : Int) (root path : Text) : Prop :=
  (root = path ∨ Text.dirPrefix root <+: path) ∧ (depth < 0 ∨ ((names path).length : Int) ≤ (names root).length + depth)

instance (depth : Int) (root path : Text) : Decidable (Within depth root path) := inferInstanceAs (Decidable ((_ ∨ _) ∧ (_ ∨ _)))

def placeOf (field value : Text) : Text := if field ∈ uriFieldNames then uriOf value else pathOf value

def sameUri : FieldValue V → Scalar V → Bool
  | .scalar (.text value), .text expected => uriOf value = uriOf expected
  | _, _ => false

def equals [DecidableEq V] (field : Text) (value : FieldValue V) (expected : Scalar V) : Bool :=
  if field ∈ uriFieldNames then sameUri value expected else valueMatches value [expected]

def lies (field path : Text) (depth : Int) : FieldValue V → Bool
  | .scalar (.text value) => Within depth (placeOf field path) (placeOf field value)
  | _ => false

section Meaning

variable [DecidableEq V] (meets : Comparison V) (absent : Bool)

mutual

/-- `absent` is what a `None` among the conditions of an `or` counts as. -/
def satisfies (fields : Text → FieldValue V) : FilterExpr V → Bool
  | .noCondition => true
  | .and conds => satisfiesAll fields conds
  | .or conds => satisfiesAny fields conds
  | .eq field value => equals field (fields field) value
  | .inn field values => values.any (equals field (fields field))
  | .range field bounds => inRange meets (fields field) bounds
  | .contains field substring => containsText (fields field) substring
  | .timeRange field start stop => inRange meets (fields field) { gte := start, lt := stop }
  | .rawDSL payload => matchesFilter meets fields (normalizeFilterPayload payload)
  | .pathScope field path depth => lies field path depth (fields field)

def satisfiesAll (fields : Text → FieldValue V) : List (FilterExpr V) → Bool
  | [] => true
  | cond :: rest => satisfies fields cond && satisfiesAll fields rest

def satisfiesAny (fields : Text → FieldValue V) : List (FilterExpr V) → Bool
  | [] => false
  | .noCondition :: rest => absent || satisfiesAny fields rest
  | cond :: rest => satisfies fields cond || satisfiesAny fields rest

end

end Meaning

structure StoredRecord (V : Type) where
  fields : Text → FieldValue V
  encoded : ∀ field ∈ uriFieldNames, ∀ value, fields field = .scalar (.text value) → encodeUri value = value

def KeepsMeaning [DecidableEq V] (meets : Comparison V) (absent : Bool) (expr : FilterExpr V) : Prop :=
  ∀ record : StoredRecord V, matchesFilter meets record.fields (compileFilter expr) = satisfies meets absent record.fields expr

inductive IsPart : FilterExpr V → FilterExpr V → Prop
  | self (expr : FilterExpr V) : IsPart expr expr
  | inAnd {part cond : FilterExpr V} {conds : List (FilterExpr V)} (member : cond ∈ conds) (inside : IsPart part cond) :
      IsPart part (.and conds)
  | inOr {part cond : FilterExpr V} {conds : List (FilterExpr V)} (member : cond ∈ conds) (inside : IsPart part cond) :
      IsPart part (.or conds)

section Paths

theorem mem_joined {char : Char} {parts : List Text} (member : char ∈ Text.joined parts) : char = '/' ∨ ∃ part ∈ parts, char ∈ part := by
  induction parts with
  | nil => cases member
  | cons part rest ih =>
    by_cases last : rest = []
    · rw [last, Text.joined_singleton] at member
      exact .inr ⟨part, by simp, member⟩
    · rw [Text.joined_cons last, mem_append, mem_cons] at member
      rcases member with here | slash | later
      · exact .inr ⟨part, by simp, here⟩
      · exact .inl slash
      · rcases ih later with slash | ⟨other, inside, found⟩
        · exact .inl slash
        · exact .inr ⟨other, by simp [inside], found⟩

theorem slash_of_names_nil {text : Text} (bare : names text = []) {char : Char} (member : char ∈ text) : char = '/' := by
  rw [← Text.joined_components text] at member
  rcases mem_joined member with slash | ⟨part, inside, found⟩
  · exact slash
  · have empty := filter_eq_nil_iff.mp bare part inside
    have none : part = [] := by simpa using empty
    rw [none] at found
    cases found

theorem pathOf_head (value : Text) : ∃ tail, pathOf value = '/' :: tail := by
  have rooted : ∃ tail, normalizePath value = '/' :: tail := by
    rw [normalizePath]
    split
    · rename_i starts
      obtain ⟨tail, whole⟩ := starts
      exact ⟨tail, whole.symm⟩
    · exact ⟨_, rfl⟩
  obtain ⟨tail, whole⟩ := rooted
  unfold pathOf
  dsimp only
  split
  · exact ⟨[], rfl⟩
  · rename_i filled
    obtain ⟨rest, cut⟩ := List.rdropWhile_prefix (fun char => decide (char = '/')) (normalizePath value)
    rw [whole] at cut
    cases kept : (normalizePath value).rdropWhile (· = '/') with
    | nil => exact absurd kept filled
    | cons char more =>
      rw [whole] at kept
      rw [kept, cons_append] at cut
      exact ⟨more, by rw [(List.cons.inj cut).1]⟩

theorem pathOf_last (value : Text) : pathOf value = ['/'] ∨ ∀ filled, (pathOf value).getLast filled ≠ '/' := by
  unfold pathOf
  dsimp only
  split
  · exact .inl rfl
  · right
    intro filled
    simpa using rdropWhile_last_not (fun char => decide (char = '/')) (normalizePath value) filled

theorem names_length_lt {root value : Text} (filled : root ≠ []) (apart : root ≠ pathOf value)
    (below : Text.dirPrefix root <+: pathOf value) : (names root).length < (names (pathOf value)).length := by
  obtain ⟨tail, whole⟩ := below
  have ends {start more : Text} (same : pathOf value = start ++ '/' :: more) (filled : start ≠ []) : names more ≠ [] := by
    intro bare
    rcases pathOf_last value with top | last
    · rw [same] at top
      cases start with
      | nil => exact filled rfl
      | cons char start => simp at top
    · apply last (by rw [same]; simp)
      have inside : (pathOf value).getLast (by rw [same]; simp) ∈ '/' :: more := by
        simp only [same, getLast_append_right (cons_ne_nil '/' more)]
        exact getLast_mem _
      rcases mem_cons.mp inside with slash | later
      · exact slash
      · exact slash_of_names_nil bare later
  rw [Text.dirPrefix] at whole
  split at whole
  · rename_i top
    rw [top, show names ['/'] = [] by decide, length_nil, length_pos_iff]
    intro bare
    have slashes {char : Char} (member : char ∈ pathOf value) := slash_of_names_nil bare member
    rcases pathOf_last value with same | last
    · exact apart (top.trans same.symm)
    · have filled : pathOf value ≠ [] := by rw [← whole]; simp
      exact last filled (slashes (getLast_mem filled))
  · rw [append_assoc, singleton_append] at whole
    have positive := length_pos_iff.mpr (ends whole.symm filled)
    rw [← whole, Access.names_append_slash, List.length_append]
    omega

theorem pathOf_ne_nil (value : Text) : pathOf value ≠ [] := by
  obtain ⟨tail, whole⟩ := pathOf_head value
  rw [whole]
  exact cons_ne_nil _ _

variable {value expected : Text}

theorem relativeDepth_eq_some_iff {relative : Nat} :
    relativeDepth (pathOf value) (pathOf expected) = some relative ↔
      (pathOf expected = pathOf value ∨ Text.dirPrefix (pathOf expected) <+: pathOf value) ∧
        (names (pathOf value)).length = (names (pathOf expected)).length + relative := by
  generalize whole : pathOf value = path
  generalize pathOf expected = root
  unfold relativeDepth
  split
  · rename_i same
    subst same
    simp
    omega
  rename_i apart
  split
  · rename_i top
    have starts : ['/'] <+: path := by
      obtain ⟨tail, spelled⟩ := pathOf_head value
      rw [← whole, spelled]
      exact ⟨tail, rfl⟩
    rw [top, show names ['/'] = [] by decide]
    simp [Text.dirPrefix, starts]
  rename_i notTop
  rw [Text.dirPrefix, if_neg notTop]
  split
  · rename_i below
    obtain ⟨tail, spelled⟩ := below
    have cut : path.drop (root.length + 1) = tail := by
      rw [← spelled, ← length_singleton (a := '/'), ← List.length_append, drop_left]
    have count : (names path).length = (names root).length + (names tail).length := by
      rw [← spelled, append_assoc, singleton_append, Access.names_append_slash, List.length_append]
    have starts : root ++ ['/'] <+: path := ⟨tail, spelled⟩
    simp only [cut, Option.some.injEq, starts, or_true, true_and, count]
    omega
  · rename_i outside
    simp [outside, Ne.symm apart]

theorem relativeDepth_eq_none_iff :
    relativeDepth (pathOf value) (pathOf expected) = none ↔
      ¬ (pathOf expected = pathOf value ∨ Text.dirPrefix (pathOf expected) <+: pathOf value) := by
  constructor
  · intro outside inside
    have longer : (names (pathOf expected)).length ≤ (names (pathOf value)).length := by
      by_cases same : pathOf expected = pathOf value
      · rw [same]
      · exact (names_length_lt (pathOf_ne_nil _) same (inside.resolve_left same)).le
    obtain ⟨relative, count⟩ := Nat.exists_eq_add_of_le longer
    rw [relativeDepth_eq_some_iff.mpr ⟨inside, count⟩] at outside
    cases outside
  · intro outside
    cases found : relativeDepth (pathOf value) (pathOf expected) with
    | none => rfl
    | some relative => exact absurd (relativeDepth_eq_some_iff.mp found).1 outside

theorem pathMatches_none_iff :
    pathMatches none (.scalar (.text value) : FieldValue V) (.text expected) = true ↔
      pathOf expected = pathOf value ∨ Text.dirPrefix (pathOf expected) <+: pathOf value := by
  cases found : relativeDepth (pathOf value) (pathOf expected) with
  | none => simp [pathMatches, found, relativeDepth_eq_none_iff.mp found]
  | some relative => simp [pathMatches, found, (relativeDepth_eq_some_iff.mp found).1]

theorem pathMatches_some_iff {depth : Int} :
    pathMatches (some depth) (.scalar (.text value) : FieldValue V) (.text expected) = true ↔
      Within depth (pathOf expected) (pathOf value) := by
  rw [Within]
  cases found : relativeDepth (pathOf value) (pathOf expected) with
  | none => simp [pathMatches, found, relativeDepth_eq_none_iff.mp found]
  | some relative =>
    obtain ⟨inside, count⟩ := relativeDepth_eq_some_iff.mp found
    simp only [pathMatches, found, inside, count, true_and, Bool.or_eq_true, decide_eq_true_eq]
    omega

theorem within_zero_iff {root value : Text} : Within 0 (pathOf root) (pathOf value) ↔ pathOf root = pathOf value := by
  constructor
  · rintro ⟨inside, shallow⟩
    by_contra apart
    have deeper := names_length_lt (pathOf_ne_nil _) apart (inside.resolve_left apart)
    omega
  · intro same
    rw [same]
    exact ⟨.inl rfl, .inr (by omega)⟩

theorem strip_eq_self {middle : Text} {first last : Char} (starts : Access.isSpace first = false) (ends : Access.isSpace last = false) :
    strip (first :: middle ++ [last]) = first :: middle ++ [last] := by
  rw [strip, cons_append, dropWhile_cons_of_neg (by simp [starts]), ← cons_append,
    rdropWhile_concat_neg _ _ _ (by simp [ends])]

theorem exists_below (path : Text) (others : List Text) :
    ∃ below, encodeUri below = below ∧ Text.dirPrefix (pathOf path) <+: pathOf below ∧ ∀ other ∈ others, pathOf other ≠ pathOf below := by
  obtain ⟨size, longest⟩ : ∃ size, ∀ other ∈ others, (pathOf other).length ≤ size := by
    induction others with
    | nil => exact ⟨0, by simp⟩
    | cons first rest ih =>
      obtain ⟨size, longest⟩ := ih
      refine ⟨max (pathOf first).length size, fun other member => ?_⟩
      rcases mem_cons.mp member with rfl | later
      · exact le_max_left _ _
      · exact (longest other later).trans (le_max_right _ _)
  obtain ⟨tail, rooted⟩ : ∃ tail, Text.dirPrefix (pathOf path) = '/' :: tail := by
    obtain ⟨tail, whole⟩ := pathOf_head path
    rw [Text.dirPrefix, whole]
    split
    · exact ⟨[], rfl⟩
    · exact ⟨tail ++ ['/'], rfl⟩
  obtain ⟨below, spelled⟩ : ∃ below, below = '/' :: (tail ++ List.replicate size 'a') ++ ['a'] := ⟨_, rfl⟩
  have stripped : strip below = below := by
    rw [spelled]
    exact strip_eq_self (by decide) (by decide)
  have same : pathOf below = below := by
    have normal : normalizePath below = below := by
      rw [normalizePath, stripped, if_pos ⟨_, by rw [spelled]; rfl⟩]
    rw [pathOf, normal, spelled, rdropWhile_concat_neg _ _ _ (by decide)]
    rfl
  refine ⟨below, ?_, ?_, ?_⟩
  · have plain : ¬ scheme <+: below := by
      intro starts
      have filled : scheme ≠ [] := by decide
      have first : scheme.head filled = 'v' := (by decide : ∀ filled, scheme.head filled = 'v') filled
      have heads := starts.head filled
      simp only [spelled, cons_append, head_cons, first] at heads
      exact absurd heads (by decide)
    rw [encodeUri, stripped]
    exact if_neg plain
  · rw [same, rooted]
    exact ⟨List.replicate size 'a' ++ ['a'], by simp [spelled]⟩
  · -- It is longer than all of them.
    intro other member equal
    have long := longest other member
    rw [equal, same, spelled, List.length_append, length_cons, List.length_append, length_replicate] at long
    omega

end Paths

mutual

/-- Nothing but `and`, `or` and `None`: there is no condition on any field. -/
def isBlank : FilterExpr V → Bool
  | .noCondition => true
  | .and conds => allBlank conds
  | .or conds => allBlank conds
  | .rawDSL payload => payload.isAll
  | _ => false

def allBlank : List (FilterExpr V) → Bool
  | [] => true
  | cond :: rest => isBlank cond && allBlank rest

end

def condsOf : FilterExpr V → List (FilterExpr V)
  | .and conds => conds
  | .or conds => conds
  | _ => []

theorem sizeOf_condsOf {expr cond : FilterExpr V} (member : cond ∈ condsOf expr) : sizeOf cond < sizeOf expr := by
  cases expr with
  | and conds =>
    have small : sizeOf cond < sizeOf conds := sizeOf_lt_of_mem member
    rw [FilterExpr.and.sizeOf_spec]
    omega
  | or conds =>
    have small : sizeOf cond < sizeOf conds := sizeOf_lt_of_mem member
    rw [FilterExpr.or.sizeOf_spec]
    omega
  | _ => cases member

theorem FilterExpr.byConds {motive : FilterExpr V → Prop} (step : ∀ expr, (∀ cond ∈ condsOf expr, motive cond) → motive expr)
    (expr : FilterExpr V) : motive expr :=
  step expr fun cond _ => FilterExpr.byConds step cond
termination_by sizeOf expr
decreasing_by exact sizeOf_condsOf (by assumption)

theorem isPart_iff {part expr : FilterExpr V} : IsPart part expr ↔ part = expr ∨ ∃ cond ∈ condsOf expr, IsPart part cond := by
  constructor
  · intro inside
    cases inside with
    | self => exact .inl rfl
    | inAnd member inside => exact .inr ⟨_, member, inside⟩
    | inOr member inside => exact .inr ⟨_, member, inside⟩
  · rintro (rfl | ⟨cond, member, inside⟩)
    · exact .self _
    · cases expr with
      | and conds => exact .inAnd member inside
      | or conds => exact .inOr member inside
      | _ => cases member

theorem IsPart.trans {part middle expr : FilterExpr V} (inner : IsPart part middle) (outer : IsPart middle expr) : IsPart part expr := by
  induction outer with
  | self => exact inner
  | inAnd member _ ih => exact .inAnd member ih
  | inOr member _ ih => exact .inOr member ih

theorem compileConds_eq (conds : List (FilterExpr V)) : compileConds conds = conds.map compileFilter := by
  induction conds with
  | nil => rfl
  | cons cond rest ih => rw [compileConds, ih, map_cons]

theorem allBlank_eq (conds : List (FilterExpr V)) : allBlank conds = conds.all isBlank := by
  induction conds with
  | nil => rfl
  | cons cond rest ih => rw [allBlank, ih, all_cons]

theorem isAll_normalize (payload : Payload V) : (normalizeFilterPayload payload).isAll = payload.isAll := by
  cases payload <;> rfl

theorem isAll_combined {operator : List (Payload V) → Payload V} (full : ∀ conds, (operator conds).isAll = false)
    (conds : List (Payload V)) : (combined operator conds).isAll = conds.all Payload.isAll := by
  rw [combined]
  cases kept : conds.filter fun cond => !cond.isAll with
  | nil =>
    have none := filter_eq_nil_iff.mp kept
    exact (all_eq_true.mpr fun cond member => by simpa using none cond member).symm
  | cons first rest =>
    have member : first ∈ conds.filter fun cond => !cond.isAll := by simp [kept]
    obtain ⟨inside, filled⟩ := mem_filter.mp member
    have some' : conds.all Payload.isAll = false := by
      rw [all_eq_false]
      exact ⟨first, inside, by simpa using filled⟩
    cases rest with
    | nil => simpa [some'] using filled
    | cons second rest => rw [some']; exact full _

theorem isAll_compileFilter (expr : FilterExpr V) : (compileFilter expr).isAll = isBlank expr := by
  induction expr using FilterExpr.byConds with
  | step expr ih =>
    have each (conds : List (FilterExpr V)) (inside : ∀ cond ∈ conds, (compileFilter cond).isAll = isBlank cond) :
        (compileConds conds).all Payload.isAll = allBlank conds := by
      rw [compileConds_eq, allBlank_eq, all_map, Bool.eq_iff_iff, all_eq_true, all_eq_true]
      exact forall₂_congr fun cond member => by rw [Function.comp_apply, inside cond member]
    cases expr with
    | and conds => rw [compileFilter, isAll_combined fun _ => rfl, each conds ih]; rfl
    | or conds => rw [compileFilter, isAll_combined fun _ => rfl, each conds ih]; rfl
    | rawDSL payload => exact isAll_normalize payload
    | _ => rfl

/-- The conditions of an `or` that count. -/
def counted (absent : Bool) (conds : List (FilterExpr V)) : List (FilterExpr V) :=
  conds.filter fun cond => match cond with
    | .noCondition => absent
    | _ => true

variable {conds : List (FilterExpr V)}

theorem mem_counted_of_filled {absent : Bool} {cond : FilterExpr V} (member : cond ∈ conds) (filled : isBlank cond ≠ true) :
    cond ∈ counted absent conds := by
  apply mem_filter.mpr ⟨member, ?_⟩
  cases cond with
  | noCondition => exact absurd rfl filled
  | _ => rfl

theorem uriOf_stored (record : StoredRecord V) {field value : Text} (uri : field ∈ uriFieldNames)
    (held : record.fields field = .scalar (.text value)) : uriOf value = pathOf value := by
  rw [uriOf, record.encoded field uri value held]

def bare : StoredRecord V where
  fields := fun _ => .scalar .null
  encoded := by simp

def recordOf (field value : Text) (stored : field ∈ uriFieldNames → encodeUri value = value) : StoredRecord V where
  fields := fun name => if name = field then .scalar (.text value) else .scalar .null
  encoded := by
    intro name uri other held
    by_cases same : name = field
    · subst same
      simp only [if_pos, FieldValue.scalar.injEq, Scalar.text.injEq] at held
      rw [← held]
      exact stored uri
    · simp [same] at held

@[simp] theorem recordOf_field (field value : Text) (stored : field ∈ uriFieldNames → encodeUri value = value) :
    (recordOf field value stored : StoredRecord V).fields field = .scalar (.text value) := if_pos rfl

variable [DecidableEq V] (meets : Comparison V) (absent : Bool)

-- Some condition counts, and blank ones stand beside others only where the others already hold of every record.
def OrKept (conds : List (FilterExpr V)) : Prop :=
  counted absent conds ≠ [] ∧
    ((∃ cond ∈ counted absent conds, isBlank cond) → (∃ cond ∈ conds, ¬ isBlank cond) →
      ∀ record : StoredRecord V, ∃ cond ∈ conds, ¬ isBlank cond ∧ satisfies meets absent record.fields cond)

def NodeKept : FilterExpr V → Prop
  | .or conds => OrKept meets absent conds
  | .inn field values => field ∈ uriFieldNames → ∀ text, .text text ∉ values
  | .pathScope field _ _ => field ∈ uriFieldNames
  | _ => True

variable (fields : Text → FieldValue V)

theorem matchesAll_eq (conds : List (Payload V)) :
    matchesAll meets fields conds = conds.all (matchesFilter meets fields) := by
  induction conds with
  | nil => rfl
  | cons cond rest ih => rw [matchesAll, ih, all_cons]

theorem matchesAny_eq (conds : List (Payload V)) :
    matchesAny meets fields conds = conds.any (matchesFilter meets fields) := by
  induction conds with
  | nil => rfl
  | cons cond rest ih => rw [matchesAny, ih, any_cons]

theorem satisfiesAll_eq (conds : List (FilterExpr V)) :
    satisfiesAll meets absent fields conds = conds.all (satisfies meets absent fields) := by
  induction conds with
  | nil => rfl
  | cons cond rest ih => rw [satisfiesAll, ih, all_cons]

theorem satisfiesAny_eq (conds : List (FilterExpr V)) :
    satisfiesAny meets absent fields conds = (counted absent conds).any (satisfies meets absent fields) := by
  induction conds with
  | nil => rfl
  | cons cond rest ih =>
    cases cond with
    | noCondition =>
      rw [satisfiesAny, ih, counted, counted, filter_cons]
      cases absent <;> simp [satisfies]
    | _ => exact (congrArg _ ih).trans (any_cons ..).symm

theorem matches_isAll {payload : Payload V} (all : payload.isAll = true) (fields : Text → FieldValue V) :
    matchesFilter meets fields payload = true := by
  cases payload with
  | all => rfl
  | _ => cases all

theorem matches_combined_and (conds : List (Payload V)) :
    matchesFilter meets fields (combined .and conds) = conds.all (matchesFilter meets fields) := by
  -- What is dropped holds anyway.
  have dropped : conds.all (matchesFilter meets fields) = (conds.filter fun cond => !cond.isAll).all (matchesFilter meets fields) := by
    rw [all_filter]
    refine congrArg _ (funext fun cond => ?_)
    cases all : cond.isAll
    · simp
    · simp [matches_isAll meets all]
  rw [combined, dropped]
  split
  · rename_i kept
    simp [kept, matchesFilter]
  · rename_i kept
    simp [kept]
  · rw [matchesFilter, matchesAll_eq]

theorem matches_combined_or (conds : List (Payload V)) :
    matchesFilter meets fields (combined .or conds) =
      (conds.all Payload.isAll || conds.any fun cond => !cond.isAll && matchesFilter meets fields cond) := by
  rw [← any_filter, ← isAll_combined (fun _ => rfl : ∀ conds, (Payload.or conds : Payload V).isAll = false) conds, combined]
  split
  · rfl
  · rename_i cond kept
    have filled : cond.isAll = false := by
      have member : cond ∈ conds.filter fun cond => !cond.isAll := by simp [kept]
      simpa using (mem_filter.mp member).2
    simp [kept, filled]
  · rw [matchesFilter, matchesAny_eq]
    rfl

section Operators

variable {meets absent}

theorem satisfies_blank {expr : FilterExpr V} (keeps : KeepsMeaning meets absent expr) (blank : isBlank expr = true)
    (record : StoredRecord V) : satisfies meets absent record.fields expr = true := by
  rw [← keeps record]
  exact matches_isAll meets ((isAll_compileFilter expr).trans blank) record.fields

section

variable (inside : ∀ cond ∈ conds, KeepsMeaning meets absent cond)

include inside

theorem keepsMeaning_and :
    KeepsMeaning meets absent (.and conds) := by
  intro record
  rw [compileFilter, matches_combined_and, compileConds_eq, all_map, satisfies, satisfiesAll_eq, Bool.eq_iff_iff,
    all_eq_true, all_eq_true]
  exact forall₂_congr fun cond member => by rw [Function.comp_apply, inside cond member record]

theorem matches_or (record : StoredRecord V) :
    matchesFilter meets record.fields (compileFilter (.or conds)) = true ↔
      (∀ cond ∈ conds, isBlank cond = true) ∨
        ∃ cond ∈ conds, isBlank cond ≠ true ∧ satisfies meets absent record.fields cond = true := by
  rw [compileFilter, matches_combined_or, compileConds_eq, all_map, any_map, Bool.or_eq_true, all_eq_true,
    any_eq_true]
  refine or_congr ?_ (exists_congr fun cond => and_congr_right fun member => ?_)
  · exact forall₂_congr fun cond member => by rw [Function.comp_apply, isAll_compileFilter]
  · rw [Function.comp_apply, isAll_compileFilter, inside cond member record]
    simp

theorem keepsMeaning_or_iff :
    KeepsMeaning meets absent (.or conds) ↔ OrKept meets absent conds := by
  have means (record : StoredRecord V) : satisfies meets absent record.fields (.or conds) = true ↔
      ∃ cond ∈ counted absent conds, satisfies meets absent record.fields cond = true := by
    rw [satisfies, satisfiesAny_eq, any_eq_true]
  have blankHolds {cond : FilterExpr V} (member : cond ∈ counted absent conds) (blank : isBlank cond = true)
      (record : StoredRecord V) : satisfies meets absent record.fields (.or conds) = true :=
    (means record).mpr ⟨cond, member, satisfies_blank (inside cond (mem_filter.mp member).1) blank record⟩
  constructor
  · intro keeps
    refine ⟨fun none => ?_, fun ⟨cond, member, blank⟩ ⟨other, otherMember, filled⟩ record => ?_⟩
    · have matched : matchesFilter meets (bare : StoredRecord V).fields (compileFilter (.or conds)) = true := by
        rw [matches_or inside]
        left
        intro cond member
        by_contra filled
        have found : cond ∈ counted absent conds := mem_counted_of_filled member filled
        rw [none] at found
        cases found
      rw [keeps bare, means] at matched
      obtain ⟨cond, member, -⟩ := matched
      rw [none] at member
      cases member
    · have matched := (keeps record).trans (blankHolds member blank record)
      rcases (matches_or inside record).mp matched with all | found
      · exact absurd (all other otherMember) filled
      · exact found
  · rintro ⟨some', covered⟩ record
    rw [Bool.eq_iff_iff, matches_or inside, means]
    constructor
    · rintro (all | ⟨cond, member, filled, holds⟩)
      · obtain ⟨cond, member⟩ := exists_mem_of_ne_nil _ some'
        exact (means record).mp (blankHolds member (all cond (mem_filter.mp member).1) record)
      · exact ⟨cond, mem_counted_of_filled member filled, holds⟩
    · rintro ⟨cond, member, holds⟩
      by_cases others : ∃ cond ∈ conds, isBlank cond ≠ true
      · right
        by_cases blank : isBlank cond = true
        · exact covered ⟨cond, member, blank⟩ others record
        · exact ⟨cond, (mem_filter.mp member).1, blank, holds⟩
      · left
        intro other member
        by_contra filled
        exact others ⟨other, member, filled⟩

end

theorem pathMatches_encoded (record : StoredRecord V) {field : Text} (uri : field ∈ uriFieldNames) (value : Scalar V) :
    pathMatches (some 0) (record.fields field) (encodeUriFieldValue value) = equals field (record.fields field) value := by
  rw [equals, if_pos uri]
  cases held : record.fields field with
  | list items => cases value <;> rfl
  | scalar stored =>
    cases stored with
    | null => cases value <;> rfl
    | other => cases value <;> rfl
    | text stored =>
      cases value with
      | null => rfl
      | other => rfl
      | text expected =>
        rw [encodeUriFieldValue, Bool.eq_iff_iff, pathMatches_some_iff, within_zero_iff, sameUri, decide_eq_true_iff,
          uriOf_stored record uri held, uriOf, eq_comm]

theorem keepsMeaning_eq (field : Text) (value : Scalar V) : KeepsMeaning meets absent (.eq field value) := by
  intro record
  rw [compileFilter, matchesFilter, satisfies, mustMatch, encodeConds]
  by_cases uri : field ∈ uriFieldNames
  · rw [if_pos uri, if_pos uri, if_pos uri, map_singleton, any_cons, any_nil, Bool.or_false,
      pathMatches_encoded record uri]
  · rw [if_neg uri, if_neg uri, equals, if_neg uri]

theorem valueMatches_any (value : FieldValue V) (conds : List (Scalar V)) :
    valueMatches value conds = conds.any fun cond => valueMatches value [cond] := by
  cases value <;> simp [valueMatches, any_eq]

def uriText : Scalar V → Option Text
  | .text value => some (encodeUri value)
  | _ => none

theorem keepsMeaning_inn_iff (field : Text) (values : List (Scalar V)) :
    KeepsMeaning meets absent (.inn field values) ↔ (field ∈ uriFieldNames → ∀ text, .text text ∉ values) := by
  constructor
  · intro keeps uri text member
    obtain ⟨below, stored, under, other⟩ := exists_below (encodeUri text) (values.filterMap uriText)
    have kept := keeps (recordOf field below fun _ => stored)
    have matched : matchesFilter meets (recordOf field below fun _ => stored : StoredRecord V).fields (compileFilter (.inn field values)) = true := by
      rw [compileFilter, matchesFilter, mustMatch, encodeConds, if_pos uri, if_pos uri, any_map, any_eq_true]
      refine ⟨.text text, member, ?_⟩
      rw [Function.comp_apply, recordOf_field]
      exact pathMatches_none_iff.mpr (.inr under)
    rw [kept, satisfies, any_eq_true] at matched
    obtain ⟨value, inside, same⟩ := matched
    rw [equals, if_pos uri, recordOf_field] at same
    cases value with
    | text value =>
      rw [sameUri, decide_eq_true_iff] at same
      apply other (encodeUri value) (mem_filterMap.mpr ⟨_, inside, rfl⟩)
      rw [← uriOf, ← same, uriOf, stored]
    | _ => cases same
  · intro plain record
    rw [compileFilter, matchesFilter, satisfies, mustMatch, encodeConds]
    by_cases uri : field ∈ uriFieldNames
    · rw [if_pos uri, if_pos uri, any_map, Bool.eq_iff_iff, any_eq_true, any_eq_true]
      refine exists_congr fun value => and_congr_right fun member => ?_
      cases value with
      | text value => exact absurd member (plain uri value)
      | null => simp [encodeUriFieldValue, pathMatches, sameUri, equals, uri]
      | other => simp [encodeUriFieldValue, pathMatches, sameUri, equals, uri]
    · rw [if_neg uri, if_neg uri, valueMatches_any]
      exact congrArg _ (funext fun value => (if_neg uri).symm)

theorem keepsMeaning_pathScope_iff (field path : Text) (depth : Int) :
    KeepsMeaning meets absent (.pathScope field path depth) ↔ field ∈ uriFieldNames := by
  constructor
  · intro keeps
    by_contra plain
    -- A space in front is no part of the path, but it is one of the text.
    have kept := keeps (recordOf field (' ' :: path) fun uri => absurd uri plain)
    have spaced : pathOf (' ' :: path) = pathOf path := by
      have stripped : strip (' ' :: path) = strip path := by
        rw [strip, dropWhile_cons_of_pos (by decide), ← strip]
      rw [pathOf, normalizePath, stripped, ← normalizePath, ← pathOf]
    have matched : satisfies meets absent (recordOf field (' ' :: path) fun uri => absurd uri plain : StoredRecord V).fields
        (.pathScope field path depth) = true := by
      rw [satisfies, recordOf_field, lies, decide_eq_true_iff, placeOf, placeOf, if_neg plain, if_neg plain, spaced]
      exact ⟨.inl rfl, by omega⟩
    rw [← kept, compileFilter, matchesFilter, mustMatch, encodeConds, if_neg plain, if_neg plain, recordOf_field] at matched
    simp [valueMatches] at matched
  · intro uri record
    rw [compileFilter, matchesFilter, satisfies, mustMatch, encodeConds, if_pos uri, if_pos uri, map_singleton, any_cons,
      any_nil, Bool.or_false]
    cases held : record.fields field with
    | list items => rfl
    | scalar stored =>
      cases stored with
      | null => rfl
      | other => rfl
      | text stored =>
        rw [lies, placeOf, placeOf, if_pos uri, if_pos uri, uriOf_stored record uri held, Bool.eq_iff_iff, decide_eq_true_iff]
        exact pathMatches_some_iff

theorem keepsMeaning_iff {expr : FilterExpr V} (inside : ∀ cond ∈ condsOf expr, KeepsMeaning meets absent cond) :
    KeepsMeaning meets absent expr ↔ NodeKept meets absent expr := by
  cases expr with
  | and conds => exact iff_of_true (keepsMeaning_and inside) trivial
  | or conds => exact keepsMeaning_or_iff inside
  | eq field value => exact iff_of_true (keepsMeaning_eq field value) trivial
  | inn field values => exact keepsMeaning_inn_iff field values
  | pathScope field path depth => exact keepsMeaning_pathScope_iff field path depth
  | _ => exact iff_of_true (fun _ => rfl) trivial

end Operators

theorem keepsMeaning_of_nodes {expr : FilterExpr V} (nodes : ∀ part, IsPart part expr → NodeKept meets absent part) :
    KeepsMeaning meets absent expr := by
  induction expr using FilterExpr.byConds with
  | step expr ih =>
    refine (keepsMeaning_iff fun cond member => ih cond member fun part inside => ?_).mpr (nodes expr (.self expr))
    exact nodes part (isPart_iff.mpr (.inr ⟨cond, member, inside⟩))

namespace SelectedRecords

def nothing : Comparison Unit := fun _ _ _ => none

def child : StoredRecord Unit := recordOf "uri" "/docs/a" fun _ => by decide

def docs : FilterExpr Unit := .inn "uri" [.text "viking://docs/"]

end SelectedRecords

end LoginomDock.Filters
