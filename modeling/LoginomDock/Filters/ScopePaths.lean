import LoginomDock.Filters.ScopeFilter

namespace LoginomDock.Filters

open Access (canonical cutQuery isSpace names scheme strip stripSlashes uriParts)
open List Access Text

theorem rdropWhile_split {α : Type} (test : α → Bool) (list : List α) :
    ∃ cut, list = list.rdropWhile test ++ cut ∧ ∀ item ∈ cut, test item = true :=
  ⟨list.rtakeWhile test, (rdropWhile_append_rtakeWhile ..).symm, fun _ member => mem_rtakeWhile_imp member⟩

theorem rdropWhile_append {test : Char → Bool} {front : Text} {last : Char} (kept : test last = false) (text : Text) :
    (front ++ last :: text).rdropWhile test = front ++ last :: text.rdropWhile test := by
  induction text using List.reverseRecOn with
  | nil => rw [rdropWhile_concat_neg _ _ _ (by simp [kept]), rdropWhile_nil]
  | append_singleton text char ih =>
    by_cases dropped : test char = true
    · rw [← cons_append, ← append_assoc, rdropWhile_concat_pos _ _ _ dropped, ih, rdropWhile_concat_pos _ _ _ dropped]
    · rw [← cons_append, ← append_assoc, rdropWhile_concat_neg _ _ _ dropped, rdropWhile_concat_neg _ _ _ dropped,
        append_assoc, cons_append]

def pathTail (rest : Text) : Text := ((stripSlashes (rest.rdropWhile isSpace)).rdropWhile isSpace).rdropWhile (· = '/')

theorem strip_scheme (rest : Text) : strip (scheme ++ rest) = scheme ++ rest.rdropWhile isSpace := by
  have ends : scheme ++ rest = "viking:/" ++ '/' :: rest := rfl
  rw [strip, ends, dropWhile_eq_self_iff.mpr (by simp +decide), rdropWhile_append (by decide)]
  rfl

theorem pathOf_slash (text : Text) : pathOf ('/' :: text) = '/' :: (text.rdropWhile isSpace).rdropWhile (· = '/') := by
  have stripped : strip ('/' :: text) = '/' :: text.rdropWhile isSpace := by
    have whole := @rdropWhile_append isSpace [] '/' (by decide) text
    rw [strip, dropWhile_cons_of_neg (by decide)]
    exact whole
  have normal : normalizePath ('/' :: text) = '/' :: text.rdropWhile isSpace := by
    rw [normalizePath, stripped, if_pos ⟨_, rfl⟩]
  unfold pathOf
  rw [normal]
  generalize text.rdropWhile isSpace = tail
  induction tail using List.reverseRecOn with
  | nil => rfl
  | append_singleton tail char ih =>
    by_cases slash : char = '/'
    · rw [← cons_append, rdropWhile_concat_pos _ _ _ (by simp [slash]), ih, rdropWhile_concat_pos _ _ _ (by simp [slash])]
    · rw [← cons_append, rdropWhile_concat_neg _ _ _ (by simp [slash]), rdropWhile_concat_neg _ _ _ (by simp [slash])]
      rfl

theorem uriOf_scheme (rest : Text) : uriOf (scheme ++ rest) = '/' :: pathTail rest := by
  have encoded : encodeUri (scheme ++ rest) = '/' :: stripSlashes (rest.rdropWhile isSpace) := by
    rw [encodeUri, strip_scheme, if_pos (prefix_append _ _), drop_left]
  rw [uriOf, encoded, pathOf_slash, pathTail]

theorem pathTail_split (rest : Text) : ∃ slashes ends, rest = slashes ++ pathTail rest ++ ends ∧
    (∀ char ∈ slashes, char = '/') ∧ ∀ char ∈ ends, isSpace char = true ∨ char = '/' := by
  obtain ⟨first, cutFirst, blankFirst⟩ := rdropWhile_split isSpace rest
  obtain ⟨second, cutSecond, slashSecond⟩ := rdropWhile_split (fun char => decide (char = '/')) ((rest.rdropWhile isSpace).dropWhile (· = '/'))
  obtain ⟨third, cutThird, blankThird⟩ := rdropWhile_split isSpace (stripSlashes (rest.rdropWhile isSpace))
  obtain ⟨fourth, cutFourth, slashFourth⟩ :=
    rdropWhile_split (fun char => decide (char = '/')) ((stripSlashes (rest.rdropWhile isSpace)).rdropWhile isSpace)
  refine ⟨(rest.rdropWhile isSpace).takeWhile (· = '/'), fourth ++ third ++ second ++ first, ?_, ?_, ?_⟩
  · calc rest = rest.rdropWhile isSpace ++ first := cutFirst
      _ = (rest.rdropWhile isSpace).takeWhile (· = '/') ++ (rest.rdropWhile isSpace).dropWhile (· = '/') ++ first := by
        rw [takeWhile_append_dropWhile]
      _ = (rest.rdropWhile isSpace).takeWhile (· = '/') ++ (stripSlashes (rest.rdropWhile isSpace) ++ second) ++ first := by
        rw [stripSlashes, ← cutSecond]
      _ = (rest.rdropWhile isSpace).takeWhile (· = '/') ++ ((pathTail rest ++ fourth) ++ third ++ second) ++ first := by
        rw [pathTail, ← cutFourth, ← cutThird]
      _ = _ := by simp only [append_assoc]
  · intro char member
    simpa using mem_takeWhile_imp member
  · intro char member
    simp only [mem_append] at member
    rcases member with ((member | member) | member) | member
    · exact .inr (by simpa using slashFourth char member)
    · exact .inl (blankThird char member)
    · exact .inr (by simpa using slashSecond char member)
    · exact .inl (blankFirst char member)

variable {parts : List Text}

section

variable (valid : IsNames parts) (stripped : strip (canonical parts) = canonical parts)

include valid stripped

theorem pathTail_joined :
    pathTail (joined parts) = joined parts := by
  have blank : (joined parts).rdropWhile isSpace = joined parts := by
    rw [canonical, strip_scheme] at stripped
    exact append_cancel_left stripped
  by_cases filled : parts = []
  · subst filled
    rfl
  have front : (joined parts).dropWhile (· = '/') = joined parts := by
    cases parts with
    | nil => exact absurd rfl filled
    | cons name rest =>
      obtain ⟨some', noSlash⟩ := valid name mem_cons_self
      obtain ⟨char, more, rfl⟩ := exists_cons_of_ne_nil some'
      have other : char ≠ '/' := fun same => noSlash (same ▸ mem_cons_self)
      by_cases last : rest = []
      · rw [last, joined_singleton, dropWhile_cons_of_neg (by simpa using other)]
      · rw [joined_cons last, cons_append, dropWhile_cons_of_neg (by simpa using other)]
  have back : (joined parts).rdropWhile (· = '/') = joined parts := by
    obtain ⟨init, name, rfl⟩ := (eq_nil_or_concat' parts).resolve_left filled
    obtain ⟨some', noSlash⟩ := valid name (by simp)
    obtain ⟨more, char, rfl⟩ := (eq_nil_or_concat' name).resolve_left some'
    have other : char ≠ '/' := fun same => noSlash (by simp [same])
    by_cases first : init = []
    · rw [first, nil_append, joined_singleton, rdropWhile_concat_neg _ _ _ (by simpa using other)]
    · rw [joined_append first (by simp), joined_singleton, ← cons_append, ← append_assoc,
        rdropWhile_concat_neg _ _ _ (by simpa using other)]
  rw [pathTail, blank, stripSlashes, front, back, blank, back]

theorem uriOf_canonical :
    uriOf (canonical parts) = absolute parts := by
  rw [canonical, uriOf_scheme, pathTail_joined valid stripped]
  rfl

end

def Under (root uri : Text) : Prop := Within (-1) (uriOf root) (uriOf uri)

theorem prefix_of_within {tail : Text} (valid : IsNames parts) (within : Within (-1) ('/' :: tail) (absolute parts)) :
    ∃ above, above <+: parts ∧ tail = joined above := by
  rcases within.1 with same | below
  · exact ⟨parts, prefix_rfl, (List.cons.inj same).2⟩
  rw [dirPrefix] at below
  split at below
  · rename_i top
    exact ⟨[], List.nil_prefix, (List.cons.inj top).2⟩
  · obtain ⟨more, whole⟩ := below
    have cut : joined parts = tail ++ '/' :: more := by
      simpa [absolute] using whole.symm
    have filled : parts ≠ [] := by
      rintro rfl
      simp at cut
    have segments := splitOn_append_cons_self tail more (a := '/')
    rw [← cut] at segments
    have split : parts = components tail ++ components more := (components_joined ⟨filled, valid⟩).symm.trans segments
    exact ⟨components tail, ⟨_, split.symm⟩, (joined_components tail).symm⟩

theorem within_of_prefix {above parts : List Text} (valid : IsNames parts) (starts : above <+: parts) :
    Within (-1) (absolute above) (absolute parts) := by
  refine ⟨?_, .inl (by decide)⟩
  by_cases same : above = parts
  · exact .inl (congrArg _ same)
  · have names : IsNames above := fun part member => valid part (starts.subset member)
    exact .inr ((dirPrefix_prefix_absolute names valid (Ne.symm same)).mpr starts)

theorem under_canonical_iff {root parts : List Text} (validRoot : IsNames root) (strippedRoot : strip (canonical root) = canonical root)
    (valid : IsNames parts) (stripped : strip (canonical parts) = canonical parts) :
    Under (canonical root) (canonical parts) ↔ root <+: parts := by
  rw [Under, uriOf_canonical validRoot strippedRoot, uriOf_canonical valid stripped]
  constructor
  · intro within
    obtain ⟨above, starts, same⟩ := prefix_of_within valid within
    have names : IsNames above := fun part member => valid part (starts.subset member)
    rw [absolute_injective validRoot names (congrArg ('/' :: ·) same)]
    exact starts
  · exact within_of_prefix valid

def Blank (text : Text) : Prop := ∀ char ∈ text, isSpace char = true

inductive Trimmed : List Text → List Text → Prop where
  | all {parts : List Text} (blank : ∀ part ∈ parts, Blank part) : Trimmed parts []
  | last (part : Text) {space : Text} (blank : Blank space) {others : List Text} (blanks : ∀ part ∈ others, Blank part) :
      Trimmed ((part ++ space) :: others) [part]
  | keeps (part : Text) {parts kept : List Text} (rest : Trimmed parts kept) (filled : kept ≠ []) : Trimmed (part :: parts) (part :: kept)

theorem mem_of_mem_names {text part : Text} (member : part ∈ names text) {char : Char} (inside : char ∈ part) : char ∈ text := by
  have segment := (mem_filter.mp member).1
  rw [← joined_components text]
  obtain ⟨before, after, split⟩ := append_of_mem segment
  rw [split]
  by_cases first : before = []
  · by_cases last : after = []
    · simpa [first, last] using inside
    · simp [first, joined_cons last, inside]
  · rw [joined_append first (by simp)]
    by_cases last : after = []
    · simp [last, inside]
    · simp [joined_cons last, inside]

theorem blank_names {text : Text} (blank : ∀ char ∈ text, isSpace char = true ∨ char = '/') : ∀ part ∈ names text, Blank part := by
  intro part member char inside
  exact (blank char (mem_of_mem_names member inside)).resolve_right fun slash => (isName_of_mem_names member).2 (slash ▸ inside)

theorem trimmed_joined (valid : IsNames parts) {ends : Text}
    (blank : ∀ char ∈ ends, isSpace char = true ∨ char = '/') : Trimmed (names (joined parts ++ ends)) parts := by
  induction parts with
  | nil => exact .all (blank_names blank)
  | cons part rest ih =>
    have later : IsNames rest := fun other member => valid other (mem_cons_of_mem _ member)
    obtain ⟨filled, noSlash⟩ := valid part mem_cons_self
    by_cases last : rest = []
    · subst last
      have split := (takeWhile_append_dropWhile (p := fun char => decide (char ≠ '/')) (l := ends)).symm
      obtain ⟨space, spaceEq⟩ : ∃ space, space = ends.takeWhile fun char => decide (char ≠ '/') := ⟨_, rfl⟩
      have noSlashes : '/' ∉ space := by
        rw [spaceEq]
        intro member
        simpa using mem_takeWhile_imp member
      have spaces : Blank space := by
        intro char member
        have inEnds : char ∈ ends := takeWhile_subset _ (spaceEq ▸ member)
        exact (blank char inEnds).resolve_right fun slash => noSlashes (slash ▸ member)
      have one : names (part ++ space) = [part ++ space] := by
        rw [names_of_noSlash (by simp [noSlash, noSlashes]), if_neg (by simp [filled])]
      rw [← spaceEq] at split
      rw [joined_singleton]
      cases tail : ends.dropWhile fun char => decide (char ≠ '/') with
      | nil =>
        rw [split, tail, append_nil, one]
        exact .last part spaces nofun
      | cons char more =>
        have slash : char = '/' := by
          have more' : ends.dropWhile (fun char => decide (char ≠ '/')) ≠ [] := by
            rw [tail]
            exact cons_ne_nil char more
          have stops := head_dropWhile_not (fun char => decide (char ≠ '/')) more'
          simp only [tail, head_cons] at stops
          simpa using stops
        rw [split, tail, slash, ← append_assoc, names_append_slash, one]
        refine .last part spaces (blank_names fun other member => blank other ?_)
        rw [split, tail]
        simp [member]
    · rw [joined_cons last, append_assoc, cons_append, names_append_slash, names_of_noSlash noSlash, if_neg filled]
      exact .keeps part (ih later) last

theorem names_append_slashes {slashes text : Text} (only : ∀ char ∈ slashes, char = '/') : names (slashes ++ text) = names text := by
  induction slashes with
  | nil => rfl
  | cons char rest ih =>
    have cut := names_append_slash [] (rest ++ text)
    rw [only char mem_cons_self, cons_append]
    rw [nil_append, names_nil, nil_append] at cut
    rw [cut, ih fun other member => only other (mem_cons_of_mem _ member)]

theorem Under.above {rest : Text} {parts : List Text} (valid : IsNames parts) (stripped : strip (canonical parts) = canonical parts)
    (under : Under (scheme ++ rest) (canonical parts)) : ∃ above, above <+: parts ∧ Trimmed (names rest) above := by
  rw [Under, uriOf_canonical valid stripped, uriOf_scheme] at under
  obtain ⟨above, starts, tail⟩ := prefix_of_within valid under
  refine ⟨above, starts, ?_⟩
  obtain ⟨slashes, ends, whole, onlySlashes, blank⟩ := pathTail_split rest
  rw [whole, append_assoc, names_append_slashes onlySlashes, tail]
  exact trimmed_joined (fun part member => valid part (starts.subset member)) blank

theorem blank_cutQuery (blank : ∀ part ∈ parts, Blank part) : ∀ part ∈ cutQuery parts, Blank part := by
  induction parts with
  | nil => exact forall_mem_nil _
  | cons first rest ih =>
    have own := blank first mem_cons_self
    rw [cutQuery]
    split
    · split
      · exact forall_mem_nil _
      · intro part member char inside
        rw [mem_singleton.mp member] at inside
        exact own char (takeWhile_subset _ inside)
    · intro part member
      rcases mem_cons.mp member with rfl | later
      · exact own
      · exact ih (fun other inside => blank other (mem_cons_of_mem _ inside)) part later

theorem not_mem_blank {space : Text} (blank : Blank space) : '?' ∉ space := fun query => absurd (blank _ query) (by decide)

section

variable {segments above parts more : List Text} {root : Text} (trimmed : Trimmed segments above)

include trimmed

theorem first_of_cut (starts : above <+: parts) (plain : ∀ first ∈ parts.head?, '?' ∉ first) (cut : cutQuery segments = root :: more)
    (solid : ∃ last ∈ root.getLast?, isSpace last = false) : ∃ below, parts = root :: below ∧
      ((∀ part ∈ more, Blank part) ∨ ∃ rest kept, Trimmed rest kept ∧ kept ≠ [] ∧ kept <+: below ∧ more = cutQuery rest) := by
  obtain ⟨last, ends, notSpace⟩ := solid
  obtain ⟨after, rfl⟩ := starts
  cases trimmed with
  | all blank =>
    have rootBlank := blank_cutQuery blank root (by rw [cut]; exact mem_cons_self)
    rw [rootBlank last (mem_of_getLast? ends)] at notSpace
    cases notSpace
  | @last part space blank others blanks =>
    have noQuery : '?' ∉ part := plain part rfl
    rw [cutQuery, if_neg (by simp [noQuery, not_mem_blank blank])] at cut
    obtain ⟨rfl, rfl⟩ := List.cons.inj cut
    refine ⟨after, ?_, .inl (blank_cutQuery blanks)⟩
    rcases eq_nil_or_concat' space with rfl | ⟨front, final, rfl⟩
    · rw [append_nil]
      rfl
    · rw [← append_assoc, getLast?_concat, Option.mem_some] at ends
      rw [← ends, blank final (by simp)] at notSpace
      cases notSpace
  | @keeps part rest kept inner filled =>
    rw [cutQuery, if_neg (plain part rfl)] at cut
    obtain ⟨rfl, rfl⟩ := List.cons.inj cut
    exact ⟨kept ++ after, rfl, .inr ⟨rest, kept, inner, filled, prefix_append _ _, rfl⟩⟩

theorem second_of_cut (filled : above ≠ [])
    (starts : above <+: parts) (cut : cutQuery segments = root :: more) :
    ∃ own rest, parts = own :: rest ∧ ('?' ∈ own ∧ beforeQuery own = root ∨ ∃ space, Blank space ∧ own ++ space = root) := by
  have known {own : Text} {others : List Text} (whole : cutQuery (own :: others) = root :: more) :
      '?' ∈ own ∧ beforeQuery own = root ∨ '?' ∉ own ∧ own = root := by
    rw [cutQuery] at whole
    split at whole
    · rename_i query
      split at whole
      · cases whole
      · exact .inl ⟨query, (List.cons.inj whole).1⟩
    · rename_i plain
      exact .inr ⟨plain, (List.cons.inj whole).1⟩
  cases trimmed with
  | all => exact absurd rfl filled
  | @last part space blank others blanks =>
    obtain ⟨rest, rfl⟩ := starts
    refine ⟨part, rest, rfl, ?_⟩
    rcases known cut with ⟨query, before⟩ | ⟨plain, whole⟩
    · have inside : '?' ∈ part := (mem_append.mp query).resolve_right (not_mem_blank blank)
      rw [beforeQuery_append_of_mem inside] at before
      exact .inl ⟨inside, before⟩
    · exact .inr ⟨space, blank, whole⟩
  | @keeps part rest kept inner more' =>
    obtain ⟨tail, rfl⟩ := starts
    refine ⟨part, kept ++ tail, rfl, ?_⟩
    rcases known cut with found | ⟨plain, whole⟩
    · exact .inl found
    · exact .inr ⟨[], forall_mem_nil _, by rw [append_nil, whole]⟩

end

end LoginomDock.Filters
