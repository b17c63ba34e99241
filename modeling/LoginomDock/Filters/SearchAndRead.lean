import LoginomDock.Filters.ReadableRecords

namespace LoginomDock.Filters

open Access Access.AclManager List Text

variable {V : Type} [DecidableEq V] {yes : V} {classes : CharClasses} {ctx : RequestContext} {meets : Comparison V} {absent : Bool}

theorem satisfies_and (fields : Text → FieldValue V) (conds : List (FilterExpr V)) :
    satisfies meets absent fields (.and conds) = true ↔ ∀ cond ∈ conds, satisfies meets absent fields cond = true := by
  rw [satisfies, satisfiesAll_eq, all_eq_true]

variable {fields : Text → FieldValue V}

theorem satisfies_or {conds : List (FilterExpr V)} (given : ∀ cond ∈ conds, counts cond = true) :
    satisfies meets absent fields (.or conds) = true ↔ ∃ cond ∈ conds, satisfies meets absent fields cond = true := by
  rw [satisfies, satisfiesAny_eq, any_eq_true]
  refine exists_congr fun cond => and_congr_left fun _ => ?_
  rw [counted, mem_filter]
  refine and_iff_left_of_imp fun member => ?_
  have some' := given cond member
  cases cond with
  | noCondition => cases some'
  | _ => rfl

theorem satisfies_of_not_counts {filter : FilterExpr V} (dropped : counts filter = false) :
    satisfies meets absent fields filter = true := by
  unfold counts at dropped
  split at dropped
  · rfl
  · rfl
  · cases dropped

theorem satisfies_mergeFilters {filters : List (FilterExpr V)} {merged : FilterExpr V}
    (done : mergeFilters filters = some merged) :
    satisfies meets absent fields merged = true ↔ ∀ filter ∈ filters, satisfies meets absent fields filter = true := by
  have kept : (∀ filter ∈ filters, satisfies meets absent fields filter = true) ↔
      ∀ filter ∈ filters.filter counts, satisfies meets absent fields filter = true := by
    constructor
    · exact fun all filter member => all filter (mem_filter.mp member).1
    · intro all filter member
      cases counted : counts filter with
      | true => exact all filter (mem_filter.mpr ⟨member, counted⟩)
      | false => exact satisfies_of_not_counts counted
  rw [kept]
  unfold mergeFilters at done
  split at done
  · cases done
  · rename_i single
    cases done
    simp [single]
  · cases done
    exact satisfies_and fields _

section Conditions

variable (indexed : IndexedRecord yes classes)

theorem satisfies_inScope (root : Text) :
    satisfies meets absent indexed.fields (inScope root) = true ↔ Under root indexed.record.uri := by
  have uri : "uri".toList ∈ uriFieldNames := by decide
  rw [inScope, satisfies, indexed.uri, lies, decide_eq_true_iff, placeOf, placeOf, if_pos uri, if_pos uri, Under]

theorem satisfies_scopes (roots : List Text) :
    satisfies meets absent indexed.fields (.or (roots.map inScope)) = true ↔ ∃ root ∈ roots, Under root indexed.record.uri := by
  have given : ∀ cond ∈ roots.map (inScope : Text → FilterExpr V), counts cond = true := by
    intro cond member
    obtain ⟨root, -, rfl⟩ := mem_map.mp member
    rfl
  rw [satisfies_or given]
  constructor
  · rintro ⟨cond, member, holds⟩
    obtain ⟨root, inside, rfl⟩ := mem_map.mp member
    exact ⟨root, inside, (satisfies_inScope indexed root).mp holds⟩
  · rintro ⟨root, inside, under⟩
    exact ⟨inScope root, mem_map_of_mem inside, (satisfies_inScope indexed root).mpr under⟩

theorem satisfies_accountIs : satisfies meets absent indexed.fields (accountIs ctx) = true ↔ indexed.accountId = ctx.user.accountId := by
  have plain : "account_id".toList ∉ uriFieldNames := by decide
  rw [accountIs, satisfies, equals, if_neg plain, indexed.account]
  simp [valueMatches]

theorem satisfies_notAclEnabled : satisfies meets absent indexed.fields (notAclEnabled yes) = true ↔ indexed.record.aclEnabled = false := by
  have plain : "acl_enabled".toList ∉ uriFieldNames := by decide
  rw [notAclEnabled, satisfies, normalizeFilterPayload, matchesFilter, encodeConds, if_neg plain, mustMatch, if_neg plain, indexed.enabled]
  simp

theorem satisfies_direct (tokens : List Text) : satisfies meets absent indexed.fields (grantsAmong "acl_direct_grants" tokens) = true ↔
    ∃ token ∈ tokens, token ∈ indexed.record.directGrants := by
  have plain : "acl_direct_grants".toList ∉ uriFieldNames := by decide
  rw [grantsAmong, satisfies, any_map, any_eq_true]
  refine exists_congr fun token => and_congr_right fun _ => ?_
  rw [Function.comp_apply, equals, if_neg plain, indexed.direct, decide_eq_true_iff]

theorem satisfies_inherited (tokens : List Text) : satisfies meets absent indexed.fields (grantsAmong "acl_inherited_grants" tokens) = true ↔
    ∃ token ∈ tokens, token ∈ indexed.record.inheritedGrants := by
  have plain : "acl_inherited_grants".toList ∉ uriFieldNames := by decide
  rw [grantsAmong, satisfies, any_map, any_eq_true]
  refine exists_congr fun token => and_congr_right fun _ => ?_
  rw [Function.comp_apply, equals, if_neg plain, indexed.inherited, decide_eq_true_iff]

end Conditions

section Places

variable {uri : Text} {parts : List Text} (stored : Stored classes uri parts)

include stored

theorem under_iff {root : List Text} (valid : IsNames root) (stripped : strip (canonical root) = canonical root) :
    Under (canonical root) uri ↔ root <+: parts := by
  have own := stored.stripped
  rw [stored.spelled] at own ⊢
  exact under_canonical_iff valid stripped stored.names own

theorem under_resources_iff : Under resourcesRoot uri ↔ ∃ below, parts = "resources".toList :: below := by
  have root : resourcesRoot = canonical ["resources".toList] := by decide
  rw [root, under_iff stored (by decide) (by decide)]
  exact exists_congr fun below => eq_comm

theorem Stored.first_plain : ∀ first ∈ parts.head?, '?' ∉ first := by
  intro first member
  cases parts with
  | nil => cases member
  | cons scope below =>
    cases member
    exact plain_of_visitable stored.known

theorem Under.cut {target root : Text} {more : List Text} (under : Under target uri) (read : uriParts target = .ok (root :: more))
    (solid : ∃ last ∈ root.getLast?, isSpace last = false) : ∃ below, parts = root :: below ∧
      ((∀ part ∈ more, Blank part) ∨ ∃ rest kept, Trimmed rest kept ∧ kept ≠ [] ∧ kept <+: below ∧ more = cutQuery rest) := by
  obtain ⟨rest, rfl, cut⟩ := uriParts_ok_iff.mp read
  have own := stored.stripped
  rw [stored.spelled] at own under
  obtain ⟨above, starts, trimmed⟩ := Under.above stored.names own under
  exact first_of_cut trimmed starts stored.first_plain cut.symm solid

end Places

theorem not_isSpace_of_part {char : Char} (part : isPartChar char = true) : isSpace char = false := by
  have bounds := bounds_of_alphanum part (by simp)
  simp only [isSpace, mem_cons, not_mem_nil, or_false, decide_eq_false_iff_not]
  omega

theorem body_of_valid {id : Text} (valid : validateUserId id = none) :
    ∃ body, (id = body ∨ id = body ++ ['\n']) ∧ body ≠ [] ∧ ∀ char ∈ body, isPartChar char = true := by
  rw [validateUserId, validateIdentifierPart] at valid
  split at valid
  · cases valid
  · split at valid
    · cases valid
    · split at valid
      · cases valid
      · rename_i matched
        have pattern : matchesPattern id = true := by simpa using matched
        rw [matchesPattern] at pattern
        obtain ⟨filled, all⟩ := Bool.and_eq_true_iff.mp pattern
        by_cases ends : id.getLast? = some '\n'
        · rw [if_pos ends] at filled all
          exact ⟨id.dropLast, .inr (dropLast_append_getLast? _ ends).symm, of_decide_eq_true filled, all_eq_true.mp all⟩
        · rw [if_neg ends] at filled all
          exact ⟨id, .inl rfl, of_decide_eq_true filled, all_eq_true.mp all⟩

theorem id_not_blank (ctx : RequestContext) : ¬ Blank ctx.user.userId := by
  intro blank
  obtain ⟨body, whole, filled, parts⟩ := body_of_valid ctx.user.validUser
  obtain ⟨char, member⟩ := exists_mem_of_ne_nil _ filled
  have inside : char ∈ ctx.user.userId := by
    rcases whole with same | same
    · rw [same]
      exact member
    · rw [same]
      exact mem_append_left _ member
  have space := blank char inside
  rw [not_isSpace_of_part (parts char member)] at space
  cases space

theorem solid_of_spaced {id own space : Text} (valid : validateUserId id = none) (filled : space ≠ []) (whole : own ++ space = id) :
    own.rdropWhile isSpace = own := by
  obtain ⟨body, shape, -, parts⟩ := body_of_valid valid
  rw [rdropWhile_eq_self_iff]
  intro some' last
  have inside : own.getLast some' ∈ id.dropLast := by
    rw [← whole, dropLast_append_of_ne_nil filled]
    exact mem_append_left _ (getLast_mem some')
  have member : own.getLast some' ∈ body := by
    rcases shape with same | same
    · rw [same] at inside
      exact dropLast_subset _ inside
    · rwa [same, dropLast_concat] at inside
  rw [not_isSpace_of_part (parts _ member)] at last
  cases last

def InOwnSpace (ctx : RequestContext) (uri : Text) : Prop :=
  Under (canonicalUserRoot ctx) uri ∨ ∃ path, uriParts uri = .ok path ∧ path.take 2 = ["user".toList, ctx.user.userId]

theorem userRoot_parts (ctx : RequestContext) : uriParts (canonicalUserRoot ctx) = .ok ["user", ctx.user.userId] := by
  have id := isId_of_valid ctx.user.validUser
  have root : canonicalUserRoot ctx = canonical ["user", ctx.user.userId] := by
    rw [canonicalUserRoot, userRoot, canonical, joined_cons (by simp), joined_singleton, append_assoc]
    rfl
  have plain : Plain ["user", ctx.user.userId] := by
    intro part member
    rcases mem_cons.mp member with rfl | inside
    · decide
    · rw [mem_singleton.mp inside]
      exact ⟨id.isName, id.noQuery⟩
  rw [root, uriParts_canonical plain]

theorem rdropWhile_append_all {test : Char → Bool} {text ends : Text} (all : ∀ char ∈ ends, test char = true) :
    (text ++ ends).rdropWhile test = text.rdropWhile test := by
  induction ends using List.reverseRecOn with
  | nil => rw [append_nil]
  | append_singleton ends char ih =>
    rw [← append_assoc, rdropWhile_concat_pos _ _ _ (all char (by simp))]
    exact ih fun other member => all other (by simp [member])

theorem uriOf_userRoot {own space : Text} (whole : own ++ space = ctx.user.userId) (blank : Blank space) (filled : space ≠ [])
    (isName : IsName own) : uriOf (canonicalUserRoot ctx) = absolute ["user", own] := by
  have solid := solid_of_spaced ctx.user.validUser filled whole
  have names : IsNames ["user", own] := by
    intro part member
    rcases mem_cons.mp member with rfl | inside
    · decide
    · rw [mem_singleton.mp inside]
      exact isName
  have joined : Text.joined ["user", own] = "user" ++ '/' :: own := by
    rw [joined_cons (by simp), joined_singleton]
  have stripped : strip (canonical ["user", own]) = canonical ["user", own] := by
    rw [canonical, strip_scheme, joined, rdropWhile_append (by decide), solid]
  have root : canonicalUserRoot ctx = scheme ++ (Text.joined ["user", own] ++ space) := by
    rw [canonicalUserRoot, userRoot, ← whole, joined]
    simp
  have cut : pathTail (Text.joined ["user", own] ++ space) = pathTail (Text.joined ["user", own]) := by
    rw [pathTail, rdropWhile_append_all blank]
    rfl
  rw [root, uriOf_scheme, cut, pathTail_joined names stripped]
  rfl

section OwnSpace

variable {uri : Text} {parts : List Text} (stored : Stored classes uri parts)

include stored

section

variable {target : Text} {more : List Text} (under : Under target uri)
  (read : uriParts target = .ok ("user".toList :: ctx.user.userId :: more))

include under read

theorem own_segment : ∃ own rest, parts = "user".toList :: own :: rest ∧
      ('?' ∈ own ∧ beforeQuery own = ctx.user.userId ∨ ∃ space, Blank space ∧ own ++ space = ctx.user.userId) := by
  obtain ⟨below, rfl, blank | ⟨segments, kept, trimmed, filled, starts, cut⟩⟩ := under.cut stored read ⟨_, rfl, rfl⟩
  · exact absurd (blank _ mem_cons_self) (id_not_blank ctx)
  · obtain ⟨own, rest, rfl, found⟩ := second_of_cut trimmed filled starts cut.symm
    exact ⟨own, rest, rfl, found⟩

theorem inOwnSpace_of_under : InOwnSpace ctx uri := by
  obtain ⟨own, rest, rfl, found⟩ := own_segment stored under read
  have id := isId_of_valid ctx.user.validUser
  have isName := stored.names own (by simp)
  have segments := stored.read_cons
  rcases found with ⟨query, before⟩ | ⟨space, blank, whole⟩
  · right
    refine ⟨_, segments, ?_⟩
    rw [cutQuery, if_pos query, before, if_neg id.filled]
    rfl
  · by_cases none : space = []
    · right
      refine ⟨_, segments, ?_⟩
      rw [none, append_nil] at whole
      rw [cutQuery, if_neg (whole ▸ id.noQuery), whole]
      rfl
    · left
      have own' := stored.stripped
      rw [stored.spelled] at own' ⊢
      rw [Under, uriOf_userRoot whole blank none isName, uriOf_canonical stored.names own']
      exact within_of_prefix stored.names ⟨rest, rfl⟩

end

theorem InOwnSpace.segments (inside : InOwnSpace ctx uri) :
    ∃ below owner suffix, parts = "user".toList :: below ∧ uriParts uri = .ok ("user".toList :: owner :: suffix) := by
  have id := isId_of_valid ctx.user.validUser
  rcases inside with under | ⟨path, read, two⟩
  · obtain ⟨own, rest, rfl, found⟩ := own_segment stored under (userRoot_parts ctx)
    have segments := stored.read_cons
    rw [cutQuery] at segments
    split at segments
    · rename_i query
      have before : beforeQuery own = ctx.user.userId := by
        rcases found with ⟨-, same⟩ | ⟨space, -, whole⟩
        · exact same
        · exact absurd (whole ▸ mem_append_left space query) id.noQuery
      rw [before, if_neg id.filled] at segments
      exact ⟨_, _, _, rfl, segments⟩
    · exact ⟨_, _, _, rfl, segments⟩
  · have read' := stored.read
    rw [read] at read'
    obtain rfl := Except.ok.inj read'
    cases parts with
    | nil => cases two
    | cons scope below =>
      rw [cutQuery_cons (plain_of_visitable stored.known)] at two read
      cases rest : cutQuery below with
      | nil =>
        rw [rest] at two
        cases two
      | cons owner suffix =>
        rw [rest] at two read
        obtain ⟨rfl, -⟩ := List.cons.inj two
        exact ⟨below, owner, suffix, rfl, read⟩

theorem Owned.user (owned : Owned ctx uri) : ∃ below owner suffix, parts = "user".toList :: below ∧
    uriParts uri = .ok ("user".toList :: owner :: suffix) := by
  obtain ⟨target, resolved, owner⟩ := owned
  rw [resolveUri, bind_ok_iff] at resolved
  obtain ⟨-, -, resolved⟩ := resolved
  cases parts with
  | nil =>
    rw [stored.read, ok_bind] at resolved
    cases resolved
    cases owner
  | cons scope below =>
    rw [stored.read_cons, ok_bind] at resolved
    dsimp only at resolved
    split at resolved
    · rename_i isUser
      subst isUser
      have read := stored.read_cons
      cases rest : cutQuery below with
      | nil =>
        rw [rest] at resolved
        cases resolved
        cases owner
      | cons own suffix =>
        rw [rest] at read
        exact ⟨below, own, suffix, rfl, read⟩
    · split at resolved
      · cases resolved
      · split at resolved
        · cases resolved
        · cases resolved
          cases owner

variable (nonroot : ctx.role ≠ .root) (alone : ctx.actorPeer = none) (control : isWatchTaskControlUri uri = .ok false)

include nonroot alone control

theorem accessible_of_owned (owned : Owned ctx uri) : isAccessible classes uri ctx = .ok true := by
  obtain ⟨below, owner, suffix, rfl, read⟩ := owned.user stored
  rw [isAccessible_user nonroot alone stored control]
  exact (accessible_iff_owned read nonroot).mpr owned

theorem owned_of_accessible (inside : InOwnSpace ctx uri) (accessible : isAccessible classes uri ctx = .ok true) : Owned ctx uri := by
  obtain ⟨below, owner, suffix, rfl, read⟩ := inside.segments stored
  rw [isAccessible_user nonroot alone stored control] at accessible
  exact (accessible_iff_owned read nonroot).mp accessible

omit nonroot alone in
theorem reads_of_accessible {store : ContextStore} (enabled : Bool) (accessible : isAccessible classes uri ctx = .ok true)
    (other : ∀ below, parts ≠ "resources".toList :: below) (filled : parts ≠ []) : Reads classes store ctx enabled uri := by
  cases enabled with
  | false => exact (reads_disabled stored).mpr accessible
  | true =>
    obtain ⟨scope, below, rfl⟩ := exists_cons_of_ne_nil filled
    exact (reads_unlisted stored (fun same => other below (same ▸ rfl)) control).mpr accessible

end OwnSpace

end LoginomDock.Filters
