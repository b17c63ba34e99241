import LoginomDock.Access.Namespace

/-! A user reaches the space of another one exactly when the identifiers are so long that their shortened components
clash. -/

namespace LoginomDock.Access

open List Text

-- What an identifier is made of; the pattern lets a line feed pass at the end.
def IdChar (char : Char) : Prop := isPartChar char = true ∨ char = '\n'

theorem isPartChar_ascii {char : Char} (part : isPartChar char = true) :
    char.utf8Size = 1 ∧ char ≠ '/' ∧ char ≠ '?' ∧ char ≠ '\\' ∧ char ≠ ':' := by
  have small : char.val.toNat ≤ 127 := (bounds_of_alphanum part (by simp)).2.trans (by decide)
  refine ⟨if_pos (UInt32.le_iff_toNat_le.mpr small), ?_, ?_, ?_, ?_⟩
  all_goals
    rintro rfl
    exact absurd part (by decide)

theorem idChar_ascii {char : Char} (id : IdChar char) :
    char.utf8Size = 1 ∧ char ≠ '/' ∧ char ≠ '?' ∧ char ≠ '\\' ∧ char ≠ ':' := by
  rcases id with part | rfl
  · exact isPartChar_ascii part
  · decide

structure IsId (id : Text) : Prop where
  chars : ∀ char ∈ id, IdChar char
  filled : id ≠ []
  here : id ≠ ['.']
  up : id ≠ ['.', '.']

variable {id : Text}

theorem isId_of_valid {partName : String} (valid : validateIdentifierPart id partName = none) : IsId id := by
  rw [validateIdentifierPart] at valid
  split at valid
  · cases valid
  next filled =>
    split at valid
    · cases valid
    next dots =>
      split at valid
      · cases valid
      next matched =>
        refine ⟨?_, filled, fun same => dots (.inl same), fun same => dots (.inr same)⟩
        intro char member
        have pattern : matchesPattern id = true := by simpa using matched
        rw [matchesPattern] at pattern
        have all := (Bool.and_eq_true_iff.mp pattern).2
        rw [all_eq_true] at all
        by_cases ends : id.getLast? = some '\n'
        · rw [if_pos ends] at all
          rw [← dropLast_append_getLast? _ ends] at member
          rcases mem_append.mp member with inner | last
          · exact .inl (all char inner)
          · exact .inr (mem_singleton.mp last)
        · rw [if_neg ends] at all
          exact .inl (all char member)

theorem IsId.ascii (valid : IsId id) : ∀ char ∈ id, char.utf8Size = 1 :=
  fun char member => (idChar_ascii (valid.chars char member)).1

theorem IsId.isName (valid : IsId id) : IsName id :=
  ⟨valid.filled, fun slash => (idChar_ascii (valid.chars _ slash)).2.1 rfl⟩

theorem IsId.noQuery (valid : IsId id) : '?' ∉ id := fun query => (idChar_ascii (valid.chars _ query)).2.2.1 rfl

variable {component : Text}

theorem shortenComponent_isName (isName : IsName component) : IsName (shortenComponent component) := by
  by_cases short : component.encode.length ≤ maxFilenameBytes
  · rw [shortenComponent_short short]
    exact isName
  · obtain ⟨kept, cut⟩ := shortenComponent_long (not_le.mp short)
    rw [cut.shape]
    refine ⟨by simp, fun slash => ?_⟩
    rcases mem_append.mp slash with front | digits
    · exact isName.2 (mem_of_mem_take front)
    · rcases mem_cons.mp digits with same | digit
      · exact absurd same (by decide)
      · exact absurd (hexdigest_mem component _ (mem_of_mem_take digit)) (by decide)

theorem isNames_shorten {parts : List Text} (valid : IsNames parts) : IsNames (parts.map shortenComponent) := by
  intro part member
  obtain ⟨component, inside, rfl⟩ := mem_map.mp member
  exact shortenComponent_isName (valid component inside)

theorem length_encode_shorten (component : Text) : (shortenComponent component).encode.length ≤ maxFilenameBytes := by
  by_cases short : component.encode.length ≤ maxFilenameBytes
  · rwa [shortenComponent_short short]
  · obtain ⟨kept, cut⟩ := shortenComponent_long (not_le.mp short)
    have fits := cut.fits
    rw [cut.shape, encode_append, List.length_append, length_encode_hashSuffix, maxFilenameBytes]
    omega

theorem query_mem_shorten (query : component.head? = some '?') : '?' ∈ shortenComponent component := by
  obtain ⟨rest, rfl⟩ : ∃ rest, component = '?' :: rest := by
    cases component with
    | nil => cases query
    | cons char rest =>
      cases query
      exact ⟨rest, rfl⟩
  by_cases short : (encode ('?' :: rest)).length ≤ maxFilenameBytes
  · rw [shortenComponent_short short]
    exact mem_cons_self
  · obtain ⟨kept, cut⟩ := shortenComponent_long (not_le.mp short)
    cases kept with
    | zero =>
      have next := cut.next
      rw [show List.take (0 + 1) ('?' :: rest) = ['?'] from rfl] at next
      exact absurd next (by decide)
    | succ kept =>
      rw [cut.shape, take_succ_cons]
      exact mem_cons_self

theorem eq_of_shorten_eq {component name : Text} (few : name.length < 9) (same : shortenComponent component = name) :
    component = name := by
  by_cases short : component.encode.length ≤ maxFilenameBytes
  · rwa [shortenComponent_short short] at same
  · obtain ⟨kept, cut⟩ := shortenComponent_long (not_le.mp short)
    rw [cut.shape] at same
    have length := congrArg List.length same
    simp [length_hexdigest] at length
    omega

theorem noQuery_shorten (valid : IsId id) : '?' ∉ shortenComponent id := by
  by_cases short : id.encode.length ≤ maxFilenameBytes
  · rw [shortenComponent_short short]
    exact valid.noQuery
  · obtain ⟨kept, cut⟩ := shortenComponent_long (not_le.mp short)
    rw [cut.shape]
    intro query
    rcases mem_append.mp query with front | digits
    · exact valid.noQuery (mem_of_mem_take front)
    · rcases mem_cons.mp digits with same | digit
      · exact absurd same (by decide)
      · exact absurd (hexdigest_mem id _ (mem_of_mem_take digit)) (by decide)

theorem length_le_encode (text : Text) : text.length ≤ text.encode.length := by
  induction text with
  | nil => exact le_rfl
  | cons char rest ih =>
    have one := Char.utf8Size_pos char
    rw [length_encode_cons, length_cons]
    omega

theorem Shortened.kept_ascii {kept count : Nat} (cut : Shortened component kept)
    (ascii : ∀ char ∈ component.take count, char.utf8Size = 1) (further : kept < count) : kept = 246 := by
  have length : (component.take (kept + 1)).length = kept + 1 := by
    rw [length_take]
    have inside := cut.inside
    omega
  have exact' : (encode (component.take (kept + 1))).length = kept + 1 := by
    rw [length_encode_ascii, length]
    exact fun char member => ascii char (take_subset_take_left _ further member)
  have least := length_le_encode (component.take kept)
  rw [length_take_of_le cut.inside.le] at least
  have fits := cut.fits
  have next := cut.next
  omega

def Clash (first second : Text) : Prop :=
  (maxFilenameBytes < second.encode.length ∧ first = shortenComponent second) ∨
    ∃ component, (component = first ∨ (first ++ ['?']) <+: component ∧ '/' ∉ component ∧ '\\' ∉ component) ∧
      maxFilenameBytes < component.encode.length ∧ 246 ≤ first.length ∧
        shortenComponent second = first.take 246 ++ '_' :: (hexdigest component).take 8

theorem shorten_reached {first component : Text} (valid : IsId first) (reached : component = first ∨ (first ++ ['?']) <+: component)
    (long : maxFilenameBytes < component.encode.length) (some' : 246 ≤ first.length) :
    shortenComponent component = first.take 246 ++ '_' :: (hexdigest component).take 8 := by
  obtain ⟨kept, cut⟩ := shortenComponent_long long
  have starts : first <+: component := by
    rcases reached with rfl | ⟨rest, rfl⟩
    · exact prefix_rfl
    · exact (prefix_append _ _).trans (prefix_append _ _)
  obtain ⟨rest, rfl⟩ := starts
  have same : ∀ count ≤ first.length, (first ++ rest).take count = first.take count :=
    fun count less => take_append_of_le_length less
  have all : kept = 246 := by
    by_cases less : kept < 246
    · refine @Shortened.kept_ascii _ _ 246 cut ?_ less
      rw [same 246 some']
      exact fun char member => valid.ascii char (mem_of_mem_take member)
    · have least := length_le_encode ((first ++ rest).take kept)
      rw [length_take_of_le cut.inside.le] at least
      have fits := cut.fits
      omega
  rw [cut.shape, all, same 246 some']

theorem clash_of_same {first second component : Text} (validFirst : IsId first) (validSecond : IsId second)
    (different : first ≠ second) (reached : component = first ∨ (first ++ ['?']) <+: component ∧ '/' ∉ component ∧ '\\' ∉ component)
    (same : shortenComponent component = shortenComponent second) : Clash first second := by
  have noQuery := noQuery_shorten validSecond
  rw [← same] at noQuery
  by_cases short : component.encode.length ≤ maxFilenameBytes
  · rw [shortenComponent_short short] at same noQuery
    rcases reached with rfl | ⟨⟨rest, rfl⟩, -⟩
    · refine .inl ⟨?_, same⟩
      by_contra few
      rw [shortenComponent_short (not_lt.mp few)] at same
      exact different same
    · simp at noQuery
  · have long := not_le.mp short
    obtain ⟨kept, cut⟩ := shortenComponent_long long
    -- the question mark is not kept
    have inside : kept ≤ first.length ∧ ∀ char ∈ component.take (kept + 1), char.utf8Size = 1 := by
      rcases reached with rfl | ⟨⟨rest, rfl⟩, -⟩
      · exact ⟨cut.inside.le, fun char member => validFirst.ascii char (mem_of_mem_take member)⟩
      · have less : kept ≤ first.length := by
          by_contra more
          refine noQuery ?_
          rw [cut.shape]
          refine mem_append_left _ ?_
          have whole : first ++ ['?'] <+: (first ++ ['?'] ++ rest).take kept :=
            prefix_take_iff.mpr ⟨prefix_append _ _, by simp; omega⟩
          exact whole.subset (by simp)
        refine ⟨less, fun char member => ?_⟩
        rw [take_append_of_le_length (by simp; omega)] at member
        rcases mem_append.mp (mem_of_mem_take member) with front | query
        · exact validFirst.ascii char front
        · rw [mem_singleton.mp query]
          decide
    have all := cut.kept_ascii inside.2 (Nat.lt_succ_self _)
    refine .inr ⟨component, reached, long, all ▸ inside.1, ?_⟩
    rw [← same]
    exact shorten_reached validFirst (reached.imp_right And.left) long (all ▸ inside.1)

def AtOrBelow (path root : Text) : Prop := path = root ∨ root ++ ['/'] <+: path

theorem localPath_eq (accountId : Text) (parts : List Text) (filled : parts ≠ []) :
    localPath accountId parts = absolute ("local" :: accountId :: parts) := by
  rw [absolute, joined_cons (by simp), joined_cons filled]
  rfl

theorem uriToPath_absolute {isalpha : Char → Bool} {accountId uri path : Text} (done : uriToPath isalpha accountId uri = .ok path) :
    ∃ parts, safeUriParts isalpha uri = .ok parts ∧
      path = absolute ("local" :: accountId :: parts.map shortenComponent) := by
  obtain ⟨parts, safe, -, same⟩ := uriToPath_ok_iff.mp done
  refine ⟨parts, safe, ?_⟩
  by_cases empty : parts = []
  · rw [same, if_pos empty, empty, absolute, map_nil, joined_cons (by simp), joined_singleton]
    rfl
  · rw [same, if_neg empty, localPath_eq _ _ (by simpa using empty)]

theorem atOrBelow_absolute {first second : List Text} (validFirst : IsNames first) (validSecond : IsNames second)
    (filled : second ≠ []) : AtOrBelow (absolute first) (absolute second) ↔ second <+: first := by
  rw [AtOrBelow, absolute_inj validFirst validSecond]
  by_cases same : first = second
  · simp [same]
  · have root := mt (absolute_eq_root validSecond).mp filled
    have dir := dirPrefix_prefix_absolute validSecond validFirst same
    rw [dirPrefix, if_neg root] at dir
    rw [dir]
    simp [same]

theorem isId_account {accountId : Text} (valid : validateAccountId accountId = none) : IsId accountId := by
  rw [validateAccountId] at valid
  split at valid
  · cases valid
  next part => exact isId_of_valid part

def Confined (isalpha : Char → Bool) (accountId : Text) : Prop :=
  ∀ uri path, uriToPath isalpha accountId uri = .ok path →
    AtOrBelow path ("/local/" ++ accountId) ∧ ['.', '.'] ∉ components path

theorem confined (isalpha : Char → Bool) {accountId : Text} (valid : validateAccountId accountId = none) :
    Confined isalpha accountId := by
  intro uri path done
  have account := isId_account valid
  obtain ⟨parts, safe, rfl⟩ := uriToPath_absolute done
  have fine := isName_of_safe safe
  have stored : IsNames ("local" :: accountId :: parts.map shortenComponent) := by
    intro part member
    rcases mem_cons.mp member with rfl | member
    · decide
    · rcases mem_cons.mp member with rfl | member
      · exact account.isName
      · exact isNames_shorten (fun part inside => (fine part inside).1) part member
  have root : absolute ["local", accountId] = "/local/" ++ accountId := by
    rw [absolute, joined_cons (by simp), joined_singleton]
    rfl
  constructor
  · rw [← root]
    exact (atOrBelow_absolute stored (fun part member => stored part (by simp at member ⊢; tauto)) (by simp)).mpr ⟨_, rfl⟩
  · rw [components_absolute ⟨by simp, stored⟩]
    intro up
    simp only [mem_cons, mem_map] at up
    rcases up with same | same | same | ⟨component, inside, same⟩
    · cases same
    · exact absurd same (by decide)
    · exact account.up same.symm
    · exact (fine component inside).2.2.1 (eq_of_shorten_eq (by decide) same)

def userRoot (userId : Text) : Text := scheme ++ "user/" ++ userId

theorem names_userRoot (isName : IsName component) :
    names ("user/".toList ++ component) = ["user".toList, component] := by
  have split := names_append_slash "user" component
  rw [names_of_noSlash isName.2, if_neg isName.1] at split
  exact split

theorem uriToPath_userRoot (isalpha : Char → Bool) (accountId : Text) (isName : IsName component)
    (safe : ∀ uri, unsafePart isalpha uri component = none) : uriToPath isalpha accountId (userRoot component) =
      .ok (absolute ["local", accountId, "user", shortenComponent component]) := by
  have parts : safeUriParts isalpha (userRoot component) = .ok ["user", component] := by
    refine safeUriParts_ok_iff.mpr ⟨"user/" ++ component, by rw [userRoot, append_assoc], (names_userRoot isName).symm, ?_⟩
    intro part member
    rcases mem_cons.mp member with rfl | last
    · rfl
    · rw [mem_singleton.mp last]
      exact safe _
  have short : shortenComponent "user" = "user" := shortenComponent_short (by decide)
  refine uriToPath_ok_iff.mpr ⟨_, parts, fun same => absurd (Option.some.inj same) (by decide), ?_⟩
  rw [if_neg (by simp), localPath_eq _ _ (by simp), map_cons, map_singleton, short]

def SpacesApart (classes : CharClasses) (accountId first second : Text) : Prop :=
  ∀ (ctx : RequestContext) (uri path root : Text), ctx.user.accountId = accountId → ctx.user.userId = first → ctx.role ≠ .root →
    isAccessible classes uri ctx = .ok true → uriToPath classes.isalpha accountId uri = .ok path →
      uriToPath classes.isalpha accountId (userRoot second) = .ok root → ¬ AtOrBelow path root

theorem unsafePart_reached {isalpha : Char → Bool} {first component : Text} (valid : IsId first)
    (reached : component = first ∨ (first ++ ['?']) <+: component ∧ '/' ∉ component ∧ '\\' ∉ component) (uri : Text) :
    unsafePart isalpha uri component = none := by
  have plain : '\\' ∉ first := fun member => (idChar_ascii (valid.chars _ member)).2.2.2.1 rfl
  have noColon : ':' ∉ first ++ ['?'] := by
    intro member
    rcases mem_append.mp member with inner | query
    · exact (idChar_ascii (valid.chars _ inner)).2.2.2.2 rfl
    · exact absurd (mem_singleton.mp query) (by decide)
  have least := length_pos_iff.mpr valid.filled
  have fine : component ≠ ['.'] ∧ component ≠ ['.', '.'] ∧ '\\' ∉ component ∧ component[1]? ≠ some ':' := by
    rcases reached with rfl | ⟨starts, -, noBackslash⟩
    · refine ⟨valid.here, valid.up, plain, fun colon => noColon (mem_append_left _ (mem_of_getElem? colon))⟩
    · have query : '?' ∈ component := starts.subset (by simp)
      refine ⟨fun same => ?_, fun same => ?_, noBackslash, fun colon => ?_⟩
      · simp [same] at query
      · simp [same] at query
      · obtain ⟨rest, rfl⟩ := starts
        rw [getElem?_append_left (by simp; omega)] at colon
        exact noColon (mem_of_getElem? colon)
  rw [unsafePart, if_neg (by simp [fine.1, fine.2.1]), if_neg fine.2.2.1, if_neg fun drive => fine.2.2.2 drive.1]

theorem isAccessible_userRoot (classes : CharClasses) (ctx : RequestContext) (alone : ctx.actorPeer = none) (isName : IsName component) (safe : ∀ uri, unsafePart classes.isalpha uri component = none)
    (owner : cutQuery [component] = [ctx.user.userId]) : isAccessible classes (userRoot component) ctx = .ok true := by
  have root : userRoot component = scheme ++ ("user/" ++ component) := by rw [userRoot, append_assoc]
  have parts : safeUriParts classes.isalpha (userRoot component) = .ok ["user", component] := by
    refine safeUriParts_ok_iff.mpr ⟨_, root, (names_userRoot isName).symm, ?_⟩
    intro part member
    rcases mem_cons.mp member with rfl | last
    · rfl
    · rw [mem_singleton.mp last]
      exact safe _
  have segments : uriParts (userRoot component) = .ok ["user".toList, ctx.user.userId] := by
    rw [root, uriParts_scheme, names_userRoot isName, cutQuery, if_neg (by decide), owner]
  have scope : vikingScope (userRoot component) = .ok "user".toList := by
    have starts : scheme.isPrefixOf (scheme ++ ("user/" ++ component)) = true := by simp
    have some' : stripSlashes ("user/" ++ component) ≠ [] := by
      intro nothing
      have cut := names_stripSlashes ("user/" ++ component)
      rw [nothing, names_userRoot isName] at cut
      cases cut
    rw [root, vikingScope, starts, drop_left]
    dsimp only
    rw [if_neg (by decide), if_neg some']
    rfl
  have resolved : ∃ uri, resolveUri (userRoot component) = .ok ⟨uri, "user", some ctx.user.userId, false⟩ := by
    rw [resolveUri, scope, ok_bind, segments]
    dsimp only [ok_bind]
    rw [if_pos rfl, resolveUserUri]
    dsimp only
    rw [ctx.user.validUser]
    exact ⟨_, rfl⟩
  obtain ⟨uri, resolved⟩ := resolved
  have hidden : isHiddenByActorPeerView (userRoot component) ctx = .ok false := by
    rw [isHiddenByActorPeerView, actorPeerViewUserSuffix, alone]
    rfl
  have control : isWatchTaskControlUri (userRoot component) = .ok false := by
    rw [isWatchTaskControlUri, segments]
    rfl
  have accessible : namespaceIsAccessible (userRoot component) ctx = .ok true := by
    rw [namespaceIsAccessible, resolved]
    split
    · rfl
    · simp
  rw [isAccessible, parts, ok_bind, hidden]
  split
  · rfl
  · rw [ok_bind, if_neg (by decide)]
    dsimp only
    rw [control, ok_bind, if_neg (by decide), if_neg (by decide), if_neg (by decide), if_neg (by decide), if_neg (by decide),
      if_neg (by decide)]
    exact accessible

theorem beforeQuery_prefix (query : '?' ∈ component) : beforeQuery component ++ ['?'] <+: component := by
  induction component with
  | nil => cases query
  | cons char rest ih =>
    by_cases same : char = '?'
    · rw [same, beforeQuery, takeWhile_cons_of_neg (by simp)]
      exact ⟨rest, rfl⟩
    · have later := ih ((mem_cons.mp query).resolve_left (Ne.symm same))
      rw [beforeQuery, takeWhile_cons_of_pos (by simpa using same), cons_append]
      exact prefix_cons_iff.mpr (.inr ⟨_, rfl, later⟩)

theorem resolveUserUri_owner {scope userId : Text} {suffix : List Text} {target : ResolvedNamespace}
    (resolved : resolveUserUri (scope :: userId :: suffix) = .ok target) :
    target.scope = "user" ∧ target.ownerUserId = some userId := by
  rw [resolveUserUri] at resolved
  split at resolved
  · cases resolved
  · split at resolved
    · obtain ⟨_, -, same⟩ := bind_ok_iff.mp resolved
      cases same
      exact ⟨rfl, rfl⟩
    · cases resolved
      exact ⟨rfl, rfl⟩

theorem reached_of_namespace {ctx : RequestContext} {rest component : Text} {more : List Text}
    (parts : names rest = "user".toList :: component :: more) (notRoot : ctx.role ≠ .root)
    (granted : namespaceIsAccessible (scheme ++ rest) ctx = .ok true) :
    component.head? = some '?' ∨ component = ctx.user.userId ∨ (ctx.user.userId ++ ['?']) <+: component := by
  rw [namespaceIsAccessible, if_neg notRoot] at granted
  split at granted
  · cases granted
  · cases granted
  next target resolved =>
    rw [resolveUri, bind_ok_iff] at resolved
    obtain ⟨scope, -, resolved⟩ := resolved
    rw [uriParts_scheme, ok_bind, parts, cutQuery, if_neg (by decide)] at resolved
    dsimp only at resolved
    rw [if_pos rfl, cutQuery] at resolved
    -- the owner is what stands before the query
    have own : ∀ {owner : Text} {suffix : List Text}, resolveUserUri ("user".toList :: owner :: suffix) = .ok target →
        owner = ctx.user.userId := by
      intro owner suffix resolved
      obtain ⟨scope, owned⟩ := resolveUserUri_owner resolved
      rw [scope, owned, if_neg (by decide), if_neg (by decide), if_pos rfl] at granted
      simpa using granted
    by_cases query : '?' ∈ component
    · rw [if_pos query] at resolved
      have starts := beforeQuery_prefix query
      split at resolved
      next empty =>
        rw [empty] at starts
        obtain ⟨after, rfl⟩ := starts
        exact .inl rfl
      next => exact .inr (.inr (own resolved ▸ starts))
    · rw [if_neg query] at resolved
      exact .inr (.inl (own resolved))

theorem reached_of_isAccessible {classes : CharClasses} {ctx : RequestContext} {rest component : Text} {more : List Text}
    (parts : names rest = "user".toList :: component :: more) (notRoot : ctx.role ≠ .root)
    (granted : isAccessible classes (scheme ++ rest) ctx = .ok true) :
    component.head? = some '?' ∨ component = ctx.user.userId ∨ (ctx.user.userId ++ ['?']) <+: component := by
  rw [isAccessible, bind_ok_iff] at granted
  obtain ⟨split, safe, granted⟩ := granted
  obtain ⟨other, same, rfl, -⟩ := safeUriParts_ok_iff.mp safe
  rw [← append_cancel_left same, parts, if_neg notRoot, bind_ok_iff] at granted
  obtain ⟨hidden, -, granted⟩ := granted
  split at granted
  · cases granted
  · dsimp only at granted
    rw [bind_ok_iff] at granted
    obtain ⟨control, -, granted⟩ := granted
    split at granted
    · cases granted
    · rw [if_neg (by decide), if_neg (by decide), if_neg (by decide), if_neg (by decide), if_neg (by decide)] at granted
      exact reached_of_namespace parts notRoot granted

section

variable (classes : CharClasses) {accountId first second : Text} (validAccount : validateAccountId accountId = none)
  (validFirst : validateUserId first = none) (validSecond : validateUserId second = none)

include classes validAccount validFirst validSecond

theorem overlap_of_clash (clash : Clash first second) : ¬ SpacesApart classes accountId first second := by
  have idFirst := isId_of_valid validFirst
  have idSecond := isId_of_valid validSecond
  obtain ⟨component, reached, same⟩ : ∃ component,
      (component = first ∨ (first ++ ['?']) <+: component ∧ '/' ∉ component ∧ '\\' ∉ component) ∧
        shortenComponent component = shortenComponent second := by
    rcases clash with ⟨long, rfl⟩ | ⟨component, reached, long, some', same⟩
    · exact ⟨shortenComponent second, .inl rfl, shortenComponent_short (length_encode_shorten second)⟩
    · exact ⟨component, reached, (shorten_reached idFirst (reached.imp_right And.left) long some').trans same.symm⟩
  have isName : IsName component := by
    rcases reached with rfl | ⟨⟨rest, rfl⟩, noSlash, -⟩
    · exact idFirst.isName
    · exact ⟨by simp, noSlash⟩
  have safe := @unsafePart_reached classes.isalpha _ _ idFirst reached
  have owner : cutQuery [component] = [first] := by
    rcases reached with rfl | ⟨⟨rest, rfl⟩, -⟩
    · simp [cutQuery, idFirst.noQuery]
    · have cut : beforeQuery (first ++ ['?'] ++ rest) = first := by
        rw [append_assoc, singleton_append, beforeQuery_cut, beforeQuery_of_notMem idFirst.noQuery]
      rw [cutQuery, cut, if_pos (by simp), if_neg idFirst.filled]
  let ctx : RequestContext := ⟨⟨accountId, first, validAccount, validFirst⟩, .user, [], none, false⟩
  intro apart
  refine apart ctx (userRoot component) _ _ rfl rfl (show Role.user ≠ .root by decide) (isAccessible_userRoot classes ctx rfl isName safe owner)
    (uriToPath_userRoot classes.isalpha accountId isName safe)
    (uriToPath_userRoot classes.isalpha accountId idSecond.isName (unsafePart_reached idSecond (.inl rfl))) ?_
  rw [same]
  exact .inl rfl

theorem user_spaces_apart_iff (different : first ≠ second) :
    (SpacesApart classes accountId first second ∧ Confined classes.isalpha accountId) ↔ ¬ Clash first second := by
  have idFirst := isId_of_valid validFirst
  have idSecond := isId_of_valid validSecond
  have account := (isId_account validAccount).isName
  constructor
  · rintro ⟨apart, -⟩ clash
    exact overlap_of_clash classes validAccount validFirst validSecond clash apart
  · intro noClash
    refine ⟨?_, confined classes.isalpha validAccount⟩
    intro ctx uri path root own user notRoot granted done rooted below
    rw [uriToPath_userRoot classes.isalpha accountId idSecond.isName (unsafePart_reached idSecond (.inl rfl))] at rooted
    cases rooted
    obtain ⟨parts, safe, rfl⟩ := uriToPath_absolute done
    have stored : IsNames ("local".toList :: accountId :: parts.map shortenComponent) := by
      intro part member
      rcases mem_cons.mp member with rfl | member
      · decide
      · rcases mem_cons.mp member with rfl | member
        · exact account
        · exact isNames_shorten (fun part inside => (isName_of_safe safe part inside).1) part member
    have theirs : IsNames ["local".toList, accountId, "user".toList, shortenComponent second] := by
      intro part member
      simp only [mem_cons, not_mem_nil, or_false] at member
      rcases member with rfl | rfl | rfl | rfl
      · decide
      · exact account
      · decide
      · exact shortenComponent_isName idSecond.isName
    have starts := (atOrBelow_absolute stored theirs (by simp)).mp below
    obtain ⟨rest, rfl, rfl, each⟩ := safeUriParts_ok_iff.mp safe
    -- the two components that lead to the space of the second user
    obtain ⟨component, more, split, same⟩ : ∃ component more, names rest = "user".toList :: component :: more ∧
        shortenComponent component = shortenComponent second := by
      obtain ⟨tail, same⟩ := starts
      cases split : names rest with
      | nil => simp [split] at same
      | cons scope others =>
        cases others with
        | nil => simp [split] at same
        | cons component more =>
          rw [split] at same
          simp only [cons_append, map_cons, List.cons.injEq, true_and] at same
          exact ⟨component, more, by rw [eq_of_shorten_eq (by decide) same.1.symm], same.2.1.symm⟩
    have member : component ∈ names rest := by simp [split]
    have fine := isName_of_safe safe component member
    rcases reached_of_isAccessible split notRoot granted with query | reached
    · -- a component that starts with the query is not shortened to an identifier
      refine noQuery_shorten idSecond ?_
      rw [← same]
      exact query_mem_shorten query
    · rw [user] at reached
      exact noClash (clash_of_same idFirst idSecond different
        (reached.imp_right fun starts => ⟨starts, fine.1.2, fine.2.2.2⟩) same)

end

theorem not_clash_of_short {first second : Text} (shortFirst : first.length < 246) (shortSecond : second.encode.length ≤ maxFilenameBytes) :
    ¬ Clash first second := by
  rintro (⟨long, -⟩ | ⟨-, -, -, long, -⟩)
  · exact absurd shortSecond (not_le.mpr long)
  · omega

theorem user_spaces_apart_alice_bob :
    let classes : CharClasses := ⟨Char.isAlpha, Char.isDigit⟩
    SpacesApart classes "acct" "alice" "bob" ∧ Confined classes.isalpha "acct" :=
  (user_spaces_apart_iff _ (by decide) (by decide) (by decide) (by decide)).mpr (not_clash_of_short (by decide) (by decide))

/-- The identifier of 256 letters is stored under the name of another valid identifier. -/
theorem user_spaces_overlap_long :
    let classes : CharClasses := ⟨Char.isAlpha, Char.isDigit⟩
    let first := List.replicate 256 'a'
    let second := List.replicate 246 'a' ++ "_02d7160d"
    validateUserId first = none ∧ validateUserId second = none ∧ first ≠ second ∧
      ¬ (SpacesApart classes "acct" first second ∧ Confined classes.isalpha "acct") := by
  intro classes first second
  have validFirst : validateUserId first = none := by decide +kernel
  have validSecond : validateUserId second = none := by decide +kernel
  have stored : shortenComponent second = first.take 246 ++ '_' :: (hexdigest first).take 8 := by decide +kernel
  have clash : Clash first second := .inr ⟨first, .inl rfl, by decide +kernel, by decide +kernel, stored⟩
  have different : first ≠ second := fun same => absurd (congrArg List.length same) (by decide +kernel)
  exact ⟨validFirst, validSecond, different, fun apart =>
    overlap_of_clash classes (by decide) validFirst validSecond clash apart.1⟩

end LoginomDock.Access
