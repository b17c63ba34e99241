import Mathlib.Data.List.DropRight
import LoginomDock.Library.Sha256
import LoginomDock.Library.Checked

/-! A URI is split into its segments by two rules, one of which stops at the query. -/

namespace LoginomDock.Access

open List Text

/-- A `ValueError`, the `NamespaceShapeError` among them, or a denied permission -/
inductive AccessError where
  | value (message : Text)
  | namespaceShape (message : Text)
  | denied (message : Text) (resource : Text)
  deriving DecidableEq

/-- White space as `str.strip` removes it -/
def isSpace (char : Char) : Bool :=
  char.toNat ∈ [9, 10, 11, 12, 13, 28, 29, 30, 31, 32, 133, 160, 5760, 8192, 8193, 8194, 8195, 8196, 8197, 8198, 8199, 8200,
    8201, 8202, 8232, 8233, 8239, 8287, 12288]

def strip (text : Text) : Text := (text.dropWhile isSpace).rdropWhile isSpace

variable {first second : Text}

theorem dropWhile_of_prefix {test : Char → Bool} (starts : first <+: second)
    (same : second.dropWhile test = second) : first.dropWhile test = first := by
  cases first with
  | nil => rfl
  | cons char rest =>
    obtain ⟨tail, rfl⟩ := starts
    rw [cons_append] at same
    by_cases passes : test char
    · rw [dropWhile_cons_of_pos passes] at same
      have longer := (dropWhile_suffix test (l := rest ++ tail)).length_le
      rw [same, length_cons] at longer
      omega
    · rw [dropWhile_cons_of_neg passes]

theorem strip_strip (text : Text) : strip (strip text) = strip text := by
  have front := dropWhile_of_prefix (List.rdropWhile_prefix isSpace (l := text.dropWhile isSpace)) (dropWhile_idempotent ..)
  rw [strip, strip, front, rdropWhile_idempotent]

/-- The class `[a-zA-Z0-9_.@-]` -/
def isPartChar (char : Char) : Bool := char.isAlphanum || char ∈ ['_', '.', '@', '-']

-- A dollar also matches before a line feed at the end.
def matchesPattern (part : Text) : Bool :=
  let body := if part.getLast? = some '\n' then part.dropLast else part
  body ≠ [] && body.all isPartChar

def validateIdentifierPart (part : Text) (partName : String) : Option Text :=
  if part = [] then some (partName ++ " is empty").toList
  else if part = ['.'] ∨ part = ['.', '.'] then some (partName ++ " must not be '.' or '..'").toList
  else if !matchesPattern part then some (partName ++ " must be alpha_numeric string.").toList
  else if 1 < part.count '@' then some (partName ++ " must have at most one @.").toList
  else none

def validateAccountId (accountId : Text) : Option Text :=
  match validateIdentifierPart accountId "account_id" with
  | some message => some message
  | none => if accountId.head? = some '_' then some "account_id cannot start with underscore _.".toList else none

def validateUserId (userId : Text) : Option Text := validateIdentifierPart userId "user_id"

def normalizeIdentifierPart (part : Text) (partName : String) : Except AccessError (Option Text) :=
  let normalized := strip part
  if normalized = [] then .ok none
  else match validateIdentifierPart normalized partName with
    | some message => .error (.value message)
    | none => .ok (some normalized)

def normalizePeerId (peerId : Text) : Except AccessError (Option Text) :=
  match normalizeIdentifierPart peerId "peer_id" with
  | .error (.value message) => .error (.value ("Invalid peer_id: " ++ message))
  | result => result

def scheme : Text := "viking://"

def schemeMissing : AccessError := .value "URI must start with 'viking://'"

def names (text : Text) : List Text := (components text).filter fun part => part ≠ []

def stripSlashes (text : Text) : Text := (text.dropWhile (· = '/')).rdropWhile (· = '/')

def beforeQuery (text : Text) : Text := text.takeWhile (· ≠ '?')

def uriParts (uri : Text) : Except AccessError (List Text) :=
  let normalized := beforeQuery uri
  if !scheme.isPrefixOf normalized then .error schemeMissing
  else if normalized = scheme then .ok []
  else .ok (names ((normalized.rdropWhile (· = '/')).drop scheme.length))

section Storage

-- `str.isalpha` of one character
variable (isalpha : Char → Bool)

def unsafePart (uri part : Text) : Option AccessError :=
  if part = ['.'] ∨ part = ['.', '.'] then
    some (.denied ("Unsafe URI traversal segment '" ++ part ++ "' in " ++ uri) uri)
  else if '\\' ∈ part then
    some (.denied ("Unsafe URI path separator '\\\\' in component '" ++ part ++ "' of " ++ uri) uri)
  else if part[1]? = some ':' ∧ part.head?.any isalpha then
    some (.denied ("Unsafe URI drive-prefixed component '" ++ part ++ "' in " ++ uri) uri)
  else none

def safeUriParts (uri : Text) : Except AccessError (List Text) :=
  if !scheme.isPrefixOf uri then .error schemeMissing
  else
    let parts := names (stripSlashes (uri.drop scheme.length))
    match parts.findSome? (unsafePart isalpha uri) with
    | some error => .error error
    | none => .ok parts

end Storage

def maxFilenameBytes : Nat := 255

def trimmed (target : Nat) : Text → Text
  | [] => []
  | last :: rest => if target < (encode (last :: rest).reverse).length then trimmed target rest else (last :: rest).reverse

def shortenComponent (component : Text) : Text :=
  if component.encode.length ≤ maxFilenameBytes then component
  else
    let hashSuffix := (hexdigest component).take 8
    trimmed (maxFilenameBytes - (encode ('_' :: hashSuffix)).length) component.reverse ++ '_' :: hashSuffix

def isLegacyAgentId (parts : List Text) : Bool :=
  match parts with
  | scope :: agent :: _ => scope = "agent" && agent ∉ ["skills", "endpoints", "tools", "payments"].map String.toList
  | _ => false

def localPath (accountId : Text) (parts : List Text) : Text := "/local/" ++ accountId ++ '/' :: joined parts

def uriToPath (isalpha : Char → Bool) (accountId uri : Text) : Except AccessError Text := do
  let parts ← safeUriParts isalpha uri
  if parts.head? = some "session".toList then
    .error (.value ("Legacy session URI is not accepted internally: " ++ uri))
  else if isLegacyAgentId parts then .ok (localPath accountId (parts.map shortenComponent))
  else if parts = [] then .ok ("/local/" ++ accountId)
  else .ok (localPath accountId (parts.map shortenComponent))

section Names

theorem names_append_slash (first second : Text) : names (first ++ '/' :: second) = names first ++ names second := by
  have split := splitOn_append_cons_self first second (a := '/')
  rw [names, components, split, filter_append]
  rfl

@[simp] theorem names_nil : names [] = [] := by decide

theorem names_dropWhile (text : Text) : names (text.dropWhile (· = '/')) = names text := by
  induction text with
  | nil => rfl
  | cons char rest ih =>
    by_cases slash : char = '/'
    · have cut := names_append_slash [] rest
      rw [nil_append, names_nil, nil_append] at cut
      rw [slash, dropWhile_cons_of_pos (by simp), ih, cut]
    · rw [dropWhile_cons_of_neg (by simpa using slash)]

theorem names_rdropWhile (text : Text) : names (text.rdropWhile (· = '/')) = names text := by
  induction text using List.reverseRecOn with
  | nil => rfl
  | append_singleton rest char ih =>
    by_cases slash : char = '/'
    · have cut := names_append_slash rest []
      rw [names_nil, append_nil] at cut
      rw [slash, rdropWhile_concat_pos _ _ _ (by simp), ih, cut]
    · rw [rdropWhile_concat_neg _ _ _ (by simpa using slash)]

theorem names_stripSlashes (text : Text) : names (stripSlashes text) = names text := by
  rw [stripSlashes, names_rdropWhile, names_dropWhile]

theorem isName_of_mem_names {text part : Text} (member : part ∈ names text) : IsName part := by
  obtain ⟨inside, filled⟩ := mem_filter.mp member
  exact ⟨by simpa using filled, slash_not_mem_component inside⟩

theorem names_of_noSlash {text : Text} (noSlash : '/' ∉ text) : names text = if text = [] then [] else [text] := by
  have one := splitOn_intercalate '/' (by simpa using noSlash : ∀ part ∈ [text], '/' ∉ part) (by simp)
  rw [intercalate_singleton] at one
  rw [names, components, one]
  by_cases empty : text = [] <;> simp [empty]

theorem names_joined {parts : List Text} (valid : IsNames parts) : names (joined parts) = parts := by
  by_cases empty : parts = []
  · rw [empty]
    rfl
  · rw [names, components_joined ⟨empty, valid⟩, filter_eq_self]
    exact fun part member => by simpa using (valid part member).1

def cutQuery : List Text → List Text
  | [] => []
  | part :: rest => if '?' ∈ part then if beforeQuery part = [] then [] else [beforeQuery part] else part :: cutQuery rest

theorem beforeQuery_of_notMem {text : Text} (plain : '?' ∉ text) : beforeQuery text = text := by
  rw [beforeQuery, takeWhile_eq_self_iff]
  intro char member
  have other : char ≠ '?' := fun same => plain (same ▸ member)
  simpa using other

theorem beforeQuery_append (plain : '?' ∉ first) :
    beforeQuery (first ++ second) = first ++ beforeQuery second := by
  rw [beforeQuery, takeWhile_append_of_pos]
  · rfl
  · intro char member
    have other : char ≠ '?' := fun same => plain (same ▸ member)
    simpa using other

theorem beforeQuery_cut (first rest : Text) : beforeQuery (first ++ '?' :: rest) = beforeQuery first := by
  induction first with
  | nil => simp [beforeQuery]
  | cons char more ih =>
    by_cases same : char = '?'
    · simp [beforeQuery, same]
    · rw [cons_append, beforeQuery, takeWhile_cons_of_pos (by simpa using same), beforeQuery,
        takeWhile_cons_of_pos (by simpa using same)]
      exact congrArg (char :: ·) ih

theorem beforeQuery_append_of_mem (query : '?' ∈ first) :
    beforeQuery (first ++ second) = beforeQuery first := by
  obtain ⟨before, after, rfl⟩ := append_of_mem query
  rw [append_assoc, cons_append, beforeQuery_cut, beforeQuery_cut]

theorem noSlash_beforeQuery {text : Text} (noSlash : '/' ∉ text) : '/' ∉ beforeQuery text :=
  fun member => noSlash (takeWhile_subset _ member)

theorem names_beforeQuery (text : Text) : names (beforeQuery text) = cutQuery (names text) := by
  have parts : ∀ parts : List Text, parts ≠ [] → (∀ part ∈ parts, '/' ∉ part) →
      names (beforeQuery (joined parts)) = cutQuery (names (joined parts)) := by
    intro parts filled plain
    induction parts with
    | nil => exact absurd rfl filled
    | cons part rest ih =>
      have noSlash := plain part (by simp)
      by_cases last : rest = []
      · rw [last, joined_singleton, names_of_noSlash noSlash, names_of_noSlash (noSlash_beforeQuery noSlash)]
        by_cases query : '?' ∈ part
        · have filled : part ≠ [] := fun empty => by simp [empty] at query
          simp [cutQuery, query, filled]
        · rw [beforeQuery_of_notMem query]
          by_cases empty : part = [] <;> simp [cutQuery, query, empty]
      · rw [joined_cons last, names_append_slash, names_of_noSlash noSlash]
        by_cases query : '?' ∈ part
        · have filled : part ≠ [] := fun empty => by simp [empty] at query
          rw [beforeQuery_append_of_mem query, names_of_noSlash (noSlash_beforeQuery noSlash), if_neg filled]
          simp [cutQuery, query]
        · have onward : beforeQuery ('/' :: joined rest) = '/' :: beforeQuery (joined rest) :=
            takeWhile_cons_of_pos (by decide)
          rw [beforeQuery_append query, onward, names_append_slash, names_of_noSlash noSlash,
            ih last fun other member => plain other (by simp [member])]
          by_cases empty : part = [] <;> simp [cutQuery, query, empty]
  have whole := parts (components text) (components_ne_nil text) fun part => slash_not_mem_component
  rwa [joined_components] at whole

end Names

theorem scheme_prefix_beforeQuery (uri : Text) : scheme <+: beforeQuery uri ↔ scheme <+: uri := by
  constructor
  · exact fun starts => starts.trans (List.takeWhile_prefix _)
  · rintro ⟨rest, rfl⟩
    rw [beforeQuery_append (by decide)]
    exact prefix_append _ _

theorem uriParts_scheme (rest : Text) : uriParts (scheme ++ rest) = .ok (cutQuery (names rest)) := by
  have normalized : beforeQuery (scheme ++ rest) = scheme ++ beforeQuery rest := beforeQuery_append (by decide)
  have starts : scheme.isPrefixOf (scheme ++ beforeQuery rest) = true := by simp
  rw [uriParts, normalized, starts, ← names_beforeQuery]
  split
  next no => cases no
  next =>
    split
    next bare =>
      have empty : beforeQuery rest = [] := by simpa using bare
      rw [empty, names_nil]
    next =>
      congr 1
      rw [List.rdropWhile, reverse_append, dropWhile_append]
      split
      next all =>
        -- only then the slashes of the scheme itself are reached
        have nothing : (beforeQuery rest).rdropWhile (· = '/') = [] := by
          rw [List.rdropWhile, List.isEmpty_iff.mp all]
          rfl
        have cut := names_rdropWhile (beforeQuery rest)
        rw [nothing, names_nil] at cut
        rw [← cut]
        decide
      next =>
        rw [reverse_append, reverse_reverse, drop_left]
        exact names_rdropWhile (beforeQuery rest)

variable {parts : List Text}

theorem uriParts_ok_iff {uri : Text} :
    uriParts uri = .ok parts ↔ ∃ rest, uri = scheme ++ rest ∧ parts = cutQuery (names rest) := by
  constructor
  · intro done
    by_cases starts : scheme <+: uri
    · obtain ⟨rest, rfl⟩ := starts
      rw [uriParts_scheme] at done
      cases done
      exact ⟨rest, rfl, rfl⟩
    · have no : scheme.isPrefixOf (beforeQuery uri) = false := by
        rw [← Bool.not_eq_true, List.isPrefixOf_iff_prefix, scheme_prefix_beforeQuery]
        exact starts
      rw [uriParts] at done
      simp [no] at done
  · rintro ⟨rest, rfl, rfl⟩
    exact uriParts_scheme rest

section

variable {isalpha : Char → Bool}

theorem safeUriParts_ok_iff {uri : Text} :
    safeUriParts isalpha uri = .ok parts ↔
      ∃ rest, uri = scheme ++ rest ∧ parts = names rest ∧ ∀ part ∈ parts, unsafePart isalpha uri part = none := by
  rw [safeUriParts]
  by_cases starts : scheme <+: uri
  · obtain ⟨rest, rfl⟩ := starts
    have yes : scheme.isPrefixOf (scheme ++ rest) = true := by simp
    rw [yes, drop_left, names_stripSlashes]
    dsimp only [Bool.not_true]
    rw [if_neg (by decide)]
    cases checked : (names rest).findSome? (unsafePart isalpha (scheme ++ rest)) with
    | some error =>
      obtain ⟨part, member, wrong⟩ := exists_of_findSome?_eq_some checked
      constructor
      · exact nofun
      · rintro ⟨other, same, rfl, safe⟩
        rw [← append_cancel_left same] at safe
        rw [safe part member] at wrong
        cases wrong
    | none =>
      constructor
      · intro done
        cases done
        exact ⟨rest, rfl, rfl, findSome?_eq_none_iff.mp checked⟩
      · rintro ⟨other, same, rfl, -⟩
        rw [append_cancel_left same]
  · have no : scheme.isPrefixOf uri = false := by
      rw [← Bool.not_eq_true, List.isPrefixOf_iff_prefix]
      exact starts
    constructor
    · intro done
      simp [no] at done
    · rintro ⟨rest, rfl, -⟩
      exact absurd (prefix_append _ _) starts

theorem isName_of_safe {uri : Text} (safe : safeUriParts isalpha uri = .ok parts) :
    ∀ part ∈ parts, IsName part ∧ part ≠ ['.'] ∧ part ≠ ['.', '.'] ∧ '\\' ∉ part := by
  obtain ⟨rest, rfl, rfl, each⟩ := safeUriParts_ok_iff.mp safe
  intro part member
  refine ⟨isName_of_mem_names member, ?_⟩
  have fine := each part member
  rw [unsafePart] at fine
  split at fine
  · cases fine
  next dots =>
    split at fine
    · cases fine
    next plain => exact ⟨fun same => dots (.inl same), fun same => dots (.inr same), plain⟩

theorem uriToPath_ok_iff {accountId uri path : Text} :
    uriToPath isalpha accountId uri = .ok path ↔
      ∃ parts, safeUriParts isalpha uri = .ok parts ∧ parts.head? ≠ some "session".toList ∧
        path = if parts = [] then "/local/" ++ accountId else localPath accountId (parts.map shortenComponent) := by
  rw [uriToPath, bind_ok_iff]
  refine exists_congr fun parts => and_congr_right fun _ => ?_
  by_cases session : parts.head? = some "session".toList
  · rw [if_pos session]
    exact ⟨nofun, fun ⟨no, _⟩ => absurd session no⟩
  · rw [if_neg session]
    by_cases empty : parts = []
    · subst empty
      simp [isLegacyAgentId, eq_comm]
    · have either : (Except.ok (localPath accountId (parts.map shortenComponent)) : Except AccessError Text) = .ok path ↔
          path = localPath accountId (parts.map shortenComponent) := by simp [eq_comm]
      rw [if_neg empty]
      split
      · exact either.trans ⟨fun same => ⟨session, same⟩, And.right⟩
      · exact either.trans ⟨fun same => ⟨session, same⟩, And.right⟩

end

theorem encode_append (first second : Text) : encode (first ++ second) = first.encode ++ second.encode :=
  flatMap_append

theorem length_encode_cons (char : Char) (rest : Text) : (encode (char :: rest)).length = char.utf8Size + rest.encode.length := by
  rw [encode, flatMap_cons, List.length_append, String.length_utf8EncodeChar]
  rfl

theorem length_encode_ascii {text : Text} (ascii : ∀ char ∈ text, char.utf8Size = 1) : text.encode.length = text.length := by
  induction text with
  | nil => rfl
  | cons char rest ih =>
    rw [length_encode_cons, ascii char (by simp), ih fun other member => ascii other (by simp [member]), length_cons]
    omega

theorem ascii_of_mem_hexAlphabet {char : Char} (member : char ∈ hexAlphabet) : char.utf8Size = 1 := by
  have all : hexAlphabet.all fun digit => digit.utf8Size = 1 := by decide
  exact of_decide_eq_true (all_eq_true.mp all char member)

theorem length_encode_hashSuffix (component : Text) : (encode ('_' :: (hexdigest component).take 8)).length = 9 := by
  rw [length_encode_ascii]
  · simp [length_hexdigest]
  · intro char member
    rcases mem_cons.mp member with rfl | digit
    · decide
    · exact ascii_of_mem_hexAlphabet (hexdigest_mem component char (mem_of_mem_take digit))

theorem trimmed_spec (target : Nat) (reversed : Text) : ∃ kept ≤ reversed.length,
    trimmed target reversed = reversed.reverse.take kept ∧ (encode (reversed.reverse.take kept)).length ≤ target ∧
      (kept < reversed.length → target < (encode (reversed.reverse.take (kept + 1))).length) := by
  induction reversed with
  | nil => exact ⟨0, le_rfl, rfl, Nat.zero_le _, fun less => absurd less (lt_irrefl 0)⟩
  | cons last rest ih =>
    rw [trimmed]
    have whole : (last :: rest).reverse.take (rest.length + 1) = (last :: rest).reverse := take_of_length_le (by simp)
    split
    next long =>
      obtain ⟨kept, inside, same, fits, next⟩ := ih
      have short : ∀ count ≤ rest.length, (last :: rest).reverse.take count = rest.reverse.take count := by
        intro count less
        rw [reverse_cons, take_append_of_le_length (by simpa using less)]
      refine ⟨kept, by simp only [length_cons]; omega, ?_, ?_, fun _ => ?_⟩
      · rw [same, short kept inside]
      · rw [short kept inside]
        exact fits
      · by_cases more : kept < rest.length
        · rw [short (kept + 1) more]
          exact next more
        · have all : kept = rest.length := by omega
          rw [all, whole]
          exact long
    next fits => exact ⟨rest.length + 1, le_rfl, whole.symm, by rw [whole]; omega, fun less => absurd less (lt_irrefl _)⟩

structure Shortened (component : Text) (kept : Nat) : Prop where
  long : maxFilenameBytes < component.encode.length
  inside : kept < component.length
  shape : shortenComponent component = component.take kept ++ '_' :: (hexdigest component).take 8
  fits : (encode (component.take kept)).length ≤ 246
  next : 246 < (encode (component.take (kept + 1))).length

theorem shortenComponent_short {component : Text} (short : component.encode.length ≤ maxFilenameBytes) :
    shortenComponent component = component := if_pos short

theorem shortenComponent_long {component : Text} (long : maxFilenameBytes < component.encode.length) :
    ∃ kept, Shortened component kept := by
  obtain ⟨kept, inside, same, fits, next⟩ := trimmed_spec 246 component.reverse
  rw [reverse_reverse, length_reverse] at *
  have less : kept < component.length := by
    rw [lt_iff_le_and_ne]
    refine ⟨inside, fun all => ?_⟩
    rw [all, take_length] at fits
    rw [maxFilenameBytes] at long
    omega
  refine ⟨kept, long, less, ?_, fits, next less⟩
  rw [shortenComponent, if_neg (not_le.mpr long)]
  dsimp only
  rw [length_encode_hashSuffix, ← same]
  rfl

end LoginomDock.Access
