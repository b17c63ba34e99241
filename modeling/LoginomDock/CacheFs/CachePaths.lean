import LoginomDock.Library.Text
import Mathlib.Data.List.DropRight

namespace LoginomDock.CacheFs

open List Text

/-- `str::trim_matches('/')` -/
def trimSlashes (path : Text) : Text := ((path.dropWhile (· = '/')).reverse.dropWhile (· = '/')).reverse

def normalizePath (path : Text) : Text :=
  if path = [] ∨ path = ['/'] then ['/'] else '/' :: trimSlashes path

def rsplitOnce (path : Text) : Option (Text × Text) :=
  match (components path).reverse with
  | [] | [_] => none
  | last :: before => some (joined before.reverse, last)

def parentPath (path : Text) : Text :=
  let normalized := normalizePath path
  if normalized = ['/'] then ['/']
  else match rsplitOnce normalized with
    | some (parent, _) => if parent = [] then ['/'] else parent
    | none => ['/']

def scopesFrom : Text → List Text → List Text
  | _, [] => []
  | current, component :: rest => (current ++ '/' :: component) :: scopesFrom (current ++ '/' :: component) rest

def ancestorScopes (path : Text) : List Text :=
  let normalized := normalizePath path
  if normalized = ['/'] then [['/']]
  else ['/'] :: scopesFrom [] (components (normalized.dropWhile (· = '/')))

def isSameOrDescendant (path scope : Text) : Bool :=
  scope = ['/'] || path = scope || (scope ++ ['/']).isPrefixOf path

def Normalised (path : Text) : Prop := normalizePath path = path

instance (path : Text) : Decidable (Normalised path) := inferInstanceAs (Decidable (_ = _))

theorem isSameOrDescendant_iff {path scope : Text} :
    isSameOrDescendant path scope = true ↔ scope = ['/'] ∨ path = scope ∨ (scope ++ ['/']) <+: path := by
  simp [isSameOrDescendant, or_assoc]

theorem isSameOrDescendant_refl (path : Text) : isSameOrDescendant path path = true := by
  simp [isSameOrDescendant]

theorem normalised_cons {path : Text} (normalised : Normalised path) : ∃ rest, path = '/' :: rest := by
  rw [Normalised, normalizePath] at normalised
  split at normalised
  · exact ⟨[], normalised.symm⟩
  · exact ⟨_, normalised.symm⟩

theorem dropWhile_head (path : Text) : (path.dropWhile (· = '/')).head? ≠ some '/' := by
  intro starts
  have stops := head?_dropWhile_not (fun char => decide (char = '/')) path
  rw [starts] at stops
  simp at stops

theorem dropWhile_cons_trimSlashes {path : Text} (more : trimSlashes path ≠ []) :
    ('/' :: trimSlashes path).dropWhile (· = '/') = trimSlashes path := by
  have starts : trimSlashes path <+: path.dropWhile (· = '/') := by
    rw [trimSlashes, ← reverse_suffix, reverse_reverse]
    exact dropWhile_suffix _
  obtain ⟨first, others, isTrimmed⟩ := exists_cons_of_ne_nil more
  rw [isTrimmed] at starts
  obtain ⟨tail, whole⟩ := starts
  have notSlash := dropWhile_head path
  rw [← whole, cons_append, head?_cons, ne_eq, Option.some.injEq] at notSlash
  rw [isTrimmed, dropWhile_cons_of_pos (by simp), dropWhile_cons_of_neg (by simpa using notSlash)]

theorem normalised_normalizePath (path : Text) : Normalised (normalizePath path) := by
  rw [Normalised]
  conv_rhs => rw [normalizePath]
  split
  case isTrue root =>
    have isRoot : normalizePath path = ['/'] := if_pos root
    rw [isRoot]
    decide
  case isFalse notRoot =>
    have isForm : normalizePath path = '/' :: trimSlashes path := if_neg notRoot
    rw [isForm]
    by_cases empty : trimSlashes path = []
    · rw [empty]
      decide
    · rw [normalizePath, if_neg (by simpa using empty), trimSlashes, dropWhile_cons_trimSlashes empty]
      congr 1
      conv_lhs => rw [trimSlashes, reverse_reverse, dropWhile_idempotent]
      rfl

theorem normalised_rest {path : Text} (normalised : Normalised path) (notRoot : path ≠ ['/']) :
    ∃ rest, path = '/' :: rest ∧ rest ≠ [] ∧ path.dropWhile (· = '/') = rest := by
  have isForm := normalised
  rw [Normalised, normalizePath] at isForm
  split at isForm
  · exact absurd isForm.symm notRoot
  · have more : trimSlashes path ≠ [] := by
      intro empty
      rw [empty] at isForm
      exact notRoot isForm.symm
    refine ⟨trimSlashes path, isForm.symm, more, ?_⟩
    have dropped := dropWhile_cons_trimSlashes more
    rwa [isForm] at dropped

theorem scopesFrom_mem (current : Text) (above below : List Text) (some : above ≠ []) :
    current ++ '/' :: joined above ∈ scopesFrom current (above ++ below) := by
  induction above generalizing current with
  | nil => exact absurd rfl some
  | cons component rest ih =>
    rw [cons_append, scopesFrom]
    by_cases last : rest = []
    · subst last
      simp
    · rw [joined_cons last]
      have deeper := ih (current ++ '/' :: component) last
      simp only [append_assoc, cons_append] at deeper
      exact mem_cons_of_mem _ deeper

theorem mem_ancestorScopes {path scope : Text} (normalisedPath : Normalised path) (normalisedScope : Normalised scope)
    (covers : isSameOrDescendant path scope = true) : scope ∈ ancestorScopes path := by
  obtain ⟨scopeRest, isScope⟩ := normalised_cons normalisedScope
  simp only [ancestorScopes, show normalizePath path = path from normalisedPath]
  by_cases rootScope : scope = ['/']
  · split <;> simp [rootScope]
  have rootPath : path ≠ ['/'] := by
    rintro rfl
    rcases isSameOrDescendant_iff.mp covers with root | same | below
    · exact rootScope root
    · exact rootScope same.symm
    · have short := below.length_le
      simp [isScope] at short
  obtain ⟨rest, isPath, _, afterSlash⟩ := normalised_rest normalisedPath rootPath
  rw [if_neg rootPath, afterSlash]
  refine mem_cons_of_mem _ ?_
  rcases isSameOrDescendant_iff.mp covers with root | same | ⟨tail, below⟩
  · exact absurd root rootScope
  · have whole := scopesFrom_mem [] (components rest) [] (components_ne_nil rest)
    rw [append_nil, joined_components, nil_append, ← isPath, same] at whole
    exact whole
  · rw [isScope, isPath, cons_append, cons_append, append_assoc] at below
    have split : components rest = components scopeRest ++ components tail := by
      rw [← (List.cons.inj below).2]
      exact splitOn_append_cons_self _ _
    have above := scopesFrom_mem [] (components scopeRest) (components tail) (components_ne_nil scopeRest)
    rw [← split, joined_components, nil_append, ← isScope] at above
    exact above

theorem isSameOrDescendant_trans {path middle scope : Text} (normalisedPath : Normalised path)
    (first : isSameOrDescendant path middle = true) (second : isSameOrDescendant middle scope = true) :
    isSameOrDescendant path scope = true := by
  obtain ⟨rest, isPath⟩ := normalised_cons normalisedPath
  rw [isSameOrDescendant_iff] at second ⊢
  rcases isSameOrDescendant_iff.mp first with rfl | rfl | below
  · rcases second with root | same | short
    · exact .inl root
    · exact .inl same.symm
    · -- only the empty scope with a slash fits into the root
      have empty : scope = [] := by
        have length := short.length_le
        rw [List.length_append, length_singleton] at length
        exact length_eq_zero_iff.mp (by omega)
      rw [empty, isPath]
      exact .inr (.inr ⟨rest, rfl⟩)
  · exact second
  · rcases second with root | rfl | above
    · exact .inl root
    · exact .inr (.inr below)
    · exact .inr (.inr (above.trans ((prefix_append _ _).trans below)))

end LoginomDock.CacheFs
