import LoginomDock.Access.Uris

/-! `MountableFS::rename` hands both paths, made relative to their mount, to the backend. -/

namespace LoginomDock.Crypto

open Access (names)
open List Text

/-- `char::is_whitespace` -/
def isWhitespace (char : Char) : Bool :=
  let code := char.toNat
  (9 ≤ code && code ≤ 13) || code ∈ [0x20, 0x85, 0xa0, 0x1680, 0x2028, 0x2029, 0x202f, 0x205f, 0x3000] ||
    (0x2000 ≤ code && code ≤ 0x200a)

def trim (text : Text) : Text := (text.dropWhile isWhitespace).rdropWhile isWhitespace

inductive Storage where
  | plain
  | encrypted
  deriving DecidableEq

inductive MoveError where
  | invalidPath (path : Text)
  | mountPointNotFound (path : Text)
  /-- `"Cannot rename across different mount points"` -/
  | differentMounts
  /-- `"cross-account rename is not supported for encrypted blobs: {:?} -> {:?}"` -/
  | crossAccount (oldAccount newAccount : Text)
  deriving DecidableEq

abbrev Mounts := Text → Option Storage

structure BackendRename where
  mount : Text
  oldPath : Text
  newPath : Text
  deriving DecidableEq

def normalizePath (path : Text) : Text :=
  let trimmed := trim path
  let rooted := if trimmed.head? = some '/' then trimmed else '/' :: trimmed
  if 1 < rooted.length ∧ rooted.getLast? = some '/' then rooted.dropLast else rooted

/-- No component is `..` (and nothing else is refused on Unix). -/
def validVirtualPath (path : Text) : Bool := "..".toList ∉ components path

def parentOf (current : Text) : Option Text :=
  let upTo := current.rdropWhile (· ≠ '/')
  if upTo = [] then none else if upTo = ['/'] then some ['/'] else some upTo.dropLast

variable (mounts : Mounts)

def findAncestor : Nat → Text → Option Text
  | 0, _ => none
  | fuel + 1, current =>
    if (mounts current).isSome then some current
    else if current = ['/'] then none
    else (parentOf current).bind (findAncestor fuel)

def mountOf (path : Text) : Option Text := findAncestor mounts ((normalizePath path).length + 1) (normalizePath path)

def findMount (path : Text) : Except MoveError (Text × Text) :=
  if !validVirtualPath path then .error (.invalidPath path)
  else
    let normalized := normalizePath path
    match mountOf mounts path with
    | none => .error (.mountPointNotFound normalized)
    | some mount =>
      if mount = normalized then .ok (mount, ['/'])
      else if mount = ['/'] then .ok (mount, normalized)
      else .ok (mount, normalized.drop mount.length)

def systemAccountId : Text := "_system"

def encryptionAccountDomain (path : Text) : Text :=
  match components (path.dropWhile (· = '/')) with
  | first :: account :: _ => if first = "local" ∧ account ≠ [] then account else systemAccountId
  | _ => systemAccountId

def ensureSameEncryptionDomain (oldPath newPath : Text) : Except MoveError Unit :=
  let oldAccount := encryptionAccountDomain oldPath
  let newAccount := encryptionAccountDomain newPath
  if oldAccount ≠ newAccount then .error (.crossAccount oldAccount newAccount) else .ok ()

/-- `EncryptionWrappedFS::rename`, and a backend without the wrapper -/
def storageRename (storage : Option Storage) (call : BackendRename) : Except MoveError BackendRename := do
  if storage = some .encrypted then ensureSameEncryptionDomain call.oldPath call.newPath
  return call

def rename (oldPath newPath : Text) : Except MoveError BackendRename := do
  let old ← findMount mounts oldPath
  let new ← findMount mounts newPath
  if old.1 ≠ new.1 then throw .differentMounts
  else storageRename (mounts old.1) ⟨old.1, old.2, new.2⟩

structure Below (mount path account rest : Text) : Prop where
  spelled : normalizePath path = dirPrefix mount ++ rest
  first : (names rest).head? = some account

-- Between two accounts nothing reaches a backend, within one the check does not refuse.
def KeptApart (oldPath newPath oldAccount newAccount : Text) : Prop :=
  (oldAccount ≠ newAccount → ∀ call, rename mounts oldPath newPath ≠ .ok call) ∧
    (oldAccount = newAccount → ∀ first second, rename mounts oldPath newPath ≠ .error (.crossAccount first second))

/-- The account that the check reads: the folder after one that is called `local`. -/
def folderBelowLocal (rest : Text) : Option Text :=
  match components (rest.dropWhile (· = '/')) with
  | first :: folder :: _ => if first = "local" ∧ folder ≠ [] ∧ folder ≠ systemAccountId then some folder else none
  | _ => none

section Domains

variable {rest account : Text}

theorem components_first (first : (names rest).head? = some account) :
    ∃ more, components (rest.dropWhile (· = '/')) = account :: more := by
  have same : names (rest.dropWhile (· = '/')) = names rest := Access.names_dropWhile rest
  rw [← same] at first
  cases cut : components (rest.dropWhile (· = '/')) with
  | nil => exact absurd cut (components_ne_nil _)
  | cons part more =>
    refine ⟨more, ?_⟩
    by_cases empty : part = []
    · -- The text does not start with a slash, and so not with an empty component, unless it is empty.
      exfalso
      have spelled := joined_components (rest.dropWhile (· = '/'))
      rw [cut, empty] at spelled
      by_cases last : more = []
      · rw [names, cut, empty, last] at first
        simp at first
      · rw [joined_cons last, nil_append] at spelled
        have stops := head?_dropWhile_not (fun char => decide (char = '/')) rest
        rw [← spelled] at stops
        simp at stops
    · rw [names, cut, filter_cons_of_pos (by simpa using empty), head?_cons] at first
      rw [Option.some.inj first]

theorem domain_eq (rest : Text) : encryptionAccountDomain ('/' :: rest) = (folderBelowLocal rest).getD systemAccountId := by
  rw [encryptionAccountDomain, folderBelowLocal, dropWhile_cons_of_pos (by simp)]
  split
  · rename_i first folder more cut
    by_cases tenant : first = "local" ∧ folder ≠ []
    · by_cases system : folder = systemAccountId
      · simp [tenant, system]
      · simp [tenant, system]
    · have none : ¬ (first = "local" ∧ folder ≠ [] ∧ folder ≠ systemAccountId) := fun all => tenant ⟨all.1, all.2.1⟩
      rw [if_neg tenant, if_neg none, Option.getD_none]
  · rfl

theorem folderBelowLocal_some (first : (names rest).head? = some account) {folder : Text} (read : folderBelowLocal rest = some folder) :
    account = "local" ∧ folder ≠ systemAccountId := by
  obtain ⟨more, cut⟩ := components_first first
  rw [folderBelowLocal, cut] at read
  cases more with
  | nil => cases read
  | cons next more =>
    dsimp only at read
    split at read
    · rename_i local'
      rw [← Option.some.inj read]
      exact ⟨local'.1, local'.2.2⟩
    · cases read

section

variable {otherRest otherAccount : Text} (first : (names rest).head? = some account)
  (otherFirst : (names otherRest).head? = some otherAccount)

include first otherFirst

theorem domains_same_iff :
    encryptionAccountDomain ('/' :: rest) = encryptionAccountDomain ('/' :: otherRest) ↔
      folderBelowLocal rest = folderBelowLocal otherRest := by
  rw [domain_eq, domain_eq]
  cases read : folderBelowLocal rest with
  | none =>
    cases otherRead : folderBelowLocal otherRest with
    | none => simp
    | some folder => simpa using (folderBelowLocal_some otherFirst otherRead).2.symm
  | some folder =>
    cases otherRead : folderBelowLocal otherRest with
    | none => simpa using (folderBelowLocal_some first read).2
    | some other => simp

theorem domains_differ_iff (apart : account ≠ otherAccount) :
    encryptionAccountDomain ('/' :: rest) ≠ encryptionAccountDomain ('/' :: otherRest) ↔
      folderBelowLocal rest ≠ none ∨ folderBelowLocal otherRest ≠ none := by
  rw [Ne, domains_same_iff first otherFirst]
  cases read : folderBelowLocal rest with
  | none => simp [eq_comm]
  | some folder =>
    refine iff_of_true (fun same => apart ?_) (.inl nofun)
    exact (folderBelowLocal_some first read).1.trans (folderBelowLocal_some otherFirst same.symm).1.symm

end

end Domains

section Routing

variable {mounts} {mount path account rest : Text}

theorem length_parentOf {current parent : Text} (below : current ≠ ['/']) (found : parentOf current = some parent) :
    parent.length < current.length := by
  have start := (List.rdropWhile_prefix (fun char => decide (char ≠ '/')) current).length_le
  rw [parentOf] at found
  split at found
  · cases found
  rename_i filled
  split at found
  · rename_i top
    rw [← Option.some.inj found]
    rw [top] at start
    by_contra short
    have one : (current.rdropWhile (· ≠ '/')).length = current.length := by
      rw [top] at *
      simp at short start ⊢
      omega
    have whole := (List.rdropWhile_prefix (fun char => decide (char ≠ '/')) current).eq_of_length one
    exact below (whole ▸ top)
  · rw [← Option.some.inj found, length_dropLast]
    have positive := length_pos_iff.mpr filled
    omega

theorem findAncestor_enough {fuel more : Nat} (enough : path.length < fuel) (enoughMore : path.length < more) :
    findAncestor mounts fuel path = findAncestor mounts more path := by
  induction fuel generalizing path more with
  | zero => omega
  | succ fuel ih =>
    cases more with
    | zero => omega
    | succ more =>
      rw [findAncestor, findAncestor]
      split
      · rfl
      split
      · rfl
      rename_i top
      cases found : parentOf path with
      | none => rfl
      | some parent =>
        have shorter := length_parentOf top found
        exact ih (by omega) (by omega)

theorem findMount_below (below : Below mount path account rest) (valid : validVirtualPath path = true)
    (served : mountOf mounts path = some mount) : findMount mounts path = .ok (mount, '/' :: rest) := by
  have filled : rest ≠ [] := by
    intro empty
    have first := below.first
    rw [empty, Access.names_nil] at first
    cases first
  have shape := below.spelled
  rw [findMount, served, valid]
  simp only [Bool.not_true, Bool.false_eq_true, if_false]
  rw [dirPrefix] at shape
  split at shape
  · rename_i top
    subst top
    rw [shape, if_neg (by simpa using filled.symm), if_pos rfl]
    rfl
  · rename_i notTop
    have other : mount ≠ normalizePath path := by
      intro same
      have long := congrArg List.length (same.trans shape)
      simp at long
    have cut : (normalizePath path).drop mount.length = '/' :: rest := by
      rw [shape, append_assoc, drop_left]
      rfl
    rw [if_neg other, if_neg notTop, cut]

theorem findMount_ok {relative : Text} (found : findMount mounts path = .ok (mount, relative)) :
    validVirtualPath path = true ∧ mountOf mounts path = some mount := by
  rw [findMount] at found
  cases valid : validVirtualPath path with
  | false => simp [valid] at found
  | true =>
    refine ⟨rfl, ?_⟩
    cases served : mountOf mounts path with
    | none => simp [valid, served] at found
    | some other =>
      simp only [valid, served, Bool.not_true, Bool.false_eq_true, if_false] at found
      split at found
      · rw [(Prod.mk.inj (Except.ok.inj found)).1]
      split at found
      · rw [(Prod.mk.inj (Except.ok.inj found)).1]
      · rw [(Prod.mk.inj (Except.ok.inj found)).1]

theorem findMount_error {error : MoveError} (failed : findMount mounts path = .error error) (first second : Text) :
    error ≠ .crossAccount first second := by
  rintro rfl
  rw [findMount] at failed
  split at failed
  · cases failed
  dsimp only at failed
  split at failed
  · cases failed
  · split at failed
    · cases failed
    split at failed <;> cases failed

theorem rename_served {oldPath newPath oldAccount newAccount oldRest newRest : Text} (encrypted : mounts mount = some .encrypted)
    (oldBelow : Below mount oldPath oldAccount oldRest) (newBelow : Below mount newPath newAccount newRest)
    (oldFound : validVirtualPath oldPath = true ∧ mountOf mounts oldPath = some mount)
    (newFound : validVirtualPath newPath = true ∧ mountOf mounts newPath = some mount) :
    rename mounts oldPath newPath =
      if encryptionAccountDomain ('/' :: oldRest) ≠ encryptionAccountDomain ('/' :: newRest) then
        .error (.crossAccount (encryptionAccountDomain ('/' :: oldRest)) (encryptionAccountDomain ('/' :: newRest)))
      else .ok ⟨mount, '/' :: oldRest, '/' :: newRest⟩ := by
  rw [rename, findMount_below oldBelow oldFound.1 oldFound.2, findMount_below newBelow newFound.1 newFound.2, ok_bind, ok_bind]
  rw [if_neg (not_not.mpr rfl), storageRename, if_pos encrypted, ensureSameEncryptionDomain]
  dsimp only
  split <;> rfl

theorem rename_apart {oldPath newPath : Text} (served : mountOf mounts oldPath = some mount)
    (apart : ¬ (validVirtualPath oldPath = true ∧ validVirtualPath newPath = true ∧ mountOf mounts newPath = some mount)) :
    ∃ error, rename mounts oldPath newPath = .error error ∧ ∀ first second, error ≠ .crossAccount first second := by
  rw [rename]
  cases oldFound : findMount mounts oldPath with
  | error error => exact ⟨error, rfl, findMount_error oldFound⟩
  | ok old =>
    cases newFound : findMount mounts newPath with
    | error error => exact ⟨error, rfl, findMount_error newFound⟩
    | ok new =>
      obtain ⟨oldValid, oldMount⟩ := findMount_ok oldFound
      obtain ⟨newValid, newMount⟩ := findMount_ok newFound
      have same : old.1 = mount := Option.some.inj (oldMount.symm.trans served)
      have other : old.1 ≠ new.1 := by
        intro equal
        exact apart ⟨oldValid, newValid, newMount.trans (congrArg some (equal.symm.trans same))⟩
      refine ⟨.differentMounts, ?_, by simp⟩
      rw [ok_bind, ok_bind, if_pos other]
      rfl

end Routing

theorem moves_kept_apart_iff {mount oldPath newPath oldAccount newAccount oldRest newRest : Text}
    (encrypted : mounts mount = some .encrypted) (oldBelow : Below mount oldPath oldAccount oldRest)
    (newBelow : Below mount newPath newAccount newRest) (served : mountOf mounts oldPath = some mount) :
    KeptApart mounts oldPath newPath oldAccount newAccount ↔
      ¬ (validVirtualPath oldPath = true ∧ validVirtualPath newPath = true ∧ mountOf mounts newPath = some mount) ∨
        if oldAccount = newAccount then folderBelowLocal oldRest = folderBelowLocal newRest
        else folderBelowLocal oldRest ≠ none ∨ folderBelowLocal newRest ≠ none := by
  by_cases routed : validVirtualPath oldPath = true ∧ validVirtualPath newPath = true ∧ mountOf mounts newPath = some mount
  · have moved := rename_served encrypted oldBelow newBelow ⟨routed.1, served⟩ routed.2
    rw [KeptApart, moved]
    by_cases same : oldAccount = newAccount
    · subst same
      have domains := domains_same_iff oldBelow.first newBelow.first
      by_cases agree : encryptionAccountDomain ('/' :: oldRest) = encryptionAccountDomain ('/' :: newRest)
      · simp [routed, agree, domains.mp agree]
      · simp [routed, agree, mt domains.mpr agree]
    · have domains := domains_differ_iff oldBelow.first newBelow.first same
      by_cases agree : encryptionAccountDomain ('/' :: oldRest) = encryptionAccountDomain ('/' :: newRest)
      · have none := mt domains.mpr (not_not.mpr agree)
        simp [routed, same, agree, not_or.mp none]
      · simp [routed, same, agree, domains.mp agree]
  · obtain ⟨error, failed, other⟩ := rename_apart served routed
    refine iff_of_true ⟨fun _ call moved => ?_, fun _ first second refused => ?_⟩ (.inl routed)
    · rw [failed] at moved
      cases moved
    · rw [failed] at refused
      exact other first second (Except.error.inj refused)

namespace LocalMount

def tenants : Mounts := fun path => if path = "/local" then some .encrypted else none

def letter : Text := "/local/alice/letter"

def stolen : Text := "/local/bob/letter"

theorem letter_moved_to_bob : rename tenants letter stolen = .ok ⟨"/local".toList, "/alice/letter".toList, "/bob/letter".toList⟩ := by
  decide

theorem accounts_not_kept_apart : ¬ KeptApart tenants letter stolen "alice" "bob" := by
  intro kept
  exact kept.1 (by decide) _ letter_moved_to_bob

theorem letter_below : Below "/local" letter "alice" "alice/letter" where
  spelled := by decide
  first := by decide

theorem stolen_below : Below "/local" stolen "bob" "bob/letter" where
  spelled := by decide
  first := by decide

theorem alice_and_bob_not_kept_apart :
    KeptApart tenants letter stolen "alice" "bob" ↔
      ¬ (validVirtualPath letter = true ∧ validVirtualPath stolen = true ∧ mountOf tenants stolen = some "/local".toList) ∨
        if "alice".toList = "bob".toList then folderBelowLocal "alice/letter" = folderBelowLocal "bob/letter"
        else folderBelowLocal "alice/letter" ≠ none ∨ folderBelowLocal "bob/letter" ≠ none :=
  moves_kept_apart_iff tenants (by decide) letter_below stolen_below (by decide)

end LocalMount

end LoginomDock.Crypto
