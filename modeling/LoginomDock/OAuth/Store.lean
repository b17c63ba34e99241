import LoginomDock.Library.Interleave
import LoginomDock.Library.Rows
import LoginomDock.Library.Text

namespace LoginomDock.OAuth

structure Claims where
  clientId : Text
  accountId : Text
  userId : Text
  role : Text
  scope : Option Text
  resource : Option Text
  authorizingKeyFp : Option Text
  deriving DecidableEq

def Claims.owner (claims : Claims) : Text × Text := (claims.accountId, claims.userId)

-- `spent` is the column `used` of a code, `consumed` of a refresh token and `revoked` of an access token.
structure Row (δ : Type) where
  claims : Claims
  details : δ
  expiresAt : Int
  spent : Bool
  deriving DecidableEq

structure CodeDetails where
  kind : Text
  redirectUri : Text
  codeChallenge : Text
  codeChallengeMethod : Text
  deriving DecidableEq

structure RefreshDetails where
  replacedBy : Option Text
  deriving DecidableEq

-- What a revocation and a collection look at
structure PendingRow where
  verifiedAccountId : Option Text
  verifiedUserId : Option Text
  expiresAt : Int
  deriving DecidableEq

structure OAuthStore where
  codes : Table Text (Row CodeDetails)
  refreshes : Table Text (Row RefreshDetails)
  accesses : Table Text (Row Unit)
  pending : Table Text PendingRow
  calls : Nat

structure RevokeCounts where
  accessTokensRevoked : Nat
  refreshTokensRevoked : Nat
  codesRevoked : Nat
  pendingAuthorizationsRevoked : Nat
  deriving DecidableEq

structure GcCounts where
  codesDeleted : Nat
  refreshTokensDeleted : Nat
  accessTokensDeleted : Nat
  pendingAuthorizationsDeleted : Nat
  deriving DecidableEq

-- The clock in whole seconds, `secrets.token_urlsafe`, the role resolver, and `hash_secret`
structure Surroundings where
  clock : Nat → Int
  minted : Nat → Text
  role : Nat → Text → Text → Option Text
  hash : Text → Text

inductive StoreOp where
  | peekAuthCode (plain : Text)
  | consumeAuthCode (plain : Text)
  | insertAuthCode (plain : Text) (claims : Claims) (details : CodeDetails) (ttlSeconds : Int)
  | peekRefresh (plain : Text)
  | consumeRefresh (plain : Text) (replacedBy : Option Text)
  | isRefreshKnownButConsumed (plain : Text)
  | insertAccess (plain : Text) (claims : Claims) (ttlSeconds : Int)
  | insertRefresh (plain : Text) (claims : Claims) (ttlSeconds : Int)
  | revokeAccess (plain : Text)
  | revokeUserTokens (accountId userId : Text)
  | gcExpired
  | mint
  | resolveRole (accountId userId : Text)
  deriving DecidableEq

-- An insertion answers false when the hash is already a key, which the source raises as an error.
@[reducible] def StoreOp.Res : StoreOp → Type
  | .peekAuthCode _ | .consumeAuthCode _ => Option (Row CodeDetails)
  | .peekRefresh _ | .consumeRefresh _ _ => Option (Row RefreshDetails)
  | .insertAuthCode .. | .insertAccess .. | .insertRefresh .. => Bool
  | .isRefreshKnownButConsumed _ | .revokeAccess _ => Bool
  | .revokeUserTokens .. => RevokeCounts
  | .gcExpired => GcCounts
  | .mint => Text
  | .resolveRole .. => Option Text

namespace Row

variable {δ : Type}

def active (now : Int) (row : Row δ) : Bool := !row.spent && decide (now < row.expiresAt)

def spend (row : Row δ) : Row δ := { row with spent := true }

def isOf (accountId userId : Text) (row : Row δ) : Bool := row.claims.accountId = accountId && row.claims.userId = userId

def bare (row : Row δ) : Row Unit := { claims := row.claims, details := (), expiresAt := row.expiresAt, spent := row.spent }

end Row

section Tables

variable {δ : Type}

section

variable (table : Table Text (Row δ)) (key : Text)

def peek (allowed : Row δ → Bool) (now : Int) : Option (Row δ) :=
  (table.lookup key).filter fun row => allowed row && row.active now

def consume (allowed : Row δ → Bool) (change : δ → δ) (now : Int) :
    Option (Row δ) × Table Text (Row δ) :=
  match peek table key allowed now with
  | some row => (some row, table.insert key { row.spend with details := change row.details })
  | none => (none, table)

def revokeOne : Bool × Table Text (Row δ) :=
  match (table.lookup key).filter fun row => !row.spent with
  | some row => (true, table.insert key row.spend)
  | none => (false, table)

end

def revokeOf (accountId userId : Text) (table : Table Text (Row δ)) : Nat × Table Text (Row δ) :=
  (table.countWhere fun row => row.isOf accountId userId && !row.spent,
    table.updateWhere (fun row => row.isOf accountId userId && !row.spent) Row.spend)

def collect (dead : Row δ → Bool) (table : Table Text (Row δ)) : Nat × Table Text (Row δ) :=
  (table.countWhere dead, table.deleteWhere dead)

end Tables

namespace OAuthStore

def codeKind : Text := "code"

def isCode (row : Row CodeDetails) : Bool := row.details.kind = codeKind

def insertedCode (claims : Claims) (details : CodeDetails) (expiresAt : Int) : Row CodeDetails :=
  { claims := claims, details := { details with kind := codeKind }, expiresAt := expiresAt, spent := false }

def insertedRefresh (claims : Claims) (expiresAt : Int) : Row RefreshDetails :=
  { claims := claims, details := { replacedBy := none }, expiresAt := expiresAt, spent := false }

def insertedAccess (claims : Claims) (expiresAt : Int) : Row Unit :=
  { claims := claims, details := (), expiresAt := expiresAt, spent := false }

def verifiedFor (accountId userId : Text) (row : PendingRow) : Bool :=
  row.verifiedAccountId = some accountId && row.verifiedUserId = some userId

-- Consumed refresh tokens are kept until they expire, used codes and revoked access tokens are not.
def deadCode (now : Int) (row : Row CodeDetails) : Bool := decide (row.expiresAt < now) || row.spent

def deadRefresh (now : Int) (row : Row RefreshDetails) : Bool := decide (row.expiresAt < now)

def deadAccess (now : Int) (row : Row Unit) : Bool := decide (row.expiresAt < now) || row.spent

def deadPending (now : Int) (row : PendingRow) : Bool := decide (row.expiresAt < now)

variable (around : Surroundings)

def now (store : OAuthStore) : Int := around.clock store.calls

def handle : (op : StoreOp) → OAuthStore → op.Res × OAuthStore
  | .peekAuthCode plain, store =>
    (peek store.codes (around.hash plain) isCode (store.now around), { store with calls := store.calls + 1 })
  | .consumeAuthCode plain, store =>
    let consumed := consume store.codes (around.hash plain) isCode id (store.now around)
    (consumed.1, { store with codes := consumed.2, calls := store.calls + 1 })
  | .insertAuthCode plain claims details ttlSeconds, store =>
    let inserted := store.codes.insertNew (around.hash plain) (insertedCode claims details (store.now around + ttlSeconds))
    (inserted.1, { store with codes := inserted.2, calls := store.calls + 1 })
  | .peekRefresh plain, store =>
    (peek store.refreshes (around.hash plain) (fun _ => true) (store.now around), { store with calls := store.calls + 1 })
  | .consumeRefresh plain replacedBy, store =>
    let replacedHash := (replacedBy.filter (· ≠ [])).map around.hash
    let consumed :=
      consume store.refreshes (around.hash plain) (fun _ => true) (fun _ => { replacedBy := replacedHash }) (store.now around)
    (consumed.1, { store with refreshes := consumed.2, calls := store.calls + 1 })
  | .isRefreshKnownButConsumed plain, store =>
    ((store.refreshes.lookup (around.hash plain)).any (·.spent), { store with calls := store.calls + 1 })
  | .insertAccess plain claims ttlSeconds, store =>
    let inserted := store.accesses.insertNew (around.hash plain) (insertedAccess claims (store.now around + ttlSeconds))
    (inserted.1, { store with accesses := inserted.2, calls := store.calls + 1 })
  | .insertRefresh plain claims ttlSeconds, store =>
    let inserted := store.refreshes.insertNew (around.hash plain) (insertedRefresh claims (store.now around + ttlSeconds))
    (inserted.1, { store with refreshes := inserted.2, calls := store.calls + 1 })
  | .revokeAccess plain, store =>
    let revoked := revokeOne store.accesses (around.hash plain)
    (revoked.1, { store with accesses := revoked.2, calls := store.calls + 1 })
  | .revokeUserTokens accountId userId, store =>
    let accesses := revokeOf accountId userId store.accesses
    let refreshes := revokeOf accountId userId store.refreshes
    let codes := revokeOf accountId userId store.codes
    ({ accessTokensRevoked := accesses.1
       refreshTokensRevoked := refreshes.1
       codesRevoked := codes.1
       pendingAuthorizationsRevoked := store.pending.countWhere (verifiedFor accountId userId) },
     { codes := codes.2
       refreshes := refreshes.2
       accesses := accesses.2
       pending := store.pending.deleteWhere (verifiedFor accountId userId)
       calls := store.calls + 1 })
  | .gcExpired, store =>
    let codes := collect (deadCode (store.now around)) store.codes
    let refreshes := collect (deadRefresh (store.now around)) store.refreshes
    let accesses := collect (deadAccess (store.now around)) store.accesses
    ({ codesDeleted := codes.1
       refreshTokensDeleted := refreshes.1
       accessTokensDeleted := accesses.1
       pendingAuthorizationsDeleted := store.pending.countWhere (deadPending (store.now around)) },
     { codes := codes.2
       refreshes := refreshes.2
       accesses := accesses.2
       pending := store.pending.deleteWhere (deadPending (store.now around))
       calls := store.calls + 1 })
  | .mint, store => (around.minted store.calls, { store with calls := store.calls + 1 })
  | .resolveRole accountId userId, store => (around.role store.calls accountId userId, { store with calls := store.calls + 1 })

end OAuthStore

def oauthMachine (around : Surroundings) : Machine StoreOp StoreOp.Res OAuthStore where
  handle := OAuthStore.handle around
  enabled _ _ := True

instance (around : Surroundings) (op : StoreOp) (store : OAuthStore) : Decidable ((oauthMachine around).enabled op store) :=
  inferInstanceAs (Decidable True)

inductive SlotKind where
  | code
  | refresh
  | access
  deriving DecidableEq

-- A row of one of the three tables is named by the table and the hash.
structure Slot where
  kind : SlotKind
  key : Text
  deriving DecidableEq

namespace OAuthStore

def row (store : OAuthStore) (slot : Slot) : Option (Row Unit) :=
  match slot.kind with
  | .code => (store.codes.lookup slot.key).map Row.bare
  | .refresh => (store.refreshes.lookup slot.key).map Row.bare
  | .access => (store.accesses.lookup slot.key).map Row.bare

-- A token or a grant that a request at the given time would be answered for
def Live (store : OAuthStore) (slot : Slot) (time : Int) : Prop := ∃ row, store.row slot = some row ∧ row.active time = true

end OAuthStore

def Aged (kind : SlotKind) (now : Int) : Option (Row Unit) → Option (Row Unit) → Prop
  | none, none => True
  | none, some _ => False
  | some row, none => kind = .refresh → row.expiresAt < now
  | some row, some later => later.claims = row.claims ∧ later.expiresAt = row.expiresAt ∧ (row.spent → later.spent)

theorem Aged.refl {kind : SlotKind} {now : Int} (row : Option (Row Unit)) : Aged kind now row row := by
  cases row with
  | none => trivial
  | some row => exact ⟨rfl, rfl, id⟩

section Tables

variable {δ : Type} {kind : SlotKind} {now : Int} {table : Table Text (Row δ)} {key : Text}

theorem consume_some {allowed : Row δ → Bool} {change : δ → δ} {row : Row δ}
    (consumed : (consume table key allowed change now).1 = some row) :
    table.lookup key = some row ∧ row.active now = true ∧
      (consume table key allowed change now).2.lookup key = some { row.spend with details := change row.details } := by
  unfold consume at consumed ⊢
  cases found : peek table key allowed now with
  | none =>
    rw [found] at consumed
    cases consumed
  | some seen =>
    rw [found] at consumed
    cases consumed
    obtain ⟨there, passes⟩ := Option.filter_eq_some_iff.mp found
    exact ⟨there, (Bool.and_eq_true_iff.mp passes).2, by simp⟩

theorem aged_consume (allowed : Row δ → Bool) (change : δ → δ) (other : Text) :
    Aged kind now ((table.lookup other).map Row.bare) (((consume table key allowed change now).2.lookup other).map Row.bare) := by
  cases taken : (consume table key allowed change now).1 with
  | none =>
    have same : (consume table key allowed change now).2 = table := by
      unfold consume at taken ⊢
      cases found : peek table key allowed now <;> simp [found] at taken ⊢
    rw [same]
    exact Aged.refl _
  | some row =>
    obtain ⟨there, _, after⟩ := consume_some taken
    by_cases here : other = key
    · subst here
      rw [there, after]
      exact ⟨rfl, rfl, fun _ => rfl⟩
    · have same : (consume table key allowed change now).2.lookup other = table.lookup other := by
        unfold consume
        cases found : peek table key allowed now <;> simp [here]
      rw [same]
      exact Aged.refl _

theorem aged_revokeOne (other : Text) :
    Aged kind now ((table.lookup other).map Row.bare) (((revokeOne table key).2.lookup other).map Row.bare) := by
  unfold revokeOne
  cases found : (table.lookup key).filter fun row => !row.spent with
  | none => exact Aged.refl _
  | some row =>
    have there := (Option.filter_eq_some_iff.mp found).1
    by_cases here : other = key
    · subst here
      rw [there]
      simp [Aged, Row.bare, Row.spend]
    · simp only [Table.lookup_insert_if, if_neg here]
      exact Aged.refl _

theorem aged_revokeOf (accountId userId : Text) :
    Aged kind now ((table.lookup key).map Row.bare) (((revokeOf accountId userId table).2.lookup key).map Row.bare) := by
  rw [revokeOf, Table.lookup_updateWhere]
  cases table.lookup key with
  | none => trivial
  | some row =>
    simp only [Option.map_some]
    by_cases revoked : (row.isOf accountId userId && !row.spent) = true
    · rw [if_pos revoked]
      exact ⟨rfl, rfl, fun _ => rfl⟩
    · rw [if_neg revoked]
      exact Aged.refl _

theorem revokeOf_spent (accountId userId : Text) {row : Row δ} (found : table.lookup key = some row)
    (owned : row.claims.owner = (accountId, userId)) :
    ∃ later, (revokeOf accountId userId table).2.lookup key = some later ∧ later.claims = row.claims ∧ later.spent = true := by
  have mine : row.isOf accountId userId = true := by
    obtain ⟨account, user⟩ := Prod.mk.inj owned
    simp [Row.isOf, account, user]
  rw [revokeOf, Table.lookup_updateWhere, found]
  cases spent : row.spent with
  | false => exact ⟨row.spend, by simp [mine, spent], rfl, rfl⟩
  | true => exact ⟨row, by simp [spent], rfl, spent⟩

theorem aged_collect {dead : Row δ → Bool} (expired : kind = .refresh → ∀ row, dead row = true → row.expiresAt < now) :
    Aged kind now ((table.lookup key).map Row.bare) (((collect dead table).2.lookup key).map Row.bare) := by
  rw [collect, Table.lookup_deleteWhere]
  cases table.lookup key with
  | none => trivial
  | some row =>
    cases gone : dead row with
    | true =>
      simp only [Option.filter, gone, Bool.not_true]
      exact fun refresh => expired refresh row gone
    | false =>
      simp only [Option.filter, gone, Bool.not_false]
      exact Aged.refl _

theorem insertNew_row (table : Table Text (Row δ)) (key : Text) (row : Row δ) (other : Text) :
    Aged kind now ((table.lookup other).map Row.bare) (((table.insertNew key row).2.lookup other).map Row.bare) ∨
      other = key ∧ table.lookup key = none ∧ (table.insertNew key row).2.lookup key = some row := by
  rw [Table.lookup_insertNew, Table.lookup_insertNew]
  by_cases here : other = key
  · subst here
    cases found : table.lookup other with
    | none => exact .inr ⟨rfl, rfl, by simp⟩
    | some present =>
      left
      simpa using Aged.refl _
  · left
    rw [if_neg here]
    exact Aged.refl _

end Tables

def StoreOp.makes (around : Surroundings) : StoreOp → Option (Slot × Claims)
  | .insertAuthCode plain claims _ _ => some (⟨.code, around.hash plain⟩, claims)
  | .insertRefresh plain claims _ => some (⟨.refresh, around.hash plain⟩, claims)
  | .insertAccess plain claims _ => some (⟨.access, around.hash plain⟩, claims)
  | _ => none

section Calls

variable {around : Surroundings} {op : StoreOp} {store : OAuthStore} {slot : Slot}

theorem calls_handle : (OAuthStore.handle around op store).2.calls = store.calls + 1 := by
  cases op <;> rfl

theorem row_handle (slot : Slot) :
    Aged slot.kind (store.now around) (store.row slot) ((OAuthStore.handle around op store).2.row slot) ∨
      store.row slot = none ∧ ∃ claims row, op.makes around = some (slot, claims) ∧
        (OAuthStore.handle around op store).2.row slot = some row ∧ row.claims = claims := by
  obtain ⟨kind, key⟩ := slot
  cases op <;> cases kind <;> try exact .inl (Aged.refl _)
  case consumeAuthCode plain => exact .inl (aged_consume _ _ _)
  case consumeRefresh plain replacedBy => exact .inl (aged_consume _ _ _)
  case revokeAccess plain => exact .inl (aged_revokeOne _)
  case revokeUserTokens.code accountId userId => exact .inl (aged_revokeOf _ _)
  case revokeUserTokens.refresh accountId userId => exact .inl (aged_revokeOf _ _)
  case revokeUserTokens.access accountId userId => exact .inl (aged_revokeOf _ _)
  case gcExpired.code => exact .inl (aged_collect nofun)
  case gcExpired.access => exact .inl (aged_collect nofun)
  case gcExpired.refresh => exact .inl (aged_collect fun _ row gone => of_decide_eq_true gone)
  case insertAuthCode plain claims details ttlSeconds =>
    rcases insertNew_row store.codes (around.hash plain)
      (OAuthStore.insertedCode claims details (store.now around + ttlSeconds)) key with aged | ⟨rfl, absent, there⟩
    · exact .inl aged
    · exact .inr ⟨by simp [OAuthStore.row, absent], claims, _, rfl, congrArg (Option.map Row.bare) there, rfl⟩
  case insertRefresh plain claims ttlSeconds =>
    rcases insertNew_row store.refreshes (around.hash plain)
      (OAuthStore.insertedRefresh claims (store.now around + ttlSeconds)) key with aged | ⟨rfl, absent, there⟩
    · exact .inl aged
    · exact .inr ⟨by simp [OAuthStore.row, absent], claims, _, rfl, congrArg (Option.map Row.bare) there, rfl⟩
  case insertAccess plain claims ttlSeconds =>
    rcases insertNew_row store.accesses (around.hash plain)
      (OAuthStore.insertedAccess claims (store.now around + ttlSeconds)) key with aged | ⟨rfl, absent, there⟩
    · exact .inl aged
    · exact .inr ⟨by simp [OAuthStore.row, absent], claims, _, rfl, congrArg (Option.map Row.bare) there, rfl⟩

theorem row_revoked {accountId userId : Text} {row : Row Unit} (found : store.row slot = some row)
    (owned : row.claims.owner = (accountId, userId)) :
    ∃ later, (OAuthStore.handle around (.revokeUserTokens accountId userId) store).2.row slot = some later ∧
      later.claims = row.claims ∧ later.spent = true := by
  obtain ⟨kind, key⟩ := slot
  cases kind
  all_goals
    obtain ⟨full, there, rfl⟩ := Option.map_eq_some_iff.mp found
    obtain ⟨later, after, claims, spent⟩ := revokeOf_spent accountId userId there owned
    exact ⟨later.bare, congrArg (Option.map Row.bare) after, claims, spent⟩

theorem row_made {claims : Claims} (absent : store.row slot = none) (makes : op.makes around = some (slot, claims)) :
    ∃ row, (OAuthStore.handle around op store).2.row slot = some row ∧ row.claims = claims ∧ row.spent = false := by
  have unknown : ∀ {δ : Type} {table : Table Text (Row δ)} {key : Text} (row : Row δ), (table.lookup key).map Row.bare = none →
      ((table.insertNew key row).2.lookup key).map Row.bare = some row.bare := by
    intro δ table key row missing
    rw [Table.lookup_insertNew, if_pos rfl, Option.map_eq_none_iff.mp missing]
    rfl
  cases op with
  | insertAuthCode plain given details ttlSeconds =>
    cases makes
    exact ⟨_, unknown _ absent, rfl, rfl⟩
  | insertRefresh plain given ttlSeconds =>
    cases makes
    exact ⟨_, unknown _ absent, rfl, rfl⟩
  | insertAccess plain given ttlSeconds =>
    cases makes
    exact ⟨_, unknown _ absent, rfl, rfl⟩
  | _ => cases makes

end Calls

end LoginomDock.OAuth
