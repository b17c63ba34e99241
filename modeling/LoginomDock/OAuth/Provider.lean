import LoginomDock.OAuth.Store
import LoginomDock.Access.Uris

namespace LoginomDock.OAuth

-- Every token error has the code `invalid_grant`.
inductive OAuthError where
  | tokenError (errorDescription : Text)
  | integrityError
  deriving DecidableEq

abbrev OAuthM (α : Type) := ExceptT OAuthError (Prog StoreOp StoreOp.Res) α

def call (op : StoreOp) : OAuthM op.Res := ExceptT.lift (Prog.perform op)

structure OAuthToken where
  accessToken : Text
  expiresIn : Int
  scope : Option Text
  refreshToken : Text
  deriving DecidableEq

structure AuthorizationCode where
  code : Text
  scopes : List Text
  expiresAt : Int
  clientId : Text
  codeChallenge : Text
  redirectUri : Text
  resource : Option Text
  accountId : Text
  userId : Text
  role : Text
  authorizingKeyFp : Option Text

structure RefreshToken where
  token : Text
  clientId : Text
  scopes : List Text
  expiresAt : Int
  accountId : Text
  userId : Text
  role : Text
  resource : Option Text
  authorizingKeyFp : Option Text

-- `checksRole` says whether there is a role resolver.
structure OAuthProvider where
  accessTtl : Int
  refreshTtl : Int
  codeTtl : Int
  checksRole : Bool
  customRank : Text → Option Int

def accessTokenPrefix : Text := "ovat_"

def refreshTokenPrefix : Text := "ovrt_"

def authCodePrefix : Text := "ovac_"

def splitScope : Option Text → List Text
  | none => []
  | some scope => (scope.splitOnP Access.isSpace).filter (· ≠ [])

def joinScopes (scopes : List Text) : Option Text := if scopes = [] then none else some ([' '].intercalate scopes)

-- `scope or (refresh_token.scopes and " ".join(refresh_token.scopes)) or None`
def chosenScope (requested granted : List Text) : Option Text :=
  ((joinScopes requested).filter (· ≠ [])).or ((joinScopes granted).filter (· ≠ []))

def builtinRank (role : Text) : Option Int :=
  if role = "user" then some 0
  else if role = "admin" then some 1
  else if role = "root" then some 2
  else none

namespace OAuthProvider

variable (provider : OAuthProvider)

def rank (role : Text) : Int := ((builtinRank role).or (provider.customRank role)).getD 0

def outranks (tokenRole : Text) : Option Text → Bool
  | some currentRole => decide (provider.rank currentRole < provider.rank tokenRole)
  | none => false

def mintAccess : OAuthM Text := do
  let secret ← call .mint
  pure (accessTokenPrefix ++ secret)

def mintRefresh : OAuthM Text := do
  let secret ← call .mint
  pure (refreshTokenPrefix ++ secret)

def inserted : Bool → OAuthM Unit
  | true => pure ()
  | false => throw .integrityError

def storeTokenPair (claims : Claims) (access refresh : Text) : OAuthM OAuthToken := do
  inserted (← call (.insertAccess access claims provider.accessTtl))
  inserted (← call (.insertRefresh refresh claims provider.refreshTtl))
  pure { accessToken := access, expiresIn := provider.accessTtl, scope := claims.scope, refreshToken := refresh }

def issueTokenPair (claims : Claims) (newRefreshOverride : Option Text) : OAuthM OAuthToken := do
  let access ← mintAccess
  let bound := { claims with authorizingKeyFp := some (claims.authorizingKeyFp.getD []) }
  match newRefreshOverride with
  | some refresh => provider.storeTokenPair bound access refresh
  | none => do
      let refresh ← mintRefresh
      provider.storeTokenPair bound access refresh

def loadedCode (plain : Text) (row : Row CodeDetails) : AuthorizationCode where
  code := plain
  scopes := splitScope row.claims.scope
  expiresAt := row.expiresAt
  clientId := row.claims.clientId
  codeChallenge := row.details.codeChallenge
  redirectUri := row.details.redirectUri
  resource := row.claims.resource
  accountId := row.claims.accountId
  userId := row.claims.userId
  role := row.claims.role
  authorizingKeyFp := row.claims.authorizingKeyFp

def codeFor (clientId plain : Text) : Option (Row CodeDetails) → Option AuthorizationCode
  | none => none
  | some row => if row.claims.clientId ≠ clientId then none else some (loadedCode plain row)

def loadAuthorizationCode (clientId plain : Text) : OAuthM (Option AuthorizationCode) := do
  let row ← call (.peekAuthCode plain)
  pure (codeFor clientId plain row)

def codeClaims (code : AuthorizationCode) : Claims where
  clientId := code.clientId
  accountId := code.accountId
  userId := code.userId
  role := code.role
  scope := joinScopes code.scopes
  resource := code.resource
  authorizingKeyFp := code.authorizingKeyFp

def exchangeAuthorizationCode (code : AuthorizationCode) : OAuthM OAuthToken := do
  match ← call (.consumeAuthCode code.code) with
  | none => throw (.tokenError "code is invalid or reused")
  | some _ => provider.issueTokenPair (codeClaims code) none

def loadedRefresh (plain : Text) (row : Row RefreshDetails) : RefreshToken where
  token := plain
  clientId := row.claims.clientId
  scopes := splitScope row.claims.scope
  expiresAt := row.expiresAt
  accountId := row.claims.accountId
  userId := row.claims.userId
  role := row.claims.role
  resource := row.claims.resource
  authorizingKeyFp := row.claims.authorizingKeyFp

def refreshFor (clientId plain : Text) : Option (Row RefreshDetails) → Option RefreshToken
  | none => none
  | some row => if row.claims.clientId ≠ clientId then none else some (loadedRefresh plain row)

def loadRefreshToken (clientId plain : Text) : OAuthM (Option RefreshToken) := do
  let row ← call (.peekRefresh plain)
  pure (refreshFor clientId plain row)

section

variable (token : RefreshToken)

def refreshClaims (scopes : List Text) : Claims where
  clientId := token.clientId
  accountId := token.accountId
  userId := token.userId
  role := token.role
  scope := chosenScope scopes token.scopes
  resource := token.resource
  authorizingKeyFp := token.authorizingKeyFp

def refuseRefresh : OAuthM OAuthToken := do
  if ← call (.isRefreshKnownButConsumed token.token) then
    let _ ← call (.revokeUserTokens token.accountId token.userId)
    throw (.tokenError "refresh token invalid")
  else throw (.tokenError "refresh token invalid")

def rotateRefresh (scopes : List Text) : OAuthM OAuthToken := do
  let newRefresh ← mintRefresh
  match ← call (.consumeRefresh token.token (some newRefresh)) with
  | none => refuseRefresh token
  | some _ => provider.issueTokenPair (refreshClaims token scopes) (some newRefresh)

def exchangeRefreshToken (scopes : List Text) : OAuthM OAuthToken :=
  if provider.checksRole then do
    let current ← call (.resolveRole token.accountId token.userId)
    if provider.outranks token.role current then
      throw (.tokenError "user role has been downgraded; please re-authorize the client")
    else provider.rotateRefresh token scopes
  else provider.rotateRefresh token scopes

end

def exchangeCodeIf (accepts : AuthorizationCode → Bool) : Option AuthorizationCode → OAuthM (Option OAuthToken)
  | none => pure none
  | some code =>
    if accepts code then do
      let token ← provider.exchangeAuthorizationCode code
      pure (some token)
    else pure none

def tokenByCode (clientId plain : Text) (accepts : AuthorizationCode → Bool) : OAuthM (Option OAuthToken) := do
  let loaded ← loadAuthorizationCode clientId plain
  provider.exchangeCodeIf accepts loaded

def exchangeRefreshIf (accepts : RefreshToken → Option (List Text)) : Option RefreshToken → OAuthM (Option OAuthToken)
  | none => pure none
  | some token =>
    match accepts token with
    | some scopes => do
        let pair ← provider.exchangeRefreshToken token scopes
        pure (some pair)
    | none => pure none

def tokenByRefresh (clientId plain : Text) (accepts : RefreshToken → Option (List Text)) : OAuthM (Option OAuthToken) := do
  let loaded ← loadRefreshToken clientId plain
  provider.exchangeRefreshIf accepts loaded

def issueAuthCode (claims : Claims) (details : CodeDetails) : OAuthM (Option OAuthToken) := do
  let secret ← call .mint
  inserted (← call (.insertAuthCode (authCodePrefix ++ secret) claims details provider.codeTtl))
  pure none

end OAuthProvider

inductive Job where
  | tokenByCode (clientId plain : Text) (accepts : AuthorizationCode → Bool)
  | tokenByRefresh (clientId plain : Text) (accepts : RefreshToken → Option (List Text))
  | issueAuthCode (claims : Claims) (details : CodeDetails)
  | revokeAccessToken (plain : Text)
  | revokeRefreshToken (plain : Text)
  | revokeUserTokens (accountId userId : Text)
  | gcExpired

def Job.program (provider : OAuthProvider) : Job → OAuthM (Option OAuthToken)
  | .tokenByCode clientId plain accepts => provider.tokenByCode clientId plain accepts
  | .tokenByRefresh clientId plain accepts => provider.tokenByRefresh clientId plain accepts
  | .issueAuthCode claims details => provider.issueAuthCode claims details
  | .revokeAccessToken plain => do
      let _ ← call (.revokeAccess plain)
      pure none
  | .revokeRefreshToken plain => do
      let _ ← call (.consumeRefresh plain none)
      pure none
  | .revokeUserTokens accountId userId => do
      let _ ← call (.revokeUserTokens accountId userId)
      pure none
  | .gcExpired => do
      let _ ← call .gcExpired
      pure none

abbrev OAuthPool (ι : Type) := Pool ι StoreOp StoreOp.Res (Except OAuthError (Option OAuthToken)) OAuthStore

def OAuthPool.Begins {ι : Type} (provider : OAuthProvider) (jobs : ι → Job) (pool : OAuthPool ι) : Prop :=
  pool.log = [] ∧ ∀ thread, pool.threads thread = ((jobs thread).program provider).run

end LoginomDock.OAuth
