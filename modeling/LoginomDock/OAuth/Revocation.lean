import LoginomDock.OAuth.Issues

namespace LoginomDock.OAuth

open List OAuthStore Option Pool Row

variable {ι : Type} [DecidableEq ι]

section Runs

variable (around : Surroundings) (start : OAuthStore)

def Exchanging (log : Log ι) (thread : ι) (owner : Text × Text) : Prop :=
  ∃ slot row, Took around start log thread slot row ∧ row.claims.owner = owner ∧
    ∀ plain claims ttlSeconds, (thread, StoreOp.insertRefresh plain claims ttlSeconds) ∉ log

end Runs

section Facts

variable {around : Surroundings} {start : OAuthStore} {log earlier : Log ι} {thread other : ι} {op : StoreOp}
  {slot grant token : Slot} {claims : Claims} {row : Row Unit} {owner : Text × Text} {store : OAuthStore}

theorem granted_take (takes : op.takes around = some slot)
    (got : granted ⟨op, (handle around op store).1⟩ = some row) :
    store.row slot = some row ∧ row.spent = false ∧
      ∃ later, (handle around op store).2.row slot = some later ∧ later.spent = true := by
  cases op with
  | consumeAuthCode plain =>
    cases takes
    obtain ⟨full, consumed, rfl⟩ := map_eq_some_iff.mp got
    obtain ⟨there, active, after⟩ := consume_some consumed
    exact ⟨congrArg (Option.map bare) there, by simpa [bare, Row.active] using (Bool.and_eq_true_iff.mp active).1,
      _, congrArg (Option.map bare) after, rfl⟩
  | consumeRefresh plain replacedBy =>
    cases replacedBy with
    | none => cases takes
    | some newRefresh =>
      cases takes
      obtain ⟨full, consumed, rfl⟩ := map_eq_some_iff.mp got
      obtain ⟨there, active, after⟩ := consume_some consumed
      exact ⟨congrArg (Option.map bare) there, by simpa [bare, Row.active] using (Bool.and_eq_true_iff.mp active).1,
        _, congrArg (Option.map bare) after, rfl⟩
  | _ => cases takes

theorem granted_see (sees : op.sees around = some slot)
    (got : granted ⟨op, (handle around op store).1⟩ = some row) : store.row slot = some row := by
  cases op with
  | peekAuthCode plain =>
    cases sees
    obtain ⟨full, seen, rfl⟩ := map_eq_some_iff.mp got
    exact congrArg (Option.map bare) (filter_eq_some_iff.mp seen).1
  | peekRefresh plain =>
    cases sees
    obtain ⟨full, seen, rfl⟩ := map_eq_some_iff.mp got
    exact congrArg (Option.map bare) (filter_eq_some_iff.mp seen).1
  | _ => cases sees

theorem took_iff : Took around start log thread slot row ↔
    ∃ op earlier, (thread, op) :: earlier <:+ log ∧ op.takes around = some slot ∧
      granted ⟨op, (handle around op (replayed around start earlier)).1⟩ = some row := by
  constructor
  · rintro ⟨⟨op, answer⟩, member, takes, got⟩
    obtain ⟨earlier, made, answered⟩ := Machine.mem_history.mp member
    dsimp only at answered
    subst answered
    exact ⟨op, earlier, made, takes, got⟩
  · rintro ⟨op, earlier, made, takes, got⟩
    exact ⟨_, mem_historyOf made, takes, got⟩

theorem took_once (guarded : Guarded around start log) {second : StoreOp} {before : Log ι} (left : (thread, op) :: earlier <:+ log)
    (right : (thread, second) :: before <:+ log) (takes : op.takes around ≠ none) (again : second.takes around ≠ none) :
    op = second ∧ earlier = before := by
  rcases entries_ordered left right with first | last | same
  · exact absurd ((guarded _ _ _ right).once again _ (mem_historyOf first)) takes
  · exact absurd ((guarded _ _ _ left).once takes _ (mem_historyOf last)) again
  · exact ⟨(Prod.mk.inj same.1).2, same.2⟩

def Dead (around : Surroundings) (start : OAuthStore) (log : Log ι) (slot : Slot) : Prop :=
  ∀ row, (replayed around start log).row slot = some row → row.spent = true

theorem Dead.not_live (dead : Dead around start log slot) (time : Int) : ¬ (replayed around start log).Live slot time := by
  rintro ⟨row, found, active⟩
  simp [Row.active, dead row found] at active

theorem Dead.lasts (secure : Secure around start) (guarded : Guarded around start log) (suffix : earlier <:+ log)
    (existed : Existed around start earlier slot owner) (dead : Dead around start earlier slot) : Dead around start log slot := by
  induction log with
  | nil => rwa [← suffix_nil.mp suffix]
  | cons entry log ih =>
    obtain ⟨thread, op⟩ := entry
    rcases suffix_cons_iff.mp suffix with same | before
    · rwa [← same]
    have was := ih (guarded.suffix (suffix_cons _ _)) before
    intro later there
    change (handle around op (replayed around start log)).2.row slot = some later at there
    rcases @row_handle around op (replayed around start log) slot with aged | ⟨_, claims, _, makes, _⟩
    · rw [there] at aged
      cases found : (replayed around start log).row slot with
      | none =>
        rw [found] at aged
        cases aged
      | some older =>
        rw [found] at aged
        exact aged.2.2 (was older found)
    · obtain ⟨first, row, inside, present, _⟩ := existed
      have absent := row_unborn secure guarded (suffix_refl _) makes (inside.trans before)
      rw [absent] at present
      cases present

theorem dead_taken (takes : op.takes around = some slot)
    (got : granted ⟨op, (handle around op (replayed around start log)).1⟩ = some row) :
    Dead around start ((thread, op) :: log) slot := by
  obtain ⟨_, _, later, after, spent⟩ := granted_take takes got
  intro other found
  cases after.symm.trans found
  exact spent

theorem dead_revoked (secure : Secure around start) (guarded : Guarded around start log) {accountId userId : Text}
    (existed : Existed around start log slot (accountId, userId)) :
    Dead around start ((thread, .revokeUserTokens accountId userId) :: log) slot := by
  intro later there
  change (handle around _ (replayed around start log)).2.row slot = some later at there
  rcases @row_handle around (.revokeUserTokens accountId userId) (replayed around start log) slot with aged | ⟨_, _, _, makes, _⟩
  · rw [there] at aged
    cases found : (replayed around start log).row slot with
    | none =>
      rw [found] at aged
      cases aged
    | some row =>
      have owned := owner_unique secure guarded ⟨log, row, suffix_refl _, found, rfl⟩ existed
      obtain ⟨revoked, after, _, spent⟩ := row_revoked found owned
      cases after.symm.trans there
      exact spent
  · cases makes

theorem taken_once (secure : Secure around start) (guarded : Guarded around start log) {more : Row Unit}
    (left : Took around start log thread slot row) (right : Took around start log other slot more) : thread = other := by
  obtain ⟨op, earlier, made, takes, got⟩ := took_iff.mp left
  obtain ⟨second, before, again, retakes, regot⟩ := took_iff.mp right
  obtain ⟨there, unspent, _⟩ := granted_take takes got
  obtain ⟨there', unspent', _⟩ := granted_take retakes regot
  rcases entries_ordered made again with first | last | same
  · have dead := Dead.lasts secure (guarded.suffix ((suffix_cons _ _).trans again)) first
      ⟨earlier, row, suffix_cons _ _, there, rfl⟩ (dead_taken takes got)
    simp [dead _ there'] at unspent'
  · have dead := Dead.lasts secure (guarded.suffix ((suffix_cons _ _).trans made)) last
      ⟨before, more, suffix_cons _ _, there', rfl⟩ (dead_taken retakes regot)
    simp [dead _ there] at unspent
  · exact (Prod.mk.inj same.1).1

theorem child_entry (guarded : Guarded around start log) (isToken : token.kind ≠ .code)
    (took : Took around start log thread grant row) (made : (thread, op) :: earlier <:+ log)
    (makes : op.makes around = some (token, claims)) :
    Took around start earlier thread grant row ∧ Existed around start earlier grant claims.owner := by
  obtain ⟨⟨taking, _⟩, inTook, ⟨seeing, _⟩, inSaw, slot, same, seen, takes, got, sees, saw, owned⟩ :=
    (guarded _ _ _ made).entitled _ _ makes isToken
  obtain ⟨before, at_take, answered⟩ := Machine.mem_history.mp inTook
  obtain ⟨first, at_see, shown⟩ := Machine.mem_history.mp inSaw
  dsimp only at answered shown takes sees
  subst answered shown
  -- the grant that entitles the thread is the one it took
  obtain ⟨⟨other, _⟩, inLog, retakes, regot⟩ := took
  obtain ⟨older, at_other, reanswered⟩ := Machine.mem_history.mp inLog
  dsimp only at reanswered retakes
  subst reanswered
  have inside : earlier <:+ log := (suffix_cons _ _).trans made
  obtain ⟨rfl, rfl⟩ := took_once guarded (at_take.trans inside) at_other (by simp [takes]) (by simp [retakes])
  cases takes.symm.trans retakes
  cases got.symm.trans regot
  exact ⟨⟨_, inTook, takes, got⟩, first, seen, (suffix_cons _ _).trans at_see, granted_see sees saw, owned.symm⟩

theorem existed_made (secure : Secure around start) (guarded : Guarded around start log) (made : (thread, op) :: earlier <:+ log)
    (makes : op.makes around = some (token, claims)) : Existed around start log token claims.owner := by
  obtain ⟨row, there, same, _⟩ := row_made (row_unborn secure guarded made makes (suffix_refl _)) makes
  exact ⟨_, row, made, there, congrArg Claims.owner same⟩

section Revoked

variable {revoker : ι} {accountId userId : Text} {before : Log ι} (secure : Secure around start) (guarded : Guarded around start log)
    (revoked : (revoker, .revokeUserTokens accountId userId) :: before <:+ log)
    (careful : ∀ other, ¬ Exchanging around start before other (accountId, userId))
    (existed : Existed around start before grant (accountId, userId))

include secure guarded revoked careful existed

theorem child_before (child : Child around start log grant token) :
    Existed around start before token (accountId, userId) := by
  obtain ⟨isToken, thread, row, claims, took, op, member, makes⟩ := child
  obtain ⟨earlier, made⟩ := suffix_of_mem member
  obtain ⟨tookEarlier, was⟩ := child_entry guarded isToken took made makes
  have inside : before <:+ log := (suffix_cons _ _).trans revoked
  have owned : claims.owner = (accountId, userId) :=
    owner_unique secure guarded (was.later ((suffix_cons _ _).trans made)) (existed.later inside)
  obtain ⟨taking, prior, at_take, takes, got⟩ := took_iff.mp took
  obtain ⟨there, unspent, _⟩ := granted_take takes got
  rcases entries_ordered at_take revoked with early | late | same
  · -- the exchange had inserted its tokens when the revocation came
    have mine : row.claims.owner = (accountId, userId) :=
      owner_unique secure guarded ⟨prior, row, (suffix_cons _ _).trans at_take, there, rfl⟩ (existed.later inside)
    have finished : ∃ plain claims ttlSeconds, (thread, StoreOp.insertRefresh plain claims ttlSeconds) ∈ before := by
      by_contra missing
      push Not at missing
      exact careful thread ⟨grant, row, took_iff.mpr ⟨taking, prior, early, takes, got⟩, mine, missing⟩
    obtain ⟨plain, more, ttlSeconds, inserted⟩ := finished
    rcases entries_ordered made revoked with sooner | later | same
    · have known := existed_made secure (guarded.suffix inside) sooner makes
      rwa [owned] at known
    · obtain ⟨older, at_insert⟩ := suffix_of_mem inserted
      have event := @mem_historyOf _ _ around start _ _ _ _ (at_insert.trans ((suffix_cons _ _).trans later))
      exact absurd rfl ((guarded _ _ _ made).first _ _ makes _ event _ _ rfl).2
    · rw [(Prod.mk.inj same.1).2] at makes
      cases makes
  · -- a grant that was there before the revocation is dead after it
    have dead := (dead_revoked secure (guarded.suffix inside) existed).lasts secure
      (guarded.suffix ((suffix_cons _ _).trans at_take)) late (existed.later (suffix_cons _ _))
    simp [dead _ there] at unspent
  · rw [(Prod.mk.inj same.1).2] at takes
    cases takes

theorem derived_before (derives : Derives around start log grant token) :
    Existed around start before token (accountId, userId) := by
  induction derives with
  | refl => exact existed
  | tail _ child ih => exact child_before secure guarded revoked careful ih child

theorem dead_derived (derives : Derives around start log grant token) :
    Dead around start log token := by
  have known := derived_before secure guarded revoked careful existed derives
  have inside : before <:+ log := (suffix_cons _ _).trans revoked
  exact (dead_revoked secure (guarded.suffix inside) known).lasts secure guarded revoked (known.later (suffix_cons _ _))

end Revoked

end Facts

section Pools

variable {provider : OAuthProvider} {jobs : ι → Job} {around : Surroundings} {start pool : OAuthPool ι}

theorem traced_reaches (begins : start.Begins provider jobs) (reached : Pool.Reaches (oauthMachine around) start pool) :
    (∀ thread, Prog.Traced (Proper around) (Ends around (jobs thread)) (historyOf around start.state pool.log thread) (pool.threads thread)) ∧
      Guarded around start.state pool.log := by
  obtain ⟨silent, programs⟩ := begins
  have traced : ∀ thread, Prog.Traced (Proper around) (Ends around (jobs thread)) [] (start.threads thread) := by
    intro thread
    rw [programs]
    exact traced_job (jobs thread)
  exact Pool.traced_reaches silent traced reached

theorem guarded_reaches (begins : start.Begins provider jobs) (reached : Pool.Reaches (oauthMachine around) start pool) :
    Guarded around start.state pool.log :=
  (traced_reaches begins reached).2

theorem revocation_complete (secure : Secure around start.state) (begins : start.Begins provider jobs)
    (reached : Pool.Reaches (oauthMachine around) start pool) {revoker : ι} {accountId userId : Text} {before : Log ι}
    (revoked : (revoker, .revokeUserTokens accountId userId) :: before <:+ pool.log)
    (quiet : ∀ thread, ¬ Exchanging around start.state before thread (accountId, userId)) {grant token : Slot}
    (existed : Existed around start.state before grant (accountId, userId))
    (derives : Derives around start.state pool.log grant token) (time : Int) : ¬ pool.state.Live token time := by
  have guarded := guarded_reaches begins reached
  rw [state_eq_replay begins.1 reached]
  exact (dead_derived secure guarded revoked quiet existed derives).not_live time

end Pools

section Examples

-- A clock that stands still, and secrets of different lengths
def stillSurroundings : Surroundings where
  clock _ := 0
  minted call := List.replicate call 'x'
  role _ _ _ := none
  hash := id

def ownersClaims : Claims where
  clientId := ['i']
  accountId := ['a']
  userId := ['u']
  role := "user"
  scope := none
  resource := none
  authorizingKeyFp := some ['k']

def ownersCode : Row CodeDetails where
  claims := ownersClaims
  details := { kind := codeKind, redirectUri := [], codeChallenge := [], codeChallengeMethod := [] }
  expiresAt := 300
  spent := false

def storeWithCode : OAuthStore where
  codes := AList.singleton ['c'] ownersCode
  refreshes := ∅
  accesses := ∅
  pending := ∅
  calls := 0

def defaultProvider : OAuthProvider where
  accessTtl := 3600
  refreshTtl := 2592000
  codeTtl := 300
  checksRole := false
  customRank _ := none

def exchangeAndRevoke : Bool → Job
  | false => .tokenByCode ['i'] ['c'] fun _ => true
  | true => .revokeUserTokens ['a'] ['u']

def codeAndRevocation : OAuthPool Bool where
  state := storeWithCode
  log := []
  threads thread := ((exchangeAndRevoke thread).program defaultProvider).run

theorem secure_still {start : OAuthStore} (codes : start.codes.keys = [['c']] ∨ start.codes.keys = [])
    (refreshes : start.refreshes.keys = [['r']] ∨ start.refreshes.keys = []) (accesses : start.accesses.keys = []) :
    Secure stillSurroundings start where
  hash := Function.injective_id
  minted first second same := by simpa [stillSurroundings] using congrArg List.length same
  fresh kind call := by
    have absent : ∀ {δ : Type} {table : Table Text (Row δ)} {lead : Text} {char : Char}, 1 < lead.length →
        table.keys = [[char]] ∨ table.keys = [] → (table.lookup (lead ++ List.replicate call 'x')).map bare = none := by
      intro δ table lead char long keys
      rw [map_eq_none_iff, AList.lookup_eq_none, AList.mem_keys]
      rcases keys with one | none
      · rw [one, mem_singleton]
        intro same
        have lengths := congrArg List.length same
        simp only [List.length_append, length_replicate, length_singleton] at lengths
        omega
      · simp [none]
    cases kind with
    | code => exact absent (by decide) codes
    | refresh => exact absent (by decide) refreshes
    | access => exact @absent _ _ _ 'c' (by decide) (.inr accesses)

theorem codeAndRevocation_begins : codeAndRevocation.Begins defaultProvider exchangeAndRevoke := ⟨rfl, fun _ => rfl⟩

theorem secure_codeAndRevocation : Secure stillSurroundings codeAndRevocation.state :=
  secure_still (.inl rfl) (.inr rfl) rfl

def consumedCode : Log Bool := [(false, .consumeAuthCode ['c']), (false, .peekAuthCode ['c'])]

def insertedPair : Log Bool :=
  [(false, .insertRefresh "ovrt_xxx" ownersClaims 2592000), (false, .insertAccess "ovat_xx" ownersClaims 3600),
    (false, .mint), (false, .mint)]

theorem exchange_first :
    ¬ (follow (oauthMachine stillSurroundings) [false, false, false, false, false, false, true] codeAndRevocation).state.Live
        ⟨.access, "ovat_xx"⟩ 0 := by
  have logged : (true, .revokeUserTokens ['a'] ['u']) :: (insertedPair ++ consumedCode) <:+
      (follow (oauthMachine stillSurroundings) [false, false, false, false, false, false, true] codeAndRevocation).log :=
    ⟨[], by decide⟩
  have quiet : ∀ thread, ¬ Exchanging stillSurroundings storeWithCode (insertedPair ++ consumedCode) thread (['a'], ['u']) := by
    rintro thread ⟨slot, row, ⟨event, member, _⟩, _, missing⟩
    cases thread with
    | false => exact missing _ _ _ mem_cons_self
    | true => cases member
  have took : Took stillSurroundings storeWithCode
      (follow (oauthMachine stillSurroundings) [false, false, false, false, false, false, true] codeAndRevocation).log
      false ⟨.code, ['c']⟩ ownersCode.bare :=
    took_iff.mpr ⟨.consumeAuthCode ['c'], [(false, .peekAuthCode ['c'])], ((suffix_append _ _).trans (suffix_cons _ _)).trans logged,
      rfl, rfl⟩
  have made : Made stillSurroundings
      (follow (oauthMachine stillSurroundings) [false, false, false, false, false, false, true] codeAndRevocation).log
      false ⟨.access, "ovat_xx"⟩ ownersClaims :=
    ⟨.insertAccess "ovat_xx" ownersClaims 3600, logged.subset (by simp [insertedPair]), rfl⟩
  have isToken : (Slot.mk .access "ovat_xx").kind ≠ .code := nofun
  exact revocation_complete secure_codeAndRevocation codeAndRevocation_begins (reaches_follow _ _ _) logged quiet
    ⟨[], ownersCode.bare, nil_suffix, rfl, rfl⟩ (.single ⟨isToken, false, _, _, took, made⟩) 0

theorem exchange_outlives_revocation :
    Secure stillSurroundings codeAndRevocation.state ∧ codeAndRevocation.Begins defaultProvider exchangeAndRevoke ∧
      ∃ pool : OAuthPool Bool, Pool.Reaches (oauthMachine stillSurroundings) codeAndRevocation pool ∧
      (true, .revokeUserTokens ['a'] ['u']) :: consumedCode <:+ pool.log ∧
      Existed stillSurroundings codeAndRevocation.state consumedCode ⟨.code, ['c']⟩ (['a'], ['u']) ∧
      Derives stillSurroundings codeAndRevocation.state pool.log ⟨.code, ['c']⟩ ⟨.access, "ovat_xxx"⟩ ∧
      pool.state.Live ⟨.access, "ovat_xxx"⟩ 0 := by
  have logged : (follow (oauthMachine stillSurroundings) [false, false, true, false, false, false, false] codeAndRevocation).log =
      (false, .insertRefresh "ovrt_xxxx" ownersClaims 2592000) :: (false, .insertAccess "ovat_xxx" ownersClaims 3600) ::
        (false, .mint) :: (false, .mint) :: (true, .revokeUserTokens ['a'] ['u']) :: consumedCode := by
    decide
  refine ⟨secure_codeAndRevocation, codeAndRevocation_begins, _, reaches_follow _ [false, false, true, false, false, false, false] _, ?_, ?_, ?_, ?_⟩
  · rw [logged]
    exact ⟨[_, _, _, _], rfl⟩
  · exact ⟨[], ownersCode.bare, nil_suffix, rfl, rfl⟩
  · rw [logged]
    refine .single ⟨nofun, false, ownersCode.bare, ownersClaims, ?_, .insertAccess "ovat_xxx" ownersClaims 3600, by simp, rfl⟩
    exact took_iff.mpr ⟨.consumeAuthCode ['c'], [(false, .peekAuthCode ['c'])], ⟨[_, _, _, _, _], rfl⟩, rfl, rfl⟩
  · exact ⟨insertedAccess ownersClaims 3600, by decide, by decide⟩

end Examples

end LoginomDock.OAuth
