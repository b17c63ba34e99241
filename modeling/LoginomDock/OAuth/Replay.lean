import LoginomDock.OAuth.Revocation

namespace LoginomDock.OAuth

open List OAuthStore Pool StoreOp

variable {ι : Type} [DecidableEq ι]

section Runs

variable (around : Surroundings) (start : OAuthStore)

-- Revocations run while no exchange for the user is between its consuming call and its last insertion.
def Careful (log : Log ι) : Prop :=
  ∀ thread accountId userId earlier, (thread, revokeUserTokens accountId userId) :: earlier <:+ log →
    ∀ other, ¬ Exchanging around start earlier other (accountId, userId)

def LoadsUnspent (log : Log ι) : Prop :=
  ∀ thread plain earlier, (thread, peekRefresh plain) :: earlier <:+ log →
    ∀ row, (replayed around start earlier).row ⟨.refresh, around.hash plain⟩ = some row → row.spent = true →
      row.expiresAt ≤ (replayed around start earlier).now around

def StoreOp.Presents (plain : Text) (op : StoreOp) : Prop :=
  op = .peekRefresh plain ∨ ∃ newRefresh, op = .consumeRefresh plain (some newRefresh)

def Replays (log : Log ι) (thread : ι) (plain : Text) : Prop :=
  ∃ op earlier row, (thread, op) :: earlier <:+ log ∧ op.Presents plain ∧
    (replayed around start earlier).row ⟨.refresh, around.hash plain⟩ = some row ∧ row.spent = true ∧
      ∀ call < (replayed around start log).calls, around.clock call < row.expiresAt

end Runs

section Facts

variable {around : Surroundings} {start : OAuthStore} {log earlier before : Log ι} {thread other : ι} {op : StoreOp}
  {slot grant token : Slot} {claims : Claims} {row : Row Unit} {owner : Text × Text}

section

variable (secure : Secure around start) (guarded : Guarded around start log)

include secure guarded

theorem child_once {sibling : Slot}
    (left : Child around start log grant token) (right : Child around start log grant sibling) (kinds : token.kind = sibling.kind) :
    token = sibling := by
  obtain ⟨_, thread, row, claims, took, op, member, makes⟩ := left
  obtain ⟨_, other, more, others, again, second, among, remakes⟩ := right
  have same := taken_once secure guarded took again
  subst same
  obtain ⟨earlier, made⟩ := suffix_of_mem member
  obtain ⟨before, remade⟩ := suffix_of_mem among
  -- a thread inserts one token of each kind
  rcases entries_ordered made remade with first | last | equal
  · exact absurd kinds ((guarded _ _ _ remade).first _ _ remakes _ (mem_historyOf first) _ _ makes).1
  · exact absurd kinds.symm ((guarded _ _ _ made).first _ _ makes _ (mem_historyOf last) _ _ remakes).1
  · rw [(Prod.mk.inj equal.1).2] at makes
    exact (Prod.mk.inj (Option.some.inj (makes.symm.trans remakes))).1

theorem parent_before (inside : before <:+ log)
    (child : Child around start log grant token) (existed : Existed around start before token owner) :
    Existed around start before grant owner := by
  obtain ⟨isToken, thread, row, claims, took, op, member, makes⟩ := child
  obtain ⟨earlier, made⟩ := suffix_of_mem member
  obtain ⟨_, was⟩ := child_entry guarded isToken took made makes
  obtain ⟨first, present, within, found, mine⟩ := existed
  have sooner : (thread, op) :: earlier <:+ before := by
    rcases suffix_or_suffix_of_suffix (within.trans inside) made with early | late
    · rcases suffix_cons_iff.mp early with same | unborn
      · exact same ▸ within
      · rw [row_unborn secure guarded made makes unborn] at found
        cases found
    · exact late.trans within
  have owned : claims.owner = owner :=
    owner_unique secure (guarded.suffix inside) (existed_made secure (guarded.suffix inside) sooner makes) ⟨first, present, within, found, mine⟩
  exact owned ▸ was.later ((suffix_cons _ _).trans sooner)

theorem ancestor_before (inside : before <:+ log)
    (derives : Derives around start log grant token) (existed : Existed around start before token owner) :
    Existed around start before grant owner := by
  induction derives using Relation.ReflTransGen.head_induction_on with
  | refl => exact existed
  | head child _ ih => exact parent_before secure guarded inside child ih

theorem revokes_replayed {job : Job}
    {result : Except OAuthError (Option OAuthToken)} (ends : Ends around job (historyOf around start log thread) result)
    (loads : LoadsUnspent around start log) {plain : Text} (replays : Replays around start log thread plain) :
    ∃ accountId userId before, (thread, .revokeUserTokens accountId userId) :: before <:+ log ∧
      Existed around start before ⟨.refresh, around.hash plain⟩ (accountId, userId) := by
  obtain ⟨op, earlier, row, made, presents, found, spent, unexpired⟩ := replays
  rcases presents with rfl | ⟨newRefresh, rfl⟩
  · have calls : (replayed around start earlier).calls < (replayed around start log).calls := by
      have shorter := made.length_le
      rw [calls_replayed, calls_replayed]
      simp only [length_cons] at shorter
      omega
    have expired := loads _ _ _ made row found spent
    have alive := unexpired _ calls
    simp only [OAuthStore.now] at expired
    omega
  · have event := @mem_historyOf _ _ around start _ _ _ _ made
    -- the consuming call found the token consumed
    have missed : (handle around (.consumeRefresh plain (some newRefresh)) (replayed around start earlier)).1 = none := by
      cases answered : (handle around (.consumeRefresh plain (some newRefresh)) (replayed around start earlier)).1 with
      | none => rfl
      | some full =>
        obtain ⟨there, unspent, _⟩ := @granted_take around (.consumeRefresh plain (some newRefresh)) ⟨.refresh, around.hash plain⟩
          full.bare (replayed around start earlier) rfl (by rw [answered]; rfl)
        cases found.symm.trans there
        simp [unspent] at spent
    rcases ends.detects plain newRefresh _ event missed with ⟨rest, ended, among⟩ | ⟨accountId, userId, counts, rest, seen, ended, among, saw, owned⟩
    · -- the token was still known as consumed when the request asked
      have newest : (⟨.isRefreshKnownButConsumed plain, false⟩ : StoreEvent) :: rest <:+ historyOf around start log thread :=
        ⟨[], ended.symm⟩
      obtain ⟨before, asked, answered, prior⟩ := Machine.history_cons newest
      rw [← prior] at among
      obtain ⟨older, again, _⟩ := Machine.mem_history.mp among
      have inside : before <:+ log := (suffix_cons _ _).trans asked
      obtain ⟨_, rfl⟩ := took_once guarded made (again.trans inside) (by simp [takes]) (by simp [takes])
      have lasts := row_lasts secure (guarded.suffix inside) ((suffix_cons _ _).trans again) found
      cases now : (replayed around start before).row ⟨.refresh, around.hash plain⟩ with
      | none =>
        rw [now] at lasts
        obtain ⟨call, sooner, expired⟩ := lasts rfl
        have calls : call < (replayed around start log).calls := by
          have shorter := inside.length_le
          rw [calls_replayed] at sooner ⊢
          omega
        have alive := unexpired call calls
        omega
      | some later =>
        rw [now] at lasts
        obtain ⟨full, there, rfl⟩ := Option.map_eq_some_iff.mp now
        have known : (handle around (.isRefreshKnownButConsumed plain) (replayed around start before)).1 = true := by
          change ((replayed around start before).refreshes.lookup (around.hash plain)).any (·.spent) = true
          rw [there]
          exact lasts.2.2 spent
        exact absurd (answered.trans known) Bool.false_ne_true
    · have newest : (⟨.revokeUserTokens accountId userId, counts⟩ : StoreEvent) :: rest <:+ historyOf around start log thread :=
        ⟨[], ended.symm⟩
      obtain ⟨before, revoked, _, prior⟩ := Machine.history_cons newest
      rw [← prior] at saw
      obtain ⟨first, at_see, shown⟩ := Machine.mem_history.mp saw
      dsimp only at shown
      have there := @granted_see around (.peekRefresh plain) ⟨.refresh, around.hash plain⟩ seen.bare (replayed around start first) rfl
        (by rw [granted]; exact congrArg (Option.map Row.bare) shown.symm)
      exact ⟨accountId, userId, before, revoked, first, seen.bare, (suffix_cons _ _).trans at_see, there, owned⟩

end

end Facts

section Pools

variable {provider : OAuthProvider} {jobs : ι → Job} {around : Surroundings} {start pool : OAuthPool ι}

theorem ends_reaches (begins : start.Begins provider jobs) (reached : Reaches (oauthMachine around) start pool) {thread : ι}
    {result : Except OAuthError (Option OAuthToken)} (finished : pool.threads thread = .done result) :
    Ends around (jobs thread) (historyOf around start.state pool.log thread) result := by
  have traced := (traced_reaches begins reached).1 thread
  rwa [finished] at traced

/-- Every grant yields one pair of tokens, to one request. If revocations run apart from the user's exchanges and no request
loads a token that was consumed before, then a request that finds its refresh token consumed leaves no token of the family
live. -/
theorem one_shot_and_replays_revoke (secure : Secure around start.state) (begins : start.Begins provider jobs)
    (reached : Reaches (oauthMachine around) start pool) :
    (∀ grant first second, Child around start.state pool.log grant first → Child around start.state pool.log grant second →
      first.kind = second.kind → first = second) ∧
    (∀ first second pair other, (jobs first).presents around = (jobs second).presents around →
      pool.threads first = .done (.ok (some pair)) → pool.threads second = .done (.ok (some other)) → first = second) ∧
    (Careful around start.state pool.log → LoadsUnspent around start.state pool.log →
      ∀ thread result plain, pool.threads thread = .done result → Replays around start.state pool.log thread plain →
        ∀ root token, Derives around start.state pool.log root ⟨.refresh, around.hash plain⟩ →
          Derives around start.state pool.log root token → ∀ time, ¬ pool.state.Live token time) := by
  have guarded := guarded_reaches begins reached
  refine ⟨fun grant first second left right kinds => child_once secure guarded left right kinds, ?_, ?_⟩
  · intro first second pair other same left right
    obtain ⟨taking, member, takes, presented, got⟩ := (ends_reaches begins reached left).took pair rfl
    obtain ⟨again, among, _, represented, regot⟩ := (ends_reaches begins reached right).took other rfl
    obtain ⟨slot, named⟩ := Option.ne_none_iff_exists'.mp takes
    obtain ⟨row, taken⟩ := Option.isSome_iff_exists.mp got
    obtain ⟨more, retaken⟩ := Option.isSome_iff_exists.mp regot
    have renamed := represented.trans (same.symm.trans (presented.symm.trans named))
    exact taken_once secure guarded ⟨taking, member, named, taken⟩ ⟨again, among, renamed, retaken⟩
  · intro careful loads thread result plain finished replays root token presented derives time
    obtain ⟨accountId, userId, before, revoked, existed⟩ :=
      revokes_replayed secure guarded (ends_reaches begins reached finished) loads replays
    have known := ancestor_before secure guarded ((suffix_cons _ _).trans revoked) presented existed
    rw [state_eq_replay begins.1 reached]
    exact (dead_derived secure guarded revoked (careful _ _ _ _ revoked) known derives).not_live time

variable {first middle last : OAuthPool ι} {grant token : Slot} {row later : Row Unit}

theorem replayed_of_reaches (begins : start.Begins provider jobs) (reached : Reaches (oauthMachine around) start first) :
    first.state = replayed around start.state first.log :=
  state_eq_replay begins.1 reached

theorem grants_never_revive (secure : Secure around start.state) (begins : start.Begins provider jobs)
    (existed : Reaches (oauthMachine around) start first) (found : first.state.row grant = some row)
    (ended : Reaches (oauthMachine around) first middle) {time : Int} (dead : ¬ middle.state.Live grant time)
    (onward : Reaches (oauthMachine around) middle last) {now : Int} (order : time ≤ now) : ¬ last.state.Live grant now := by
  have guarded := guarded_reaches begins ((existed.trans ended).trans onward)
  rw [replayed_of_reaches begins existed] at found
  rw [replayed_of_reaches begins (existed.trans ended)] at dead
  rw [replayed_of_reaches begins ((existed.trans ended).trans onward)]
  have known : Existed around start.state middle.log grant row.claims.owner := ⟨_, row, log_suffix ended, found, rfl⟩
  cases was : (replayed around start.state middle.log).row grant with
  | none =>
    have gone : Dead around start.state middle.log grant := fun other there => by simp [was] at there
    exact (gone.lasts secure guarded (log_suffix onward) known).not_live now
  | some row =>
    rintro ⟨later, there, active⟩
    have lasts := row_lasts secure guarded (log_suffix onward) was
    rw [there] at lasts
    obtain ⟨_, expires, spent⟩ := lasts
    refine dead ⟨row, was, ?_⟩
    simp only [Row.active, Bool.and_eq_true, Bool.not_eq_true', decide_eq_true_eq] at active ⊢
    exact ⟨Bool.eq_false_iff.mpr fun consumed => by simp [spent consumed] at active, by omega⟩

theorem families_have_one_owner (secure : Secure around start.state) (begins : start.Begins provider jobs)
    (existed : Reaches (oauthMachine around) start first) (found : first.state.row grant = some row)
    (reached : Reaches (oauthMachine around) first last) (derives : Derives around start.state last.log grant token)
    (there : last.state.row token = some later) : later.claims.owner = row.claims.owner := by
  have guarded := guarded_reaches begins (existed.trans reached)
  rw [replayed_of_reaches begins existed] at found
  rw [replayed_of_reaches begins (existed.trans reached)] at there
  exact owner_unique secure guarded
    (ancestor_before secure guarded (suffix_refl _) derives ⟨_, later, suffix_refl _, there, rfl⟩)
    ⟨_, row, log_suffix reached, found, rfl⟩

end Pools

section Examples

def ownersRefresh : Row RefreshDetails where
  claims := ownersClaims
  details := { replacedBy := none }
  expiresAt := 1000
  spent := false

def storeWithRefresh : OAuthStore where
  codes := ∅
  refreshes := AList.singleton ['r'] ownersRefresh
  accesses := ∅
  pending := ∅
  calls := 0

def sameRefresh : Bool → Job := fun _ => .tokenByRefresh ['i'] ['r'] fun _ => some []

def twoRefreshes : OAuthPool Bool where
  state := storeWithRefresh
  log := []
  threads thread := ((sameRefresh thread).program defaultProvider).run

theorem twoRefreshes_begins : twoRefreshes.Begins defaultProvider sameRefresh := ⟨rfl, fun _ => rfl⟩

theorem secure_twoRefreshes : Secure stillSurroundings twoRefreshes.state := secure_still (.inr rfl) (.inl rfl) rfl

-- Both requests load the token, one exchanges it, and the other one finds it consumed.
def raced : OAuthPool Bool :=
  follow (oauthMachine stillSurroundings) [false, true, false, false, false, false, false, true, true, true, true] twoRefreshes

def racedPair : Log Bool :=
  [(false, .insertRefresh "ovrt_xx" ownersClaims 2592000), (false, .insertAccess "ovat_xxxx" ownersClaims 3600),
    (false, .mint), (false, .consumeRefresh ['r'] (some "ovrt_xx".toList)), (false, .mint), (true, .peekRefresh ['r']),
    (false, .peekRefresh ['r'])]

def racedReplay : Log Bool :=
  [(true, .isRefreshKnownButConsumed ['r']), (true, .consumeRefresh ['r'] (some "ovrt_xxxxxxx".toList)), (true, .mint)]

theorem raced_log : raced.log = (true, .revokeUserTokens ['a'] ['u']) :: (racedReplay ++ racedPair) := by decide

theorem raced_careful : Careful stillSurroundings twoRefreshes.state raced.log := by
  rintro thread accountId userId earlier revoked other ⟨slot, row, ⟨event, member, takes, got⟩, _, missing⟩
  rw [raced_log] at revoked
  have rest : earlier = racedReplay ++ racedPair := by
    rcases suffix_cons_iff.mp revoked with same | before
    · exact (List.cons.inj same).2
    · have impossible := before.subset mem_cons_self
      simp [racedReplay, racedPair] at impossible
  subst rest
  cases other with
  | false => exact missing "ovrt_xx" ownersClaims 2592000 (by simp [racedPair])
  | true =>
    -- the second request consumed nothing
    have own : historyOf stillSurroundings twoRefreshes.state (racedReplay ++ racedPair) true =
        [⟨.isRefreshKnownButConsumed ['r'], true⟩, ⟨.consumeRefresh ['r'] (some "ovrt_xxxxxxx".toList), none⟩,
          ⟨.mint, "xxxxxxx"⟩, ⟨.peekRefresh ['r'], some ownersRefresh⟩] := by
      rfl
    rw [own] at member
    simp only [mem_cons, not_mem_nil, or_false] at member
    rcases member with rfl | rfl | rfl | rfl
    · cases takes
    · cases got
    · cases takes
    · cases takes

theorem raced_loads : LoadsUnspent stillSurroundings twoRefreshes.state raced.log := by
  intro thread plain earlier loaded row found spent
  rw [raced_log] at loaded
  simp only [racedReplay, racedPair, cons_append, nil_append, suffix_cons_iff, suffix_nil, List.cons.injEq,
    Prod.mk.injEq, reduceCtorEq, and_false, false_and, false_or, or_false, peekRefresh.injEq] at loaded
  rcases loaded with ⟨⟨_, rfl⟩, rfl⟩ | ⟨⟨_, rfl⟩, rfl⟩ <;>
  · cases found
    cases spent

theorem raced_request_revokes : ¬ raced.state.Live ⟨.access, "ovat_xxxx"⟩ 0 := by
  have finished : raced.threads true = .done (.error (.tokenError "refresh token invalid")) := by rfl
  have replays : Replays stillSurroundings twoRefreshes.state raced.log true ['r'] := by
    rw [raced_log]
    exact ⟨.consumeRefresh ['r'] (some "ovrt_xxxxxxx".toList), (true, .mint) :: racedPair, ownersRefresh.spend.bare, ⟨[_, _], rfl⟩,
      .inr ⟨_, rfl⟩, rfl, rfl, fun _ _ => (by decide : (0 : Int) < 1000)⟩
  have child : Child stillSurroundings twoRefreshes.state raced.log ⟨.refresh, ['r']⟩ ⟨.access, "ovat_xxxx"⟩ := by
    rw [raced_log]
    refine ⟨nofun, false, ownersRefresh.bare, ownersClaims, ?_, .insertAccess "ovat_xxxx" ownersClaims 3600,
      by simp [racedPair], rfl⟩
    exact took_iff.mpr ⟨.consumeRefresh ['r'] (some "ovrt_xx".toList), [(false, .mint), (true, .peekRefresh ['r']), (false, .peekRefresh ['r'])],
      ⟨[_, _, _, _, _, _, _], rfl⟩, rfl, rfl⟩
  exact (one_shot_and_replays_revoke secure_twoRefreshes twoRefreshes_begins (reaches_follow _ _ _)).2.2 raced_careful raced_loads
    true _ ['r'] finished replays ⟨.refresh, ['r']⟩ _ .refl (.single child) 0

def inTurn : OAuthPool Bool := follow (oauthMachine stillSurroundings) [false, false, false, false, false, false, true] twoRefreshes

/-- A request with a token that an earlier request consumed finds nothing to load, and the tokens of the earlier one stay live. -/
theorem late_replay_revokes_nothing :
    Secure stillSurroundings twoRefreshes.state ∧ twoRefreshes.Begins defaultProvider sameRefresh ∧
      Reaches (oauthMachine stillSurroundings) twoRefreshes inTurn ∧ inTurn.threads true = .done (.ok none) ∧
      Replays stillSurroundings twoRefreshes.state inTurn.log true ['r'] ∧
      Derives stillSurroundings twoRefreshes.state inTurn.log ⟨.refresh, ['r']⟩ ⟨.access, "ovat_xxx"⟩ ∧
      inTurn.state.Live ⟨.access, "ovat_xxx"⟩ 0 := by
  have logged : inTurn.log = [(true, .peekRefresh ['r']), (false, .insertRefresh "ovrt_x" ownersClaims 2592000),
      (false, .insertAccess "ovat_xxx" ownersClaims 3600), (false, .mint),
      (false, .consumeRefresh ['r'] (some "ovrt_x".toList)), (false, .mint), (false, .peekRefresh ['r'])] := by
    decide
  refine ⟨secure_twoRefreshes, twoRefreshes_begins, reaches_follow _ _ _, rfl, ?_, ?_, ?_⟩
  · rw [logged]
    exact ⟨.peekRefresh ['r'], _, ownersRefresh.spend.bare, suffix_refl _, .inl rfl, rfl, rfl,
      fun _ _ => (by decide : (0 : Int) < 1000)⟩
  · rw [logged]
    refine .single ⟨nofun, false, ownersRefresh.bare, ownersClaims, ?_, .insertAccess "ovat_xxx" ownersClaims 3600,
      by simp, rfl⟩
    exact took_iff.mpr ⟨.consumeRefresh ['r'] (some "ovrt_x".toList), [(false, .mint), (false, .peekRefresh ['r'])],
      ⟨[_, _, _, _], rfl⟩, rfl, rfl⟩
  · exact ⟨insertedAccess ownersClaims 3600, by decide, by decide⟩

theorem raced_never_revives : ¬ (follow (oauthMachine stillSurroundings) [true, false] raced).state.Live ⟨.refresh, ['r']⟩ 5 := by
  refine grants_never_revive secure_twoRefreshes twoRefreshes_begins .refl rfl (reaches_follow _ _ _) ?_ (reaches_follow _ _ _)
    (by decide : (5 : Int) ≤ 5)
  rintro ⟨row, found, active⟩
  cases found
  cases active

theorem tokens_have_owner : ∃ later, inTurn.state.row ⟨.access, "ovat_xxx"⟩ = some later ∧ later.claims.owner = (['a'], ['u']) := by
  have child : Child stillSurroundings twoRefreshes.state inTurn.log ⟨.refresh, ['r']⟩ ⟨.access, "ovat_xxx"⟩ := by
    refine ⟨(fun same => by cases same), false, ownersRefresh.bare, ownersClaims, ?_, .insertAccess "ovat_xxx" ownersClaims 3600,
      by decide, rfl⟩
    exact took_iff.mpr ⟨.consumeRefresh ['r'] (some "ovrt_x".toList), [(false, .mint), (false, .peekRefresh ['r'])],
      by decide, rfl, rfl⟩
  have there : inTurn.state.row ⟨.access, "ovat_xxx"⟩ = some (insertedAccess ownersClaims 3600) := by decide
  exact ⟨_, there, families_have_one_owner secure_twoRefreshes twoRefreshes_begins .refl
    (rfl : twoRefreshes.state.row _ = some ownersRefresh.bare) (reaches_follow _ _ _) (.single child) there⟩

end Examples

end LoginomDock.OAuth
