import LoginomDock.OAuth.Provider
import LoginomDock.Library.Histories

/-! A request consumes at most one grant, and inserts only tokens that it minted, for the user of the grant it loaded
and consumed. -/

namespace LoginomDock.OAuth

open Prog (Traced)
open List OAuthProvider StoreOp

abbrev StoreEvent := Event StoreOp StoreOp.Res

section Events

variable (around : Surroundings)

-- The grant of an exchange's consuming call
def StoreOp.takes : StoreOp → Option Slot
  | .consumeAuthCode plain => some ⟨.code, around.hash plain⟩
  | .consumeRefresh plain (some _) => some ⟨.refresh, around.hash plain⟩
  | _ => none

def StoreOp.sees : StoreOp → Option Slot
  | .peekAuthCode plain => some ⟨.code, around.hash plain⟩
  | .peekRefresh plain => some ⟨.refresh, around.hash plain⟩
  | _ => none

def granted : StoreEvent → Option (Row Unit)
  | ⟨.peekAuthCode _, row⟩ => (row : Option (Row CodeDetails)).map Row.bare
  | ⟨.consumeAuthCode _, row⟩ => (row : Option (Row CodeDetails)).map Row.bare
  | ⟨.peekRefresh _, row⟩ => (row : Option (Row RefreshDetails)).map Row.bare
  | ⟨.consumeRefresh _ _, row⟩ => (row : Option (Row RefreshDetails)).map Row.bare
  | _ => none

def tokenPrefix : SlotKind → Text
  | .code => authCodePrefix
  | .refresh => refreshTokenPrefix
  | .access => accessTokenPrefix

def Minted (history : List StoreEvent) (slot : Slot) : Prop :=
  ∃ secret, (⟨.mint, secret⟩ : StoreEvent) ∈ history ∧ slot.key = around.hash (tokenPrefix slot.kind ++ secret)

def Entitled (history : List StoreEvent) (claims : Claims) : Prop :=
  ∃ took ∈ history, ∃ saw ∈ history, ∃ slot row seen, took.1.takes around = some slot ∧ granted took = some row ∧
    saw.1.sees around = some slot ∧ granted saw = some seen ∧ claims.owner = seen.claims.owner

structure Proper (history : List StoreEvent) (op : StoreOp) : Prop where
  once : op.takes around ≠ none → ∀ event ∈ history, event.1.takes around = none
  minted : ∀ slot claims, op.makes around = some (slot, claims) → Minted around history slot
  entitled : ∀ slot claims, op.makes around = some (slot, claims) → slot.kind ≠ .code → Entitled around history claims
  -- the refresh token comes last
  first : ∀ slot claims, op.makes around = some (slot, claims) → ∀ event ∈ history, ∀ other more,
    event.1.makes around = some (other, more) → other.kind ≠ slot.kind ∧ other.kind ≠ .refresh

def Job.presents : Job → Option Slot
  | .tokenByCode _ plain _ => some ⟨.code, around.hash plain⟩
  | .tokenByRefresh _ plain _ => some ⟨.refresh, around.hash plain⟩
  | _ => none

def Detects (history : List StoreEvent) (plain : Text) (consumed : StoreEvent) : Prop :=
  (∃ rest, history = ⟨.isRefreshKnownButConsumed plain, false⟩ :: rest ∧ consumed ∈ rest) ∨
    ∃ accountId userId counts rest row, history = ⟨.revokeUserTokens accountId userId, counts⟩ :: rest ∧ consumed ∈ rest ∧
      (⟨.peekRefresh plain, some row⟩ : StoreEvent) ∈ rest ∧ row.claims.owner = (accountId, userId)

structure Ends (job : Job) (history : List StoreEvent) (result : Except OAuthError (Option OAuthToken)) : Prop where
  took : ∀ pair, result = .ok (some pair) →
    ∃ event ∈ history, event.1.takes around ≠ none ∧ event.1.takes around = job.presents around ∧ (granted event).isSome
  detects : ∀ plain newRefresh answer, (⟨.consumeRefresh plain (some newRefresh), answer⟩ : StoreEvent) ∈ history →
    answer = none → Detects history plain ⟨.consumeRefresh plain (some newRefresh), answer⟩

end Events

section Programs

variable {around : Surroundings} {provider : OAuthProvider} {history : List StoreEvent} {α β : Type} {op : StoreOp}
  {post : List StoreEvent → Except OAuthError α → Prop}

theorem traced_call {next : op.Res → OAuthM α} (proper : Proper around history op)
    (rest : ∀ answer, Traced (Proper around) post (⟨op, answer⟩ :: history) (next answer).run) :
    Traced (Proper around) post history (call op >>= next).run :=
  ⟨proper, rest⟩

theorem traced_bind {after : List StoreEvent → Except OAuthError β → Prop} {attempt : OAuthM α} {next : α → OAuthM β}
    (traced : Traced (Proper around) post history attempt.run)
    (returns : ∀ later value, post later (.ok value) → Traced (Proper around) after later (next value).run)
    (fails : ∀ later error, post later (.error error) → after later (.error error)) :
    Traced (Proper around) after history (attempt >>= next).run := by
  refine Traced.bind (traced.weaken fun later result ends => ?_)
  cases result with
  | ok value => exact returns later value ends
  | error error => exact fails later error ends

theorem proper_quiet (takes : op.takes around = none) (makes : op.makes around = none) : Proper around history op where
  once taken := absurd takes taken
  minted _ _ made := by simp [makes] at made
  entitled _ _ made := by simp [makes] at made
  first _ _ made := by simp [makes] at made

-- An exchange that got its grant
structure Held (around : Surroundings) (slot : Slot) (owner : Text × Text) (history : List StoreEvent) : Prop where
  took : ∃ event ∈ history, event.1.takes around = some slot ∧ (granted event).isSome
  saw : ∃ event ∈ history, event.1.sees around = some slot ∧ ∃ seen, granted event = some seen ∧ seen.claims.owner = owner
  only : ∀ event ∈ history, event.1.takes around ≠ none → (granted event).isSome

variable {slot : Slot} {owner : Text × Text} {claims : Claims}

theorem Held.cons {event : StoreEvent} (held : Held around slot owner history) (takes : event.1.takes around = none) :
    Held around slot owner (event :: history) := by
  obtain ⟨took, member, taken⟩ := held.took
  obtain ⟨saw, before, seen⟩ := held.saw
  refine ⟨⟨took, mem_cons_of_mem _ member, taken⟩, ⟨saw, mem_cons_of_mem _ before, seen⟩, fun other among taking => ?_⟩
  rcases mem_cons.mp among with rfl | earlier
  · exact absurd takes taking
  · exact held.only other earlier taking

section

variable (held : Held around slot owner history)

include held

theorem Held.entitled (owned : claims.owner = owner) : Entitled around history claims := by
  obtain ⟨took, member, taken, granted⟩ := held.took
  obtain ⟨saw, before, sees, seen, found, mine⟩ := held.saw
  obtain ⟨row, got⟩ := Option.isSome_iff_exists.mp granted
  exact ⟨took, member, saw, before, slot, row, seen, taken, got, sees, found, owned.trans mine.symm⟩

theorem Held.inserts {made : Slot} (owned : claims.owner = owner)
    (makes : op.makes around = some (made, claims)) (takes : op.takes around = none) (minted : Minted around history made)
    (first : ∀ event ∈ history, ∀ other more, event.1.makes around = some (other, more) → other.kind ≠ made.kind ∧ other.kind ≠ .refresh) :
    Proper around history op where
  once taken := absurd takes taken
  minted _ _ same := by
    cases makes.symm.trans same
    exact minted
  entitled _ _ same _ := by
    cases makes.symm.trans same
    exact held.entitled owned
  first _ _ same := by
    cases makes.symm.trans same
    exact first

theorem traced_storeTokenPair {access refresh : Text} (owned : claims.owner = owner)
    (unmade : ∀ event ∈ history, event.1.makes around = none)
    (accessMinted : Minted around history ⟨.access, around.hash access⟩)
    (refreshMinted : Minted around history ⟨.refresh, around.hash refresh⟩) :
    Traced (Proper around) (fun later _ => Held around slot owner later) history
      (provider.storeTokenPair claims access refresh).run := by
  have none_made : ∀ event ∈ history, ∀ other more, ¬ event.1.makes around = some (other, more) := by
    intro event member other more made
    simp [unmade event member] at made
  refine traced_call (held.inserts owned rfl rfl accessMinted fun event member other more made =>
    absurd made (none_made event member other more)) fun stored => ?_
  have heldAccess : Held around slot owner (⟨.insertAccess access claims provider.accessTtl, stored⟩ :: history) := held.cons rfl
  cases stored with
  | false => exact heldAccess
  | true =>
    have minted : Minted around (⟨.insertAccess access claims provider.accessTtl, true⟩ :: history) ⟨.refresh, around.hash refresh⟩ := by
      obtain ⟨secret, member, key⟩ := refreshMinted
      exact ⟨secret, mem_cons_of_mem _ member, key⟩
    refine traced_call (heldAccess.inserts owned rfl rfl minted fun event member other more made => ?_) fun kept => ?_
    · rcases mem_cons.mp member with rfl | earlier
      · cases made
        exact ⟨nofun, nofun⟩
      · exact absurd made (none_made event earlier other more)
    · have heldBoth : Held around slot owner (⟨.insertRefresh refresh claims provider.refreshTtl, kept⟩ ::
          ⟨.insertAccess access claims provider.accessTtl, true⟩ :: history) := heldAccess.cons rfl
      cases kept with
      | false => exact heldBoth
      | true => exact heldBoth

theorem traced_issueTokenPair {override : Option Text} (owned : claims.owner = owner)
    (unmade : ∀ event ∈ history, event.1.makes around = none)
    (overrideMinted : ∀ refresh, override = some refresh → Minted around history ⟨.refresh, around.hash refresh⟩) :
    Traced (Proper around) (fun later _ => Held around slot owner later) history
      (provider.issueTokenPair claims override).run := by
  refine traced_call (proper_quiet rfl rfl) fun secret => ?_
  have heldOne : Held around slot owner (⟨.mint, secret⟩ :: history) := held.cons rfl
  have unmadeOne : ∀ event ∈ (⟨.mint, secret⟩ : StoreEvent) :: history, event.1.makes around = none := by
    intro event member
    rcases mem_cons.mp member with rfl | earlier
    · rfl
    · exact unmade event earlier
  cases override with
  | some refresh =>
    obtain ⟨other, member, key⟩ := overrideMinted refresh rfl
    exact traced_storeTokenPair heldOne owned unmadeOne ⟨secret, mem_cons_self, rfl⟩
      ⟨other, mem_cons_of_mem _ member, key⟩
  | none =>
    refine traced_call (proper_quiet rfl rfl) fun second => ?_
    refine traced_storeTokenPair (heldOne.cons rfl) owned ?_ ⟨secret, by simp, rfl⟩ ⟨second, by simp, rfl⟩
    intro event member
    rcases mem_cons.mp member with rfl | earlier
    · rfl
    · exact unmadeOne event earlier

theorem Held.ends {result : Except OAuthError (Option OAuthToken)} (job : Job)
    (presented : job.presents around = some slot) : Ends around job history result where
  took pair _ := by
    obtain ⟨event, member, takes, got⟩ := held.took
    exact ⟨event, member, by simp [takes], takes.trans presented.symm, got⟩
  detects plain newRefresh answer member missed := by
    have got := held.only _ member (by simp [takes])
    subst missed
    cases got

end

-- A request that did not come to consume anything
theorem ends_idle {job : Job} {result : Except OAuthError (Option OAuthToken)} (idle : ∀ event ∈ history, event.1.takes around = none)
    (empty : ∀ pair, result ≠ .ok (some pair)) : Ends around job history result where
  took pair same := absurd same (empty pair)
  detects plain newRefresh answer member _ := by
    have none := idle _ member
    simp [takes] at none

theorem traced_exchangeCode {plain clientId : Text} {accepts : AuthorizationCode → Bool} {row : Row CodeDetails} :
    Traced (Proper around) (fun later result => Ends around (.tokenByCode clientId plain accepts) later (result.map some))
      [⟨.peekAuthCode plain, some row⟩] (provider.exchangeAuthorizationCode (loadedCode plain row)).run := by
  have unique : Proper around [⟨.peekAuthCode plain, some row⟩] (.consumeAuthCode plain) := by
    refine ⟨fun _ event member => ?_, nofun, nofun, nofun⟩
    cases mem_singleton.mp member
    rfl
  refine traced_call unique fun answer => ?_
  cases answer with
  | none =>
    refine ⟨nofun, fun other newRefresh answer member _ => ?_⟩
    simp at member
  | some consumed =>
    have held : Held around ⟨.code, around.hash plain⟩ row.claims.owner
        [⟨.consumeAuthCode plain, some consumed⟩, ⟨.peekAuthCode plain, some row⟩] := by
      refine ⟨⟨_, mem_cons_self, rfl, rfl⟩, ⟨_, mem_cons_of_mem _ mem_cons_self, rfl, row.bare, rfl, rfl⟩,
        fun event member takes => ?_⟩
      rcases mem_cons.mp member with rfl | earlier
      · rfl
      · cases mem_singleton.mp earlier
        exact absurd rfl takes
    have unmade : ∀ event ∈ [⟨.consumeAuthCode plain, some consumed⟩, (⟨.peekAuthCode plain, some row⟩ : StoreEvent)],
        event.1.makes around = none := by
      intro event member
      rcases mem_cons.mp member with rfl | earlier
      · rfl
      · cases mem_singleton.mp earlier
        rfl
    have issued : Traced (Proper around) (fun later _ => Held around ⟨.code, around.hash plain⟩ row.claims.owner later)
        [⟨.consumeAuthCode plain, some consumed⟩, ⟨.peekAuthCode plain, some row⟩]
        (provider.issueTokenPair (codeClaims (loadedCode plain row)) none).run :=
      traced_issueTokenPair held rfl unmade nofun
    exact issued.weaken fun later result kept => kept.ends (.tokenByCode clientId plain accepts) rfl

structure Loaded (around : Surroundings) (plain : Text) (row : Row RefreshDetails) (history : List StoreEvent) : Prop where
  saw : (⟨.peekRefresh plain, some row⟩ : StoreEvent) ∈ history
  quiet : ∀ event ∈ history, event.1.takes around = none ∧ event.1.makes around = none

variable {plain clientId : Text} {accepts : RefreshToken → Option (List Text)} {row : Row RefreshDetails}

theorem Loaded.cons {event : StoreEvent} (loaded : Loaded around plain row history) (takes : event.1.takes around = none)
    (makes : event.1.makes around = none) : Loaded around plain row (event :: history) := by
  refine ⟨mem_cons_of_mem _ loaded.saw, fun other member => ?_⟩
  rcases mem_cons.mp member with rfl | earlier
  · exact ⟨takes, makes⟩
  · exact loaded.quiet other earlier

section

variable (loaded : Loaded around plain row history)

include loaded

theorem Loaded.ends_throw {error : OAuthError} :
    Ends around (.tokenByRefresh clientId plain accepts) history (.error error) :=
  ends_idle (fun event member => (loaded.quiet event member).1) nofun

theorem traced_refuseRefresh {newRefresh : Text} :
    Traced (Proper around) (fun later result => Ends around (.tokenByRefresh clientId plain accepts) later (result.map some))
      (⟨.consumeRefresh plain (some newRefresh), none⟩ :: history) (refuseRefresh (loadedRefresh plain row)).run := by
  -- no other call of the thread consumes
  have only : ∀ other replacement answer, (⟨.consumeRefresh other (some replacement), answer⟩ : StoreEvent) ∉ history := by
    intro other replacement answer member
    have idle := (loaded.quiet _ member).1
    simp [takes] at idle
  refine traced_call (proper_quiet rfl rfl) fun known => ?_
  cases known with
  | false =>
    refine ⟨nofun, fun other replacement answer member missed => ?_⟩
    simp only [mem_cons, only, or_false] at member
    rcases member with ended | consumed
    · cases ended
    · cases consumed
      exact .inl ⟨_, rfl, mem_cons_self⟩
  | true =>
    refine traced_call (proper_quiet rfl rfl) fun counts => ?_
    refine ⟨nofun, fun other replacement answer member missed => ?_⟩
    simp only [mem_cons, only, or_false] at member
    rcases member with ended | known | consumed
    · cases ended
    · cases known
    · cases consumed
      exact .inr ⟨_, _, counts, _, row, rfl, by simp, by simp [loaded.saw], rfl⟩

theorem traced_rotateRefresh {scopes : List Text} :
    Traced (Proper around) (fun later result => Ends around (.tokenByRefresh clientId plain accepts) later (result.map some))
      history (provider.rotateRefresh (loadedRefresh plain row) scopes).run := by
  refine traced_call (proper_quiet rfl rfl) fun secret => ?_
  have minted : Loaded around plain row (⟨.mint, secret⟩ :: history) := loaded.cons rfl rfl
  have unique : Proper around (⟨.mint, secret⟩ :: history) (.consumeRefresh plain (some (refreshTokenPrefix ++ secret))) :=
    ⟨fun _ event member => (minted.quiet event member).1, nofun, nofun, nofun⟩
  refine traced_call unique fun answer => ?_
  cases answer with
  | none => exact traced_refuseRefresh minted
  | some consumed =>
    have held : Held around ⟨.refresh, around.hash plain⟩ row.claims.owner
        (⟨.consumeRefresh plain (some (refreshTokenPrefix ++ secret)), some consumed⟩ :: ⟨.mint, secret⟩ :: history) := by
      refine ⟨⟨_, mem_cons_self, rfl, rfl⟩, ⟨_, mem_cons_of_mem _ minted.saw, rfl, row.bare, rfl, rfl⟩,
        fun event member takes => ?_⟩
      rcases mem_cons.mp member with rfl | earlier
      · rfl
      · exact absurd (minted.quiet event earlier).1 takes
    have unmade : ∀ event ∈ (⟨.consumeRefresh plain (some (refreshTokenPrefix ++ secret)), some consumed⟩ : StoreEvent) ::
        ⟨.mint, secret⟩ :: history, event.1.makes around = none := by
      intro event member
      rcases mem_cons.mp member with rfl | earlier
      · rfl
      · exact (minted.quiet event earlier).2
    have issued : Traced (Proper around) (fun later _ => Held around ⟨.refresh, around.hash plain⟩ row.claims.owner later)
        (⟨.consumeRefresh plain (some (refreshTokenPrefix ++ secret)), some consumed⟩ :: ⟨.mint, secret⟩ :: history)
        (provider.issueTokenPair (refreshClaims (loadedRefresh plain row) scopes)
          (some (refreshTokenPrefix ++ secret))).run := by
      refine traced_issueTokenPair held rfl unmade fun refresh same => ?_
      cases same
      exact ⟨secret, by simp, rfl⟩
    exact issued.weaken fun later result kept => kept.ends (.tokenByRefresh clientId plain accepts) rfl

theorem traced_exchangeRefresh {scopes : List Text} :
    Traced (Proper around) (fun later result => Ends around (.tokenByRefresh clientId plain accepts) later (result.map some))
      history (provider.exchangeRefreshToken (loadedRefresh plain row) scopes).run := by
  unfold exchangeRefreshToken
  by_cases checks : provider.checksRole = true
  · rw [if_pos checks]
    refine traced_call (proper_quiet rfl rfl) fun current => ?_
    have resolved : Loaded around plain row
        (⟨.resolveRole row.claims.accountId row.claims.userId, current⟩ :: history) := loaded.cons rfl rfl
    by_cases outranked : provider.outranks row.claims.role current = true
    · change Traced _ _ _ (ExceptT.run (if provider.outranks row.claims.role current = true then _ else _))
      rw [if_pos outranked]
      exact resolved.ends_throw
    · change Traced _ _ _ (ExceptT.run (if provider.outranks row.claims.role current = true then _ else _))
      rw [if_neg outranked]
      exact traced_rotateRefresh resolved
  · rw [if_neg checks]
    exact traced_rotateRefresh loaded

end

theorem traced_tokenByCode {clientId plain : Text} {accepts : AuthorizationCode → Bool} :
    Traced (Proper around) (Ends around (.tokenByCode clientId plain accepts)) [] (provider.tokenByCode clientId plain accepts).run := by
  refine traced_call (proper_quiet rfl rfl) fun answer => ?_
  have idle : Ends around (.tokenByCode clientId plain accepts) [⟨.peekAuthCode plain, answer⟩] (.ok none) :=
    ends_idle (by simp [takes]) nofun
  change Traced _ _ _ (provider.exchangeCodeIf accepts (codeFor clientId plain answer)).run
  cases answer with
  | none => exact idle
  | some row =>
    by_cases foreign : row.claims.clientId ≠ clientId
    · have refused : codeFor clientId plain (some row) = none := if_pos foreign
      rw [refused]
      exact idle
    · have loaded : codeFor clientId plain (some row) = some (loadedCode plain row) := if_neg foreign
      rw [loaded, exchangeCodeIf]
      by_cases accepted : accepts (loadedCode plain row) = true
      · rw [if_pos accepted]
        exact traced_bind traced_exchangeCode (fun later token ends => ends) fun later error ends => ends
      · rw [if_neg accepted]
        exact idle

theorem traced_tokenByRefresh :
    Traced (Proper around) (Ends around (.tokenByRefresh clientId plain accepts)) []
      (provider.tokenByRefresh clientId plain accepts).run := by
  refine traced_call (proper_quiet rfl rfl) fun answer => ?_
  have idle : Ends around (.tokenByRefresh clientId plain accepts) [⟨.peekRefresh plain, answer⟩] (.ok none) :=
    ends_idle (by simp [takes]) nofun
  change Traced _ _ _ (provider.exchangeRefreshIf accepts (refreshFor clientId plain answer)).run
  cases answer with
  | none => exact idle
  | some row =>
    have loaded : Loaded around plain row [⟨.peekRefresh plain, some row⟩] := by
      refine ⟨mem_cons_self, fun event member => ?_⟩
      cases mem_singleton.mp member
      exact ⟨rfl, rfl⟩
    by_cases foreign : row.claims.clientId ≠ clientId
    · have refused : refreshFor clientId plain (some row) = none := if_pos foreign
      rw [refused]
      exact idle
    · have found : refreshFor clientId plain (some row) = some (loadedRefresh plain row) := if_neg foreign
      rw [found]
      cases accepted : accepts (loadedRefresh plain row) with
      | none =>
        simp only [exchangeRefreshIf, accepted]
        exact idle
      | some scopes =>
        simp only [exchangeRefreshIf, accepted]
        exact traced_bind (traced_exchangeRefresh loaded) (fun later token ends => ends) fun later error ends => ends

theorem traced_job (job : Job) : Traced (Proper around) (Ends around job) [] (job.program provider).run := by
  cases job with
  | tokenByCode clientId plain accepts => exact traced_tokenByCode
  | tokenByRefresh clientId plain accepts => exact traced_tokenByRefresh
  | issueAuthCode claims details =>
    refine traced_call (proper_quiet rfl rfl) fun secret => ?_
    have inserts : Proper around [⟨.mint, secret⟩] (.insertAuthCode (authCodePrefix ++ secret) claims details provider.codeTtl) := by
      refine ⟨nofun, fun slot other same => ?_, fun slot other same token => ?_, fun _ _ _ event member other more made => ?_⟩
      · cases same
        exact ⟨secret, mem_cons_self, rfl⟩
      · cases same
        exact absurd rfl token
      · cases mem_singleton.mp member
        cases made
    refine traced_call inserts fun stored => ?_
    cases stored <;> exact ends_idle (by simp [takes]) nofun
  | revokeAccessToken plain => exact ⟨proper_quiet rfl rfl, fun answer => ends_idle (by simp [takes]) nofun⟩
  | revokeRefreshToken plain => exact ⟨proper_quiet rfl rfl, fun answer => ends_idle (by simp [takes]) nofun⟩
  | revokeUserTokens accountId userId => exact ⟨proper_quiet rfl rfl, fun answer => ends_idle (by simp [takes]) nofun⟩
  | gcExpired => exact ⟨proper_quiet rfl rfl, fun answer => ends_idle (by simp [takes]) nofun⟩

end Programs

end LoginomDock.OAuth
