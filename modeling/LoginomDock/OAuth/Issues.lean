import LoginomDock.OAuth.Histories

/-! No two calls of a run insert under one hash, so a row that was there keeps its claims, stays spent once it is, and
never comes back once it is gone. -/

namespace LoginomDock.OAuth

open List Machine

variable {ι : Type} [DecidableEq ι]

abbrev Log (ι : Type) := List (ι × StoreOp)

section Runs

variable (around : Surroundings) (start : OAuthStore)

def replayed (log : Log ι) : OAuthStore := (oauthMachine around).replay start log

def historyOf (log : Log ι) (thread : ι) : List StoreEvent := (oauthMachine around).history start thread log

structure Secure : Prop where
  hash : Function.Injective around.hash
  minted : Function.Injective around.minted
  fresh : ∀ kind call, start.row ⟨kind, around.hash (tokenPrefix kind ++ around.minted call)⟩ = none

def Guarded (log : Log ι) : Prop :=
  ∀ thread op earlier, (thread, op) :: earlier <:+ log → Proper around (historyOf around start earlier thread) op

def Took (log : Log ι) (thread : ι) (slot : Slot) (row : Row Unit) : Prop :=
  ∃ event ∈ historyOf around start log thread, event.1.takes around = some slot ∧ granted event = some row

def Made (log : Log ι) (thread : ι) (slot : Slot) (claims : Claims) : Prop :=
  ∃ op, (thread, op) ∈ log ∧ op.makes around = some (slot, claims)

def Child (log : Log ι) (grant token : Slot) : Prop :=
  token.kind ≠ .code ∧ ∃ thread row claims, Took around start log thread grant row ∧ Made around log thread token claims

def Derives (log : Log ι) : Slot → Slot → Prop := Relation.ReflTransGen (Child around start log)

def Existed (log : Log ι) (slot : Slot) (owner : Text × Text) : Prop :=
  ∃ earlier row, earlier <:+ log ∧ (replayed around start earlier).row slot = some row ∧ row.claims.owner = owner

end Runs

section Entries

variable {α : Type} {log : List α}

theorem suffix_of_mem {entry : α} (member : entry ∈ log) : ∃ earlier, entry :: earlier <:+ log := by
  obtain ⟨newer, earlier, split⟩ := append_of_mem member
  exact ⟨earlier, newer, split.symm⟩

theorem entries_ordered {first second : α} {beforeFirst beforeSecond : List α} (left : first :: beforeFirst <:+ log)
    (right : second :: beforeSecond <:+ log) :
    first :: beforeFirst <:+ beforeSecond ∨ second :: beforeSecond <:+ beforeFirst ∨ first = second ∧ beforeFirst = beforeSecond := by
  rcases suffix_or_suffix_of_suffix left right with first_in | second_in
  · rcases suffix_cons_iff.mp first_in with same | before
    · exact .inr (.inr (List.cons.inj same))
    · exact .inl before
  · rcases suffix_cons_iff.mp second_in with same | before
    · exact .inr (.inr ⟨(List.cons.inj same).1.symm, (List.cons.inj same).2.symm⟩)
    · exact .inr (.inl before)

theorem not_suffix_self {entry : α} : ¬ entry :: log <:+ log := by
  intro suffix
  have shorter := suffix.length_le
  simp only [length_cons] at shorter
  omega

end Entries

section Facts

variable {around : Surroundings} {start : OAuthStore} {log earlier : Log ι} {thread other : ι} {op : StoreOp} {slot : Slot}
  {claims : Claims} {row : Row Unit} {owner : Text × Text}

theorem calls_replayed (log : Log ι) : (replayed around start log).calls = start.calls + log.length := by
  induction log with
  | nil => rfl
  | cons entry log ih =>
    change (OAuthStore.handle around entry.2 (replayed around start log)).2.calls = _
    rw [calls_handle, ih, length_cons, Nat.add_assoc]

theorem Guarded.suffix (guarded : Guarded around start log) (suffix : earlier <:+ log) : Guarded around start earlier :=
  fun thread op before made => guarded thread op before (made.trans suffix)

theorem minted_once (secure : Secure around start) {secret : Text} (mine : (⟨.mint, secret⟩ : StoreEvent) ∈ historyOf around start log thread)
    (others : (⟨.mint, secret⟩ : StoreEvent) ∈ historyOf around start log other) : thread = other := by
  obtain ⟨first, left, answered⟩ := mem_history.mp mine
  obtain ⟨second, right, again⟩ := mem_history.mp others
  -- a secret tells how many calls were made before it
  have calls : (replayed around start first).calls = (replayed around start second).calls :=
    secure.minted (answered.symm.trans again)
  rw [calls_replayed, calls_replayed] at calls
  have same := (suffix_of_suffix_length_le left right (by simp only [length_cons]; omega)).eq_of_length
    (by simp only [length_cons]; omega)
  exact congrArg Prod.fst (List.cons.inj same).1

theorem Minted.thread_eq (secure : Secure around start) (mine : Minted around (historyOf around start log thread) slot)
    (others : Minted around (historyOf around start log other) slot) : thread = other := by
  obtain ⟨secret, minted, key⟩ := mine
  obtain ⟨second, again, same⟩ := others
  have equal := append_cancel_left (secure.hash (key.symm.trans same))
  subst equal
  exact minted_once secure minted again

theorem Minted.later (minted : Minted around (historyOf around start earlier thread) slot) (suffix : earlier <:+ log) :
    Minted around (historyOf around start log thread) slot := by
  obtain ⟨secret, member, key⟩ := minted
  exact ⟨secret, (history_suffix suffix).subset member, key⟩

theorem mem_historyOf (made : (thread, op) :: earlier <:+ log) :
    (⟨op, (OAuthStore.handle around op (replayed around start earlier)).1⟩ : StoreEvent) ∈ historyOf around start log thread :=
  mem_history.mpr ⟨earlier, made, rfl⟩

theorem made_once (secure : Secure around start) (guarded : Guarded around start log) {second : StoreOp} {before : Log ι} {more : Claims}
    (left : (thread, op) :: earlier <:+ log) (right : (other, second) :: before <:+ log)
    (makes : op.makes around = some (slot, claims)) (again : second.makes around = some (slot, more)) :
    (thread, op) = (other, second) ∧ earlier = before := by
  have mine := ((guarded _ _ _ left).minted _ _ makes).later ((suffix_cons _ _).trans left)
  have others := ((guarded _ _ _ right).minted _ _ again).later ((suffix_cons _ _).trans right)
  have same := mine.thread_eq secure others
  subst same
  rcases entries_ordered left right with first | second | same
  · exact absurd rfl ((guarded _ _ _ right).first _ _ again _ (mem_historyOf first) _ _ makes).1
  · exact absurd rfl ((guarded _ _ _ left).first _ _ makes _ (mem_historyOf second) _ _ again).1
  · exact same

theorem row_origin (found : (replayed around start log).row slot = some row) :
    (∃ initial, start.row slot = some initial) ∨
      ∃ thread op earlier claims, (thread, op) :: earlier <:+ log ∧ op.makes around = some (slot, claims) := by
  induction log generalizing row with
  | nil => exact .inl ⟨row, found⟩
  | cons entry log ih =>
    obtain ⟨thread, op⟩ := entry
    rcases @row_handle around op (replayed around start log) slot with aged | ⟨_, claims, _, makes, _⟩
    · change (OAuthStore.handle around op (replayed around start log)).2.row slot = some row at found
      rw [found] at aged
      cases before : (replayed around start log).row slot with
      | none =>
        rw [before] at aged
        cases aged
      | some older =>
        rcases ih before with initial | ⟨maker, made, earlier, claims, entry, makes⟩
        · exact .inl initial
        · exact .inr ⟨maker, made, earlier, claims, entry.trans (suffix_cons _ _), makes⟩
    · exact .inr ⟨thread, op, log, claims, suffix_refl _, makes⟩

theorem row_unborn (secure : Secure around start) (guarded : Guarded around start log) {before : Log ι}
    (made : (thread, op) :: earlier <:+ log) (makes : op.makes around = some (slot, claims)) (suffix : before <:+ earlier) :
    (replayed around start before).row slot = none := by
  cases found : (replayed around start before).row slot with
  | none => rfl
  | some row =>
    rcases row_origin found with ⟨initial, there⟩ | ⟨maker, first, older, others, entry, again⟩
    · obtain ⟨secret, member, key⟩ := (guarded _ _ _ made).minted _ _ makes
      obtain ⟨prior, _, answered⟩ := mem_history.mp member
      have named : slot = ⟨slot.kind, around.hash (tokenPrefix slot.kind ++ around.minted (replayed around start prior).calls)⟩ := by
        obtain ⟨kind, name⟩ := slot
        exact congrArg (Slot.mk kind) (key.trans (congrArg (fun text => around.hash (tokenPrefix kind ++ text)) answered))
      rw [named, secure.fresh] at there
      cases there
    · have inside := entry.trans suffix
      obtain ⟨_, same⟩ := made_once secure guarded made (inside.trans ((suffix_cons _ _).trans made)) makes again
      subst same
      exact absurd inside not_suffix_self

def Lasts (around : Surroundings) (kind : SlotKind) (calls : Nat) (row : Row Unit) : Option (Row Unit) → Prop
  | none => kind = .refresh → ∃ call < calls, row.expiresAt < around.clock call
  | some later => later.claims = row.claims ∧ later.expiresAt = row.expiresAt ∧ (row.spent → later.spent)

theorem row_lasts (secure : Secure around start) (guarded : Guarded around start log) (suffix : earlier <:+ log)
    (found : (replayed around start earlier).row slot = some row) :
    Lasts around slot.kind (replayed around start log).calls row ((replayed around start log).row slot) := by
  induction log with
  | nil =>
    rw [suffix_nil.mp suffix] at found
    rw [found]
    exact ⟨rfl, rfl, id⟩
  | cons entry log ih =>
    obtain ⟨thread, op⟩ := entry
    rcases suffix_cons_iff.mp suffix with same | before
    · subst same
      rw [found]
      exact ⟨rfl, rfl, id⟩
    have lasts := ih (guarded.suffix (suffix_cons _ _)) before
    have calls : (replayed around start ((thread, op) :: log)).calls = (replayed around start log).calls + 1 := calls_handle
    rcases @row_handle around op (replayed around start log) slot with aged | ⟨_, claims, _, makes, _⟩
    · change Aged _ _ _ ((replayed around start ((thread, op) :: log)).row slot) at aged
      rw [calls]
      cases was : (replayed around start log).row slot with
      | none =>
        rw [was] at lasts aged
        cases now : (replayed around start ((thread, op) :: log)).row slot with
        | none =>
          intro refresh
          obtain ⟨call, earlier, expired⟩ := lasts refresh
          exact ⟨call, Nat.lt_succ_of_lt earlier, expired⟩
        | some later =>
          rw [now] at aged
          cases aged
      | some older =>
        rw [was] at lasts aged
        obtain ⟨claims, expires, spent⟩ := lasts
        cases now : (replayed around start ((thread, op) :: log)).row slot with
        | none =>
          rw [now] at aged
          intro refresh
          have expired := aged refresh
          rw [expires] at expired
          exact ⟨_, Nat.lt_succ_self _, expired⟩
        | some later =>
          rw [now] at aged
          exact ⟨aged.1.trans claims, aged.2.1.trans expires, fun was => aged.2.2 (spent was)⟩
    · have absent := row_unborn secure guarded (suffix_refl _) makes before
      rw [absent] at found
      cases found

theorem owner_unique (secure : Secure around start) (guarded : Guarded around start log) {second : Text × Text}
    (left : Existed around start log slot owner) (right : Existed around start log slot second) : owner = second := by
  obtain ⟨first, row, before, found, mine⟩ := left
  obtain ⟨last, later, after, there, others⟩ := right
  rcases suffix_or_suffix_of_suffix before after with inside | inside
  · have lasts := row_lasts secure (guarded.suffix after) inside found
    rw [there] at lasts
    rw [← mine, ← others, lasts.1]
  · have lasts := row_lasts secure (guarded.suffix before) inside there
    rw [found] at lasts
    rw [← mine, ← others, lasts.1]

theorem Existed.later (existed : Existed around start earlier slot owner) (suffix : earlier <:+ log) :
    Existed around start log slot owner := by
  obtain ⟨before, row, inside, found, mine⟩ := existed
  exact ⟨before, row, inside.trans suffix, found, mine⟩

end Facts

end LoginomDock.OAuth
