import LoginomDock.Access.LegacySessions

namespace LoginomDock.Access

open List

def sessionDir (accountId : Text) : List Text := ["local", accountId, "session"]

section Owners

variable (loads : List UInt8 → Option Json) (storage : Storage)

def owner? (root : List Text) : Option Text :=
  match storage.node? (root ++ [".meta.json".toList]) with
  | some (.file data) => if namedOwner loads data = [] then none else some (namedOwner loads data)
  | _ => none

theorem legacySessionOwner_ok {root : List Text} {owner : Text} (done : legacySessionOwner loads storage root = .ok owner) :
    owner = (owner? loads storage root).getD [] := by
  rw [legacySessionOwner, Storage.read] at done
  rw [owner?]
  cases found : storage.node? (root ++ [".meta.json".toList]) with
  | none =>
    rw [found] at done
    cases done
    rfl
  | some node =>
    rw [found] at done
    cases node with
    | directory => cases done
    | file data =>
      cases done
      by_cases bare : namedOwner loads data = []
      · simp [bare]
      · simp [bare]

theorem owner?_filled {root : List Text} {owner : Text} (named : owner? loads storage root = some owner) : owner ≠ [] := by
  rw [owner?] at named
  split at named
  · split at named
    · cases named
    next filled =>
      cases named
      exact filled
  · cases named

variable (accountId user : Text)

def Exposes (path : List Text) : Prop :=
  ∃ first rest, path = sessionDir accountId ++ first :: rest ∧
    ((looksLikeLegacySessionDir storage (sessionDir accountId ++ [first]) = true ∧
        ∃ owner, owner? loads storage (sessionDir accountId ++ [first]) = some owner ∧ owner ≠ user) ∨
      (∃ second below, rest = second :: below ∧ looksLikeLegacySessionDir storage (sessionDir accountId ++ [first, second]) = true ∧
        (owner? loads storage (sessionDir accountId ++ [first, second])).getD first ≠ user) ∨
      (first ≠ user ∧ looksLikeLegacySessionDir storage (sessionDir accountId ++ [first]) = false ∧
        storage.node? path = some .directory))

-- What the visibility test answers below a directory of sessions, where nothing fails
def readableBelow (root : List Text) : List Text → Bool
  | [] => true
  | first :: rest =>
    if looksLikeLegacySessionDir storage (root ++ [first]) then owner? loads storage (root ++ [first]) = some user
    else match rest with
      | [] => true
      | second :: _ =>
        first = user && (!looksLikeLegacySessionDir storage (root ++ [first, second]) ||
          (owner? loads storage (root ++ [first, second])).getD user = user)

/-- The test takes the first component `session` for the directory of the sessions, be it the account. -/
def readablePath (path : List Text) : Bool :=
  match splitSession path with
  | none => true
  | some (root, suffix) => readableBelow loads storage user root suffix

def NestedHazard : List Text → Prop
  | first :: second :: _ =>
    looksLikeLegacySessionDir storage (sessionDir accountId ++ [first]) = true ∧
      owner? loads storage (sessionDir accountId ++ [first]) = some user ∧
      looksLikeLegacySessionDir storage (sessionDir accountId ++ [first, second]) = true ∧
      (owner? loads storage (sessionDir accountId ++ [first, second])).getD first ≠ user
  | [first] =>
    looksLikeLegacySessionDir storage (sessionDir accountId ++ [first]) = false ∧ first ≠ user ∧
      storage.node? (sessionDir accountId ++ [first]) = some .directory
  | [] => False

def ForeignChild (parent : List Text) (name : Text) : Prop :=
  ∃ first, parent = [first] ∧ looksLikeLegacySessionDir storage (sessionDir accountId ++ [first]) = false ∧
    ((looksLikeLegacySessionDir storage (sessionDir accountId ++ [first, name]) = true ∧
        (owner? loads storage (sessionDir accountId ++ [first, name])).getD first ≠ user) ∨
      (first ≠ user ∧ storage.node? (sessionDir accountId ++ [first, name]) = some .directory))

def TreeHazard (below : List Text) : Prop :=
  if accountId = "session" then
    readablePath loads storage user (sessionDir accountId ++ below) = true ∧ Exposes loads storage accountId user (sessionDir accountId ++ below)
  else NestedHazard loads storage accountId user below

def ChildHazard (parent : List Text) (name : Text) : Prop :=
  if accountId = "session" then
    readablePath loads storage user (sessionDir accountId ++ parent) = true ∧
      Exposes loads storage accountId user (sessionDir accountId ++ (parent ++ [name]))
  else ForeignChild loads storage accountId user parent name ∨ NestedHazard loads storage accountId user (parent ++ [name])

end Owners

variable {loads : List UInt8 → Option Json} {storage : Storage} {accountId user : Text}

theorem splitSession_sessionDir (other : accountId ≠ "session") (suffix : List Text) :
    splitSession (sessionDir accountId ++ suffix) = some (sessionDir accountId, suffix) := by
  rw [sessionDir, cons_append, cons_append, splitSession, if_neg (by decide), splitSession, if_neg other]
  rfl

theorem readablePath_below (other : accountId ≠ "session") (suffix : List Text) :
    readablePath loads storage user (sessionDir accountId ++ suffix) = readableBelow loads storage user (sessionDir accountId) suffix := by
  rw [readablePath, splitSession_sessionDir other]

theorem owner_answers {root : List Text} {owner : Text} (found : legacySessionOwner loads storage root = .ok owner) (filled : user ≠ []) :
    (owner ≠ [] && owner = user) = decide (owner? loads storage root = some user) ∧
      (owner = [] || owner = user) = decide ((owner? loads storage root).getD user = user) := by
  rw [legacySessionOwner_ok _ _ found]
  cases named : owner? loads storage root with
  | none => simp [Ne.symm filled]
  | some owner => simp [owner?_filled _ _ named]

theorem legacySessionPathVisible_ok (filled : user ≠ []) {path : List Text} {visible : Bool}
    (done : legacySessionPathVisible loads storage path user = .ok visible) : visible = readablePath loads storage user path := by
  rw [legacySessionPathVisible.eq_def] at done
  rw [readablePath]
  match split_eq : splitSession path, done with
  | none, done =>
    cases done
    rfl
  | some (root, []), done =>
    cases done
    rfl
  | some (root, first :: rest), done =>
    dsimp only at done ⊢
    rw [readableBelow.eq_def]
    dsimp only
    split at done
    next isSession =>
      obtain ⟨owner, found, done⟩ := bind_ok_iff.mp done
      cases done
      rw [if_pos isSession, (owner_answers found filled).1]
    next notSession =>
      rw [if_neg notSession]
      match rest with
      | [] =>
        cases done
        rfl
      | second :: _ =>
        dsimp only at done ⊢
        split at done
        next notOwn =>
          cases done
          simp [notOwn]
        next own =>
          rw [not_not] at own
          rw [decide_eq_true own, Bool.true_and]
          split at done
          next nested =>
            obtain ⟨owner, found, done⟩ := bind_ok_iff.mp done
            cases done
            rw [nested, (owner_answers found filled).2]
            rfl
          next notNested =>
            cases done
            rw [Bool.not_eq_true] at notNested
            rw [notNested]
            rfl

theorem exposes_iff {first : Text} {rest : List Text} :
    Exposes loads storage accountId user (sessionDir accountId ++ first :: rest) ↔
      (looksLikeLegacySessionDir storage (sessionDir accountId ++ [first]) = true ∧
          ∃ owner, owner? loads storage (sessionDir accountId ++ [first]) = some owner ∧ owner ≠ user) ∨
        (∃ second below, rest = second :: below ∧ looksLikeLegacySessionDir storage (sessionDir accountId ++ [first, second]) = true ∧
          (owner? loads storage (sessionDir accountId ++ [first, second])).getD first ≠ user) ∨
        (first ≠ user ∧ looksLikeLegacySessionDir storage (sessionDir accountId ++ [first]) = false ∧
          storage.node? (sessionDir accountId ++ first :: rest) = some .directory) := by
  constructor
  · rintro ⟨other, others, same, cases⟩
    obtain ⟨rfl, rfl⟩ := List.cons.inj (append_cancel_left same)
    exact cases
  · exact fun cases => ⟨first, rest, rfl, cases⟩

theorem not_exposes_root : ¬Exposes loads storage accountId user (sessionDir accountId) := by
  rintro ⟨first, rest, same, -⟩
  have lengths := congrArg List.length same
  rw [List.length_append, length_cons] at lengths
  omega

theorem readable_exposed_iff {first second : Text} {path rest : List Text}
    (readable : readableBelow loads storage user (sessionDir accountId) (first :: second :: path) = true ↔
      if looksLikeLegacySessionDir storage (sessionDir accountId ++ [first]) then owner? loads storage (sessionDir accountId ++ [first]) = some user
      else first = user ∧ (looksLikeLegacySessionDir storage (sessionDir accountId ++ [first, second]) = false ∨
        (owner? loads storage (sessionDir accountId ++ [first, second])).getD user = user)) :
    readableBelow loads storage user (sessionDir accountId) (first :: second :: path) = true ∧
        Exposes loads storage accountId user (sessionDir accountId ++ first :: second :: rest) ↔
      NestedHazard loads storage accountId user (first :: second :: rest) := by
  rw [readable, exposes_iff, NestedHazard]
  cases session : looksLikeLegacySessionDir storage (sessionDir accountId ++ [first]) with
  | true =>
    rw [if_pos rfl]
    constructor
    · rintro ⟨own, ⟨-, owner, named, other⟩ | ⟨second, below, same, nested, foreign⟩ | ⟨-, no, -⟩⟩
      · rw [own] at named
        exact absurd (Option.some.inj named).symm other
      · obtain ⟨rfl, rfl⟩ := List.cons.inj same
        exact ⟨rfl, own, nested, foreign⟩
      · cases no
    · rintro ⟨-, own, nested, foreign⟩
      exact ⟨own, .inr (.inl ⟨second, rest, rfl, nested, foreign⟩)⟩
  | false =>
    rw [if_neg Bool.false_ne_true]
    constructor
    · rintro ⟨⟨rfl, own⟩, ⟨no, -⟩ | ⟨second, below, same, nested, foreign⟩ | ⟨other, -⟩⟩
      · cases no
      · obtain ⟨rfl, rfl⟩ := List.cons.inj same
        rcases own with no | own
        · rw [nested] at no
          cases no
        · exact absurd own foreign
      · exact absurd rfl other
    · rintro ⟨no, -⟩
      cases no

theorem readableBelow_two (root : List Text) (first second : Text) (path : List Text) :
    readableBelow loads storage user root (first :: second :: path) = true ↔
      if looksLikeLegacySessionDir storage (root ++ [first]) then owner? loads storage (root ++ [first]) = some user
      else first = user ∧ (looksLikeLegacySessionDir storage (root ++ [first, second]) = false ∨
        (owner? loads storage (root ++ [first, second])).getD user = user) := by
  rw [readableBelow]
  split
  · exact decide_eq_true_iff
  · rw [Bool.and_eq_true, Bool.or_eq_true, Bool.not_eq_true', decide_eq_true_iff, decide_eq_true_iff]

theorem readableBelow_one (root : List Text) (first : Text) :
    readableBelow loads storage user root [first] = true ↔
      (looksLikeLegacySessionDir storage (root ++ [first]) = true → owner? loads storage (root ++ [first]) = some user) := by
  rw [readableBelow]
  cases looksLikeLegacySessionDir storage (root ++ [first]) with
  | true => simp
  | false => simp

theorem treeHazard_iff (below : List Text) :
    readablePath loads storage user (sessionDir accountId ++ below) = true ∧
        Exposes loads storage accountId user (sessionDir accountId ++ below) ↔
      TreeHazard loads storage accountId user below := by
  rw [TreeHazard]
  split
  · rfl
  next other =>
    rw [readablePath_below other]
    match below with
    | [] =>
      rw [append_nil]
      exact ⟨fun both => absurd both.2 not_exposes_root, False.elim⟩
    | [first] =>
      rw [readableBelow_one, exposes_iff, NestedHazard]
      constructor
      · rintro ⟨own, ⟨session, owner, named, other⟩ | ⟨_, _, no, -⟩ | ⟨other, plain, isDirectory⟩⟩
        · rw [own session] at named
          exact absurd (Option.some.inj named).symm other
        · cases no
        · exact ⟨plain, other, isDirectory⟩
      · rintro ⟨plain, other, isDirectory⟩
        refine ⟨fun session => ?_, .inr (.inr ⟨other, plain, isDirectory⟩)⟩
        rw [plain] at session
        cases session
    | first :: second :: rest => exact readable_exposed_iff (readableBelow_two _ _ _ _)

theorem childHazard_iff {parent : List Text} (filled : parent ≠ []) (name : Text) :
    readablePath loads storage user (sessionDir accountId ++ parent) = true ∧
        Exposes loads storage accountId user (sessionDir accountId ++ (parent ++ [name])) ↔
      ChildHazard loads storage accountId user parent name := by
  rw [ChildHazard]
  split
  · rfl
  next other =>
    rw [readablePath_below other]
    match parent with
    | [first] =>
      rw [readableBelow_one, singleton_append, exposes_iff, ForeignChild, NestedHazard]
      cases session : looksLikeLegacySessionDir storage (sessionDir accountId ++ [first]) with
      | true =>
        constructor
        · rintro ⟨own, ⟨-, owner, named, other⟩ | ⟨second, below, same, nested, foreign⟩ | ⟨-, no, -⟩⟩
          · rw [own rfl] at named
            exact absurd (Option.some.inj named).symm other
          · obtain ⟨rfl, -⟩ := List.cons.inj same
            exact .inr ⟨rfl, own rfl, nested, foreign⟩
          · cases no
        · rintro (⟨other, same, plain, -⟩ | ⟨-, own, nested, foreign⟩)
          · cases same
            rw [session] at plain
            cases plain
          · exact ⟨fun _ => own, .inr (.inl ⟨name, [], rfl, nested, foreign⟩)⟩
      | false =>
        constructor
        · rintro ⟨-, ⟨no, -⟩ | ⟨second, below, same, nested, foreign⟩ | ⟨other, plain, isDirectory⟩⟩
          · cases no
          · obtain ⟨rfl, -⟩ := List.cons.inj same
            exact .inl ⟨first, rfl, session, .inl ⟨nested, foreign⟩⟩
          · exact .inl ⟨first, rfl, session, .inr ⟨other, isDirectory⟩⟩
        · rintro (⟨other, same, plain, ⟨nested, foreign⟩ | ⟨other, isDirectory⟩⟩ | ⟨no, -⟩)
          · cases same
            exact ⟨nofun, .inr (.inl ⟨name, [], rfl, nested, foreign⟩)⟩
          · cases same
            exact ⟨nofun, .inr (.inr ⟨other, rfl, isDirectory⟩)⟩
          · cases no
    | first :: second :: rest =>
      rw [cons_append, cons_append, readable_exposed_iff (readableBelow_two _ _ _ _)]
      constructor
      · exact .inr
      · rintro (⟨_, same, -⟩ | hazard)
        · cases same
        · exact hazard

end LoginomDock.Access
