import Mathlib.Data.List.Nodup
import LoginomDock.Access.SessionOwners
import LoginomDock.Access.UserSpaces

namespace LoginomDock.Access

open List

theorem eraseDups_of_nodup {α : Type} [BEq α] [LawfulBEq α] {items : List α} (distinct : items.Nodup) : items.eraseDups = items := by
  induction items with
  | nil => rfl
  | cons item rest ih =>
    obtain ⟨absent, distinct⟩ := nodup_cons.mp distinct
    rw [eraseDups_cons, filter_eq_self.mpr, ih distinct]
    intro other member
    simpa using fun same : other = item => absent (same ▸ member)

section Keys

variable {α κ : Type} [DecidableEq κ] {key : α → κ}

theorem setDefaults_append (known first second : List α) :
    setDefaults key known (first ++ second) = setDefaults key (setDefaults key known first) second := foldl_append

theorem setDefaults_find? (known items : List α) (wanted : κ) :
    (setDefaults key known items).find? (fun item => key item = wanted) = (known ++ items).find? fun item => key item = wanted := by
  induction items generalizing known with
  | nil => rw [setDefaults, foldl_nil, append_nil]
  | cons item rest ih =>
    rw [← singleton_append, setDefaults_append, ih, find?_append, ← append_assoc, find?_append]
    congr 1
    rw [setDefaults, foldl_cons, foldl_nil]
    split
    next there =>
      obtain ⟨other, member, same⟩ := any_eq_true.mp there
      rw [find?_append]
      cases found : known.find? fun item => key item = wanted with
      | some _ => rfl
      | none =>
        have apart := find?_eq_none.mp found other member
        rw [of_decide_eq_true same] at apart
        simpa using apart
    · rfl

theorem setDefaults_nodup {known : List α} (distinct : (known.map key).Nodup) (items : List α) : ((setDefaults key known items).map key).Nodup := by
  induction items generalizing known with
  | nil => exact distinct
  | cons item rest ih =>
    rw [← singleton_append, setDefaults_append]
    refine ih ?_
    rw [setDefaults, foldl_cons, foldl_nil]
    split
    · exact distinct
    next absent =>
      rw [map_append, map_singleton, nodup_append]
      refine ⟨distinct, by simp, fun first member second single same => absent ?_⟩
      obtain ⟨other, inside, rfl⟩ := mem_map.mp member
      rw [any_eq_true]
      refine ⟨other, inside, decide_eq_true ?_⟩
      rw [same, mem_singleton.mp single]

theorem mem_setDefaults {items : List α} {item : α} :
    item ∈ setDefaults key [] items ↔ items.find? (fun other => key other = key item) = some item := by
  have distinct := @setDefaults_nodup _ _ _ key [] nodup_nil items
  have found := @setDefaults_find? _ _ _ key [] items (key item)
  rw [nil_append] at found
  rw [← found]
  constructor
  · intro member
    cases first : (setDefaults key [] items).find? fun other => key other = key item with
    | none => simpa using find?_eq_none.mp first item member
    | some other =>
      have same : key other = key item := by simpa using find?_some first
      rw [inj_on_of_nodup_map distinct (mem_of_find?_eq_some first) member same]
  · exact mem_of_find?_eq_some

end Keys

section Paths

variable {isalpha : Char → Bool} {ctx : RequestContext} {uri : Text} {suffix : List Text}

section

variable (ctx : RequestContext) (suffix : List Text)

def ownPath : List Text :=
  ["local".toList, ctx.user.accountId, "user".toList, shortenComponent ctx.user.userId, "sessions".toList] ++ suffix.map shortenComponent

def flatPath : List Text := sessionDir ctx.user.accountId ++ suffix.map shortenComponent

def nestedPath : List Text :=
  sessionDir ctx.user.accountId ++ (ctx.user.userId :: suffix).map shortenComponent

end

section

variable (safe : safeUriParts isalpha uri = .ok ("user" :: ctx.user.userId :: "sessions" :: suffix))

include safe

theorem storagePath_sessions :
    storagePath isalpha ctx.user.accountId uri = .ok (ownPath ctx suffix) := by
  have done := (@uriToPath_ok_iff isalpha ctx.user.accountId uri _).mpr ⟨_, safe, by simp, rfl⟩
  have fine := isName_of_safe safe
  have valid : Text.IsNames (ownPath ctx suffix) := by
    intro part member
    simp only [ownPath, mem_append, mem_cons, not_mem_nil, or_false] at member
    rcases member with (rfl | rfl | rfl | rfl | rfl) | member
    · decide
    · exact (isId_account ctx.user.validAccount).isName
    · decide
    · exact shortenComponent_isName (fine _ (by simp)).1
    · decide
    · exact isNames_shorten (fun part inside => (fine part (by simp [inside])).1) part member
  obtain ⟨parts, again, same⟩ := uriToPath_absolute done
  rw [safe] at again
  cases again
  rw [storagePath, done, same, ok_bind]
  have shown : "local".toList :: ctx.user.accountId :: ("user".toList :: ctx.user.userId :: "sessions".toList :: suffix).map shortenComponent =
      ownPath ctx suffix := by
    rw [ownPath, map_cons, map_cons, map_cons, @shortenComponent_short "user".toList (by decide)]
    rfl
  rw [shown, Text.absolute, ← nil_append ('/' :: _), names_append_slash, names_joined valid]
  rfl

theorem legacySessionAlias_sessions :
    legacySessionAlias isalpha uri = .ok (some (scheme ++ Text.joined ("session" :: suffix))) := by
  rw [legacySessionAlias, safe]
  rfl

theorem isSessionRootUri_sessions :
    isSessionRootUri isalpha uri = .ok (suffix = []) := by
  rw [isSessionRootUri, legacySessionAlias_sessions safe, ok_bind]
  congr 1
  rw [decide_eq_decide]
  match suffix with
  | [] => exact ⟨fun _ => rfl, fun _ => rfl⟩
  | part :: rest =>
    refine ⟨fun same => ?_, nofun⟩
    rw [Option.some.injEq, Text.joined_cons (cons_ne_nil _ _), show "viking://session" = scheme ++ "session" from rfl,
      append_cancel_left_eq, append_right_eq_self] at same
    cases same

theorem safeUriParts_alias :
    safeUriParts isalpha (scheme ++ Text.joined ("session" :: suffix)) = .ok ("session" :: suffix) := by
  have fine := isName_of_safe safe
  obtain ⟨rest, rfl, read, each⟩ := safeUriParts_ok_iff.mp safe
  have valid : Text.IsNames ("session" :: suffix) := by
    intro part member
    rcases mem_cons.mp member with rfl | member
    · decide
    · exact (fine part (by simp [member])).1
  refine safeUriParts_ok_iff.mpr ⟨_, rfl, (names_joined valid).symm, fun part member => ?_⟩
  rcases mem_cons.mp member with rfl | member
  · rfl
  · have plain := each part (by simp [member])
    rw [unsafePart] at plain ⊢
    split at plain
    · cases plain
    next dots =>
      split at plain
      · cases plain
      next separator =>
        split at plain
        · cases plain
        next drive => rw [if_neg dots, if_neg separator, if_neg drive]

theorem legacySessionPath_sessions :
    legacySessionPath isalpha ctx.user.accountId (scheme ++ Text.joined ("session" :: suffix)) = .ok (flatPath ctx suffix) := by
  rw [legacySessionPath, safeUriParts_alias safe, ok_bind, map_cons, shortenComponent_short (by decide)]
  rfl

end

def legacyPaths (ctx : RequestContext) (suffix : List Text) : List (List Text) :=
  if suffix = [] then [flatPath ctx suffix] else [flatPath ctx suffix, nestedPath ctx suffix]

theorem ownPath_ne (below suffix : List Text) : ownPath ctx suffix ≠ sessionDir ctx.user.accountId ++ below := by
  intro same
  have third := congrArg (fun path => path[2]?) same
  exact absurd third (by simp [ownPath, sessionDir])

theorem readPaths_sessions (safe : safeUriParts isalpha uri = .ok ("user".toList :: ctx.user.userId :: "sessions".toList :: suffix)) :
    readPaths isalpha ctx.user.accountId uri = .ok (ownPath ctx suffix :: legacyPaths ctx suffix) := by
  have apart : flatPath ctx suffix ≠ nestedPath ctx suffix := by
    intro same
    have lengths := congrArg List.length same
    simp [flatPath, nestedPath] at lengths
  rw [readPaths, storagePath_sessions safe, ok_bind, legacySessionAlias_sessions safe, ok_bind]
  dsimp only
  rw [legacySessionPath_sessions safe, ok_bind, legacyUserSessionPath, safe, ok_bind, ok_bind]
  congr 1
  match suffix with
  | [] =>
    have distinct : [ownPath ctx [], flatPath ctx []].Nodup :=
      nodup_cons.mpr ⟨fun member => ownPath_ne _ _ (mem_singleton.mp member), nodup_singleton _⟩
    exact eraseDups_of_nodup distinct
  | part :: rest =>
    rw [legacyPaths, if_neg (cons_ne_nil _ _)]
    have distinct : [ownPath ctx (part :: rest), flatPath ctx (part :: rest), nestedPath ctx (part :: rest)].Nodup := by
      refine nodup_cons.mpr ⟨fun member => ?_, nodup_cons.mpr ⟨fun member => apart (mem_singleton.mp member), nodup_singleton _⟩⟩
      rcases mem_cons.mp member with same | member
      · exact ownPath_ne _ _ same
      · exact ownPath_ne _ _ (mem_singleton.mp member)
    exact eraseDups_of_nodup distinct

end Paths

section Shown

variable {loads : List UInt8 → Option Json} {storage : Storage} {isalpha : Char → Bool} {ctx : RequestContext} {uri : Text} {suffix : List Text}
  (safe : safeUriParts isalpha uri = .ok ("user".toList :: ctx.user.userId :: "sessions".toList :: suffix))

theorem ownPath_hidden (below : List Text) : ¬Exposes loads storage ctx.user.accountId ctx.user.userId (ownPath ctx suffix ++ below) := by
  rintro ⟨first, rest, same, -⟩
  have third := congrArg (fun path => path[2]?) same
  exact absurd third (by simp [ownPath, sessionDir])

theorem mem_flatten_mapM {α β : Type} {items : List α} {program : α → Except ListingError (List β)} {values : List (List β)}
    (done : items.mapM program = .ok values) {value : β} (member : value ∈ values.flatten) :
    ∃ item ∈ items, ∃ found, program item = .ok found ∧ value ∈ found := by
  obtain ⟨found, among, here⟩ := mem_flatten.mp member
  obtain ⟨item, inside, first⟩ := exists_source_of_mapM_ok done among
  exact ⟨item, inside, found, first, here⟩

theorem rootItem_hidden (nonroot : ctx.role ≠ .root) {outputRootUri : Text} {entry : Entry} {found : List Item}
    (done : rootItem loads storage ctx (sessionDir ctx.user.accountId) outputRootUri ctx.user.userId entry = .ok found) :
    ∀ item ∈ found, ¬Exposes loads storage ctx.user.accountId ctx.user.userId item.path := by
  have filled : ctx.user.userId ≠ [] := (isId_of_valid ctx.user.validUser).isName.1
  rw [rootItem] at done
  split at done
  · cases done
    exact fun _ member => absurd member not_mem_nil
  split at done
  next session =>
    obtain ⟨owner, read, done⟩ := bind_ok_iff.mp done
    cases done
    intro item member
    split at member
    next own =>
      rw [mem_singleton.mp member, exposes_iff]
      have named : owner? loads storage (sessionDir ctx.user.accountId ++ [entry.name]) = some ctx.user.userId := by
        have same := legacySessionOwner_ok _ _ read
        cases owner_eq : owner? loads storage (sessionDir ctx.user.accountId ++ [entry.name]) with
        | none => rw [owner_eq, own] at same; exact absurd same filled
        | some owner => rw [owner_eq, own] at same; rw [same]; rfl
      rintro (⟨-, owner, other, foreign⟩ | ⟨_, _, no, -⟩ | ⟨-, plain, -⟩)
      · rw [named] at other
        exact foreign (Option.some.inj other).symm
      · cases no
      · rw [session] at plain
        cases plain
    · cases member
  next notSession =>
    rw [Bool.not_eq_true] at notSession
    split at done
    · cases done
      exact fun _ member => absurd member not_mem_nil
    next own =>
      rw [not_not] at own
      split at done
      · cases done
        exact fun _ member => absurd member not_mem_nil
      · cases done
      · obtain ⟨items, each, done⟩ := bind_ok_iff.mp done
        cases done
        intro item member
        obtain ⟨nested, -, shown, isShown, member⟩ := mem_flatten_mapM each member
        rw [nestedItem] at isShown
        split at isShown
        · cases isShown
          cases member
        split at isShown
        · cases isShown
          cases member
        next session =>
          obtain ⟨visible, isVisible, isShown⟩ := bind_ok_iff.mp isShown
          cases isShown
          split at member
          next yes =>
            rw [legacySessionVisible, if_neg nonroot] at isVisible
            obtain ⟨owner, read, isVisible⟩ := bind_ok_iff.mp isVisible
            cases isVisible
            have same := legacySessionOwner_ok _ _ read
            rw [mem_singleton.mp member, append_assoc, singleton_append, exposes_iff]
            rw [append_assoc, singleton_append] at same
            rintro (⟨no, -⟩ | ⟨second, below, inside, -, foreign⟩ | ⟨other, -⟩)
            · rw [notSession] at no
              cases no
            · obtain ⟨rfl, -⟩ := List.cons.inj inside
              cases named : owner? loads storage (sessionDir ctx.user.accountId ++ [entry.name, nested.name]) with
              | none => rw [named] at foreign; exact foreign own
              | some owner =>
                rw [named] at foreign same
                rw [same] at yes
                simp [owner?_filled _ _ named] at yes
                exact foreign yes
            · exact other own
          · cases member

include safe in
theorem sessionRootItems_hidden
    (nonroot : ctx.role ≠ .root) {items : List Item} (done : sessionRootItems loads storage isalpha ctx uri = .ok items) :
    ∀ item ∈ items, ¬Exposes loads storage ctx.user.accountId ctx.user.userId item.path := by
  have root : legacySessionPath isalpha ctx.user.accountId "viking://session" = .ok (sessionDir ctx.user.accountId) := by
    have read : safeUriParts isalpha "viking://session" = .ok ["session"] := by rfl
    rw [legacySessionPath, read, ok_bind, map_cons, shortenComponent_short (by decide)]
    rfl
  rw [sessionRootItems, storagePath_sessions safe, safe, root] at done
  obtain ⟨_, stored, done⟩ := bind_ok_iff.mp done
  cases stored
  obtain ⟨_, read, done⟩ := bind_ok_iff.mp done
  cases read
  have legacyHidden : ∀ primary : List Item, (∀ item ∈ primary, ¬Exposes loads storage ctx.user.accountId ctx.user.userId item.path) →
      (do
        let legacy ← legacySessionRootItems loads storage ctx (sessionDir ctx.user.accountId) (uri.rdropWhile (· = '/')) ctx.user.userId
        .ok (setDefaults (fun item : Item => item.entry.name) [] (primary ++ legacy.filter fun item : Item => item.entry.name ≠ []))) = .ok items →
      ∀ item ∈ items, ¬Exposes loads storage ctx.user.accountId ctx.user.userId item.path := by
    intro primary hidden done item member
    obtain ⟨legacy, legacyDone, done⟩ := bind_ok_iff.mp done
    cases done
    rcases mem_append.mp (mem_of_find?_eq_some (mem_setDefaults.mp member)) with own | other
    · exact hidden item own
    · rw [legacySessionRootItems] at legacyDone
      split at legacyDone
      · cases legacyDone
        cases other
      · cases legacyDone
      · obtain ⟨found, each, legacyDone⟩ := bind_ok_iff.mp legacyDone
        cases legacyDone
        obtain ⟨entry, -, shown, isShown, member⟩ := mem_flatten_mapM each (mem_filter.mp other).1
        exact rootItem_hidden nonroot isShown item member
  dsimp only at done
  split at done
  · exact legacyHidden [] (fun _ member => absurd member not_mem_nil) done
  · cases done
  · refine legacyHidden _ (fun item member => ?_) done
    obtain ⟨entry, -, rfl⟩ := mem_map.mp member
    exact ownPath_hidden _

def listedRoot (uri : Text) : Text := uri.rdropWhile (· = '/')

theorem listedRoot_last (uri : Text) : ¬"://" <:+ listedRoot uri := by
  rintro ⟨before, same⟩
  have ends : (listedRoot uri).getLast? = some '/' := by
    rw [← same, show "://" = [':', '/'] ++ ['/'] from rfl, ← append_assoc, getLast?_append]
    rfl
  have stops := head?_dropWhile_not (fun char => decide (char = '/')) uri.reverse
  rw [← getLast?_reverse] at stops
  rw [listedRoot, List.rdropWhile] at ends
  rw [ends] at stops
  simp at stops

include safe in
theorem aliasUri_sessions
    (base relative : List Text) (filled : relative ≠ []) :
    aliasUriForPath isalpha ctx.user.accountId uri base (base ++ relative) = .ok (listedRoot uri ++ '/' :: Text.joined relative) := by
  have notBare : uri ≠ scheme := by
    rintro rfl
    cases safe
  have separator : ("://".toList.isSuffixOf (listedRoot uri)) = false := by
    rw [← Bool.not_eq_true, isSuffixOf_iff_suffix]
    exact listedRoot_last uri
  rw [aliasUriForPath, safe, isLegacyAgentIdUri, safe, legacySessionAlias_sessions safe]
  dsimp only [ok_bind]
  rw [if_neg notBare, if_pos (by simp), if_pos (.inl rfl), drop_left, if_neg filled]
  rw [listedRoot] at separator
  rw [separator, if_neg Bool.false_ne_true, append_assoc]
  rfl

include safe in
theorem readPathVisible_ok
    {path primary : List Text} {visible : Bool} (done : readPathVisible loads storage isalpha uri path primary = .ok visible) :
    visible = (decide (path = primary) || readablePath loads storage ctx.user.userId path) := by
  have filled : ctx.user.userId ≠ [] := (isId_of_valid ctx.user.validUser).isName.1
  rw [readPathVisible] at done
  split at done
  next same =>
    cases done
    rw [decide_eq_true same, Bool.true_or]
  next other =>
    rw [legacySessionAlias_sessions safe, safe] at done
    rw [decide_eq_false other, Bool.false_or]
    exact legacySessionPathVisible_ok filled done

def itemsOf (storage : Storage) (uri : Text) (path : List Text) : List Item :=
  ((lsEntries storage path).toOption.getD []).map fun entry => ⟨path ++ [entry.name], entry, listedRoot uri ++ '/' :: entry.name, false⟩

include safe in
theorem gather_sessions
    {primary : List Text} (paths : List (List Text)) {found result : Option (List Item)}
    (done : gather loads storage isalpha ctx.user.accountId uri primary true paths found = .ok result) :
    result.getD [] = setDefaults Item.uri (found.getD [])
      (paths.flatMap fun path => if path = primary ∨ readablePath loads storage ctx.user.userId path = true then itemsOf storage uri path else []) := by
  induction paths generalizing found with
  | nil =>
    cases done
    rfl
  | cons path rest ih =>
    rw [gather] at done
    obtain ⟨visible, isVisible, done⟩ := bind_ok_iff.mp done
    have shown := readPathVisible_ok safe isVisible
    rw [flatMap_cons, setDefaults_append]
    cases visible with
    | false =>
      rw [eq_comm, Bool.or_eq_false_iff, decide_eq_false_iff_not, ← Bool.not_eq_true] at shown
      rw [if_neg (not_or.mpr shown)]
      exact ih done
    | true =>
      rw [eq_comm, Bool.or_eq_true, decide_eq_true_iff] at shown
      rw [if_pos shown, itemsOf]
      rw [if_neg (by decide)] at done
      split at done
      next absent =>
        rw [absent]
        exact ih done
      · cases done
      next entries read =>
        obtain ⟨items, mapped, done⟩ := bind_ok_iff.mp done
        have listedItems : items = entries.map fun entry => ⟨path ++ [entry.name], entry, listedRoot uri ++ '/' :: entry.name, false⟩ := by
          have each : ∀ entry ∈ entries, (do
              let entryUri ← liftAccess (aliasUriForPath isalpha ctx.user.accountId uri path (path ++ [entry.name]))
              .ok (⟨path ++ [entry.name], entry, entryUri, false⟩ : Item)) =
                Except.ok ⟨path ++ [entry.name], entry, listedRoot uri ++ '/' :: entry.name, false⟩ := by
            intro entry _
            rw [aliasUri_sessions safe path [entry.name] (cons_ne_nil _ _), Text.joined_singleton]
            rfl
          rw [mapM_ok each] at mapped
          exact (Except.ok.inj mapped).symm
        rw [if_pos rfl] at done
        have later := ih done
        rw [Option.getD_some, listedItems] at later
        rw [read]
        exact later

def Listed (storage : Storage) (path : List Text) (name : Text) : Prop :=
  ∃ entries, lsEntries storage path = .ok entries ∧ name ∈ entries.map Entry.name

theorem find_itemsOf {path : List Text} {name : Text} :
    (¬Listed storage path name ∧ (itemsOf storage uri path).find? (fun item => item.uri = listedRoot uri ++ '/' :: name) = none) ∨
      (Listed storage path name ∧ ∃ item, item.path = path ++ [name] ∧
        (itemsOf storage uri path).find? (fun item => item.uri = listedRoot uri ++ '/' :: name) = some item) := by
  cases found : (itemsOf storage uri path).find? fun item => item.uri = listedRoot uri ++ '/' :: name with
  | none =>
    refine .inl ⟨?_, rfl⟩
    rintro ⟨entries, read, member⟩
    obtain ⟨entry, inside, rfl⟩ := mem_map.mp member
    have apart := find?_eq_none.mp found ⟨path ++ [entry.name], entry, listedRoot uri ++ '/' :: entry.name, false⟩ (by
      rw [itemsOf, read]
      exact mem_map.mpr ⟨entry, inside, rfl⟩)
    simp at apart
  | some item =>
    have same : item.uri = listedRoot uri ++ '/' :: name := by simpa using find?_some found
    have member := mem_of_find?_eq_some found
    rw [itemsOf] at member
    obtain ⟨entry, inside, rfl⟩ := mem_map.mp member
    obtain rfl : entry.name = name := (List.cons.inj (append_cancel_left same)).2
    refine .inr ⟨?_, _, rfl, rfl⟩
    cases read : lsEntries storage path with
    | error _ =>
      rw [read] at inside
      cases inside
    | ok entries =>
      rw [read] at inside
      exact ⟨entries, read, mem_map_of_mem inside⟩

theorem find_readableItems (readable : Bool) (path : List Text) (name : Text) :
    (¬(readable = true ∧ Listed storage path name) ∧
        (if readable = true then itemsOf storage uri path else []).find? (fun item => item.uri = listedRoot uri ++ '/' :: name) = none) ∨
      ((readable = true ∧ Listed storage path name) ∧ ∃ item, item.path = path ++ [name] ∧
        (if readable = true then itemsOf storage uri path else []).find? (fun item => item.uri = listedRoot uri ++ '/' :: name) = some item) := by
  cases readable with
  | false => exact .inl ⟨nofun, rfl⟩
  | true =>
    rcases @find_itemsOf storage uri path name with ⟨absent, found⟩ | ⟨there, item⟩
    · exact .inl ⟨fun both => absent both.2, found⟩
    · exact .inr ⟨⟨rfl, there⟩, item⟩

def ListingSafe (loads : List UInt8 → Option Json) (storage : Storage) (ctx : RequestContext) (suffix : List Text) : Prop :=
  ∀ name, ¬Listed storage (ownPath ctx suffix) name →
    (Listed storage (flatPath ctx suffix) name →
      ¬ChildHazard loads storage ctx.user.accountId ctx.user.userId (suffix.map shortenComponent) name) ∧
    (Listed storage (nestedPath ctx suffix) name →
      ¬(readablePath loads storage ctx.user.userId (flatPath ctx suffix) = true ∧ Listed storage (flatPath ctx suffix) name) →
      ¬ChildHazard loads storage ctx.user.accountId ctx.user.userId ((ctx.user.userId :: suffix).map shortenComponent) name)

theorem uri_itemsOf {path : List Text} {item : Item} (member : item ∈ itemsOf storage uri path) : ∃ name, item.uri = listedRoot uri ++ '/' :: name := by
  obtain ⟨entry, -, rfl⟩ := mem_map.mp member
  exact ⟨entry.name, rfl⟩

-- Of the three paths the first that lists a name shows it.
theorem shown_hidden_iff (deeper : suffix ≠ []) {items : List Item} (whole : items = setDefaults Item.uri []
      ([ownPath ctx suffix, flatPath ctx suffix, nestedPath ctx suffix].flatMap fun path =>
        if path = ownPath ctx suffix ∨ readablePath loads storage ctx.user.userId path = true then itemsOf storage uri path else [])) :
    (∀ item ∈ items, ¬Exposes loads storage ctx.user.accountId ctx.user.userId item.path) ↔ ListingSafe loads storage ctx suffix := by
  have flatOther : flatPath ctx suffix ≠ ownPath ctx suffix := Ne.symm (ownPath_ne _ _)
  have nestedOther : nestedPath ctx suffix ≠ ownPath ctx suffix := Ne.symm (ownPath_ne _ _)
  rw [flatMap_cons, flatMap_cons, flatMap_cons, flatMap_nil, append_nil, if_pos (.inl rfl)] at whole
  simp only [flatOther, nestedOther, false_or] at whole
  generalize all_eq : (itemsOf storage uri (ownPath ctx suffix) ++ ((if readablePath loads storage ctx.user.userId (flatPath ctx suffix) = true then
    itemsOf storage uri (flatPath ctx suffix) else []) ++ if readablePath loads storage ctx.user.userId (nestedPath ctx suffix) = true then
    itemsOf storage uri (nestedPath ctx suffix) else [])) = all at whole
  have named : ∀ item ∈ all, ∃ name, item.uri = listedRoot uri ++ '/' :: name := by
    intro item member
    rw [← all_eq] at member
    rcases mem_append.mp member with own | legacy
    · exact uri_itemsOf own
    · rcases mem_append.mp legacy with flat | nested
      · split at flat
        · exact uri_itemsOf flat
        · cases flat
      · split at nested
        · exact uri_itemsOf nested
        · cases nested
  have each : (∀ item ∈ items, ¬Exposes loads storage ctx.user.accountId ctx.user.userId item.path) ↔
      ∀ name item, all.find? (fun item => item.uri = listedRoot uri ++ '/' :: name) = some item →
        ¬Exposes loads storage ctx.user.accountId ctx.user.userId item.path := by
    rw [whole]
    constructor
    · intro hidden name item found
      have same : item.uri = listedRoot uri ++ '/' :: name := by simpa using find?_some found
      exact hidden item (mem_setDefaults.mpr (by rw [same]; exact found))
    · intro hidden item member
      have found := mem_setDefaults.mp member
      obtain ⟨name, same⟩ := named item (mem_of_find?_eq_some found)
      exact hidden name item (by rw [← same]; exact found)
  have flat := @childHazard_iff loads storage ctx.user.accountId ctx.user.userId (suffix.map shortenComponent) (by simpa using deeper)
  have nested := @childHazard_iff loads storage ctx.user.accountId ctx.user.userId ((ctx.user.userId :: suffix).map shortenComponent) (by simp)
  rw [each, ListingSafe]
  refine forall_congr' fun name => ?_
  rw [← flat, ← nested, ← append_assoc, ← append_assoc, ← all_eq]
  change _ ↔ ¬_ → (_ → ¬(readablePath loads storage ctx.user.userId (flatPath ctx suffix) = true ∧ Exposes loads storage ctx.user.accountId
    ctx.user.userId (flatPath ctx suffix ++ [name]))) ∧ (_ → _ → ¬(readablePath loads storage ctx.user.userId (nestedPath ctx suffix) = true ∧
      Exposes loads storage ctx.user.accountId ctx.user.userId (nestedPath ctx suffix ++ [name])))
  rw [find?_append, find?_append]
  rcases @find_itemsOf storage uri (ownPath ctx suffix) name with ⟨noOwn, found⟩ | ⟨isOwn, own, place, found⟩
  · rw [found, Option.none_or]
    rcases @find_readableItems storage uri (readablePath loads storage ctx.user.userId (flatPath ctx suffix)) (flatPath ctx suffix) name
      with ⟨noFlat, found⟩ | ⟨isFlat, item, place, found⟩
    · rw [found, Option.none_or]
      rcases @find_readableItems storage uri (readablePath loads storage ctx.user.userId (nestedPath ctx suffix)) (nestedPath ctx suffix) name
        with ⟨noNested, found⟩ | ⟨isNested, item, place, found⟩
      · rw [found]
        exact ⟨fun _ _ => ⟨fun there hazard => noFlat ⟨hazard.1, there⟩, fun there _ hazard => noNested ⟨hazard.1, there⟩⟩, fun _ _ => nofun⟩
      · rw [found]
        constructor
        · intro hidden _
          refine ⟨fun there hazard => noFlat ⟨hazard.1, there⟩, fun _ _ hazard => hidden item rfl ?_⟩
          rw [place]
          exact hazard.2
        · intro hidden other same exposed
          rw [← Option.some.inj same, place] at exposed
          exact (hidden noOwn).2 isNested.2 noFlat ⟨isNested.1, exposed⟩
    · rw [found, Option.some_or]
      constructor
      · intro hidden _
        refine ⟨fun _ hazard => hidden item rfl ?_, fun _ noFlat => absurd isFlat noFlat⟩
        rw [place]
        exact hazard.2
      · intro hidden other same exposed
        rw [← Option.some.inj same, place] at exposed
        exact (hidden noOwn).1 isFlat.2 ⟨isFlat.1, exposed⟩
  · rw [found, Option.some_or]
    refine ⟨fun _ absent => absurd isOwn absent, fun _ item same => ?_⟩
    rw [← Option.some.inj same, place]
    exact ownPath_hidden _

include safe in
theorem listReadPathItems_hidden_iff
    (deeper : suffix ≠ []) {items : List Item} (done : listReadPathItems loads storage isalpha ctx uri = .ok items) :
    (∀ item ∈ items, ¬Exposes loads storage ctx.user.accountId ctx.user.userId item.path) ↔ ListingSafe loads storage ctx suffix := by
  rw [listReadPathItems, isSessionRootUri_sessions safe, decide_eq_false deeper, storagePath_sessions safe, legacySessionAlias_sessions safe,
    readPaths_sessions safe] at done
  dsimp only [liftAccess, ok_bind] at done
  rw [if_neg Bool.false_ne_true] at done
  obtain ⟨found, gathered, done⟩ := bind_ok_iff.mp done
  cases found with
  | none => cases done
  | some found =>
    cases done
    have whole := gather_sessions safe _ gathered
    rw [legacyPaths, if_neg deeper] at whole
    exact shown_hidden_iff deeper whole

end Shown

end LoginomDock.Access
