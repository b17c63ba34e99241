import LoginomDock.Access.SameAnswers
import LoginomDock.Access.SessionListings

namespace LoginomDock.Access

open AclManager List

section Entries

variable {classes : CharClasses} {store : ContextStore} {ctx : RequestContext} {uri : Text} {suffix : List Text}

theorem listedRoot_scheme {rest : Text} (filled : names rest ≠ []) : listedRoot (scheme ++ rest) = scheme ++ rest.rdropWhile (· = '/') := by
  have left : rest.reverse.dropWhile (fun char => decide (char = '/')) ≠ [] := by
    intro nothing
    have same := names_rdropWhile rest
    rw [List.rdropWhile, nothing] at same
    exact filled same.symm
  rw [listedRoot, List.rdropWhile, List.rdropWhile, reverse_append, dropWhile_append, if_neg (by simpa using left), reverse_append,
    reverse_reverse]

theorem names_entry (safe : safeUriParts classes.isalpha uri = .ok ("user" :: ctx.user.userId :: "sessions" :: suffix)) (relative : Text) :
    ∃ rest more, listedRoot uri ++ '/' :: relative = scheme ++ rest ∧
      names rest = "user".toList :: ctx.user.userId :: "sessions".toList :: more := by
  obtain ⟨rest, rfl, read, -⟩ := safeUriParts_ok_iff.mp safe
  refine ⟨rest.rdropWhile (· = '/') ++ '/' :: relative, suffix ++ names relative, ?_, ?_⟩
  · rw [listedRoot_scheme (by rw [← read]; exact cons_ne_nil _ _), append_assoc]
  · rw [names_append_slash, names_rdropWhile, ← read]
    rfl

theorem isId_user : IsId ctx.user.userId := isId_of_valid ctx.user.validUser

theorem viewOf_sessions {rest : Text} {more : List Text} (read : names rest = "user".toList :: ctx.user.userId :: "sessions".toList :: more) :
    viewOf classes (scheme ++ rest) = .fixed .always .nobody ∨ viewOf classes (scheme ++ rest) = .fixed .never (.user ctx.user.userId) := by
  have path : cutQuery ("user" :: ctx.user.userId :: "sessions" :: more) =
      "user".toList :: ctx.user.userId :: "sessions".toList :: cutQuery more := by
    rw [cutQuery_cons (by decide), cutQuery_cons isId_user.noQuery, cutQuery_cons (by decide)]
  have audience : userAudience ("user" :: ctx.user.userId :: "sessions" :: cutQuery more) = .user ctx.user.userId := by
    unfold userAudience
    dsimp only
    rw [if_neg (not_not.mpr ctx.user.validUser)]
    cases cutQuery more with
    | nil => rfl
    | cons peer others => exact if_neg (by decide)
  rw [viewOf, drop_left, read, segmentsView]
  have scope : some "user".toList ≠ some "resources".toList := by decide
  rw [path, audience, if_neg (by exact Bool.false_ne_true), if_neg (by exact scope), if_neg (by decide), if_neg (by decide), if_neg (by decide),
    if_neg (by decide)]
  by_cases spelled : rest.head? = some '/'
  · exact .inl (if_pos (.inl (by rw [spelled]; rfl)))
  · exact .inr (if_neg (by simp [spelled]))

theorem legacy_inaccessible (nonroot : ctx.role ≠ .root) (below : List Text) :
    isAccessible classes (pathToUri ctx.user.accountId (sessionDir ctx.user.accountId ++ below)) ctx ≠ .ok true := by
  have shown : pathToUri ctx.user.accountId (sessionDir ctx.user.accountId ++ below) = scheme ++ Text.joined ("session".toList :: below) := by
    rw [sessionDir, cons_append, cons_append, pathToUri, if_pos rfl]
    rfl
  have read : ∃ more, names (Text.joined ("session".toList :: below)) = "session".toList :: more := by
    cases below with
    | nil => exact ⟨[], by rw [Text.joined_singleton]; decide⟩
    | cons first rest =>
      rw [Text.joined_cons (cons_ne_nil _ _), names_append_slash]
      exact ⟨names (Text.joined (first :: rest)), rfl⟩
  have spelled : (Text.joined ("session".toList :: below)).head? ≠ some '/' := by
    cases below with
    | nil =>
      rw [Text.joined_singleton]
      decide
    | cons first rest =>
      rw [Text.joined_cons (cons_ne_nil _ _)]
      exact fun same => absurd (Option.some.inj same) (by decide)
  obtain ⟨more, read⟩ := read
  intro accessible
  rw [shown] at accessible
  have safe : ∃ parts, safeUriParts classes.isalpha (scheme ++ Text.joined ("session".toList :: below)) = .ok parts := by
    rw [isAccessible] at accessible
    obtain ⟨parts, safe, -⟩ := bind_ok_iff.mp accessible
    exact ⟨parts, safe⟩
  obtain ⟨parts, safe⟩ := safe
  have view : viewOf classes (scheme ++ Text.joined ("session".toList :: below)) = .fixed .never .nobody := by
    rw [viewOf, drop_left, read, segmentsView, cutQuery_cons (by decide)]
    have scope : some "session".toList ≠ some "resources".toList := by decide
    rw [if_neg ?_, if_neg (by exact scope), if_neg (by decide), if_neg (by decide), if_neg (by decide), if_neg (by decide), if_neg ?_,
      if_neg (by decide), if_neg (by decide)]
    · rw [not_or]
      refine ⟨fun bare => ?_, by decide⟩
      rw [decide_eq_true spelled] at bare
      cases bare
    · intro control
      rw [← cutQuery_cons (by decide)] at control
      exact absurd (scope_of_control control) (by decide)
  have answer := @isAccessible_fixed ctx _ _ _ safe _ _ view
  rw [accessible, fixedAnswer, if_neg nonroot] at answer
  cases answer

theorem denied_of_unsafe {rest : Text} {error : AccessError} (failed : safeUriParts classes.isalpha (scheme ++ rest) = .error error) :
    ∃ message resource, error = .denied message resource := by
  rw [safeUriParts, if_neg (by simp)] at failed
  dsimp only at failed
  split at failed
  next found wrong =>
    cases failed
    obtain ⟨part, -, wrong⟩ := exists_of_findSome?_eq_some wrong
    rw [unsafePart] at wrong
    split at wrong
    · cases wrong
      exact ⟨_, _, rfl⟩
    split at wrong
    · cases wrong
      exact ⟨_, _, rfl⟩
    split at wrong
    · cases wrong
      exact ⟨_, _, rfl⟩
    · cases wrong
  · cases failed

theorem own_allowed (nonroot : ctx.role ≠ .root) {action : AclLevel} {uris : List Text} {answers : List (Text × Bool)}
    (done : canAccessMany classes store ctx action true uris = .ok answers) {rest : Text} {more : List Text} (member : scheme ++ rest ∈ uris)
    (read : names rest = "user".toList :: ctx.user.userId :: "sessions".toList :: more) : valueOf answers (scheme ++ rest) = some true := by
  obtain ⟨⟨value, isChecked⟩, answered⟩ := answered_of_many done member
  have safe : ∃ parts, safeUriParts classes.isalpha (scheme ++ rest) = .ok parts := by
    rw [checkedUri] at isChecked
    split at isChecked
    next parts safe => exact ⟨parts, safe⟩
    · cases isChecked
    next error notDenied failed =>
      obtain ⟨message, resource, rfl⟩ := denied_of_unsafe failed
      exact absurd rfl (notDenied message resource)
  obtain ⟨parts, safe⟩ := safe
  rw [answer_of_many done member safe] at answered ⊢
  rcases @viewOf_sessions classes ctx rest more read with view | view
  · rw [answer_fixed safe view, fixedAnswer, if_neg nonroot] at answered
    exact absurd rfl answered
  · rw [answer_fixed safe view, fixedAnswer, if_neg nonroot]
    simp [Failing.fails, Audience.sees]

end Entries

section Candidates

variable {loads : List UInt8 → Option Json} {storage : Storage} {classes : CharClasses} {store : ContextStore} {aclEnabled : Bool}
  {ctx : RequestContext} {uri : Text} {path primary : List Text}

variable {showAllHidden : Bool} {raw : List (List Text × Bool)}

theorem length_treeDirectory {nodeLimit levelLimit : Option Nat}
    (done : storage.treeDirectory path showAllHidden nodeLimit levelLimit = .ok raw) : raw.length ≤ storage.nodes.length := by
  rw [Storage.treeDirectory] at done
  split at done
  · cases done
    have shown : ∀ shows : List Text × Bool → Bool, (List.filter shows ((storage.nodes.filter fun node =>
        path.isPrefixOf node.1 && node.1 ≠ path).map fun node => (node.1, decide (node.2 = .directory)))).length ≤ storage.nodes.length := by
      intro shows
      refine (length_filter_le _ _).trans ?_
      rw [length_map]
      exact length_filter_le _ _
    cases nodeLimit with
    | none => exact shown _
    | some limit => exact (length_take_le' _ _).trans (shown _)
  · cases done
  · cases done

-- What passes is among the entries, and all that passes is kept where there is no limit.
theorem candidates_spec {limit : Option Nat} {kept items : List Item}
    (done : candidates loads storage classes aclEnabled ctx uri path primary limit raw kept = .ok items) :
    (∀ item ∈ items, item ∈ kept ∨ ∃ entry ∈ raw, item.path = entry.1 ∧
      isPathEntryVisible classes aclEnabled ctx entry.1 ((entry.1.getLast?).getD []) path = .ok true ∧
      readPathVisible loads storage classes.isalpha uri entry.1 primary = .ok true) ∧
    (limit = none → (∀ item ∈ kept, item ∈ items) ∧ ∀ entry ∈ raw,
      isPathEntryVisible classes aclEnabled ctx entry.1 ((entry.1.getLast?).getD []) path = .ok true →
      (∀ readable, readPathVisible loads storage classes.isalpha uri entry.1 primary = .ok readable → readable = true) →
      ∃ item ∈ items, item.path = entry.1 ∧ aliasUriForPath classes.isalpha ctx.user.accountId uri path entry.1 = .ok item.uri) := by
  induction raw generalizing kept with
  | nil =>
    cases done
    exact ⟨fun item member => .inl member, fun _ => ⟨fun _ member => member, fun _ member => absurd member not_mem_nil⟩⟩
  | cons entry rest ih =>
    rw [candidates] at done
    obtain ⟨visible, isVisible, done⟩ := bind_ok_iff.mp done
    have passes : isPathEntryVisible classes aclEnabled ctx entry.1 ((entry.1.getLast?).getD []) path = .ok visible := by
      cases checked : isPathEntryVisible classes aclEnabled ctx entry.1 ((entry.1.getLast?).getD []) path with
      | error _ =>
        rw [checked] at isVisible
        cases isVisible
      | ok value =>
        rw [checked] at isVisible
        cases isVisible
        rfl
    cases visible with
    | false =>
      obtain ⟨sound, complete⟩ := ih done
      refine ⟨fun item member => (sound item member).imp_right fun ⟨other, inside, facts⟩ => ⟨other, mem_cons_of_mem _ inside, facts⟩,
        fun unlimited => ⟨(complete unlimited).1, fun other inside shown readable => ?_⟩⟩
      rcases mem_cons.mp inside with rfl | inside
      · rw [passes] at shown
        cases shown
      · exact (complete unlimited).2 other inside shown readable
    | true =>
      rw [if_neg (by decide)] at done
      obtain ⟨readable, isReadable, done⟩ := bind_ok_iff.mp done
      cases readable with
      | false =>
        obtain ⟨sound, complete⟩ := ih done
        refine ⟨fun item member => (sound item member).imp_right fun ⟨other, inside, facts⟩ => ⟨other, mem_cons_of_mem _ inside, facts⟩,
          fun unlimited => ⟨(complete unlimited).1, fun other inside shown readable => ?_⟩⟩
        rcases mem_cons.mp inside with rfl | inside
        · exact absurd (readable _ isReadable) Bool.false_ne_true
        · exact (complete unlimited).2 other inside shown readable
      | true =>
        rw [if_neg (by decide)] at done
        obtain ⟨entryUri, isUri, done⟩ := bind_ok_iff.mp done
        have named : aliasUriForPath classes.isalpha ctx.user.accountId uri path entry.1 = .ok entryUri := by
          cases read : aliasUriForPath classes.isalpha ctx.user.accountId uri path entry.1 with
          | error _ =>
            rw [read] at isUri
            cases isUri
          | ok value =>
            rw [read] at isUri
            cases isUri
            rfl
        have here : ∀ item : Item, item ∈ kept ++ [⟨entry.1, ⟨(entry.1.getLast?).getD [], entry.2⟩, entryUri, false⟩] →
            item ∈ kept ∨ ∃ other ∈ entry :: rest, item.path = other.1 ∧
              isPathEntryVisible classes aclEnabled ctx other.1 ((other.1.getLast?).getD []) path = .ok true ∧
              readPathVisible loads storage classes.isalpha uri other.1 primary = .ok true := by
          intro item member
          rcases mem_append.mp member with old | new
          · exact .inl old
          · rw [mem_singleton.mp new]
            exact .inr ⟨entry, mem_cons_self, rfl, passes, isReadable⟩
        dsimp only at done
        split at done
        next limited =>
          cases done
          refine ⟨here, fun unlimited => ?_⟩
          rw [unlimited] at limited
          cases limited
        next =>
          obtain ⟨sound, complete⟩ := ih done
          constructor
          · intro item member
            rcases sound item member with old | ⟨other, inside, facts⟩
            · exact here item old
            · exact .inr ⟨other, mem_cons_of_mem _ inside, facts⟩
          · intro unlimited
            obtain ⟨keeps, covers⟩ := complete unlimited
            refine ⟨fun item member => keeps item (mem_append_left _ member), fun other inside shown readable => ?_⟩
            rcases mem_cons.mp inside with rfl | inside
            · exact ⟨_, keeps _ (mem_append_right _ (mem_singleton_self _)), rfl, named⟩
            · exact covers other inside shown readable

theorem visibleItems_sound {found items : List Item} (done : visibleItems classes store aclEnabled ctx uri path found = .ok items) :
    ∀ item ∈ items, ∃ candidate ∈ found, candidate.path = item.path := by
  rw [visibleItems] at done
  split at done
  · cases done
    exact fun item member => ⟨item, member, rfl⟩
  split at done
  · cases done
  · cases done
  next access exposes _ _ =>
    dsimp only at done
    split at done
    · cases done
      intro item member
      obtain ⟨candidate, inside, rfl⟩ := mem_map.mp member
      refine ⟨candidate, (mem_filter.mp inside).1, ?_⟩
      split <;> rfl
    · cases done
      exact fun item member => ⟨item, (mem_filter.mp member).1, rfl⟩

variable {nodeLimit levelLimit rawLimit : Option Nat}

theorem treePage_sound {page : Nat × List Item}
    (done : treePage loads storage classes store aclEnabled ctx uri path primary showAllHidden nodeLimit levelLimit rawLimit = .ok page) :
    page.1 ≤ storage.nodes.length ∧ ∀ item ∈ page.2, ∃ limit raw, storage.treeDirectory path showAllHidden limit levelLimit = .ok raw ∧
      ∃ entry ∈ raw, item.path = entry.1 ∧ isPathEntryVisible classes aclEnabled ctx entry.1 ((entry.1.getLast?).getD []) path = .ok true ∧
        readPathVisible loads storage classes.isalpha uri entry.1 primary = .ok true := by
  rw [treePage] at done
  obtain ⟨raw, read, done⟩ := bind_ok_iff.mp done
  obtain ⟨found, kept, done⟩ := bind_ok_iff.mp done
  obtain ⟨visible, left, done⟩ := bind_ok_iff.mp done
  cases done
  refine ⟨length_treeDirectory read, fun item member => ?_⟩
  have inside : item ∈ visible := by
    cases nodeLimit with
    | none => exact member
    | some limit => exact mem_of_mem_take member
  obtain ⟨candidate, inside, same⟩ := visibleItems_sound left item inside
  rcases (candidates_spec kept).1 candidate inside with fresh | ⟨entry, there, place, passes⟩
  · cases fresh
  · exact ⟨rawLimit, raw, read, entry, there, same ▸ place, passes⟩

theorem treePages_sound {rounds : Nat} {items : List Item}
    (done : treePages loads storage classes store aclEnabled ctx uri path primary showAllHidden nodeLimit levelLimit rounds rawLimit = .ok items) :
    ∀ item ∈ items, ∃ limit raw, storage.treeDirectory path showAllHidden limit levelLimit = .ok raw ∧ ∃ entry ∈ raw, item.path = entry.1 ∧
      isPathEntryVisible classes aclEnabled ctx entry.1 ((entry.1.getLast?).getD []) path = .ok true ∧
      readPathVisible loads storage classes.isalpha uri entry.1 primary = .ok true := by
  induction rounds generalizing rawLimit with
  | zero =>
    rw [treePages] at done
    cases isPage : treePage loads storage classes store aclEnabled ctx uri path primary showAllHidden nodeLimit levelLimit rawLimit with
    | error _ =>
      rw [isPage] at done
      cases done
    | ok page =>
      rw [isPage] at done
      cases done
      exact (treePage_sound isPage).2
  | succ rounds ih =>
    rw [treePages] at done
    obtain ⟨page, isPage, done⟩ := bind_ok_iff.mp done
    split at done
    · exact ih done
    · cases done
      exact (treePage_sound isPage).2

end Candidates

section Shown

variable {loads : List UInt8 → Option Json} {storage : Storage} {classes : CharClasses} {store : ContextStore} {aclEnabled : Bool}
  {ctx : RequestContext} {uri : Text} {suffix : List Text}

def nameShown (base entryPath : List Text) : Bool :=
  !ancestorIsFiltered entryPath base && (entryPath = [] || isNameVisibleAtPath ((entryPath.getLast?).getD []) entryPath.dropLast)

theorem isPathEntryVisible_acl (base entryPath : List Text) :
    isPathEntryVisible classes true ctx entryPath ((entryPath.getLast?).getD []) base = .ok (nameShown base entryPath) := by
  rw [isPathEntryVisible, nameShown]
  cases ancestorIsFiltered entryPath base with
  | true => rfl
  | false =>
    by_cases top : entryPath = []
    · rw [top]
      rfl
    · cases isNameVisibleAtPath ((entryPath.getLast?).getD []) entryPath.dropLast <;> simp [top]

theorem isPathEntryVisible_plain (nonroot : ctx.role ≠ .root) (base below : List Text) (name : Text) :
    isPathEntryVisible classes false ctx (sessionDir ctx.user.accountId ++ below) name base ≠ .ok true := by
  rw [isPathEntryVisible]
  split
  · exact nofun
  split
  · exact nofun
  · exact legacy_inaccessible nonroot below

variable {chosen : Option (List Text)}

theorem firstVisible_ok (safe : safeUriParts classes.isalpha uri = .ok ("user" :: ctx.user.userId :: "sessions" :: suffix))
    {primary : List Text} {paths : List (List Text)}
    (done : firstVisible loads storage classes uri primary paths = .ok chosen) :
    chosen = paths.find? fun path => (decide (path = primary) || readablePath loads storage ctx.user.userId path) && storage.has path := by
  induction paths with
  | nil =>
    cases done
    rfl
  | cons path rest ih =>
    rw [firstVisible] at done
    obtain ⟨visible, isVisible, done⟩ := bind_ok_iff.mp done
    rw [find?_cons, ← readPathVisible_ok safe isVisible]
    split at done
    next there =>
      cases done
      rw [there]
    next absent =>
      rw [Bool.not_eq_true] at absent
      rw [absent]
      exact ih done

def TreeSafe (loads : List UInt8 → Option Json) (storage : Storage) (aclEnabled : Bool) (ctx : RequestContext) (suffix : List Text)
    (showAllHidden : Bool) (levelLimit : Option Nat) : Prop :=
  aclEnabled = true → storage.has (ownPath ctx suffix) = false →
    ∀ base, (legacyPaths ctx suffix).find? (fun path => readablePath loads storage ctx.user.userId path && storage.has path) = some base →
      ∀ raw, storage.treeDirectory base showAllHidden none levelLimit = .ok raw → ∀ entry ∈ raw, nameShown base entry.1 = true →
        ∀ below, entry.1 = sessionDir ctx.user.accountId ++ below → ¬TreeHazard loads storage ctx.user.accountId ctx.user.userId below

theorem chosen_eq (safe : safeUriParts classes.isalpha uri = .ok ("user" :: ctx.user.userId :: "sessions" :: suffix)) (done : firstVisible loads storage classes uri (ownPath ctx suffix) (ownPath ctx suffix :: legacyPaths ctx suffix) = .ok chosen) :
    chosen = if storage.has (ownPath ctx suffix) then some (ownPath ctx suffix)
      else (legacyPaths ctx suffix).find? fun path => readablePath loads storage ctx.user.userId path && storage.has path := by
  rw [firstVisible_ok safe done, find?_cons, decide_eq_true rfl, Bool.true_or, Bool.true_and]
  cases storage.has (ownPath ctx suffix) with
  | true => rfl
  | false =>
    have same : ∀ paths : List (List Text), (∀ path ∈ paths, path ≠ ownPath ctx suffix) →
        (paths.find? fun path => (decide (path = ownPath ctx suffix) || readablePath loads storage ctx.user.userId path) && storage.has path) =
          paths.find? fun path => readablePath loads storage ctx.user.userId path && storage.has path := by
      intro paths other
      induction paths with
      | nil => rfl
      | cons path rest ih =>
        rw [find?_cons, find?_cons, decide_eq_false (other path mem_cons_self), Bool.false_or,
          ih fun path member => other path (mem_cons_of_mem _ member)]
    refine same _ fun path member => ?_
    rw [legacyPaths] at member
    split at member
    · rw [mem_singleton.mp member]
      exact Ne.symm (ownPath_ne _ _)
    · rcases mem_cons.mp member with rfl | member
      · exact Ne.symm (ownPath_ne _ _)
      · rw [mem_singleton.mp member]
        exact Ne.symm (ownPath_ne _ _)

theorem treeDirectory_unlimited {path : List Text} {showAllHidden : Bool} {nodeLimit levelLimit : Option Nat} {raw : List (List Text × Bool)}
    (done : storage.treeDirectory path showAllHidden nodeLimit levelLimit = .ok raw) :
    ∃ all, storage.treeDirectory path showAllHidden none levelLimit = .ok all ∧ ∀ entry ∈ raw, entry ∈ all ∧ path <+: entry.1 ∧ entry.1 ≠ path := by
  rw [Storage.treeDirectory] at done ⊢
  split at done
  · cases done
    refine ⟨_, rfl, fun entry member => ?_⟩
    have shown : entry ∈ ((storage.nodes.filter fun node => path.isPrefixOf node.1 && node.1 ≠ path).map fun node =>
        (node.1, decide (node.2 = .directory))).filter fun entry => (showAllHidden || entry.2 || (entry.1.getLast?.bind List.head?) ≠ some '.') &&
          levelLimit.all (entry.1.length - path.length ≤ ·) := by
      cases nodeLimit with
      | none => exact member
      | some limit => exact mem_of_mem_take member
    refine ⟨shown, ?_⟩
    obtain ⟨node, inside, rfl⟩ := mem_map.mp (mem_filter.mp shown).1
    have below := (mem_filter.mp inside).2
    rw [Bool.and_eq_true, List.isPrefixOf_iff_prefix, decide_eq_true_iff] at below
    exact below
  · cases done
  · cases done

section

variable (safe : safeUriParts classes.isalpha uri = .ok ("user" :: ctx.user.userId :: "sessions" :: suffix))

include safe

theorem iterVisibleTreeEntries_hidden
    (nonroot : ctx.role ≠ .root) {showAllHidden : Bool} {nodeLimit levelLimit : Option Nat} {items : List Item}
    (done : iterVisibleTreeEntries loads storage classes store aclEnabled ctx uri showAllHidden nodeLimit levelLimit = .ok items)
    (fine : TreeSafe loads storage aclEnabled ctx suffix showAllHidden levelLimit) :
    ∀ item ∈ items, ¬Exposes loads storage ctx.user.accountId ctx.user.userId item.path := by
  rw [iterVisibleTreeEntries, storagePath_sessions safe, readPaths_sessions safe] at done
  dsimp only [liftAccess, ok_bind] at done
  obtain ⟨chosen, isChosen, done⟩ := bind_ok_iff.mp done
  have choice := chosen_eq safe isChosen
  cases chosen with
  | none =>
    dsimp only at done
    rw [isSessionRootUri_sessions safe] at done
    dsimp only [liftAccess, ok_bind] at done
    split at done
    · cases done
      exact fun _ member => absurd member not_mem_nil
    · cases done
  | some base =>
    intro item member exposed
    obtain ⟨limit, raw, read, entry, inside, place, passes, readable⟩ := treePages_sound done item member
    obtain ⟨all, readAll, covers⟩ := treeDirectory_unlimited read
    obtain ⟨inAll, below, -⟩ := covers entry inside
    have isReadable := readPathVisible_ok safe readable
    obtain ⟨first, rest, same, -⟩ := id exposed
    have entryPath : entry.1 = sessionDir ctx.user.accountId ++ first :: rest := place ▸ same
    have notOwn : storage.has (ownPath ctx suffix) = false := by
      rw [← Bool.not_eq_true]
      intro own
      rw [if_pos own] at choice
      cases choice
      obtain ⟨more, isBelow⟩ := below
      rw [entryPath] at isBelow
      have third := congrArg (fun path => path[2]?) isBelow
      exact absurd third (by simp [ownPath, sessionDir])
    rw [notOwn, if_neg Bool.false_ne_true] at choice
    have acl : aclEnabled = true := by
      rw [← Bool.not_eq_false]
      rintro rfl
      rw [entryPath] at passes
      exact isPathEntryVisible_plain nonroot _ _ _ passes
    rw [acl, isPathEntryVisible_acl] at passes
    refine fine acl notOwn base choice.symm all readAll entry inAll (Except.ok.inj passes) _ entryPath ?_
    rw [← treeHazard_iff, ← entryPath, ← place]
    refine ⟨?_, exposed⟩
    rw [entryPath, decide_eq_false (Ne.symm (ownPath_ne _ _)), Bool.false_or, ← entryPath, ← place] at isReadable
    exact isReadable.symm

theorem visibleItems_own
    (nonroot : ctx.role ≠ .root) {path : List Text} {found items : List Item}
    (done : visibleItems classes store true ctx uri path found = .ok items) {item : Item} (member : item ∈ found) {relative : Text}
    (named : item.uri = listedRoot uri ++ '/' :: relative) : item ∈ items := by
  have notResources : isAclUri uri = .ok false := by
    rw [isAclUri_eq (uriParts_of_safe safe), cutQuery_cons (by decide)]
    rfl
  rw [visibleItems, notResources] at done
  rw [if_neg (by decide)] at done
  split at done
  · cases done
  · cases done
  next access exposes allowed isAcl =>
    cases isAcl
    dsimp only at done
    rw [if_neg Bool.false_ne_true] at done
    cases done
    refine mem_filter.mpr ⟨member, ?_⟩
    obtain ⟨rest, more, whole, read⟩ := names_entry safe relative
    have asked : scheme ++ rest ∈ found.map Item.uri := mem_map.mpr ⟨item, member, named.trans whole⟩
    rw [named, whole, own_allowed nonroot allowed asked read]
    rfl

theorem iterVisibleTreeEntries_hidden_iff
    (nonroot : ctx.role ≠ .root) {showAllHidden : Bool} {levelLimit : Option Nat} {items : List Item}
    (done : iterVisibleTreeEntries loads storage classes store aclEnabled ctx uri showAllHidden none levelLimit = .ok items) :
    (∀ item ∈ items, ¬Exposes loads storage ctx.user.accountId ctx.user.userId item.path) ↔
      TreeSafe loads storage aclEnabled ctx suffix showAllHidden levelLimit := by
  refine ⟨fun hidden acl notOwn base isBase raw read entry inside shown below entryPath hazard => ?_,
    iterVisibleTreeEntries_hidden safe nonroot done⟩
  rw [iterVisibleTreeEntries, storagePath_sessions safe, readPaths_sessions safe] at done
  dsimp only [liftAccess, ok_bind] at done
  obtain ⟨chosen, isChosen, done⟩ := bind_ok_iff.mp done
  have choice := chosen_eq safe isChosen
  rw [notOwn, if_neg Bool.false_ne_true, isBase] at choice
  cases choice
  dsimp only at done
  rw [treePages] at done
  obtain ⟨page, isPage, done⟩ := bind_ok_iff.mp done
  rw [if_neg (by exact Bool.false_ne_true)] at done
  cases done
  rw [treePage, acl] at isPage
  obtain ⟨_, readAgain, isPage⟩ := bind_ok_iff.mp isPage
  rw [Option.map_none, read] at readAgain
  cases readAgain
  obtain ⟨found, kept, isPage⟩ := bind_ok_iff.mp isPage
  obtain ⟨visible, left, isPage⟩ := bind_ok_iff.mp isPage
  cases isPage
  rw [← treeHazard_iff, ← entryPath] at hazard
  obtain ⟨item, member, place, named⟩ := ((candidates_spec kept).2 rfl).2 entry inside
    (by rw [isPathEntryVisible_acl, shown]) fun readable isReadable => by
      rw [readPathVisible_ok safe isReadable, hazard.1, Bool.or_true]
  obtain ⟨all, readAll, covers⟩ := treeDirectory_unlimited read
  obtain ⟨-, ⟨relative, isBelow⟩, notBase⟩ := covers entry inside
  have filled : relative ≠ [] := by
    rintro rfl
    rw [append_nil] at isBelow
    exact notBase isBelow.symm
  rw [← isBelow, aliasUri_sessions safe _ _ filled] at named
  refine hidden item (visibleItems_own safe nonroot left member (Except.ok.inj named).symm) ?_
  rw [place]
  exact hazard.2

end

theorem legacy_sessions_hidden_iff (safe : safeUriParts classes.isalpha uri = .ok ("user" :: ctx.user.userId :: "sessions" :: suffix))
    (nonroot : ctx.role ≠ .root) :
    (∀ items, sessionRootItems loads storage classes.isalpha ctx uri = .ok items →
      ∀ item ∈ items, ¬Exposes loads storage ctx.user.accountId ctx.user.userId item.path) ∧
    (∀ items, listReadPathItems loads storage classes.isalpha ctx uri = .ok items →
      ((∀ item ∈ items, ¬Exposes loads storage ctx.user.accountId ctx.user.userId item.path) ↔ suffix = [] ∨ ListingSafe loads storage ctx suffix)) ∧
    ∀ showAllHidden levelLimit,
      (∀ items, iterVisibleTreeEntries loads storage classes store aclEnabled ctx uri showAllHidden none levelLimit = .ok items →
        ((∀ item ∈ items, ¬Exposes loads storage ctx.user.accountId ctx.user.userId item.path) ↔
          TreeSafe loads storage aclEnabled ctx suffix showAllHidden levelLimit)) ∧
      ∀ nodeLimit items, iterVisibleTreeEntries loads storage classes store aclEnabled ctx uri showAllHidden nodeLimit levelLimit = .ok items →
        TreeSafe loads storage aclEnabled ctx suffix showAllHidden levelLimit →
          ∀ item ∈ items, ¬Exposes loads storage ctx.user.accountId ctx.user.userId item.path := by
  refine ⟨fun items done => sessionRootItems_hidden safe nonroot done, fun items done => ?_, fun showAllHidden levelLimit =>
    ⟨fun items done => iterVisibleTreeEntries_hidden_iff safe nonroot done, fun nodeLimit items done fine =>
      iterVisibleTreeEntries_hidden safe nonroot done fine⟩⟩
  by_cases root : suffix = []
  · rw [listReadPathItems, isSessionRootUri_sessions safe, decide_eq_true root] at done
    exact ⟨fun _ => .inl root, fun _ => sessionRootItems_hidden safe nonroot done⟩
  · rw [listReadPathItems_hidden_iff safe root done]
    exact ⟨.inr, fun fine => fine.resolve_left root⟩

end Shown

namespace BobsSpace

def tree : Storage where
  nodes := [["local", "acct"], ["local", "acct", "session"], ["local", "acct", "session", "bob"],
    ["local", "acct", "session", "bob", "s1"]].map (fun path => (path.map String.toList, .directory)) ++
      [(["local", "acct", "session", "bob", "s1", "messages.jsonl"].map String.toList, .file [])]
  unique := by decide

def alice : RequestContext where
  user := ⟨"acct", "alice", by decide, by decide⟩
  role := .user

def sessions : Text := "viking://user/alice/sessions"

theorem bobs_session_listed :
    listReadPathItems (fun _ => none) tree Char.isAlpha alice "viking://user/alice/sessions/bob" =
        .ok [⟨["local", "acct", "session", "bob", "s1"].map String.toList, ⟨"s1", true⟩, "viking://user/alice/sessions/bob/s1", false⟩] ∧
      Exposes (fun _ => none) tree "acct" "alice" (["local", "acct", "session", "bob", "s1"].map String.toList) := by
  refine ⟨by decide, "bob", ["s1"], rfl, .inr (.inl ⟨"s1", [], rfl, by decide, ?_⟩)⟩
  decide

theorem alices_root_hidden :
    safeUriParts Char.isAlpha sessions = .ok ["user", alice.user.userId, "sessions"] ∧ alice.role ≠ .root ∧
      ∀ items, listReadPathItems (fun _ => none) tree Char.isAlpha alice sessions = .ok items →
        ∀ item ∈ items, ¬Exposes (fun _ => none) tree "acct" "alice" item.path := by
  have safe : safeUriParts Char.isAlpha sessions = .ok ["user", alice.user.userId, "sessions"] := by decide
  refine ⟨safe, nofun, fun items done => ?_⟩
  exact ((@legacy_sessions_hidden_iff (fun _ => none) tree ⟨Char.isAlpha, Char.isDigit⟩ [] false alice sessions [] safe nofun).2.1 items done).mpr
    (.inl rfl)

end BobsSpace

end LoginomDock.Access
