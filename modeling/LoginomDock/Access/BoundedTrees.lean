import LoginomDock.Access.LegacySessions

/-! `_iter_visible_tree_entries` reads a tree of the storage in pages that it doubles until enough entries are visible.
-/

namespace LoginomDock.Access

open List

inductive DirTree where
  | entry (name : Text) (isDir : Bool) (children : List DirTree)

def DirTree.name : DirTree → Text
  | entry name _ _ => name

mutual

def DirTree.Distinct : DirTree → Prop
  | .entry _ _ children => DirTree.DistinctAll children

def DirTree.DistinctAll : List DirTree → Prop
  | [] => True
  | child :: rest => child.Distinct ∧ (∀ other ∈ rest, other.name ≠ child.name) ∧ DirTree.DistinctAll rest

end

structure Directory where
  path : List Text
  children : List DirTree
  distinct : DirTree.DistinctAll children

abbrev TreeEntry := List Text × Bool

mutual

def treeDirectoryEntry (showHidden : Bool) (levelLimit : Option Nat) (current : List Text) : DirTree → List TreeEntry
  | .entry name isDir children =>
    if !isDir && name.head? = some '.' && !showHidden then []
    else
      let below := levelLimit.map (· - 1)
      (current ++ [name], isDir) ::
        if isDir && below ≠ some 0 then treeDirectoryInternal showHidden below (current ++ [name]) children else []

def treeDirectoryInternal (showHidden : Bool) (levelLimit : Option Nat) (current : List Text) : List DirTree → List TreeEntry
  | [] => []
  | child :: rest =>
    treeDirectoryEntry showHidden levelLimit current child ++ treeDirectoryInternal showHidden levelLimit current rest

end

namespace Directory

variable (directory : Directory)

def listing (showHidden : Bool) (levelLimit : Option Nat) : List TreeEntry :=
  if levelLimit = some 0 then [] else treeDirectoryInternal showHidden levelLimit directory.path directory.children

end Directory

def isHiddenInternalName (name : Text) : Bool :=
  name = ".path.ovlock" || ".exact.ovlock.".toList.isPrefixOf name || name = ".redirect.json" ||
    name = ".sync_log.json"

def isInternal (entry : TreeEntry) : Bool := isHiddenInternalName (entry.1.getLast?.getD [])

/-- `MountableFS::tree_directory` over a backend with that listing -/
def mountableTree (listing : List TreeEntry) (nodeLimit : Option Nat) : List TreeEntry :=
  let entries := match nodeLimit with
    | some limit => listing.take limit
    | none => listing
  entries.filter fun entry => !isInternal entry

/-- What the loop asks about an entry, in the context of a request for the tree at `base` -/
structure TreeRequest where
  base : List Text
  /-- `_is_tree_entry_visible` and `_read_path_visible` -/
  shows : TreeEntry → Bool
  /-- `_alias_uri_for_path` -/
  uriOf : TreeEntry → Text
  /-- The answers of `_can_access_many` -/
  allows : Text → Bool
  aclEnabled : Bool
  /-- `is_acl_uri(uri)` -/
  aclUri : Bool

namespace TreeRequest

variable (request : TreeRequest)

def itemOf (denied : Bool) (entry : TreeEntry) : Item := ⟨entry.1, ⟨entry.1.getLast?.getD [], entry.2⟩, request.uriOf entry, denied⟩

def candidates (limit : Option Nat) (kept : List TreeEntry) : List TreeEntry → List TreeEntry
  | [] => kept
  | entry :: rest =>
    if !request.shows entry then candidates limit kept rest
    else
      let more := kept ++ [entry]
      if limit.any (· ≤ more.length) then more else candidates limit more rest

def allowed (entry : TreeEntry) : Bool := request.allows (request.uriOf entry)

def blocked (denied : List (List Text)) (entry : TreeEntry) : Bool :=
  denied.any fun path => path.isPrefixOf entry.1 && path ≠ entry.1 && request.base.length < path.length

def visible (found : List TreeEntry) : List Item :=
  if !request.aclEnabled then found.map (request.itemOf false)
  else if request.aclUri then
    let denied := (found.filter fun entry => entry.2 && !request.allowed entry).map Prod.fst
    (found.filter fun entry => !request.blocked denied entry).map fun entry => request.itemOf (!request.allowed entry) entry
  else (found.filter request.allowed).map (request.itemOf false)

def page (listing : List TreeEntry) (nodeLimit rawLimit : Option Nat) : Nat × List Item :=
  let raw := mountableTree listing rawLimit
  let found := request.candidates (if request.aclEnabled then none else nodeLimit) [] raw
  let visible := request.visible found
  (raw.length, match nodeLimit with
    | some limit => visible.take limit
    | none => visible)

def pages (listing : List TreeEntry) (nodeLimit : Option Nat) : Nat → Option Nat → Option (List Item)
  | 0, _ => none
  | rounds + 1, rawLimit =>
    let page := request.page listing nodeLimit rawLimit
    if needMore nodeLimit rawLimit page then pages listing nodeLimit rounds (rawLimit.map (· * 2)) else some page.2

def iterVisibleTreeEntries (directory : Directory) (showAllHidden : Bool) (nodeLimit levelLimit : Option Nat) : Option (List Item) :=
  let listing := directory.listing showAllHidden levelLimit
  request.pages listing nodeLimit (listing.length + 1) (nodeLimit.map fun limit => max (limit * 4) limit)

end TreeRequest

def NotAbove (first second : TreeEntry) : Prop := second.1 <+: first.1 → second.1 = first.1

mutual

theorem path_of_mem_entry {showHidden : Bool} {levelLimit : Option Nat} {current : List Text} {child : DirTree} {entry : TreeEntry}
    (member : entry ∈ treeDirectoryEntry showHidden levelLimit current child) : ∃ more, entry.1 = current ++ child.name :: more := by
  match child with
  | .entry name isDir children =>
    rw [treeDirectoryEntry] at member
    split at member
    · cases member
    · rcases mem_cons.mp member with rfl | below
      · exact ⟨[], rfl⟩
      · split at below
        · obtain ⟨inside, -, more, spelled⟩ := path_of_mem below
          exact ⟨inside.name :: more, by rw [spelled, append_assoc]; rfl⟩
        · cases below

theorem path_of_mem {showHidden : Bool} {levelLimit : Option Nat} {current : List Text} {children : List DirTree} {entry : TreeEntry}
    (member : entry ∈ treeDirectoryInternal showHidden levelLimit current children) :
    ∃ child ∈ children, ∃ more, entry.1 = current ++ child.name :: more := by
  match children with
  | [] => cases member
  | child :: rest =>
    rw [treeDirectoryInternal, mem_append] at member
    rcases member with here | later
    · exact ⟨child, by simp, path_of_mem_entry here⟩
    · obtain ⟨other, inside, spelled⟩ := path_of_mem later
      exact ⟨other, by simp [inside], spelled⟩

end

mutual

theorem pairwise_entry {showHidden : Bool} {levelLimit : Option Nat} {current : List Text} {child : DirTree} (distinct : child.Distinct) :
    (treeDirectoryEntry showHidden levelLimit current child).Pairwise NotAbove := by
  match child with
  | .entry name isDir children =>
    rw [treeDirectoryEntry]
    split
    · exact .nil
    · refine List.Pairwise.cons (fun entry member above => ?_) ?_
      · split at member
        · obtain ⟨inside, -, more, spelled⟩ := path_of_mem member
          have shorter := above.length_le
          rw [spelled] at shorter
          simp at shorter
        · cases member
      · split
        · exact pairwise_tree distinct
        · exact .nil

theorem pairwise_tree {showHidden : Bool} {levelLimit : Option Nat} {current : List Text} {children : List DirTree}
    (distinct : DirTree.DistinctAll children) : (treeDirectoryInternal showHidden levelLimit current children).Pairwise NotAbove := by
  match children with
  | [] => exact .nil
  | child :: rest =>
    obtain ⟨here, apart, later⟩ := distinct
    rw [treeDirectoryInternal, pairwise_append]
    refine ⟨pairwise_entry here, pairwise_tree later, fun first firstMember second secondMember above => ?_⟩
    -- The two lie below children of different names.
    obtain ⟨firstMore, firstSpelled⟩ := path_of_mem_entry firstMember
    obtain ⟨other, inside, secondMore, secondSpelled⟩ := path_of_mem secondMember
    rw [firstSpelled, secondSpelled, prefix_append_right_inj, cons_prefix_cons] at above
    exact absurd above.1 (apart other inside)

end

theorem pairwise_listing (directory : Directory) (showHidden : Bool) (levelLimit : Option Nat) :
    (directory.listing showHidden levelLimit).Pairwise NotAbove := by
  rw [Directory.listing]
  split
  · exact .nil
  · exact pairwise_tree directory.distinct

namespace TreeRequest

variable {request : TreeRequest}

section

variable {first second : List TreeEntry} (ordered : (first ++ second).Pairwise NotAbove)

include ordered

theorem blocked_append (denies : TreeEntry → Bool)
    {entry : TreeEntry} (member : entry ∈ first) :
    request.blocked (((first ++ second).filter denies).map Prod.fst) entry = request.blocked ((first.filter denies).map Prod.fst) entry := by
  have later (other : TreeEntry) (inside : other ∈ second) : (other.1.isPrefixOf entry.1 && decide (other.1 ≠ entry.1)) = false := by
    have notAbove := (pairwise_append.mp ordered).2.2 entry member other inside
    cases above : other.1.isPrefixOf entry.1 with
    | false => rfl
    | true => simpa using notAbove (List.isPrefixOf_iff_prefix.mp above)
  rw [blocked, blocked, filter_append, map_append, any_append, Bool.or_eq_left_iff_imp]
  intro found
  obtain ⟨path, isPath, blocks⟩ := any_eq_true.mp found
  obtain ⟨other, inside, rfl⟩ := mem_map.mp isPath
  rw [later other (mem_filter.mp inside).1] at blocks
  cases blocks

theorem visible_append :
    request.visible first <+: request.visible (first ++ second) := by
  unfold visible
  split
  · rw [map_append]
    exact prefix_append _ _
  split
  · have same : first.filter (fun entry => !request.blocked (((first ++ second).filter fun entry => entry.2 && !request.allowed entry).map Prod.fst) entry) =
        first.filter fun entry => !request.blocked ((first.filter fun entry => entry.2 && !request.allowed entry).map Prod.fst) entry := by
      apply filter_congr
      intro entry member
      rw [blocked_append ordered _ member]
    dsimp only
    rw [← same]
    generalize ((first ++ second).filter fun entry => entry.2 && !request.allowed entry).map Prod.fst = denied
    rw [filter_append, map_append]
    exact prefix_append _ _
  · rw [filter_append, map_append]
    exact prefix_append _ _

end

end TreeRequest

namespace TreeRequest

variable {request : TreeRequest} {listing : List TreeEntry}

def shown (request : TreeRequest) (listing : List TreeEntry) (rawLimit : Option Nat) : List Item :=
  request.visible ((mountableTree listing rawLimit).filter request.shows)

theorem candidates_none (kept entries : List TreeEntry) : request.candidates none kept entries = kept ++ entries.filter request.shows := by
  induction entries generalizing kept with
  | nil => simp [candidates]
  | cons entry rest ih =>
    rw [candidates]
    cases shows : request.shows entry with
    | false => simp [ih, shows]
    | true => simp [ih, shows]

theorem take_candidates_some {limit : Nat} {kept : List TreeEntry} (entries : List TreeEntry) (few : kept.length ≤ limit) :
    (request.candidates (some limit) kept entries).take limit = (kept ++ entries.filter request.shows).take limit := by
  induction entries generalizing kept with
  | nil => simp [candidates]
  | cons entry rest ih =>
    rw [candidates]
    cases shows : request.shows entry with
    | false => simpa [shows] using ih few
    | true =>
      simp only [Bool.not_true, Bool.false_eq_true, if_false, Option.any_some, decide_eq_true_eq, filter_cons, shows, if_true]
      split
      · rename_i reached
        have cut : kept ++ entry :: rest.filter request.shows = (kept ++ [entry]) ++ rest.filter request.shows := by simp
        rw [cut, take_append_of_le_length reached]
      · rename_i below
        rw [ih (by omega)]
        simp

theorem page_eq (nodeLimit rawLimit : Option Nat) :
    request.page listing nodeLimit rawLimit = ((mountableTree listing rawLimit).length,
      match nodeLimit with
      | some limit => (request.shown listing rawLimit).take limit
      | none => request.shown listing rawLimit) := by
  unfold page shown
  cases nodeLimit with
  | none => simp [candidates_none]
  | some limit =>
    cases acl : request.aclEnabled with
    | true => simp [candidates_none]
    | false =>
      have cut := @take_candidates_some request limit [] (mountableTree listing rawLimit) (Nat.zero_le limit)
      simp only [Bool.false_eq_true, if_false, visible, acl, Bool.not_false, if_true, ← map_take, cut]
      rfl

theorem shown_append {first second : List TreeEntry} (ordered : (first ++ second).Pairwise NotAbove) :
    request.shown first none <+: request.shown (first ++ second) none := by
  unfold shown mountableTree
  dsimp only
  rw [filter_append, filter_append]
  apply visible_append
  rw [← filter_append, ← filter_append]
  exact (ordered.filter _).filter _

theorem shown_prefix (ordered : listing.Pairwise NotAbove) (limit : Nat) : request.shown listing (some limit) <+: request.shown listing none := by
  have prefixed := @shown_append request (listing.take limit) (listing.drop limit) (by rwa [take_append_drop])
  rwa [take_append_drop] at prefixed

theorem shown_mono (ordered : listing.Pairwise NotAbove) {limit more : Nat} (le : limit ≤ more) :
    request.shown listing (some limit) <+: request.shown listing (some more) := by
  have prefixed : request.shown (listing.take more) (some limit) <+: request.shown (listing.take more) none :=
    shown_prefix (ordered.sublist (take_sublist more listing)) limit
  unfold shown mountableTree at prefixed ⊢
  dsimp only at prefixed ⊢
  rwa [take_take, Nat.min_eq_left le] at prefixed

theorem needMore_iff {limit read : Nat} :
    needMore (some limit) (some read) (request.page listing (some limit) (some read)) = true ↔
      (request.shown listing (some read)).length < limit ∧ read ≤ listing.length ∧ ∀ entry ∈ listing.take read, isInternal entry = false := by
  have full : read ≤ (mountableTree listing (some read)).length ↔ read ≤ listing.length ∧ ∀ entry ∈ listing.take read, isInternal entry = false := by
    have below : (listing.take read).length ≤ read := length_take_le ..
    have filtered := length_filter_le (fun entry => !isInternal entry) (listing.take read)
    constructor
    · intro enough
      have same : ((listing.take read).filter fun entry => !isInternal entry).length = (listing.take read).length :=
        le_antisymm filtered (below.trans enough)
      refine ⟨?_, fun entry member => ?_⟩
      · rw [mountableTree] at enough
        have whole := enough.trans filtered
        rw [length_take] at whole
        omega
      · simpa using length_filter_eq_length_iff.mp same entry member
    · rintro ⟨long, plain⟩
      have same : ((listing.take read).filter fun entry => !isInternal entry) = listing.take read :=
        filter_eq_self.mpr fun entry member => by simpa using plain entry member
      rw [mountableTree, same, length_take, Nat.min_eq_left long]
  rw [page_eq, needMore]
  simp only [Bool.and_eq_true, decide_eq_true_eq, full, length_take]
  refine and_congr_left fun _ => ?_
  omega

theorem pages_spec {limit rounds read : Nat} {items : List Item} (done : request.pages listing (some limit) rounds (some read) = some items) :
    ∃ round, items = (request.shown listing (some (read * 2 ^ round))).take limit ∧
      needMore (some limit) (some (read * 2 ^ round)) (request.page listing (some limit) (some (read * 2 ^ round))) = false ∧
      ∀ earlier < round, needMore (some limit) (some (read * 2 ^ earlier)) (request.page listing (some limit) (some (read * 2 ^ earlier))) = true := by
  induction rounds generalizing read with
  | zero => cases done
  | succ rounds ih =>
    rw [pages] at done
    split at done
    · rename_i more
      obtain ⟨round, spelled, stops, before⟩ := ih done
      have next (round : Nat) : read * 2 ^ (round + 1) = read * 2 * 2 ^ round := by
        rw [Nat.pow_succ, Nat.mul_comm (2 ^ round), Nat.mul_assoc]
      refine ⟨round + 1, by rw [next, spelled], by rw [next]; exact stops, fun earlier less => ?_⟩
      cases earlier with
      | zero => simpa using more
      | succ earlier =>
        rw [next]
        exact before earlier (by omega)
    · rename_i stops
      refine ⟨0, ?_, by simpa using stops, by simp⟩
      rw [← Option.some.inj done, page_eq]
      simp

theorem pages_enough {limit rounds read : Nat} (enough : limit = 0 ∨ listing.length < read * 2 ^ rounds) :
    ∃ items, request.pages listing (some limit) (rounds + 1) (some read) = some items := by
  induction rounds generalizing read with
  | zero =>
    have stops : ¬ needMore (some limit) (some read) (request.page listing (some limit) (some read)) = true := by
      rw [needMore_iff]
      omega
    rw [pages]
    rw [if_neg stops]
    exact ⟨_, rfl⟩
  | succ rounds ih =>
    rw [pages]
    split
    · refine ih (enough.imp_right fun long => ?_)
      rwa [Nat.pow_succ, Nat.mul_comm (2 ^ rounds), ← Nat.mul_assoc] at long
    · exact ⟨_, rfl⟩

end TreeRequest

namespace TreeRequest

variable (request : TreeRequest)

def FirstPast (limit place round : Nat) : Prop :=
  place < limit * 4 * 2 ^ round ∧ ∀ earlier < round, limit * 4 * 2 ^ earlier ≤ place

-- The page that reaches past the first internal name shows enough, or nothing is visible behind it.
def Unharmed (listing : List TreeEntry) (limit : Nat) : Prop :=
  ∀ place, listing.findIdx? isInternal = some place → ∀ round, FirstPast limit place round →
    limit ≤ (request.shown listing (some (limit * 4 * 2 ^ round))).length ∨
      request.shown listing (some (limit * 4 * 2 ^ round)) = request.shown listing none

variable {request} {listing : List TreeEntry}

theorem take_eq_iff {α : Type} {first whole : List α} (prefixed : first <+: whole) (limit : Nat) :
    first.take limit = whole.take limit ↔ limit ≤ first.length ∨ first = whole := by
  obtain ⟨more, rfl⟩ := prefixed
  rw [take_append, self_eq_append_right, take_eq_nil_iff]
  constructor
  · rintro (short | none)
    · left
      omega
    · right
      rw [none, append_nil]
  · rintro (enough | same)
    · left
      omega
    · right
      simpa using same

theorem internal_of_findIdx {place : Nat} (found : listing.findIdx? isInternal = some place) :
    place < listing.length ∧ ∀ read, (∀ entry ∈ listing.take read, isInternal entry = false) ↔ read ≤ place := by
  obtain ⟨inside, isHidden, before⟩ := findIdx?_eq_some_iff_getElem.mp found
  refine ⟨inside, fun read => ⟨fun plain => ?_, fun le entry member => ?_⟩⟩
  · by_contra past
    have member : listing[place] ∈ listing.take read := mem_take_iff_getElem.mpr ⟨place, by omega, rfl⟩
    rw [plain _ member] at isHidden
    cases isHidden
  · obtain ⟨i, below, rfl⟩ := mem_take_iff_getElem.mp member
    simpa using before i (by omega)

theorem stopped_iff (ordered : listing.Pairwise NotAbove) {limit round : Nat}
    (stops : needMore (some limit) (some (limit * 4 * 2 ^ round)) (request.page listing (some limit) (some (limit * 4 * 2 ^ round))) = false)
    (before : ∀ earlier < round,
      needMore (some limit) (some (limit * 4 * 2 ^ earlier)) (request.page listing (some limit) (some (limit * 4 * 2 ^ earlier))) = true) :
    (request.shown listing (some (limit * 4 * 2 ^ round))).take limit = (request.shown listing none).take limit ↔ request.Unharmed listing limit := by
  rw [take_eq_iff ( shown_prefix ordered _)]
  rw [← Bool.not_eq_true, needMore_iff] at stops
  constructor
  · intro cut place found other ⟨past, notPast⟩
    obtain ⟨inside, plain⟩ := internal_of_findIdx found
    rcases lt_trichotomy other round with less | rfl | more
    · -- A page that is not the last one has no internal name.
      obtain ⟨-, -, full⟩ := needMore_iff.mp (before other less)
      have le := (plain _).mp full
      omega
    · exact cut
    · -- The loop had enough before it came to the first internal name.
      have le := notPast round more
      left
      by_contra few
      apply stops
      refine ⟨?_, by omega, (plain _).mpr le⟩
      have mono : request.shown listing (some (limit * 4 * 2 ^ round)) <+: request.shown listing (some (limit * 4 * 2 ^ other)) :=
        shown_mono ordered (Nat.mul_le_mul_left _ (Nat.pow_le_pow_right (by decide : 0 < 2) more.le))
      have le := mono.length_le
      omega
  · intro unharmed
    by_cases enough : limit ≤ (request.shown listing (some (limit * 4 * 2 ^ round))).length
    · exact .inl enough
    by_cases long : limit * 4 * 2 ^ round ≤ listing.length
    · cases found : listing.findIdx? isInternal with
      | none =>
        exfalso
        apply stops
        refine ⟨by omega, long, fun entry member => ?_⟩
        exact findIdx?_eq_none_iff.mp found entry (mem_of_mem_take member)
      | some place =>
        obtain ⟨inside, plain⟩ := internal_of_findIdx found
        refine unharmed place found round ⟨?_, fun earlier less => ?_⟩
        · by_contra notPast
          exact stops ⟨by omega, long, (plain _).mpr (by omega)⟩
        · obtain ⟨-, -, full⟩ := needMore_iff.mp (before earlier less)
          exact (plain _).mp full
    · right
      unfold shown mountableTree
      dsimp only
      rw [take_of_length_le (by omega)]

theorem bounded_tree_cut_iff (request : TreeRequest) (directory : Directory) (showAllHidden : Bool) (limit : Nat) (levelLimit : Option Nat) :
    (∃ items, request.iterVisibleTreeEntries directory showAllHidden (some limit) levelLimit = some items) ∧
      (request.iterVisibleTreeEntries directory showAllHidden (some limit) levelLimit =
          (request.iterVisibleTreeEntries directory showAllHidden none levelLimit).map (·.take limit) ↔
        request.Unharmed (directory.listing showAllHidden levelLimit) limit) := by
  have ordered := pairwise_listing directory showAllHidden levelLimit
  have raw : max (limit * 4) limit = limit * 4 := by omega
  unfold iterVisibleTreeEntries
  dsimp only
  generalize directory.listing showAllHidden levelLimit = listing at ordered ⊢
  rw [Option.map_some, raw]
  have enough : limit = 0 ∨ listing.length < limit * 4 * 2 ^ listing.length := by
    rcases Nat.eq_zero_or_pos limit with none | some'
    · exact .inl none
    · right
      calc listing.length < 2 ^ listing.length := Nat.lt_two_pow_self
        _ ≤ limit * 4 * 2 ^ listing.length := Nat.le_mul_of_pos_left _ (by omega)
  obtain ⟨items, done⟩ := @pages_enough request _ _ _ _ enough
  obtain ⟨round, spelled, stops, before⟩ := pages_spec done
  refine ⟨⟨items, done⟩, ?_⟩
  have unlimited : request.pages listing none (listing.length + 1) (Option.map (fun limit => max (limit * 4) limit) none) =
      some (request.shown listing none) := by
    rw [pages, page_eq]
    rfl
  rw [done, unlimited, Option.map_some, Option.some.injEq, spelled]
  exact stopped_iff ordered stops before

end TreeRequest

namespace LockedDirectory

def file (name : String) : DirTree := .entry name.toList false []

-- A lock file stands in front of three entries that are not readable and one that is.
def directory : Directory where
  path := ["docs"]
  children := [file ".path.ovlock", file "a", file "b", file "c", file "d"]
  distinct := by simp [DirTree.DistinctAll, DirTree.Distinct, DirTree.name, file]

def request : TreeRequest where
  base := ["docs"]
  shows := fun entry => entry.1 = ["docs".toList, "d".toList]
  uriOf := fun entry => Text.joined entry.1
  allows := fun _ => true
  aclEnabled := false
  aclUri := false

theorem readable_file_not_listed :
    request.iterVisibleTreeEntries directory true (some 1) none = some [] ∧
      (request.iterVisibleTreeEntries directory true none none).map (·.take 1) =
        some [⟨["docs", "d"], ⟨"d", false⟩, "docs/d", false⟩] := by
  constructor <;> decide

end LockedDirectory

end LoginomDock.Access
