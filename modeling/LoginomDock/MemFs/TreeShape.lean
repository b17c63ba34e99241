import LoginomDock.Library.PathMap
import LoginomDock.MemFs.FileSystem

namespace LoginomDock.MemFs

open Text (IsNames IsName absolute dirPrefix)
open List

-- An absolute path as the callers pass it: no empty component and no slash at the end.
def IsAbsolute (path : Text) : Prop := ∃ parts, IsNames parts ∧ absolute parts = path

theorem getLast?_absolute {parts : List Text} {name : Text} (names : IsNames (parts ++ [name])) :
    (absolute (parts ++ [name])).getLast? = name.getLast? := by
  have filled : name ≠ [] := (names name (by simp)).1
  rw [Text.absolute_append names.of_append.1 (by simp), Text.joined_singleton,
    getLast?_append_of_ne_nil _ filled]

theorem normalizePath_absolute {parts : List Text} (names : IsNames parts) :
    normalizePath (absolute parts) = absolute parts := by
  rcases eq_nil_or_concat parts with rfl | ⟨init, name, rfl⟩
  · rfl
  · rw [concat_eq_append] at *
    have root : absolute (init ++ [name]) ≠ ['/'] := mt (Text.absolute_eq_root names).mp (by simp)
    have last : (absolute (init ++ [name])).getLast? ≠ some '/' := by
      rw [getLast?_absolute names]
      intro slash
      exact (names name (by simp)).2 (mem_of_getLast? slash)
    have starts : ['/'] <+: absolute (init ++ [name]) := ⟨_, rfl⟩
    simp only [normalizePath, root, or_false, if_pos starts, last, and_false, if_false]
    rw [if_neg (by simp [absolute])]

theorem parentPath_absolute {parts : List Text} {name : Text} (names : IsNames (parts ++ [name])) :
    parentPath (absolute (parts ++ [name])) = some (absolute parts) := by
  have root : absolute (parts ++ [name]) ≠ ['/'] := mt (Text.absolute_eq_root names).mp (by simp)
  rw [parentPath, if_neg root, normalizePath_absolute names, Text.components_absolute ⟨by simp, names⟩]
  by_cases none : parts = []
  · simp [none]
  · have long : ¬ ([] :: (parts ++ [name])).length ≤ 2 := by
      have := length_pos_iff.mpr none
      simp
      omega
    simp only [if_neg long]
    rw [← cons_append, dropLast_concat, Text.joined_cons none]
    rfl

@[simp] theorem parentPath_root : parentPath ['/'] = none := rfl

def Entries.at (entries : Entries) : PathMap Text FileEntry := fun parts => entries.lookup (absolute parts)

def Entries.IsDirAt (entries : Entries) (parts : List Text) : Prop :=
  ∃ entry, entries.at parts = some entry ∧ entry.isDir

structure TreeShaped (entries : Entries) : Prop where
  root : ∃ entry, entries.lookup ['/'] = some entry ∧ entry.isDir
  parents : ∀ path entry, entries.lookup path = some entry → path ≠ ['/'] →
    ∃ parent dir, parentPath path = some parent ∧ entries.lookup parent = some dir ∧ dir.isDir

def NormalKeys (entries : Entries) : Prop := ∀ path ∈ entries, IsAbsolute path

section

variable {entries : Entries}

theorem treeShaped_iff (normal : NormalKeys entries) :
    TreeShaped entries ↔ entries.IsDirAt [] ∧
      ∀ parts name, IsNames (parts ++ [name]) → (entries.at (parts ++ [name])).isSome → entries.IsDirAt parts := by
  constructor
  · intro shaped
    refine ⟨shaped.root, ?_⟩
    intro parts name names present
    obtain ⟨entry, found⟩ := Option.isSome_iff_exists.mp present
    obtain ⟨parent, dir, isParent, held, isDir⟩ := shaped.parents _ entry found
      (mt (Text.absolute_eq_root names).mp (by simp))
    rw [parentPath_absolute names, Option.some_inj] at isParent
    exact ⟨dir, by rw [Entries.at, isParent, held], isDir⟩
  · rintro ⟨root, parents⟩
    refine ⟨root, ?_⟩
    intro path entry found notRoot
    obtain ⟨parts, names, rfl⟩ := normal path (AList.lookup_isSome.mp (by simp [found]))
    rcases eq_nil_or_concat parts with rfl | ⟨init, name, rfl⟩
    · exact absurd rfl notRoot
    · rw [concat_eq_append] at *
      obtain ⟨dir, held, isDir⟩ := parents init name names (by simp [Entries.at, found])
      exact ⟨absolute init, dir, parentPath_absolute names, held, isDir⟩

theorem at_insert {parts other : List Text} {entry : FileEntry} (names : IsNames parts)
    (namesOther : IsNames other) :
    Entries.at (entries.insert (absolute parts) entry) other =
      if other = parts then some entry else entries.at other := by
  simp only [Entries.at, Table.lookup_insert_if, Text.absolute_inj namesOther names]

theorem at_erase {parts other : List Text} (names : IsNames parts)
    (namesOther : IsNames other) :
    Entries.at (entries.erase (absolute parts)) other = if other = parts then none else entries.at other := by
  simp only [Entries.at, Table.lookup_erase_if, Text.absolute_inj namesOther names]

theorem mem_iff_at {parts : List Text} :
    absolute parts ∈ entries ↔ (entries.at parts).isSome := AList.lookup_isSome.symm

theorem TreeShaped.ancestor (shaped : TreeShaped entries) (normal : NormalKeys entries)
    {parts rest : List Text} (names : IsNames (parts ++ rest)) (present : (entries.at (parts ++ rest)).isSome) :
    (entries.at parts).isSome := by
  induction rest using List.reverseRecOn with
  | nil => simpa using present
  | append_singleton rest name ih =>
    rw [← append_assoc] at names present
    obtain ⟨dir, held, -⟩ := ((treeShaped_iff normal).mp shaped).2 _ _ names present
    exact ih names.of_append.1 (by simp [held])

theorem checkParent_ok_iff {parts : List Text} {name : Text} (names : IsNames (parts ++ [name])) :
    checkParent (absolute (parts ++ [name])) entries = .ok () ↔ entries.IsDirAt parts := by
  rw [checkParent, parentPath_absolute names]
  simp only [Entries.IsDirAt, Entries.at]
  cases found : entries.lookup (absolute parts) with
  | none => simp
  | some entry => by_cases isDir : entry.isDir <;> simp [isDir]

theorem NormalKeys.insert (normal : NormalKeys entries) {parts : List Text} (names : IsNames parts)
    (entry : FileEntry) : NormalKeys (entries.insert (absolute parts) entry) := by
  intro path member
  rcases (AList.mem_insert entries).mp member with rfl | old
  · exact ⟨parts, names, rfl⟩
  · exact normal path old

end

theorem NormalKeys.of_subset {entries after : Entries} (normal : NormalKeys entries)
    (kept : ∀ path, path ∈ after → path ∈ entries) : NormalKeys after :=
  fun path member => normal path (kept path member)

theorem NormalKeys.erase {entries : Entries} (normal : NormalKeys entries) (path : Text) :
    NormalKeys (entries.erase path) :=
  normal.of_subset fun _ member => (AList.mem_erase.mp member).2

theorem TreeShaped.insert {entries : Entries} (shaped : TreeShaped entries) (normal : NormalKeys entries)
    {parts : List Text} {entry : FileEntry} (names : IsNames parts)
    (parent : ∀ init name, parts = init ++ [name] → entries.IsDirAt init)
    (keepsDir : ∀ old, entries.at parts = some old → old.isDir → entry.isDir) :
    TreeShaped (entries.insert (absolute parts) entry) := by
  obtain ⟨root, parents⟩ := (treeShaped_iff normal).mp shaped
  have stays : ∀ dir, IsNames dir → entries.IsDirAt dir →
      Entries.IsDirAt (entries.insert (absolute parts) entry) dir := by
    rintro dir namesDir ⟨old, held, isDir⟩
    rw [Entries.IsDirAt, at_insert names namesDir]
    by_cases same : dir = parts
    · exact ⟨entry, if_pos same, keepsDir old (same ▸ held) isDir⟩
    · exact ⟨old, by rw [if_neg same, held], isDir⟩
  refine (treeShaped_iff (normal.insert names entry)).mpr ⟨stays [] (by simp [IsNames]) root, ?_⟩
  intro init name namesPath present
  refine stays init namesPath.of_append.1 ?_
  rw [at_insert names namesPath] at present
  by_cases same : init ++ [name] = parts
  · exact parent init name same.symm
  · exact parents init name namesPath (by simpa [same] using present)

theorem TreeShaped.drop {entries after : Entries} (shaped : TreeShaped entries) (normal : NormalKeys entries)
    (dropped : List Text → Prop) [DecidablePred dropped]
    (looked : ∀ parts, IsNames parts → after.at parts = if dropped parts then none else entries.at parts)
    (root : ¬ dropped [])
    (below : ∀ parts name, dropped parts → IsNames (parts ++ [name]) → (entries.at (parts ++ [name])).isSome → dropped (parts ++ [name]))
    (normalAfter : NormalKeys after) : TreeShaped after := by
  obtain ⟨rootDir, parents⟩ := (treeShaped_iff normal).mp shaped
  refine (treeShaped_iff normalAfter).mpr ⟨?_, ?_⟩
  · rw [Entries.IsDirAt, looked [] (by simp [IsNames]), if_neg root]
    exact rootDir
  · intro init name names present
    rw [looked _ names] at present
    have kept : ¬ dropped (init ++ [name]) := by
      intro gone
      simp [gone] at present
    rw [if_neg kept] at present
    rw [Entries.IsDirAt, looked init names.of_append.1, if_neg (fun gone => kept (below init name gone names present))]
    exact parents init name names present

variable {entries : Entries} {parts : List Text}

theorem addEntry_normal (normal : NormalKeys entries) (names : IsNames parts) (entry : FileEntry) :
    NormalKeys (addEntry (absolute parts) entry entries).2 := by
  simp only [addEntry, normalizePath_absolute names]
  split
  · exact normal
  · split
    · exact normal
    · exact normal.insert names entry

theorem parent_of_checkParent (names : IsNames parts) (checked : checkParent (absolute parts) entries = .ok ()) :
    ∀ init name, parts = init ++ [name] → entries.IsDirAt init := by
  rintro init name rfl
  exact (checkParent_ok_iff names).mp checked

theorem addEntry_tree (shaped : TreeShaped entries) (normal : NormalKeys entries) (names : IsNames parts)
    (entry : FileEntry) : TreeShaped (addEntry (absolute parts) entry entries).2 := by
  simp only [addEntry, normalizePath_absolute names]
  split
  · exact shaped
  case isFalse absent =>
    split
    · exact shaped
    case _ checked =>
      refine shaped.insert normal names (parent_of_checkParent names checked) ?_
      intro old held
      exact absurd (mem_iff_at.mpr (by simp [held])) absent

theorem addEntry_failed {error : Error} {path : Text} {entry : FileEntry}
    (failed : (addEntry path entry entries).1 = .failed error) : (addEntry path entry entries).2 = entries := by
  simp only [addEntry] at failed ⊢
  split
  · rfl
  case isFalse absent =>
    rw [if_neg absent] at failed
    split
    · rfl
    case _ checked => simp [checked] at failed

theorem write_normal (normal : NormalKeys entries) (names : IsNames parts) (data : Bytes) (offset : UInt64)
    (flags : WriteFlag) (now : Nat) : NormalKeys (write (absolute parts) data offset flags now entries).2 := by
  rw [write, normalizePath_absolute names]
  simp only
  repeat' split
  all_goals first
    | exact normal
    | exact normal.insert names _

theorem write_tree (shaped : TreeShaped entries) (normal : NormalKeys entries) (names : IsNames parts)
    (data : Bytes) (offset : UInt64) (flags : WriteFlag) (now : Nat) :
    TreeShaped (write (absolute parts) data offset flags now entries).2 := by
  rw [write, normalizePath_absolute names]
  cases found : entries.lookup (absolute parts) with
  | some entry =>
    by_cases isDir : entry.isDir
    · simpa [isDir] using shaped
    · -- a file is put in the place of a file
      have replaced : ∀ changed : FileEntry, TreeShaped (entries.insert (absolute parts) changed) := by
        intro changed
        refine shaped.insert normal names ?_ ?_
        · rintro init name rfl
          exact ((treeShaped_iff normal).mp shaped).2 init name names (by simp [Entries.at, found])
        · intro old held oldDir
          rw [Entries.at, found, Option.some_inj] at held
          exact absurd (held ▸ oldDir) isDir
      cases flags <;> simpa [isDir] using replaced _
  | none =>
    simp only
    split
    · split
      · exact shaped
      case _ checked =>
        refine shaped.insert normal names (parent_of_checkParent names checked) ?_
        intro old held
        simp [Entries.at, found] at held
    · exact shaped

theorem remove_normal (normal : NormalKeys entries) (path : Text) : NormalKeys (remove path entries).2 := by
  simp only [remove]
  repeat' split
  all_goals first
    | exact normal
    | exact normal.erase _

theorem remove_tree (shaped : TreeShaped entries) (normal : NormalKeys entries) (names : IsNames parts) :
    TreeShaped (remove (absolute parts) entries).2 := by
  rw [remove, normalizePath_absolute names]
  split
  case _ entry found =>
    by_cases isDir : entry.isDir
    · simpa [isDir] using shaped
    · have notDir : ¬ entries.IsDirAt parts := by
        rintro ⟨other, held, otherDir⟩
        rw [Entries.at, found, Option.some_inj] at held
        exact isDir (held ▸ otherDir)
      obtain ⟨root, parents⟩ := (treeShaped_iff normal).mp shaped
      simp only [isDir, Bool.false_eq_true, if_false]
      refine shaped.drop normal (· = parts) (fun other namesOther => at_erase names namesOther) ?_ ?_ (normal.erase _)
      · rintro rfl
        exact notDir root
      · rintro _ name rfl namesChild present
        exact absurd (parents _ name namesChild present) notDir
  · exact shaped

theorem at_removeAll (order : KeyOrder) (names : IsNames parts) (notRoot : parts ≠ []) (present : absolute parts ∈ entries)
    {other : List Text} (namesOther : IsNames other) :
    Entries.at (removeAll order (absolute parts) entries).2 other =
      if parts <+: other then none else entries.at other := by
  have below : (absolute other = absolute parts ∨ (absolute parts ++ ['/']) <+: absolute other) ↔ parts <+: other := by
    by_cases same : other = parts
    · simp [same]
    · have starts := Text.dirPrefix_prefix_absolute names namesOther same
      rw [dirPrefix, if_neg (mt (Text.absolute_eq_root names).mp notRoot)] at starts
      rw [Text.absolute_inj namesOther names, or_iff_right same, starts]
  rw [removeAll, normalizePath_absolute names]
  simp only [if_pos present, Entries.at]
  rw [Table.lookup_foldl_erase]
  simp only [mem_filter, (order.perm entries).mem_iff, decide_eq_true_eq, below]
  by_cases stored : absolute other ∈ entries.keys
  · simp [stored]
  · simp [stored, AList.lookup_eq_none.mpr (mt AList.mem_keys.mp stored)]

theorem removeAll_subset (order : KeyOrder) (path other : Text) (member : other ∈ (removeAll order path entries).2) :
    other ∈ entries := by
  rw [removeAll] at member
  split at member
  · rw [← AList.lookup_isSome, Table.lookup_foldl_erase] at member
    rw [← AList.lookup_isSome]
    split at member <;> simp_all
  · exact member

theorem removeAll_tree (order : KeyOrder) (shaped : TreeShaped entries) (normal : NormalKeys entries)
    (names : IsNames parts) (notRoot : parts ≠ []) : TreeShaped (removeAll order (absolute parts) entries).2 := by
  by_cases present : absolute parts ∈ entries
  · refine shaped.drop normal (parts <+: ·) (fun other namesOther => at_removeAll order names notRoot present namesOther)
      ?_ ?_ (normal.of_subset (removeAll_subset order _))
    · simpa using notRoot
    · intro init name below _ _
      exact below.trans (prefix_append _ _)
  · rw [removeAll, normalizePath_absolute names, if_neg present]
    exact shaped

theorem removeAll_root (order : KeyOrder) (present : ['/'] ∈ entries) : ¬ TreeShaped (removeAll order ['/'] entries).2 := by
  intro shaped
  obtain ⟨entry, found, -⟩ := shaped.root
  have gone : (removeAll order ['/'] entries).2.lookup ['/'] = none := by
    rw [removeAll]
    simp only [show normalizePath ['/'] = ['/'] from rfl, if_pos present]
    rw [Table.lookup_foldl_erase, if_pos]
    simpa [(order.perm entries).mem_iff] using AList.mem_keys.mp present
  simp [gone] at found

end LoginomDock.MemFs
