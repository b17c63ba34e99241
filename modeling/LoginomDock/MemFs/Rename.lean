import LoginomDock.MemFs.TreeShape

/-! A rename collects the keys below the old path and moves them one by one. `Renamed` is the map it leaves, whatever
the order of the moves. -/

namespace LoginomDock.MemFs

open Text (IsNames IsName absolute dirPrefix)
open List Text

variable {entries : Entries} {parts : List Text}

def Below (oldNormalized path : Text) : Prop := ¬ (path = oldNormalized ∨ ¬ dirPrefix oldNormalized <+: path)

instance (oldNormalized path : Text) : Decidable (Below oldNormalized path) := inferInstanceAs (Decidable (¬ (_ ∨ _)))

def Free (old new : Text) (entries : Entries) (keys : List Text) : Prop :=
  ∀ path ∈ keys, Below old path → movedPath (dirPrefix old) (dirPrefix new) path ∉ entries

variable {keys : List Text}

theorem collectMoves_free {old new : Text} (free : Free old new entries keys) :
    collectMoves old new entries keys = .ok (keys.filter (Below old ·)) := by
  induction keys with
  | nil => rfl
  | cons path rest ih =>
    have restFree : Free old new entries rest := fun other member => free other (by simp [member])
    by_cases below : Below old path
    · have absent := free path (by simp) below
      rw [collectMoves, if_neg below, if_neg absent, ih restFree, filter_cons_of_pos (by simpa using below)]
      rfl
    · rw [collectMoves, if_pos (not_not.mp below), ih restFree, filter_cons_of_neg (by simpa using below)]

theorem free_of_collectMoves {old new : Text} {keys toMove : List Text}
    (collected : collectMoves old new entries keys = .ok toMove) : Free old new entries keys := by
  induction keys generalizing toMove with
  | nil => simp [Free]
  | cons path rest ih =>
    rw [collectMoves] at collected
    by_cases below : Below old path
    · rw [if_neg below] at collected
      simp only at collected
      split at collected
      · simp at collected
      case isFalse absent =>
        cases inner : collectMoves old new entries rest with
        | error error => simp [inner, Except.map] at collected
        | ok moves =>
          intro other member
          rcases mem_cons.mp member with rfl | later
          · exact fun _ => absent
          · exact ih inner other later
    · rw [if_pos (not_not.mp below)] at collected
      intro other member
      rcases mem_cons.mp member with rfl | later
      · exact fun isBelow => absurd isBelow below
      · exact ih collected other later

variable {old new : List Text}

theorem below_absolute_iff (namesOld : IsNames old) (names : IsNames parts) :
    Below (absolute old) (absolute parts) ↔ ∃ rest, rest ≠ [] ∧ parts = old ++ rest := by
  rw [Below, not_or, not_not, absolute_inj names namesOld]
  constructor
  · rintro ⟨different, starts⟩
    obtain ⟨rest, rfl⟩ := (dirPrefix_prefix_absolute namesOld names different).mp starts
    exact ⟨rest, by simpa using different, rfl⟩
  · rintro ⟨rest, more, rfl⟩
    have different : old ++ rest ≠ old := by simpa using more
    exact ⟨different, (dirPrefix_prefix_absolute namesOld names different).mpr (prefix_append _ _)⟩

theorem movedPath_absolute (namesOld : IsNames old) (namesNew : IsNames new) {rest : List Text} (more : rest ≠ []) :
    movedPath (dirPrefix (absolute old)) (dirPrefix (absolute new)) (absolute (old ++ rest)) =
      absolute (new ++ rest) := by
  rw [movedPath, absolute_append namesOld more, drop_left, absolute_append namesNew more]

structure Renamed (old new : List Text) (before after : Entries) : Prop where
  moved : ∀ rest, IsNames (old ++ rest) → (before.at (old ++ rest)).isSome →
    after.at (new ++ rest) = before.at (old ++ rest)
  others : ∀ parts, IsNames parts → (∀ rest, parts = new ++ rest → before.at (old ++ rest) = none) →
    after.at parts = if old <+: parts then none else before.at parts
  normal : NormalKeys after

theorem mem_moves_iff (normal : NormalKeys entries) (namesOld : IsNames old)
    (perm : keys.Perm entries.keys) (path : Text) :
    path ∈ keys.filter (Below (absolute old) ·) ↔
      ∃ rest, rest ≠ [] ∧ IsNames (old ++ rest) ∧ path = absolute (old ++ rest) ∧ (entries.at (old ++ rest)).isSome := by
  rw [mem_filter, perm.mem_iff, ← AList.mem_keys, decide_eq_true_eq]
  constructor
  · rintro ⟨stored, below⟩
    obtain ⟨parts, names, rfl⟩ := normal path stored
    obtain ⟨rest, more, rfl⟩ := (below_absolute_iff namesOld names).mp below
    exact ⟨rest, more, names, rfl, mem_iff_at.mp stored⟩
  · rintro ⟨rest, more, names, rfl, present⟩
    exact ⟨mem_iff_at.mpr present, (below_absolute_iff namesOld names).mpr ⟨rest, more, rfl⟩⟩

theorem renamed_foldl {entry : FileEntry} (normal : NormalKeys entries) (namesOld : IsNames old) (namesNew : IsNames new)
    (held : entries.at old = some entry) (absent : entries.at new = none)
    (perm : keys.Perm entries.keys) (free : Free (absolute old) (absolute new) entries keys) :
    Renamed old new entries
      ((keys.filter (Below (absolute old) ·)).foldl
        (moveChild (dirPrefix (absolute old)) (dirPrefix (absolute new)))
        ((entries.erase (absolute old)).insert (absolute new) entry)) := by
  set start := (entries.erase (absolute old)).insert (absolute new) entry with isStart
  set toMove := keys.filter (Below (absolute old) ·) with isToMove
  have member : ∀ path, path ∈ toMove ↔ _ := mem_moves_iff normal namesOld perm
  have startAt : ∀ {other}, IsNames other → Entries.at start other =
      if other = new then some entry else if other = old then none else entries.at other := by
    intro other namesOther
    rw [isStart, at_insert namesNew namesOther, at_erase namesOld namesOther]
  have newPath : ∀ {rest}, rest ≠ [] → movedPath (dirPrefix (absolute old)) (dirPrefix (absolute new))
      (absolute (old ++ rest)) = absolute (new ++ rest) := movedPath_absolute namesOld namesNew
  have namesMoved : ∀ {rest}, IsNames (old ++ rest) → IsNames (new ++ rest) :=
    fun names => namesNew.append names.of_append.2
  obtain ⟨arrived, remaining⟩ := Table.lookup_foldl_moveKey
    (movedPath (dirPrefix (absolute old)) (dirPrefix (absolute new))) toMove start
    ((perm.nodup_iff.mpr entries.keys_nodup).filter _)
    (by
      intro path moving
      obtain ⟨rest, more, names, rfl, present⟩ := (member path).mp moving
      have notNew : old ++ rest ≠ new := by
        rintro same
        simp [same, absent] at present
      rw [mem_iff_at, startAt names, if_neg notNew, if_neg (by simpa using more)]
      exact present)
    (by
      intro first movesFirst second movesSecond same
      obtain ⟨left, moreLeft, namesLeft, rfl, -⟩ := (member first).mp movesFirst
      obtain ⟨right, moreRight, namesRight, rfl, -⟩ := (member second).mp movesSecond
      rw [newPath moreLeft, newPath moreRight] at same
      have equal := absolute_injective (namesMoved namesLeft) (namesMoved namesRight) same
      rw [append_cancel_left equal])
    (by
      rintro first movesFirst _ movesSecond rfl
      have stored : first ∈ keys ∧ Below (absolute old) first := by simpa [isToMove] using movesFirst
      obtain ⟨right, -, -, equal, present⟩ := (member _).mp movesSecond
      rw [← mem_iff_at, ← equal] at present
      exact free first stored.1 stored.2 present)
  -- what was moved arrives at absolute (new ++ rest) and nowhere else
  have image : ∀ path, path ∈ toMove.map (movedPath (dirPrefix (absolute old)) (dirPrefix (absolute new))) →
      ∃ rest, rest ≠ [] ∧ IsNames (old ++ rest) ∧ path = absolute (new ++ rest) ∧ (entries.at (old ++ rest)).isSome := by
    intro path isMoved
    obtain ⟨source, moving, rfl⟩ := mem_map.mp isMoved
    obtain ⟨rest, more, names, rfl, present⟩ := (member source).mp moving
    exact ⟨rest, more, names, newPath more, present⟩
  constructor
  case moved =>
    intro rest names present
    by_cases none : rest = []
    · subst none
      have notImage : absolute new ∉ toMove.map (movedPath (dirPrefix (absolute old)) (dirPrefix (absolute new))) := by
        intro isMoved
        obtain ⟨rest, more, namesRest, same, -⟩ := image _ isMoved
        have equal := absolute_injective namesNew (namesMoved namesRest) same
        simp [more] at equal
      have notMoving : absolute new ∉ toMove := by
        intro moving
        obtain ⟨rest, -, namesRest, same, there⟩ := (member _).mp moving
        rw [← absolute_injective namesNew namesRest same, absent] at there
        simp at there
      have stays := remaining _ notImage
      rw [if_neg notMoving] at stays
      simp only [append_nil, held]
      exact stays.trans ((startAt namesNew).trans (if_pos rfl))
    · have came := arrived _ ((member _).mpr ⟨rest, none, names, rfl, present⟩)
      rw [newPath none] at came
      have notNew : old ++ rest ≠ new := by
        rintro same
        simp [same, absent] at present
      refine came.trans ((startAt names).trans ?_)
      rw [if_neg notNew, if_neg (by simpa using none)]
  case others =>
    intro parts names unmoved
    have notImage : absolute parts ∉ toMove.map (movedPath (dirPrefix (absolute old)) (dirPrefix (absolute new))) := by
      intro isMoved
      obtain ⟨rest, -, namesRest, same, present⟩ := image _ isMoved
      simp [unmoved rest (absolute_injective names (namesMoved namesRest) same)] at present
    have notNew : parts ≠ new := by
      rintro rfl
      have gone := unmoved [] (by simp)
      rw [append_nil, held] at gone
      simp at gone
    refine (remaining _ notImage).trans ?_
    have starting : start.lookup (absolute parts) = _ := startAt names
    rw [starting, if_neg notNew]
    by_cases below : old <+: parts
    · obtain ⟨rest, rfl⟩ := below
      rw [if_pos (prefix_append _ _)]
      by_cases none : rest = []
      · simp [none]
      · cases present : entries.at (old ++ rest) with
        | none => simp [none]
        | some entry =>
          rw [if_pos ((member _).mpr ⟨rest, none, names, rfl, by simp [present]⟩)]
    · have notOld : parts ≠ old := fun same => below (same ▸ prefix_refl _)
      have notMoving : absolute parts ∉ toMove := by
        intro moving
        obtain ⟨rest, -, namesRest, same, -⟩ := (member _).mp moving
        exact below ⟨rest, (absolute_injective names namesRest same).symm⟩
      rw [if_neg notMoving, if_neg notOld, if_neg below]
  case normal =>
    intro path stored
    by_cases isMoved : path ∈ toMove.map (movedPath (dirPrefix (absolute old)) (dirPrefix (absolute new)))
    · obtain ⟨rest, -, names, same, -⟩ := image _ isMoved
      exact ⟨new ++ rest, namesMoved names, same.symm⟩
    · have startNormal : NormalKeys start := (normal.erase _).insert namesNew entry
      refine startNormal path ?_
      have found : (_ : Option FileEntry).isSome = true := AList.lookup_isSome.mpr stored
      have stays := remaining _ isMoved
      rw [← AList.lookup_isSome]
      by_cases moving : path ∈ toMove
      · rw [if_pos moving] at stays
        exact absurd (stays ▸ found) (by simp)
      · rw [if_neg moving] at stays
        exact stays ▸ found

theorem rename_cases (order : KeyOrder) (normal : NormalKeys entries) (namesOld : IsNames old) (namesNew : IsNames new) :
    (∃ error, rename order (absolute old) (absolute new) entries = (.failed error, entries)) ∨
      (entries.at old).isSome ∧ entries.at new = none ∧ checkParent (absolute new) entries = .ok () ∧
        ∃ after, rename order (absolute old) (absolute new) entries = (.done none, after) ∧
          Renamed old new entries after := by
  rw [rename, normalizePath_absolute namesOld, normalizePath_absolute namesNew]
  cases held : entries.lookup (absolute old) with
  | none => exact .inl ⟨_, rfl⟩
  | some entry =>
    by_cases taken : absolute new ∈ entries
    · exact .inl ⟨.alreadyExists (absolute new), by simp only [if_pos taken]⟩
    · simp only [if_neg taken]
      cases checked : checkParent (absolute new) entries with
      | error error => exact .inl ⟨error, rfl⟩
      | ok _ =>
        cases collected : collectMoves (absolute old) (absolute new) entries (order.keys entries) with
        | error error => exact .inl ⟨error, rfl⟩
        | ok toMove =>
          have free := free_of_collectMoves collected
          rw [collectMoves_free free, Except.ok.injEq] at collected
          have absent := AList.lookup_eq_none.mpr taken
          refine .inr ⟨by simp [Entries.at, held], absent, rfl, _, rfl, ?_⟩
          rw [← collected]
          exact renamed_foldl normal namesOld namesNew held absent (order.perm entries) free

theorem TreeShaped.free (shaped : TreeShaped entries) (normal : NormalKeys entries) (namesOld : IsNames old)
    (namesNew : IsNames new) (absent : entries.at new = none) (perm : keys.Perm entries.keys) :
    Free (absolute old) (absolute new) entries keys := by
  intro path member below taken
  obtain ⟨rest, more, names, rfl, -⟩ := (mem_moves_iff normal namesOld perm path).mp (by simp [member, below])
  rw [movedPath_absolute namesOld namesNew more, mem_iff_at] at taken
  have present := shaped.ancestor normal (namesNew.append names.of_append.2) taken
  simp [absent] at present

theorem rename_done (order : KeyOrder) (shaped : TreeShaped entries) (normal : NormalKeys entries)
    (namesOld : IsNames old) (namesNew : IsNames new) (held : (entries.at old).isSome) (absent : entries.at new = none)
    (checked : checkParent (absolute new) entries = .ok ()) :
    Renamed old new entries (rename order (absolute old) (absolute new) entries).2 := by
  rcases rename_cases order normal namesOld namesNew with ⟨error, failed⟩ | ⟨-, -, -, after, done, renamed⟩
  · obtain ⟨entry, found⟩ := Option.isSome_iff_exists.mp held
    have taken : absolute new ∉ entries := AList.lookup_eq_none.mp absent
    rw [Entries.at] at found
    rw [rename, normalizePath_absolute namesOld, normalizePath_absolute namesNew, found] at failed
    simp only [if_neg taken, checked,
      collectMoves_free (shaped.free normal namesOld namesNew absent (order.perm entries))] at failed
    simp at failed
  · rw [done]
    exact renamed

variable {before after : Entries}

section

variable (renamed : Renamed old new before after) (shaped : TreeShaped before) (normal : NormalKeys before) (namesOld : IsNames old)

include renamed shaped normal namesOld

theorem Renamed.at_after (absent : before.at new = none) {other : List Text} (names : IsNames other) :
    after.at other = if new <+: other then before.at (old ++ other.drop new.length)
      else if old <+: other then none else before.at other := by
  by_cases below : new <+: other
  · obtain ⟨rest, rfl⟩ := below
    rw [if_pos (prefix_append _ _), drop_left]
    cases found : before.at (old ++ rest) with
    | some entry =>
      rw [renamed.moved rest (namesOld.append names.of_append.2) (by simp [found]), found]
    | none =>
      have empty : before.at (new ++ rest) = none := by
        by_contra present
        have there := shaped.ancestor normal names (Option.isSome_iff_ne_none.mpr present)
        simp [absent] at there
      rw [renamed.others _ names ?_, empty, ite_self]
      intro other same
      rw [← append_cancel_left same, found]
  · rw [if_neg below]
    refine renamed.others _ names ?_
    rintro rest rfl
    exact absurd (prefix_append _ _) below

theorem Renamed.tree (namesNew : IsNames new) (absent : before.at new = none)
    (checked : checkParent (absolute new) before = .ok ()) (apart : ¬ old <+: new) : TreeShaped after := by
  obtain ⟨root, parents⟩ := (treeShaped_iff normal).mp shaped
  have lookedUp : ∀ {other}, IsNames other → after.at other = _ := fun {_} names =>
    renamed.at_after shaped normal namesOld absent names
  have notRoot : new ≠ [] := by
    rintro rfl
    obtain ⟨entry, held, -⟩ := root
    simp [absent] at held
  refine (treeShaped_iff renamed.normal).mpr ⟨?_, ?_⟩
  · have oldNotRoot : ¬ old <+: [] := fun start => apart (start.trans (List.nil_prefix))
    rw [Entries.IsDirAt, lookedUp (by simp [IsNames]), if_neg (by simpa using notRoot), if_neg oldNotRoot]
    exact root
  · intro init name names present
    have namesInit := names.of_append.1
    rw [lookedUp names] at present
    rw [Entries.IsDirAt, lookedUp namesInit]
    by_cases below : new <+: init ++ [name]
    · rw [if_pos below] at present
      rcases prefix_concat_iff.mp below with same | deeper
      · -- the renamed entry itself: its parent was checked and stays
        have parent := parent_of_checkParent namesNew checked init name same
        have shorter : ¬ new <+: init := by
          intro start
          have longer := start.length_le
          rw [same, length_append, length_singleton] at longer
          omega
        have outside : ¬ old <+: init := fun start => apart (same ▸ start.trans (prefix_append _ _))
        rw [if_neg shorter, if_neg outside]
        exact parent
      · obtain ⟨rest, rfl⟩ := deeper
        rw [if_pos (prefix_append _ _), drop_left]
        rw [append_assoc, drop_left, ← append_assoc] at present
        refine parents _ name ?_ present
        rw [append_assoc] at names ⊢
        exact namesOld.append names.of_append.2
    · rw [if_neg below] at present
      have outside : ¬ old <+: init ++ [name] := by
        intro start
        simp [start] at present
      rw [if_neg outside] at present
      rw [if_neg (fun start => below (start.trans (prefix_append _ _))),
        if_neg (fun start => outside (start.trans (prefix_append _ _)))]
      exact parents init name names present

theorem Renamed.broken (namesNew : IsNames new) (held : (before.at old).isSome)
    (absent : before.at new = none) (inside : old <+: new) : ¬ TreeShaped after := by
  intro still
  have lookedUp : ∀ {other}, IsNames other → after.at other = _ := fun {_} names =>
    renamed.at_after shaped normal namesOld absent names
  rcases eq_nil_or_concat new with rfl | ⟨init, name, rfl⟩
  · rw [prefix_nil.mp inside] at held
    simp [absent] at held
  · rw [concat_eq_append] at *
    have arrived : (after.at (init ++ [name])).isSome := by
      rw [lookedUp namesNew, if_pos (prefix_refl _)]
      simpa using held
    obtain ⟨dir, there, -⟩ := ((treeShaped_iff renamed.normal).mp still).2 init name namesNew arrived
    have shorter : ¬ init ++ [name] <+: init := by
      intro start
      have longer := start.length_le
      rw [length_append, length_singleton] at longer
      omega
    have gone : old <+: init := by
      rcases prefix_concat_iff.mp inside with same | deeper
      · rw [same, absent] at held
        simp at held
      · exact deeper
    rw [lookedUp namesNew.of_append.1, if_neg shorter, if_pos gone] at there
    simp at there

end

end LoginomDock.MemFs
