import LoginomDock.Library.Runs
import LoginomDock.MemFs.Rename

/-! Which calls keep the entry map a tree, and which failing calls leave it alone, over every run from the empty file
system. -/

namespace LoginomDock.MemFs

open Text (IsNames IsName absolute dirPrefix)
open List AList

variable {entries : Entries} {parts old new : List Text}

def Call.paths : Call → List Text
  | .create path | .mkdir path _ | .write path _ _ _ | .remove path | .removeAll path => [path]
  | .rename oldPath newPath => [oldPath, newPath]

def Request.Normalised (request : Request) : Prop := ∀ path ∈ request.call.paths, IsAbsolute path

-- What a call must not do: remove the whole root, move a path below itself, or ask for a new file where one is, unless
-- the clock still reads what it read when that one was touched last.
def Harmless (entries : Entries) (request : Request) : Prop :=
  match request.call with
  | .write path _ _ flags =>
    flags = .createNew → ∀ entry, entries.lookup (normalizePath path) = some entry → entry.isDir = false →
      entry.modTime = request.now
  | .removeAll path => normalizePath path ≠ ['/']
  | .rename oldPath newPath =>
    normalizePath oldPath ∈ entries → normalizePath newPath ∉ entries →
      checkParent (normalizePath newPath) entries = .ok () →
      ¬ dirPrefix (normalizePath oldPath) <+: normalizePath newPath
  | .create _ | .mkdir _ _ | .remove _ => True

def SameMap (before after : Entries) : Prop := ∀ path, after.lookup path = before.lookup path

def FailsUnchanged (order : KeyOrder) (entries : Entries) (request : Request) : Prop :=
  ∀ error, (perform order request entries).1 = .failed error → SameMap entries (perform order request entries).2

variable (order : KeyOrder) {request : Request}

theorem perform_normal (normalised : request.Normalised)
    (normal : NormalKeys entries) : NormalKeys (perform order request entries).2 := by
  obtain ⟨call, now⟩ := request
  cases call with
  | create path | mkdir path mode =>
    obtain ⟨parts, names, rfl⟩ := normalised path mem_cons_self
    exact addEntry_normal normal names _
  | write path data offset flags =>
    obtain ⟨parts, names, rfl⟩ := normalised path mem_cons_self
    exact write_normal normal names data offset flags now
  | remove path => exact remove_normal normal path
  | removeAll path => exact normal.of_subset (removeAll_subset order path)
  | rename oldPath newPath =>
    obtain ⟨old, namesOld, rfl⟩ := normalised oldPath mem_cons_self
    obtain ⟨new, namesNew, rfl⟩ := normalised newPath (by simp [Call.paths])
    rcases rename_cases order normal namesOld namesNew with ⟨error, failed⟩ | ⟨-, -, -, after, done, renamed⟩
    · simpa only [perform, failed] using normal
    · simpa only [perform, done] using renamed.normal

theorem sameMap_insert_touch {entry : FileEntry} {path : Text} {now : Nat} (found : entries.lookup path = some entry) :
    SameMap entries (entries.insert path (entry.touch now)) ↔ entry.modTime = now := by
  constructor
  · intro same
    have looked := same path
    rw [lookup_insert, found, Option.some_inj] at looked
    exact (congrArg FileEntry.modTime looked).symm
  · rintro rfl other
    rw [Table.lookup_insert_if]
    split
    case isTrue equal => rw [equal, found]; rfl
    case isFalse => rfl

theorem write_fails_unchanged (path : Text) (data : Bytes) (offset : UInt64) (flags : WriteFlag)
    (now : Nat) : FailsUnchanged order entries ⟨.write path data offset flags, now⟩ ↔
      (flags = .createNew → ∀ entry, entries.lookup (normalizePath path) = some entry → entry.isDir = false →
        entry.modTime = now) := by
  simp only [FailsUnchanged, perform, write]
  cases found : entries.lookup (normalizePath path) with
  | some entry =>
    by_cases isDir : entry.isDir
    · simp [isDir, SameMap]
    · cases flags
      case createNew => simp [isDir, sameMap_insert_touch found]
      case none =>
        by_cases completed : (writeAt entry.data data offset).2 <;> simp [isDir, completed]
      all_goals simp [isDir]
  | none =>
    by_cases creating : flags = .create ∨ flags = .createNew
    · cases checked : checkParent (normalizePath path) entries <;> simp [creating, SameMap]
    · simp [creating, SameMap]

theorem failsUnchanged_of_eq
    (kept : ∀ error, (perform order request entries).1 = .failed error → (perform order request entries).2 = entries) :
    FailsUnchanged order entries request := by
  intro error failed path
  rw [kept error failed]

theorem remove_fails_unchanged (path : Text) (now : Nat) :
    FailsUnchanged order entries ⟨.remove path, now⟩ := by
  apply failsUnchanged_of_eq
  simp only [perform, remove]
  cases found : entries.lookup (normalizePath path) with
  | none => simp
  | some entry => by_cases isDir : entry.isDir <;> simp [isDir]

theorem removeAll_fails_unchanged (path : Text) (now : Nat) :
    FailsUnchanged order entries ⟨.removeAll path, now⟩ := by
  apply failsUnchanged_of_eq
  simp only [perform, removeAll]
  by_cases present : normalizePath path ∈ entries <;> simp [present]

theorem rename_harmless_iff (shaped : TreeShaped entries) (normal : NormalKeys entries)
    (namesOld : IsNames old) (namesNew : IsNames new) (now : Nat) :
    Harmless entries ⟨.rename (absolute old) (absolute new), now⟩ ↔
      TreeShaped (rename order (absolute old) (absolute new) entries).2 := by
  rcases rename_cases order normal namesOld namesNew with ⟨error, failed⟩ | ⟨held, absent, checked, after, done, renamed⟩
  · rw [failed]
    refine ⟨fun _ => shaped, fun _ => ?_⟩
    simp only [Harmless, normalizePath_absolute namesOld, normalizePath_absolute namesNew]
    intro there missing parent
    have succeeds := rename_done order shaped normal namesOld namesNew (mem_iff_at.mp there)
      (lookup_eq_none.mpr missing) parent
    rw [failed] at succeeds
    -- a failed rename keeps the map, in which the new path is not the old one
    have arrived := succeeds.moved [] (by simpa using namesOld) (by simpa using mem_iff_at.mp there)
    rw [append_nil, append_nil] at arrived
    rw [mem_iff_at, arrived, ← mem_iff_at] at missing
    exact absurd there missing
  · have different : new ≠ old := by
      rintro rfl
      simp [absent] at held
    have starts := Text.dirPrefix_prefix_absolute namesOld namesNew different
    rw [done]
    simp only [Harmless, normalizePath_absolute namesOld, normalizePath_absolute namesNew, mem_iff_at, held, absent, checked, Option.isSome_none, Bool.false_eq_true, not_false_eq_true,
      forall_const, starts]
    constructor
    · exact renamed.tree shaped normal namesOld namesNew absent checked
    · intro still inside
      exact renamed.broken shaped normal namesOld namesNew held absent inside still

theorem harmless_iff (normalised : request.Normalised)
    (shaped : TreeShaped entries) (normal : NormalKeys entries) :
    Harmless entries request ↔
      TreeShaped (perform order request entries).2 ∧ FailsUnchanged order entries request := by
  obtain ⟨call, now⟩ := request
  cases call with
  | create path | mkdir path mode =>
    obtain ⟨parts, names, rfl⟩ := normalised path mem_cons_self
    exact ⟨fun _ => ⟨addEntry_tree shaped normal names _, failsUnchanged_of_eq order fun _ => addEntry_failed⟩,
      fun _ => trivial⟩
  | write path data offset flags =>
    obtain ⟨parts, names, rfl⟩ := normalised path mem_cons_self
    rw [write_fails_unchanged]
    exact (and_iff_right (write_tree shaped normal names data offset flags now)).symm
  | remove path =>
    obtain ⟨parts, names, rfl⟩ := normalised path mem_cons_self
    exact ⟨fun _ => ⟨remove_tree shaped normal names, remove_fails_unchanged order _ now⟩, fun _ => trivial⟩
  | removeAll path =>
    obtain ⟨parts, names, rfl⟩ := normalised path mem_cons_self
    rw [and_iff_left (removeAll_fails_unchanged order _ now)]
    simp only [Harmless, normalizePath_absolute names]
    by_cases root : parts = []
    · subst root
      obtain ⟨entry, found, -⟩ := shaped.root
      have present : ['/'] ∈ entries := lookup_isSome.mp (by simp [found])
      simpa [perform] using removeAll_root order present
    · exact ⟨fun _ => removeAll_tree order shaped normal names root,
        fun _ => mt (Text.absolute_eq_root names).mp root⟩
  | rename oldPath newPath =>
    obtain ⟨old, namesOld, rfl⟩ := normalised oldPath mem_cons_self
    obtain ⟨new, namesNew, rfl⟩ := normalised newPath (by simp [Call.paths])
    rw [rename_harmless_iff order shaped normal namesOld namesNew]
    refine ⟨fun still => ⟨still, failsUnchanged_of_eq order ?_⟩, fun both => both.1⟩
    intro error failed
    rcases rename_cases order normal namesOld namesNew with ⟨_, same⟩ | ⟨-, -, -, after, done, -⟩
    · simp only [perform, same]
    · simp [perform, done] at failed

theorem new_tree (now : Nat) : TreeShaped (MemFs.new now) := by
  refine ⟨⟨_, lookup_insert _, rfl⟩, ?_⟩
  intro path entry found notRoot
  rw [MemFs.new, lookup_insert_ne notRoot] at found
  simp at found

theorem new_normal (now : Nat) : NormalKeys (MemFs.new now) := by
  intro path member
  rcases (mem_insert _).mp member with root | impossible
  · exact ⟨[], by simp [IsNames], root.symm⟩
  · exact absurd impossible (notMem_empty _)

theorem run_normal {requests : List Request} (normalised : ∀ request ∈ requests, request.Normalised)
    (normal : NormalKeys entries) : NormalKeys (run order requests entries) := by
  induction requests generalizing entries with
  | nil => exact normal
  | cons request rest ih =>
    exact ih (fun other member => normalised other (by simp [member]))
      (perform_normal order (normalised request (by simp)) normal)

theorem run_append (before : List Request) (request : Request) (entries : Entries) :
    run order (before ++ [request]) entries = (perform order request (run order before entries)).2 := by
  simp [run]

structure StaysTree (order : KeyOrder) (entries : Entries) (requests : List Request) : Prop where
  shaped : ∀ before after, requests = before ++ after → TreeShaped (run order before entries)
  failing : AtEach requests fun before request => FailsUnchanged order (run order before entries) request

theorem stays_tree_iff_harmless (order : KeyOrder) (started : Nat) (requests : List Request)
    (normalised : ∀ request ∈ requests, request.Normalised) :
    StaysTree order (MemFs.new started) requests ↔
      AtEach requests fun before request => Harmless (run order before (MemFs.new started)) request := by
  have normal : ∀ before after, requests = before ++ after → NormalKeys (run order before (MemFs.new started)) := by
    rintro before after rfl
    exact run_normal order (fun request member => normalised request (by simp [member])) (new_normal started)
  have step : ∀ before request after, requests = before ++ request :: after →
      TreeShaped (run order before (MemFs.new started)) → _ := fun before request after split shaped =>
    harmless_iff order (normalised request (by simp [split])) shaped (normal before _ split)
  constructor
  · intro stays before request after split
    refine (step before request after split (stays.shaped before _ split)).mpr ⟨?_, stays.failing before request after split⟩
    rw [← run_append]
    exact stays.shaped _ after (by simp [split])
  · intro harmless
    have shaped : ∀ before after, requests = before ++ after → TreeShaped (run order before (MemFs.new started)) := by
      intro before
      -- each harmless call passes the tree on to the next
      induction before using List.reverseRecOn with
      | nil => exact fun _ _ => new_tree started
      | append_singleton before request ih =>
        intro after split
        have here : requests = before ++ request :: after := by simp [split]
        rw [run_append]
        exact ((step before request after here (ih _ here)).mp (harmless before request after here)).1
    exact ⟨shaped, fun before request after split =>
      ((step before request after split (shaped before _ split)).mp (harmless before request after split)).2⟩

theorem moved_directory_stays_tree :
    StaysTree .stored (MemFs.new 0)
      [⟨.mkdir "/a" 0o755, 1⟩, ⟨.write "/a/f" [1] 0 .createNew, 2⟩,
        ⟨.rename "/a" "/b", 3⟩] := by
  refine (stays_tree_iff_harmless .stored 0 _ ?_).mpr ?_
  · simp only [forall_mem_cons, Request.Normalised, Call.paths, not_mem_nil, false_implies, implies_true,
      and_true]
    exact ⟨⟨[['a']], by decide, rfl⟩, ⟨[['a'], ['f']], by decide, rfl⟩, ⟨[['a']], by decide, rfl⟩,
      ⟨[['b']], by decide, rfl⟩⟩
  · rw [atEach_cons, atEach_cons, atEach_cons]
    refine ⟨trivial, ?_, fun _ _ _ => show ¬ "/a/".toList <+: "/b".toList by decide, atEach_nil _⟩
    intro _ entry found
    exact nomatch (show (none : Option FileEntry) = some entry from found)

theorem directory_moved_into_itself :
    ¬ StaysTree .stored (MemFs.new 0) [⟨.mkdir "/a" 0o755, 1⟩, ⟨.rename "/a" "/a/b", 2⟩] := by
  intro stays
  have shaped := stays.shaped _ [] (append_nil _).symm
  obtain ⟨parent, dir, isParent, found, -⟩ := shaped.parents "/a/b" ⟨[], 0o755, 1, true⟩ (by rfl) (by decide)
  obtain rfl : "/a" = parent := Option.some.inj isParent
  exact nomatch (show (none : Option FileEntry) = some dir from found)

end LoginomDock.MemFs
