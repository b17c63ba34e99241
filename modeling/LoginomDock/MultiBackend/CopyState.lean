import LoginomDock.Library.Bytes
import LoginomDock.MemFs.FileSystem

/-! Replaying a logged write: the file is copied from the primary to a backup, in chunks, up to the size that was logged. -/

namespace LoginomDock.MemFs

section

variable (path : Text)

-- Offsets and sizes are 64-bit numbers whose sum is read within the file.
def read (offset size : Nat) (entries : Entries) : Except Error Bytes :=
  let normalized := normalizePath path
  match entries.lookup normalized with
  | some entry =>
    if entry.isDir then .error (.isADirectory normalized)
    else if entry.data.length ≤ offset then .ok []
    else
      let finish := if size = 0 then entry.data.length else min (offset + size) entry.data.length
      .ok ((entry.data.take finish).drop offset)
  | none => .error (.notFound normalized)

-- `Vec::resize` panics above `isize::MAX` bytes.
def truncate (size : Nat) (now : Nat) (entries : Entries) : Outcome × Entries :=
  let normalized := normalizePath path
  match entries.lookup normalized with
  | some entry =>
    if entry.isDir then (.failed (.isADirectory normalized), entries)
    else if entry.data.length < size ∧ 2 ^ 63 ≤ size then (.panicked, entries)
    else
      let data := entry.data.take size ++ List.replicate (size - entry.data.length) 0
      (.done none, entries.insert normalized { entry.touch now with data })
  | none => (.failed (.notFound normalized), entries)

def makeDirs (mode : UInt32) (now : Nat) : List Text → Text → Entries → Except Error Unit × Entries
  | [], _, entries => (.ok (), entries)
  | part :: rest, current, entries =>
    let current := current ++ '/' :: part
    match mkdir current mode now entries with
    | (.failed (.alreadyExists _), entries) => makeDirs mode now rest current entries
    | (.failed error, entries) => (.error error, entries)
    | (_, entries) => makeDirs mode now rest current entries

def ensureParentDirs (mode : UInt32) (now : Nat) (entries : Entries) : Except Error Unit × Entries :=
  if path = ['/'] ∨ '/' ∉ path then (.ok (), entries)
  else makeDirs mode now ((path.dropWhile (· = '/')).splitOn '/').dropLast [] entries

end

end LoginomDock.MemFs

namespace LoginomDock.MultiBackend

open MemFs List

section

variable (path : Text) (now : Nat)

inductive Change where
  | write (data : Bytes) (offset : UInt64) (flags : WriteFlag)
  | truncate (size : Nat)

def Change.size : Change → Nat
  | .write data _ _ => data.length
  | .truncate size => size

def Change.perform (change : Change) (entries : Entries) : Outcome × Entries :=
  match change with
  | .write data offset flags => MemFs.write path data offset flags now entries
  | .truncate size => MemFs.truncate path size now entries

-- With the size of the path's `SyncFile` entry. A failed change takes its entry back, and the entry before is gone.
def applyChange (state : Entries × Option Nat) (change : Change) : Entries × Option Nat :=
  match change.perform path now state.1 with
  | (.failed _, entries) => (entries, none)
  | (_, entries) => (entries, some change.size)

def copyChunkSize : Nat := 8 * 1024 * 1024

def emptyFile (destination : Entries) : Outcome × Entries :=
  if normalizePath path ∈ destination then MemFs.truncate path 0 now destination else MemFs.create path now destination

def copyLoop (source : Entries) (size : Nat) : Nat → Nat → Entries → Option (Outcome × Entries)
  | 0, _, _ => none
  | rounds + 1, offset, destination =>
    if size ≤ offset then some (.done none, destination)
    else match MemFs.read path offset (min (size - offset) copyChunkSize) source with
    | .error error => some (.failed error, destination)
    | .ok [] => some (if offset = 0 then emptyFile path now destination else (.done none, destination))
    | .ok (byte :: rest) =>
      match MemFs.write path (byte :: rest) (.ofNat offset) (if offset = 0 then .create else .none) now destination with
      | (.done _, destination) => copyLoop source size rounds (min (offset + (rest.length + 1)) (2 ^ 64 - 1)) destination
      | stopped => some stopped

def copyFileState (rounds : Nat) (source : Entries) (size : Nat) (destination : Entries) : Option (Outcome × Entries) :=
  match ensureParentDirs path 0o755 now destination with
  | (.error error, destination) => some (.failed error, destination)
  | (.ok (), destination) =>
    if size = 0 then some (emptyFile path now destination) else copyLoop path now source size rounds 0 destination

end

section Copied

variable {path : Text} {now : Nat}

def fileAt (path : Text) (entries : Entries) : Option Bytes :=
  (entries.lookup (normalizePath path)).bind fun entry => if entry.isDir then none else some entry.data

-- A file is there, or can be created.
def accepts (path : Text) (entries : Entries) : Bool :=
  match entries.lookup (normalizePath path), checkParent (normalizePath path) entries with
  | some entry, _ => !entry.isDir
  | none, .ok () => true
  | none, .error _ => false

variable {file : Bytes} {entries : Entries}

theorem fileAt_some : fileAt path entries = some file ↔
    ∃ entry, entries.lookup (normalizePath path) = some entry ∧ entry.isDir = false ∧ entry.data = file := by
  rw [fileAt]
  cases entries.lookup (normalizePath path) with
  | none => simp
  | some entry => cases directory : entry.isDir <;> simp [directory]

theorem accepts_of_fileAt (there : fileAt path entries = some file) : accepts path entries = true := by
  obtain ⟨entry, found, directory, -⟩ := fileAt_some.mp there
  simp [accepts, found, directory]

theorem fileAt_insert (entries : Entries) (entry : FileEntry) (file : entry.isDir = false) :
    fileAt path (entries.insert (normalizePath path) entry) = some entry.data := by
  simp [fileAt, file]

theorem read_fileAt (there : fileAt path entries = some file) (offset : Nat) {size : Nat}
    (asks : size ≠ 0) : MemFs.read path offset size entries = .ok ((file.drop offset).take size) := by
  obtain ⟨entry, found, directory, rfl⟩ := fileAt_some.mp there
  rw [MemFs.read, found]
  simp only [directory, Bool.false_eq_true, if_false, if_neg asks]
  split
  next long => rw [drop_eq_nil_of_le long, take_nil]
  next short =>
    rw [take_drop]
    congr 2
    rw [take_eq_take_iff]
    omega

theorem emptyFile_fileAt (entries : Entries) :
    fileAt path (emptyFile path now entries).2 = if accepts path entries then some [] else none := by
  cases found : entries.lookup (normalizePath path) with
  | none =>
    have absent : normalizePath path ∉ entries := AList.lookup_eq_none.mp found
    cases checked : checkParent (normalizePath path) entries <;>
      simp [emptyFile, absent, MemFs.create, addEntry, accepts, fileAt, found, checked, FileEntry.newFile]
  | some entry =>
    have present : normalizePath path ∈ entries := AList.lookup_isSome.mp (by simp [found])
    cases directory : entry.isDir <;>
      simp [emptyFile, present, MemFs.truncate, accepts, fileAt, found, directory, FileEntry.touch]

theorem write_create (entries : Entries) (data : Bytes) (offset : UInt64) :
    (accepts path entries = true → ∃ written after, MemFs.write path data offset .create now entries = (.done written, after) ∧
        fileAt path after = some data) ∧
      (accepts path entries = false → ∃ error, MemFs.write path data offset .create now entries = (.failed error, entries) ∧
        fileAt path entries = none) := by
  cases found : entries.lookup (normalizePath path) with
  | none =>
    cases checked : checkParent (normalizePath path) entries <;>
      simp [MemFs.write, accepts, fileAt, found, checked, FileEntry.newFile]
  | some entry =>
    cases directory : entry.isDir <;> simp [MemFs.write, accepts, fileAt, found, directory, FileEntry.touch]

theorem write_end {entries : Entries} {front data : Bytes} (there : fileAt path entries = some front) (filled : data ≠ [])
    (short : front.length + data.length < 2 ^ 63) :
    ∃ written after, MemFs.write path data (.ofNat front.length) .none now entries = (.done written, after) ∧
      fileAt path after = some (front ++ data) := by
  obtain ⟨entry, found, directory, rfl⟩ := fileAt_some.mp there
  have more : 0 < data.length := length_pos_iff.mpr filled
  have start : (UInt64.ofNat entry.data.length).toNat = entry.data.length := by
    rw [UInt64.toNat_ofNat']
    omega
  have finish : (entry.data.length + data.length) % 2 ^ 64 = entry.data.length + data.length := by omega
  have whole : writeAt entry.data data (.ofNat entry.data.length) = (entry.data ++ data, true) := by
    have fits : ¬(entry.data.length < entry.data.length + data.length ∧ 2 ^ 63 ≤ entry.data.length + data.length) := by omega
    have grows : entry.data.length < entry.data.length + data.length := by omega
    have ordered : ¬entry.data.length + data.length < entry.data.length := by omega
    simp only [writeAt, start, finish, if_neg fits, if_pos grows, if_neg ordered]
    rw [take_left, drop_eq_nil_of_le (by simp), append_nil]
  simp only [MemFs.write, found, directory, Bool.false_eq_true, if_false, whole, if_true]
  exact ⟨_, _, rfl, fileAt_insert _ _ directory⟩

-- After the first chunk the backup has what was copied so far.
theorem copyLoop_copies {source : Entries} (there : fileAt path source = some file) (fits : file.length < 2 ^ 63)
    {size : Nat} (rounds : Nat) : ∀ (offset : Nat) (destination : Entries), size - offset < rounds → offset ≤ size →
      offset ≤ file.length → size ≠ 0 → (offset ≠ 0 → fileAt path destination = some (file.take offset)) →
      ∃ outcome after, copyLoop path now source size rounds offset destination = some (outcome, after) ∧
        fileAt path after = if accepts path destination then some (file.take size) else none := by
  induction rounds with
  | zero => nofun
  | succ rounds ih =>
    intro offset destination enough within inside filled before
    rw [copyLoop]
    by_cases finished : size ≤ offset
    · have same : offset = size := by omega
      have copied := before (by omega)
      rw [if_pos finished, accepts_of_fileAt copied]
      exact ⟨_, _, rfl, by rw [copied, same]; rfl⟩
    · have asks : min (size - offset) copyChunkSize ≠ 0 := by
        have room : copyChunkSize ≠ 0 := by decide
        omega
      rw [if_neg finished, read_fileAt there offset asks]
      cases chunk : (file.drop offset).take (min (size - offset) copyChunkSize) with
      | nil =>
        have all : file.length ≤ offset := by
          rcases take_eq_nil_iff.mp chunk with zero | rest
          · exact absurd zero asks
          · exact drop_eq_nil_iff.mp rest
        rw [take_of_length_le (by omega)]
        by_cases first : offset = 0
        · have blank : file = [] := length_eq_zero_iff.mp (by omega)
          rw [if_pos first, blank]
          exact ⟨_, _, rfl, emptyFile_fileAt destination⟩
        · have copied := before first
          rw [if_neg first, accepts_of_fileAt copied]
          exact ⟨_, _, rfl, by rw [copied, take_of_length_le all]; rfl⟩
      | cons byte rest =>
        have length : rest.length + 1 = min (min (size - offset) copyChunkSize) (file.length - offset) := by
          rw [← length_cons, ← chunk, length_take, length_drop]
        have longer : file.take offset ++ byte :: rest = file.take (offset + (rest.length + 1)) := by
          rw [take_add, ← chunk, append_cancel_left_eq, take_eq_take_iff, length_drop]
          omega
        have start : (file.take offset).length = offset := by rw [length_take]; omega
        have next : min (offset + (rest.length + 1)) (2 ^ 64 - 1) = offset + (rest.length + 1) := by omega
        have wrote : accepts path destination = true → ∃ written after, MemFs.write path (byte :: rest) (.ofNat offset)
            (if offset = 0 then .create else .none) now destination = (.done written, after) ∧
              fileAt path after = some (file.take (offset + (rest.length + 1))) := by
          intro accepted
          rw [← longer]
          by_cases first : offset = 0
          · rw [if_pos first, first]
            exact (write_create destination _ _).1 accepted
          · rw [if_neg first]
            have written := @write_end path now destination (file.take offset) (byte :: rest) (before first) (by simp) (by rw [start, length_cons]; omega)
            rwa [start] at written
        cases accepted : accepts path destination with
        | true =>
          obtain ⟨written, after, done, copied⟩ := wrote accepted
          obtain ⟨outcome, final, ended, whole⟩ := ih (offset + (rest.length + 1)) after (by omega) (by omega) (by omega) filled fun _ => copied
          rw [accepts_of_fileAt copied] at whole
          simp only [done, next]
          exact ⟨outcome, final, ended, whole⟩
        | false =>
          have first : offset = 0 := by
            by_contra later
            rw [accepts_of_fileAt (before later)] at accepted
            cases accepted
          obtain ⟨error, failed, missing⟩ := (@write_create path now destination (byte :: rest) (.ofNat offset)).2 accepted
          simp only [first, if_true] at failed ⊢
          rw [failed]
          exact ⟨_, _, rfl, missing⟩

-- The parents of the path can be made, the file too, and it is no longer than was logged.
def Reproduces (path : Text) (now size : Nat) (file : Bytes) (destination : Entries) : Prop :=
  match ensureParentDirs path 0o755 now destination with
  | (.error _, destination) => fileAt path destination = some file
  | (.ok (), destination) => accepts path destination = true ∧ file.length ≤ size

theorem copyFileState_iff {source : Entries} (there : fileAt path source = some file) (fits : file.length < 2 ^ 63)
    {size rounds : Nat} (enough : size < rounds) (destination : Entries) :
    ∃ outcome after, copyFileState path now rounds source size destination = some (outcome, after) ∧
      (fileAt path after = some file ↔ Reproduces path now size file destination) := by
  rw [copyFileState, Reproduces]
  obtain ⟨error | done, ready⟩ := ensureParentDirs path 0o755 now destination
  · exact ⟨_, _, rfl, Iff.rfl⟩
  have copies : ∃ outcome after, (if size = 0 then some (emptyFile path now ready) else copyLoop path now source size rounds 0 ready) =
      some (outcome, after) ∧ fileAt path after = if accepts path ready then some (file.take size) else none := by
    by_cases blank : size = 0
    · rw [if_pos blank, blank]
      exact ⟨_, _, rfl, emptyFile_fileAt ready⟩
    · rw [if_neg blank]
      exact copyLoop_copies there fits rounds 0 ready (by omega) (by omega) (by omega) blank (by simp)
  obtain ⟨outcome, after, done, copied⟩ := copies
  refine ⟨outcome, after, done, ?_⟩
  rw [copied]
  cases accepted : accepts path ready <;> simp [accepted]

theorem perform_file (change : Change) (entries : Entries) :
    (∃ error, (change.perform path now entries).1 = .failed error) ∨ ∃ file, fileAt path (change.perform path now entries).2 = some file := by
  cases change with
  | write data offset flags =>
    cases found : entries.lookup (normalizePath path) with
    | none =>
      simp only [Change.perform, MemFs.write, found]
      split
      · cases checkParent (normalizePath path) entries with
        | error error => exact .inl ⟨error, rfl⟩
        | ok => exact .inr ⟨_, fileAt_insert _ _ rfl⟩
      · exact .inl ⟨_, rfl⟩
    | some entry =>
      simp only [Change.perform, MemFs.write, found]
      split
      · exact .inl ⟨_, rfl⟩
      next file =>
        have kept : entry.isDir = false := by simpa using file
        cases flags with
        | createNew => exact .inl ⟨_, rfl⟩
        | create | truncate | append | none => exact .inr ⟨_, fileAt_insert _ _ kept⟩
  | truncate size =>
    cases found : entries.lookup (normalizePath path) with
    | none => exact .inl ⟨.notFound (normalizePath path), by simp only [Change.perform, MemFs.truncate, found]⟩
    | some entry =>
      simp only [Change.perform, MemFs.truncate, found]
      split
      · exact .inl ⟨_, rfl⟩
      next file =>
        have kept : entry.isDir = false := by simpa using file
        split
        · exact .inr ⟨_, fileAt_some.mpr ⟨entry, found, kept, rfl⟩⟩
        · exact .inr ⟨_, fileAt_insert _ _ kept⟩

theorem logged_file (changes : List Change) (primary : Entries) {size : Nat}
    (logged : (changes.foldl (applyChange path now) (primary, none)).2 = some size) :
    ∃ file, fileAt path (changes.foldl (applyChange path now) (primary, none)).1 = some file := by
  rcases changes.eq_nil_or_concat with rfl | ⟨earlier, last, rfl⟩
  · cases logged
  · rw [concat_eq_append, foldl_append, foldl_cons, foldl_nil, applyChange] at logged ⊢
    generalize (earlier.foldl (applyChange path now) (primary, none)).1 = before at logged ⊢
    have there := @perform_file path now last before
    generalize last.perform path now before = ended at logged there ⊢
    obtain ⟨outcome, after⟩ := ended
    cases outcome with
    | failed error => cases logged
    | done | panicked => exact there.resolve_left (by simp)

theorem replayed_write_identical_iff (path : Text) (now : Nat) (changes : List Change) (primary destination : Entries) {size : Nat}
    (logged : (changes.foldl (applyChange path now) (primary, none)).2 = some size) :
    ∃ file, fileAt path (changes.foldl (applyChange path now) (primary, none)).1 = some file ∧ (file.length < 2 ^ 63 →
      ∀ rounds, size < rounds → ∃ outcome after,
        copyFileState path now rounds (changes.foldl (applyChange path now) (primary, none)).1 size destination = some (outcome, after) ∧
          (fileAt path after = some file ↔ Reproduces path now size file destination)) := by
  obtain ⟨file, there⟩ := logged_file changes primary logged
  exact ⟨file, there, fun fits rounds enough => copyFileState_iff there fits enough destination⟩

section Example

def createdThenAppended : List Change := [.write [1] 0 .create, .write [2] 0 .append]

theorem created_file_replayed : ∃ outcome after,
    copyFileState "/f" 0 2 (([.write [1] 0 .create].foldl (applyChange "/f" 0) (MemFs.new 0, none)).1) 1 (MemFs.new 0) =
        some (outcome, after) ∧
      (fileAt "/f" after = some [1] ↔ Reproduces "/f" 0 1 [1] (MemFs.new 0)) := by
  obtain ⟨file, there, copies⟩ := @replayed_write_identical_iff "/f" 0 [.write [1] 0 .create] (MemFs.new 0) (MemFs.new 0) 1
    (by decide)
  have same : fileAt "/f" (([.write [1] 0 .create].foldl (applyChange "/f" 0) (MemFs.new 0, none)).1) = some [1] := by
    decide
  cases there.symm.trans same
  exact copies (by decide) 2 (by decide)

-- The second write logs one byte of a file of two.
theorem appended_file_cut :
    (createdThenAppended.foldl (applyChange "/f" 0) (MemFs.new 0, none)).2 = some 1 ∧
      fileAt "/f" (createdThenAppended.foldl (applyChange "/f" 0) (MemFs.new 0, none)).1 = some [1, 2] ∧
      (copyFileState "/f" 0 2 (createdThenAppended.foldl (applyChange "/f" 0) (MemFs.new 0, none)).1 1 (MemFs.new 0)).map
        (fun ended => fileAt "/f" ended.2) = some (some [1]) := by
  decide

end Example

end Copied

end LoginomDock.MultiBackend
