import LoginomDock.Library.PathMap
import LoginomDock.Git.Ignore

/-! What a commit is to record: `snapshot` maps the tracked files of a working tree to the ids of their contents. -/

namespace LoginomDock.Git

open WorkTree

variable {Oid : Type} [DecidableEq Oid] [ObjectHash Oid]

namespace WorkTree

def fileOid (disk : WorkTree) : PathMap Text Oid := fun path =>
  match disk.node path with
  | some (.file data _) => some (computeHash (.blob data))
  | _ => none

def IsFile (disk : WorkTree) (path : List Text) : Prop :=
  ∃ data modTime, disk.node path = some (.file data modTime)

def IsDirectory (disk : WorkTree) (path : List Text) : Prop := ∃ modTime, disk.node path = some (.directory modTime)

variable {disk : WorkTree} {path other : List Text}

theorem fileOid_eq_some {oid : Oid} :
    disk.fileOid path = some oid ↔
      ∃ data modTime, disk.node path = some (.file data modTime) ∧ computeHash (.blob data) = oid := by
  rw [fileOid]
  rcases disk.node path with _ | node
  · simp
  · cases node <;> simp

theorem isFile_of_fileOid {oid : Oid} (file : disk.fileOid path = some oid) : disk.IsFile path := by
  obtain ⟨data, modTime, found, -⟩ := fileOid_eq_some.mp file
  exact ⟨data, modTime, found⟩

theorem fileOid_of_isFile (file : disk.IsFile path) : ∃ oid : Oid, disk.fileOid path = some oid := by
  obtain ⟨data, modTime, found⟩ := file
  exact ⟨_, fileOid_eq_some.mpr ⟨data, modTime, found, rfl⟩⟩

theorem isFile_iff (Oid : Type) [DecidableEq Oid] [ObjectHash Oid] (disk : WorkTree) (path : List Text) :
    disk.IsFile path ↔ (disk.fileOid path : Option Oid).isSome := by
  rw [Option.isSome_iff_exists]
  exact ⟨fileOid_of_isFile, fun ⟨_, file⟩ => isFile_of_fileOid file⟩

instance (disk : WorkTree) (path : List Text) : Decidable (disk.IsFile path) :=
  match found : disk.node path with
  | some (.file data modTime) => isTrue ⟨data, modTime, found⟩
  | some (.directory _) => isFalse fun ⟨_, _, file⟩ => by rw [found] at file; cases file
  | none => isFalse fun ⟨_, _, file⟩ => by rw [found] at file; cases file

theorem not_directory_of_file {oid : Oid} (file : disk.fileOid path = some oid) : ¬ disk.IsDirectory path := by
  rintro ⟨modTime, found⟩
  simp [fileOid, found] at file

theorem not_directory_of_missing (missing : disk.node path = none) : ¬ disk.IsDirectory path := by
  rintro ⟨modTime, found⟩
  rw [missing] at found
  cases found

theorem fileOid_of_missing (missing : disk.node path = none) : disk.fileOid path = (none : Option Oid) := by
  simp [fileOid, missing]

theorem file_or_missing_or_directory (Oid : Type) [DecidableEq Oid] [ObjectHash Oid] (disk : WorkTree)
    (path : List Text) :
    (∃ oid : Oid, disk.fileOid path = some oid) ∨ disk.node path = none ∨ disk.IsDirectory path := by
  rcases found : disk.node path with _ | node
  · exact .inr (.inl rfl)
  · cases node with
    | file data modTime => exact .inl ⟨_, fileOid_eq_some.mpr ⟨data, modTime, found, rfl⟩⟩
    | directory modTime => exact .inr (.inr ⟨modTime, found⟩)

theorem directory_above {node : Node} (present : disk.node other = some node) (inside : path <+: other)
    (different : path ≠ other) : disk.IsDirectory path := by
  obtain ⟨below, rfl⟩ := inside
  exact disk.node_ancestor (by rintro rfl; simp at different) present

theorem directory_above_file {oid : Oid} (file : disk.fileOid other = some oid) (inside : path <+: other)
    (different : path ≠ other) : disk.IsDirectory path := by
  obtain ⟨data, modTime, found, -⟩ := fileOid_eq_some.mp file
  exact directory_above found inside different

theorem eq_of_files {first second : Oid} (file : disk.fileOid path = some first)
    (otherFile : disk.fileOid other = some second) (comparable : path <+: other ∨ other <+: path) :
    path = other := by
  by_contra different
  rcases comparable with above | below
  · exact not_directory_of_file file (directory_above_file otherFile above different)
  · exact not_directory_of_file otherFile (directory_above_file file below fun same => different same.symm)

theorem fileOid_below_missing (missing : disk.node path = none) (inside : path <+: other) :
    disk.fileOid other = (none : Option Oid) := by
  rcases file : disk.fileOid other with _ | oid
  · rfl
  · by_cases same : path = other
    · rw [← same, fileOid_of_missing missing] at file
      cases file
    · exact absurd (directory_above_file file inside same) (not_directory_of_missing missing)

end WorkTree

def snapshot (disk : WorkTree) (matcher : IgnoreMatcher) : PathMap Text Oid := fun path =>
  if shouldTrackPath (Text.joined path) matcher then disk.fileOid path else none

def GivesWay (disk : WorkTree) (done : List (List Text)) (path : List Text) : Prop :=
  ∃ other ∈ done, (disk.IsFile other ∧ (other <+: path ∨ path <+: other)) ∨
    (disk.node other = none ∧ other <+: path)

instance (disk : WorkTree) (done : List (List Text)) (path : List Text) : Decidable (GivesWay disk done path) :=
  inferInstanceAs (Decidable (∃ other ∈ done, _))

/-- A map of files after the paths `done` have been compared with the disk. -/
def compared (disk : WorkTree) (done : List (List Text)) (files : PathMap Text Oid) : PathMap Text Oid :=
  fun path =>
    if path ∈ done ∧ disk.IsFile path then disk.fileOid path
    else if GivesWay disk done path then none
    else files path

section Compared

variable {disk : WorkTree} {done : List (List Text)} {files : PathMap Text Oid} {path : List Text}

theorem compared_nil : compared disk [] files = files := by
  funext path
  simp [compared, GivesWay]

theorem givesWay_concat {other : List Text} :
    GivesWay disk (done ++ [path]) other ↔ GivesWay disk done other ∨
      (disk.IsFile path ∧ (path <+: other ∨ other <+: path)) ∨
        (disk.node path = none ∧ path <+: other) := by
  simp only [GivesWay, List.mem_append, List.mem_singleton, or_and_right, exists_or, exists_eq_left]

theorem not_givesWay_of_file {oid : Oid} (file : disk.fileOid path = some oid) (absent : path ∉ done) :
    ¬ GivesWay disk done path := by
  rintro ⟨other, member, ⟨otherFile, comparable⟩ | ⟨missing, inside⟩⟩
  · obtain ⟨otherOid, found⟩ : ∃ otherOid : Oid, _ := fileOid_of_isFile otherFile
    rw [eq_of_files found file comparable] at member
    exact absent member
  · rw [fileOid_below_missing missing inside] at file
    cases file

theorem compared_file {oid : Oid} (file : disk.fileOid path = some oid) :
    compared disk (done ++ [path]) files = PathMap.set path oid (compared disk done files) := by
  funext other
  by_cases same : other = path
  · simp [compared, PathMap.set, same, file, isFile_iff Oid]
  · have kept : other ∈ done ++ [path] ↔ other ∈ done := by simp [same]
    by_cases comparable : path <+: other ∨ other <+: path
    · have noFile : (disk.fileOid other : Option Oid) = none := by
        rcases otherFile : disk.fileOid other with _ | otherOid
        · rfl
        · exact absurd (eq_of_files otherFile file comparable.symm) same
      simp [compared, PathMap.set, same, noFile, givesWay_concat, file, comparable, comparable.symm,
        isFile_iff Oid]
    · have present : disk.node path ≠ none := fun missing => by
        rw [fileOid_of_missing missing] at file
        cases file
      have apart : ¬ (other <+: path ∨ path <+: other) := fun inside => comparable inside.symm
      simp [compared, PathMap.set, same, kept, givesWay_concat, comparable, apart, present]

theorem compared_missing (missing : disk.node path = none) :
    compared disk (done ++ [path]) files = PathMap.delete path (compared disk done files) := by
  funext other
  have noFile : (disk.fileOid path : Option Oid) = none := fileOid_of_missing missing
  by_cases inside : path <+: other
  · have below : (disk.fileOid other : Option Oid) = none := fileOid_below_missing missing inside
    simp [compared, PathMap.delete, inside, below, givesWay_concat, missing, isFile_iff Oid]
  · have different : other ≠ path := by
      rintro rfl
      exact inside (List.prefix_refl _)
    simp [compared, PathMap.delete, inside, different, givesWay_concat, noFile, isFile_iff Oid]

theorem compared_present (done : List (List Text)) {oid : Oid} (file : disk.fileOid path = some oid) (present : files path = some oid)
    (alone : ∀ other, other ≠ path → (path <+: other ∨ other <+: path) → files other = none) :
    compared disk (done ++ [path]) files = compared disk done files := by
  rw [compared_file file]
  funext other
  simp only [PathMap.set]
  split
  next same =>
    rw [same]
    by_cases member : path ∈ done
    · simp [compared, member, file, isFile_iff Oid]
    · simp [compared, member, not_givesWay_of_file file member, present]
  next different =>
    split
    next comparable =>
      have noFile : (disk.fileOid other : Option Oid) = none := by
        rcases otherFile : disk.fileOid other with _ | otherOid
        · rfl
        · exact absurd (eq_of_files otherFile file comparable) different
      simp [compared, noFile, alone other different comparable.symm, isFile_iff Oid]
    next => rfl

theorem compared_absent (done : List (List Text)) (missing : disk.node path = none)
    (absent : ∀ other, path <+: other → files other = none) :
    compared disk (done ++ [path]) files = compared disk done files := by
  rw [compared_missing missing]
  funext other
  simp only [PathMap.delete]
  split
  next inside =>
    have noFile : (disk.fileOid other : Option Oid) = none := fileOid_below_missing missing inside
    simp [compared, noFile, absent other inside, isFile_iff Oid]
  next => rfl

end Compared

end LoginomDock.Git
