import Mathlib.Data.List.Basic
import Mathlib.Data.List.Infix

/-! The calls of a file system on a tree: a path is resolved from the root one name at a time, and fails where a name is
missing or stands for a file. -/

namespace LoginomDock

open List

inductive FileTree (Name Content : Type) where
  | file (content : Content)
  | directory (entries : List (Name × FileTree Name Content))

inductive IoError where
  | notFound
  | notADirectory
  | isADirectory
  | alreadyExists
  | directoryNotEmpty
  | invalidInput
  | busy
  | failed
  deriving DecidableEq

namespace FileTree

variable {Name Content : Type} [DecidableEq Name]

def isDirectory : FileTree Name Content → Bool
  | .file _ => false
  | .directory _ => true

def setEntry (entries : List (Name × FileTree Name Content)) (name : Name) (node : Option (FileTree Name Content)) :
    List (Name × FileTree Name Content) :=
  (node.map fun node => (name, node)).toList ++ entries.filter (·.1 ≠ name)

def look : List Name → FileTree Name Content → Except IoError (FileTree Name Content)
  | [], node => .ok node
  | _ :: _, .file _ => .error .notADirectory
  | name :: rest, .directory entries =>
    match entries.lookup name with
    | none => .error .notFound
    | some child => look rest child

def modify (change : Option (FileTree Name Content) → Except IoError (Option (FileTree Name Content))) :
    List Name → FileTree Name Content → Except IoError (FileTree Name Content)
  | [], _ => .error .busy
  | _ :: _, .file _ => .error .notADirectory
  | name :: rest, .directory entries =>
    if rest = [] then (change (entries.lookup name)).map fun node => .directory (setEntry entries name node)
    else
      match entries.lookup name with
      | none => .error .notFound
      | some child => (modify change rest child).map fun changed => .directory (setEntry entries name (some changed))

def writeFile (content : Content) : List Name → FileTree Name Content → Except IoError (FileTree Name Content) :=
  modify fun
    | some (.directory _) => .error .isADirectory
    | _ => .ok (some (.file content))

-- The directories of a path, those that are missing made on the way
def makeDirs : List Name → FileTree Name Content → Except IoError (FileTree Name Content)
  | [], .directory entries => .ok (.directory entries)
  | [], .file _ => .error .alreadyExists
  | _ :: _, .file _ => .error .notADirectory
  | name :: rest, .directory entries =>
    (makeDirs rest ((entries.lookup name).getD (.directory []))).map fun child =>
      .directory (setEntry entries name (some child))

def takePlace (node : FileTree Name Content) : Option (FileTree Name Content) → Except IoError (Option (FileTree Name Content))
  | none => .ok (some node)
  | some (.file _) => if node.isDirectory then .error .notADirectory else .ok (some node)
  | some (.directory entries) =>
    if ¬ node.isDirectory then .error .isADirectory
    else if entries.isEmpty then .ok (some node) else .error .directoryNotEmpty

def rename (source target : List Name) (tree : FileTree Name Content) : Except IoError (FileTree Name Content) :=
  match look source tree with
  | .error error => .error error
  | .ok node =>
    if source = target then .ok tree
    else if source <+: target then .error .invalidInput
    else
      match modify (takePlace node) target tree with
      | .error error => .error error
      | .ok placed => modify (fun _ => .ok none) source placed

variable {tree after : FileTree Name Content} {path other : List Name}

theorem lookup_filter_ne (entries : List (Name × FileTree Name Content)) (name other : Name) :
    (entries.filter (·.1 ≠ name)).lookup other = if other = name then none else entries.lookup other := by
  induction entries with
  | nil => simp
  | cons entry rest ih =>
    obtain ⟨key, node⟩ := entry
    by_cases dropped : key = name
    · rw [filter_cons_of_neg (by simpa using dropped), ih]
      by_cases same : other = name
      · simp [same]
      · have differs : (other == key) = false := by simpa [dropped] using same
        simp [same, lookup_cons, differs]
    · rw [filter_cons_of_pos (by simpa using dropped), lookup_cons, lookup_cons, ih]
      by_cases here : other = key
      · have kept : other ≠ name := here ▸ dropped
        simp [here, dropped]
      · have differs : (other == key) = false := by simpa using here
        simp [differs]

@[simp] theorem lookup_setEntry (entries : List (Name × FileTree Name Content)) (name other : Name)
    (node : Option (FileTree Name Content)) :
    (setEntry entries name node).lookup other = if other = name then node else entries.lookup other := by
  cases node with
  | none => simpa [setEntry] using lookup_filter_ne entries name other
  | some node =>
    simp only [setEntry, Option.map_some, Option.toList_some, singleton_append, lookup_cons, lookup_filter_ne]
    by_cases same : other = name
    · simp [same]
    · have differs : (other == name) = false := by simpa using same
      simp [same, differs]

section Modify

variable {change : Option (FileTree Name Content) → Except IoError (Option (FileTree Name Content))}

theorem look_modify_apart (changed : modify change path tree = .ok after) (below : ¬ path <+: other) (above : ¬ other <+: path) :
    look other after = look other tree := by
  induction path generalizing tree after other with
  | nil => cases changed
  | cons name rest ih =>
    cases other with
    | nil => exact absurd (List.nil_prefix) above
    | cons first more =>
      cases tree with
      | file content => cases changed
      | directory entries =>
        rw [modify] at changed
        by_cases last : rest = []
        · rw [if_pos last] at changed
          have differs : first ≠ name := by
            rintro rfl
            exact below (by simp [last])
          cases made : change (entries.lookup name) with
          | error error => rw [made] at changed; cases changed
          | ok node =>
            rw [made] at changed
            cases changed
            simp [look, differs]
        · rw [if_neg last] at changed
          cases found : entries.lookup name with
          | none => rw [found] at changed; cases changed
          | some child =>
            simp only [found] at changed
            cases inner : modify change rest child with
            | error error => rw [inner] at changed; cases changed
            | ok node =>
              rw [inner] at changed
              cases changed
              by_cases same : first = name
              · subst same
                simp only [cons_prefix_cons, true_and] at below above
                simp [look, found, ih inner below above]
              · simp [look, same]

theorem look_modify (changed : modify change path tree = .ok after) :
    ∃ before slot, change before = .ok slot ∧ look path after = slot.elim (.error .notFound) .ok := by
  induction path generalizing tree after with
  | nil => cases changed
  | cons name rest ih =>
    cases tree with
    | file content => cases changed
    | directory entries =>
      rw [modify] at changed
      by_cases last : rest = []
      · rw [if_pos last] at changed
        cases made : change (entries.lookup name) with
        | error error => rw [made] at changed; cases changed
        | ok slot =>
          rw [made] at changed
          cases changed
          refine ⟨_, slot, made, ?_⟩
          cases slot <;> simp [look, last]
      · rw [if_neg last] at changed
        cases found : entries.lookup name with
        | none => rw [found] at changed; cases changed
        | some child =>
          simp only [found] at changed
          cases inner : modify change rest child with
          | error error => rw [inner] at changed; cases changed
          | ok node =>
            rw [inner] at changed
            cases changed
            obtain ⟨before, slot, made, shown⟩ := ih inner
            exact ⟨before, slot, made, by simp [look, shown]⟩

end Modify

theorem look_writeFile {content : Content} (written : writeFile content path tree = .ok after) :
    look path after = .ok (.file content) := by
  obtain ⟨before, slot, made, shown⟩ := look_modify written
  rw [shown]
  match before, made with
  | none, made => cases made; rfl
  | some (.file _), made => cases made; rfl

theorem look_makeDirs (made : makeDirs path tree = .ok after) (above : ¬ other <+: path) :
    look other after = look other tree := by
  induction path generalizing tree after other with
  | nil =>
    cases tree with
    | file content => cases made
    | directory entries => cases made; rfl
  | cons name rest ih =>
    cases other with
    | nil => exact absurd List.nil_prefix above
    | cons first more =>
      cases tree with
      | file content => cases made
      | directory entries =>
        rw [makeDirs] at made
        cases inner : makeDirs rest ((entries.lookup name).getD (.directory [])) with
        | error error => rw [inner] at made; cases made
        | ok child =>
          rw [inner] at made
          cases made
          by_cases same : first = name
          · subst same
            simp only [cons_prefix_cons, true_and] at above
            have below := ih inner above
            cases found : entries.lookup first with
            | some stands => simp [look, found, below]
            | none =>
              -- A new directory has nothing in it.
              have named : more ≠ [] := by
                rintro rfl
                exact above List.nil_prefix
              obtain ⟨next, last, rfl⟩ := exists_cons_of_ne_nil named
              simp [look, found, below]
          · simp [look, same]

theorem look_rename_apart {source target : List Name} (renamed : rename source target tree = .ok after)
    (belowSource : ¬ source <+: other) (aboveSource : ¬ other <+: source) (belowTarget : ¬ target <+: other)
    (aboveTarget : ¬ other <+: target) : look other after = look other tree := by
  rw [rename] at renamed
  cases found : look source tree with
  | error error => rw [found] at renamed; cases renamed
  | ok node =>
    simp only [found] at renamed
    by_cases same : source = target
    · rw [if_pos same] at renamed
      cases renamed
      rfl
    · rw [if_neg same] at renamed
      by_cases inside : source <+: target
      · rw [if_pos inside] at renamed
        cases renamed
      · rw [if_neg inside] at renamed
        cases placed : modify (takePlace node) target tree with
        | error error => rw [placed] at renamed; cases renamed
        | ok between =>
          simp only [placed] at renamed
          rw [look_modify_apart renamed belowSource aboveSource, look_modify_apart placed belowTarget aboveTarget]

theorem look_rename {source target : List Name} {node : FileTree Name Content} (renamed : rename source target tree = .ok after)
    (found : look source tree = .ok node) (aside : ¬ target <+: source ∨ source = target) : look target after = .ok node := by
  rw [rename] at renamed
  simp only [found] at renamed
  by_cases same : source = target
  · rw [if_pos same] at renamed
    cases renamed
    rw [← same, found]
  · rw [if_neg same] at renamed
    by_cases inside : source <+: target
    · rw [if_pos inside] at renamed
      cases renamed
    · rw [if_neg inside] at renamed
      have outside : ¬ target <+: source := aside.resolve_right same
      cases placed : modify (takePlace node) target tree with
      | error error => rw [placed] at renamed; cases renamed
      | ok between =>
        simp only [placed] at renamed
        rw [look_modify_apart renamed inside outside]
        obtain ⟨before, slot, made, shown⟩ := look_modify placed
        rw [shown]
        match before, made with
        | none, made => cases made; rfl
        | some (.file _), made =>
          rw [takePlace] at made
          split at made
          · cases made
          · cases made; rfl
        | some (.directory entries), made =>
          rw [takePlace] at made
          split at made
          · cases made
          · split at made
            · cases made; rfl
            · cases made

end FileTree

end LoginomDock
