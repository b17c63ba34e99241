import LoginomDock.CacheFs.CachedGrep

namespace LoginomDock.CacheFs

open List Bool

structure TreeEntry where
  path : Text
  relPath : Text
  info : FileInfo
  deriving DecidableEq

-- By code points, as the bytes of UTF-8 are ordered
def compareText : Text → Text → Ordering := List.compareLex fun first second => compare first.toNat second.toNat

section Order

variable (toLowercase : Text → Text)

def compareListingNames (first second : Text) : Ordering :=
  (compareText (toLowercase first) (toLowercase second)).then (compareText first second)

def compareEntries (first second : FileInfo) : Ordering :=
  (compare second.isDir first.isDir).then (compareListingNames toLowercase first.name second.name)

def sortDirectoryEntries (entries : List FileInfo) : List FileInfo :=
  entries.mergeSort fun first second => (compareEntries toLowercase first second).isLE

end Order

structure TreeQuery where
  basePath : Text
  toLowercase : Text → Text
  showHidden : Bool
  nodeLimit : Option Nat
  levelLimit : Option Nat

namespace TreeQuery

variable (query : TreeQuery)

def full (result : List TreeEntry) : Bool := query.nodeLimit.any fun limit => decide (limit ≤ result.length)

def tooDeep (currentPath : Text) : Bool :=
  query.levelLimit.any fun limit => decide (limit ≤ relativeDepth (relativeMatchFile query.basePath currentPath))

def skips (entry : FileInfo) : Bool := (!entry.isDir && entry.name.head? = some '.') && !query.showHidden

def treeEntry (currentPath : Text) (entry : FileInfo) : TreeEntry where
  path := entryPath currentPath entry.name
  relPath := relativeMatchFile query.basePath (entryPath currentPath entry.name)
  info := entry

end TreeQuery

section Plain

variable {ε : Type} (readDir : Text → Except ε (List FileInfo)) (query : TreeQuery)

def treeEntries (visit : Text → List TreeEntry → Option (Except ε (List TreeEntry))) (currentPath : Text) :
    List FileInfo → List TreeEntry → Option (Except ε (List TreeEntry))
  | [], result => some (.ok result)
  | entry :: rest, result =>
    if query.full result then some (.ok result)
    else if query.skips entry then treeEntries visit currentPath rest result
    else
      let pushed := result ++ [query.treeEntry currentPath entry]
      if entry.isDir then
        match visit (entryPath currentPath entry.name) pushed with
        | some (.ok next) => treeEntries visit currentPath rest next
        | answer => answer
      else treeEntries visit currentPath rest pushed

-- `fuel` bounds how deep the recursion goes.
def treeDirectoryInternal : Nat → Text → List TreeEntry → Option (Except ε (List TreeEntry))
  | 0, _, _ => none
  | fuel + 1, currentPath, result =>
    if query.full result then some (.ok result)
    else if query.tooDeep currentPath then some (.ok result)
    else
      match readDir currentPath with
      | .error error => some (.error error)
      | .ok entries =>
        treeEntries query (treeDirectoryInternal fuel) currentPath (sortDirectoryEntries query.toLowercase entries) result

end Plain

inductive TreeTask where
  | visitDir (path : Text)
  | emit (entry : TreeEntry)

section Cached

variable {σ ε : Type} (readDir : Text → StateM σ (Except ε (List FileInfo))) (query : TreeQuery)

def pushTasks (currentPath : Text) (entries : List FileInfo) (stack : List TreeTask) : List TreeTask :=
  entries.reverse.foldl
    (fun stack entry =>
      if query.skips entry then stack
      else
        let visiting := if entry.isDir then .visitDir (entryPath currentPath entry.name) :: stack else stack
        .emit (query.treeEntry currentPath entry) :: visiting)
    stack

-- `fuel` bounds how often the loop goes round.
def runTasks : Nat → List TreeTask → List TreeEntry → StateM σ (Option (Except ε (List TreeEntry)))
  | 0, _, _ => return none
  | _ + 1, [], result => return some (.ok result)
  | fuel + 1, task :: stack, result => do
      if query.full result then return some (.ok result)
      else
        match task with
        | .emit entry => runTasks fuel stack (result ++ [entry])
        | .visitDir currentPath =>
          if query.tooDeep currentPath then runTasks fuel stack result
          else
            match ← readDir currentPath with
            | .error error => return some (.error error)
            | .ok entries =>
              runTasks fuel (pushTasks query currentPath (sortDirectoryEntries query.toLowercase entries) stack) result

end Cached

structure TreeRequest where
  path : Text
  showHidden : Bool
  nodeLimit : Option Nat
  levelLimit : Option Nat

def TreeRequest.query (request : TreeRequest) (toLowercase : Text → Text) : TreeQuery where
  basePath := normalizePrefixPath request.path
  toLowercase := toLowercase
  showHidden := request.showHidden
  nodeLimit := request.nodeLimit
  levelLimit := request.levelLimit

def treeDirectory {ε : Type} (readDir : Text → Except ε (List FileInfo)) (toLowercase : Text → Text) (request : TreeRequest) (fuel : Nat) :
    Option (Except ε (List TreeEntry)) :=
  treeDirectoryInternal readDir (request.query toLowercase) fuel (normalizePrefixPath request.path) []

def treeDirectoryViaCache {σ ε : Type} (readDir : Text → StateM σ (Except ε (List FileInfo))) (toLowercase : Text → Text)
    (request : TreeRequest) (fuel : Nat) : StateM σ (Option (Except ε (List TreeEntry))) :=
  runTasks readDir (request.query toLowercase) fuel [.visitDir (normalizePrefixPath request.path)] []

inductive ListingTree {ε : Type} (readDir : Text → Except ε (List FileInfo)) (paths : Set Text) : Text → Prop where
  | failed (path : Text) (error : ε) (known : path ∈ paths) (fails : readDir path = .error error) : ListingTree readDir paths path
  | listed (path : Text) (entries : List FileInfo) (known : path ∈ paths) (lists : readDir path = .ok entries)
      (below : ∀ entry ∈ entries, entry.isDir = true → ListingTree readDir paths (entryPath path entry.name)) :
      ListingTree readDir paths path

section Agreement

variable {σ ε : Type} {cached : Text → StateM σ (Except ε (List FileInfo))} {plain : Text → Except ε (List FileInfo)}
  {query : TreeQuery} {paths : Set Text} {holds : σ → Prop} {stack : List TreeTask} {result : List TreeEntry}
  {final : Except ε (List TreeEntry)}

section

variable (cached : Text → StateM σ (Except ε (List FileInfo))) (query : TreeQuery) (holds : σ → Prop)

def EndsWith (stack : List TreeTask) (result : List TreeEntry) (final : Except ε (List TreeEntry)) : Prop :=
  ∃ bound, ∀ fuel, bound ≤ fuel → Ensures holds (runTasks cached query fuel stack result) fun answer state =>
    answer = some final ∧ holds state

def ThenEnds (stack : List TreeTask) : Except ε (List TreeEntry) → Except ε (List TreeEntry) → Prop
  | .error error, final => final = .error error
  | .ok next, final => EndsWith cached query holds stack next final

-- The plain listing gives an answer from some fuel on, and the tasks lead to where it leads.
def Agrees (plainly : Nat → Option (Except ε (List TreeEntry))) (tasks : List TreeTask → List TreeTask) (result : List TreeEntry) : Prop :=
  ∃ answer bound, (∀ fuel, bound ≤ fuel → plainly fuel = some answer) ∧
    ∀ stack final, ThenEnds cached query holds stack answer final → EndsWith cached query holds (tasks stack) result final

end

theorem endsWith_nil (result : List TreeEntry) : EndsWith cached query holds [] result (.ok result) := by
  refine ⟨1, fun fuel enough => ?_⟩
  obtain ⟨more, rfl⟩ := Nat.exists_eq_add_of_le' enough
  exact .pure fun state held => ⟨rfl, held⟩

theorem EndsWith.round {task : TreeTask}
    (step : ∃ bound, ∀ fuel, bound ≤ fuel →
      Ensures holds (runTasks cached query (fuel + 1) (task :: stack) result) fun answer state => answer = some final ∧ holds state) :
    EndsWith cached query holds (task :: stack) result final := by
  obtain ⟨bound, step⟩ := step
  refine ⟨bound + 1, fun fuel enough => ?_⟩
  obtain ⟨more, rfl⟩ := Nat.exists_eq_add_of_le' (Nat.le_trans (Nat.le_add_left 1 bound) enough)
  exact step more (by omega)

theorem EndsWith.at_limit (full : query.full result = true) (ends : EndsWith cached query holds stack result final)
    (other : List TreeTask) : EndsWith cached query holds other result final := by
  obtain ⟨bound, ends⟩ := ends
  have same : ∀ fuel stack, runTasks cached query (fuel + 1) stack result = return some (.ok result) := by
    intro fuel stack
    cases stack with
    | nil => rfl
    | cons task stack => simp only [runTasks, full, if_true]
  refine ⟨bound + 1, fun fuel enough => ?_⟩
  obtain ⟨more, rfl⟩ := Nat.exists_eq_add_of_le' (Nat.le_trans (Nat.le_add_left 1 bound) enough)
  rw [same more other, ← same more stack]
  exact ends _ (by omega)

theorem EndsWith.emit {entry : TreeEntry} (below : query.full result = false)
    (ends : EndsWith cached query holds stack (result ++ [entry]) final) :
    EndsWith cached query holds (.emit entry :: stack) result final := by
  obtain ⟨bound, ends⟩ := ends
  refine .round ⟨bound, fun fuel enough => ?_⟩
  simp only [runTasks, below, false_eq_true, if_false]
  exact ends fuel enough

theorem pushTasks_cons (currentPath : Text) (entry : FileInfo) (entries : List FileInfo) (stack : List TreeTask) :
    pushTasks query currentPath (entry :: entries) stack =
      if query.skips entry then pushTasks query currentPath entries stack
      else
        .emit (query.treeEntry currentPath entry) ::
          if entry.isDir then .visitDir (entryPath currentPath entry.name) :: pushTasks query currentPath entries stack
          else pushTasks query currentPath entries stack := by
  simp [pushTasks, foldl_reverse]

theorem entries_end (currentPath : Text) (entries : List FileInfo)
    (each : ∀ entry ∈ entries, entry.isDir = true → ∀ result, Agrees cached query holds
      (treeDirectoryInternal plain query · (entryPath currentPath entry.name) result) (.visitDir (entryPath currentPath entry.name) :: ·) result)
    (result : List TreeEntry) :
    Agrees cached query holds (fun fuel => treeEntries query (treeDirectoryInternal plain query fuel) currentPath entries result)
      (pushTasks query currentPath entries) result := by
  induction entries generalizing result with
  | nil => exact ⟨.ok result, 0, fun _ _ => rfl, fun stack final ends => ends⟩
  | cons entry rest ih =>
    have later := ih fun other member => each other (mem_cons_of_mem _ member)
    cases full : query.full result with
    | true =>
      refine ⟨.ok result, 0, fun fuel _ => by simp only [treeEntries, full, if_true], fun stack final ends => ?_⟩
      exact EndsWith.at_limit full ends _
    | false =>
      cases skips : query.skips entry with
      | true =>
        obtain ⟨answer, bound, plainly, goes⟩ := later result
        refine ⟨answer, bound, fun fuel enough => ?_, fun stack final ends => ?_⟩
        · simp only [treeEntries, full, skips, if_true, false_eq_true, if_false]
          exact plainly fuel enough
        · rw [pushTasks_cons, if_pos skips]
          exact goes stack final ends
      | false =>
        cases isDir : entry.isDir with
        | false =>
          obtain ⟨answer, bound, plainly, goes⟩ := later (result ++ [query.treeEntry currentPath entry])
          refine ⟨answer, bound, fun fuel enough => ?_, fun stack final ends => ?_⟩
          · simp only [treeEntries, full, skips, isDir, false_eq_true, if_false]
            exact plainly fuel enough
          · simp only [pushTasks_cons, skips, isDir, false_eq_true, if_false]
            exact .emit full (goes stack final ends)
        | true =>
          obtain ⟨first, bound, visits, descends⟩ :=
            each entry mem_cons_self isDir (result ++ [query.treeEntry currentPath entry])
          cases first with
          | error error =>
            refine ⟨.error error, bound, fun fuel enough => ?_, fun stack final ends => ?_⟩
            · simp only [treeEntries, full, skips, isDir, visits fuel enough, if_true, false_eq_true, if_false]
            · simp only [pushTasks_cons, skips, isDir, if_true, false_eq_true, if_false]
              exact .emit full (descends _ final ends)
          | ok next =>
            obtain ⟨answer, more, plainly, goes⟩ := later next
            refine ⟨answer, max bound more, fun fuel enough => ?_, fun stack final ends => ?_⟩
            · simp only [treeEntries, full, skips, isDir, visits fuel (by omega), if_true, false_eq_true, if_false]
              exact plainly fuel (by omega)
            · simp only [pushTasks_cons, skips, isDir, if_true, false_eq_true, if_false]
              exact .emit full (descends _ final (goes stack final ends))

theorem visit_enters (path : Text) (result : List TreeEntry)
    (enters : query.full result = false → query.tooDeep path = false →
      Agrees cached query holds (fun fuel => treeDirectoryInternal plain query (fuel + 1) path result) (.visitDir path :: ·) result) :
    Agrees cached query holds (treeDirectoryInternal plain query · path result) (.visitDir path :: ·) result := by
  have going : Agrees cached query holds (fun fuel => treeDirectoryInternal plain query (fuel + 1) path result) (.visitDir path :: ·)
      result := by
    cases full : query.full result with
    | true =>
      refine ⟨.ok result, 0, fun fuel _ => ?_, fun stack final ends => EndsWith.at_limit full ends _⟩
      simp only [treeDirectoryInternal, full, if_true]
    | false =>
      cases tooDeep : query.tooDeep path with
      | true =>
        refine ⟨.ok result, 0, fun fuel _ => ?_, fun stack final ends => ?_⟩
        · simp only [treeDirectoryInternal, full, tooDeep, if_true, false_eq_true, if_false]
        · obtain ⟨bound, ends⟩ := ends
          refine .round ⟨bound, fun fuel enough => ?_⟩
          simp only [runTasks, full, tooDeep, if_true, false_eq_true, if_false]
          exact ends fuel enough
      | false => exact enters full tooDeep
  obtain ⟨answer, bound, plainly, goes⟩ := going
  refine ⟨answer, bound + 1, fun fuel enough => ?_, goes⟩
  obtain ⟨more, rfl⟩ := Nat.exists_eq_add_of_le' (Nat.le_trans (Nat.le_add_left 1 bound) enough)
  exact plainly more (by omega)

section

variable (coherent : ∀ path ∈ paths, Ensures holds (cached path) fun answer state => answer = plain path ∧ holds state)

include coherent

theorem visit_ends {path : Text} (tree : ListingTree plain paths path) (result : List TreeEntry) :
    Agrees cached query holds (treeDirectoryInternal plain query · path result) (.visitDir path :: ·) result := by
  induction tree generalizing result with
  | failed path error known fails =>
    refine visit_enters path result fun full tooDeep => ⟨.error error, 0, fun fuel _ => ?_, fun stack final ends => ?_⟩
    · simp only [treeDirectoryInternal, full, tooDeep, fails, false_eq_true, if_false]
    · refine .round ⟨0, fun fuel _ => ?_⟩
      simp only [runTasks, full, tooDeep, false_eq_true, if_false]
      refine ensures_then (coherent path known) ?_
      rw [fails]
      exact .pure fun state held => ⟨congrArg some ends.symm, held⟩
  | listed path entries known lists below ih =>
    refine visit_enters path result fun full tooDeep => ?_
    obtain ⟨answer, bound, plainly, goes⟩ := entries_end path (sortDirectoryEntries query.toLowercase entries)
      (fun entry member isDir => ih entry (mem_mergeSort.mp member) isDir) result
    refine ⟨answer, bound, fun fuel enough => ?_, fun stack final ends => ?_⟩
    · simp only [treeDirectoryInternal, full, tooDeep, lists, false_eq_true, if_false]
      exact plainly fuel enough
    · obtain ⟨more, follows⟩ := goes stack final ends
      refine .round ⟨more, fun fuel enough => ?_⟩
      simp only [runTasks, full, tooDeep, false_eq_true, if_false]
      refine ensures_then (coherent path known) ?_
      rw [lists]
      exact follows fuel enough

end

end Agreement

theorem CachedFileSystem.readDir_coherent {σ ε : Type} (fs : CachedFileSystem σ ε) (bumps : Nat) (state : σ) :
    ∀ path ∈ { path | Normalised path ∧ fs.KeepsTimes path state },
      Ensures (fs.SoundOver bumps state) (fs.readDir path) fun answer world =>
        answer = fs.backend.readDir path state ∧ fs.SoundOver bumps state world :=
  fun _ known => readDir_ensures known.1 known.2

end LoginomDock.CacheFs
