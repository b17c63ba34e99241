import LoginomDock.Git.TreeSemantics

namespace LoginomDock.Git

open List PathMap Text

variable {Oid : Type} [DecidableEq Oid] [ObjectHash Oid]

def treeFiles (objects : Objects Oid) (oid : Oid) : PathMap Text Oid := fileMap (storedLeaves objects oid)

def listedFiles (files : List (Text × Oid)) : PathMap Text Oid := fun parts =>
  if IsPath parts then (files.find? fun file => file.1 = joined parts).map Prod.snd else none

def Enumerates (objects : Objects Oid) (above : List Text) (oid : Oid) (files : List (Text × Oid)) : Prop :=
  ∀ path leaf, (path, leaf) ∈ files ↔
    ∃ parts, path = joined (above ++ parts) ∧ treeFiles objects oid parts = some leaf

def Drains (repo : Repository Oid) (pending files : List (Text × Oid)) : Prop :=
  ∃ bound, ∀ fuel stack result,
    (flattenLoop none (fuel + bound) (pending ++ stack) result).exec repo =
      (flattenLoop none fuel stack (result ++ files)).exec repo

theorem Drains.nil (repo : Repository Oid) : Drains repo [] [] := ⟨0, by simp⟩

theorem Drains.append {repo : Repository Oid} {first second files more : List (Text × Oid)}
    (left : Drains repo first files) (right : Drains repo second more) :
    Drains repo (first ++ second) (files ++ more) := by
  obtain ⟨boundLeft, left⟩ := left
  obtain ⟨boundRight, right⟩ := right
  refine ⟨boundRight + boundLeft, ?_⟩
  intro fuel stack result
  rw [← Nat.add_assoc, append_assoc, left, right, append_assoc]

variable {oid : Oid}

theorem isPath_of_storedLeaves {objects : Objects Oid} (stored : TreeStored objects oid)
    {parts : List Text} {entry : TreeEntry Oid} (found : storedLeaves objects oid parts = some entry) :
    IsPath parts := by
  induction parts generalizing oid with
  | nil => cases found
  | cons name rest ih =>
    simp only [storedLeaves] at found
    split at found
    · cases found
    next source present =>
      have isName := (stored.lookup_named present).2
      refine ⟨by simp, ?_⟩
      intro part member
      rcases mem_cons.mp member with rfl | later
      · exact isName
      · split at found
        next isTree => exact (ih (stored.lookup_tree present isTree) found).2 part later
        next =>
          split at found
          next last => simp [last] at later
          next => cases found

theorem entryPath_joined {above : List Text} {name : Text} (valid : above = [] ∨ IsPath above) :
    entryPath (joined above) name = joined (above ++ [name]) := by
  rcases valid with rfl | valid
  · simp [entryPath, joined]
  · have nonempty : joined above ≠ [] := by
      obtain ⟨first, rest, rfl⟩ := exists_cons_of_ne_nil valid.1
      have isName := (valid.2 first (by simp)).1
      by_cases last : rest = []
      · simpa [last] using isName
      · simp [joined_cons last]
    rw [entryPath, if_neg nonempty, joined_append valid.1 (by simp)]
    simp

def fileOf (above : Text) (entry : TreeEntry Oid) : Text × Oid := (entryPath above entry.filename, entry.oid)

theorem foldl_visitEntry (above : Text) (entries : List (TreeEntry Oid)) (stack result : List (Text × Oid)) :
    entries.foldl (visitEntry none above) (stack, result) =
      (((entries.filter TreeEntry.isTree).map (fileOf above)).reverse ++ stack,
        result ++ (entries.filter fun entry => !entry.isTree).map (fileOf above)) := by
  induction entries generalizing stack result with
  | nil => simp
  | cons entry rest ih =>
    rw [foldl_cons]
    by_cases isTree : entry.isTree <;>
      simp [visitEntry, isTree, shouldDescend, shouldInclude, ih, fileOf]

variable {repo : Repository Oid}

theorem drains_map {above : List Text} (valid : above = [] ∨ IsPath above)
    (entries : List (TreeEntry Oid))
    (each : ∀ entry ∈ entries, ∃ files, Enumerates repo.objects (above ++ [entry.filename]) entry.oid files ∧
      Drains repo [(joined (above ++ [entry.filename]), entry.oid)] files) :
    ∃ files, Drains repo (entries.map (fileOf (joined above))) files ∧
      ∀ path leaf, (path, leaf) ∈ files ↔ ∃ entry ∈ entries, ∃ parts,
        path = joined (above ++ entry.filename :: parts) ∧
          treeFiles repo.objects entry.oid parts = some leaf := by
  induction entries with
  | nil => exact ⟨[], .nil repo, by simp⟩
  | cons entry rest ih =>
    obtain ⟨first, enumerates, drainsFirst⟩ := each entry (by simp)
    obtain ⟨later, drainsLater, membership⟩ := ih fun other member => each other (by simp [member])
    refine ⟨first ++ later, ?_, ?_⟩
    · rw [map_cons, fileOf, entryPath_joined valid, ← singleton_append]
      exact drainsFirst.append drainsLater
    · intro path leaf
      rw [mem_append, enumerates path leaf, membership path leaf]
      simp

theorem drains_tree (stored : TreeStored repo.objects oid)
    (above : List Text) (valid : above = [] ∨ IsPath above) :
    ∃ files, Enumerates repo.objects above oid files ∧ Drains repo [(joined above, oid)] files := by
  induction stored generalizing above with
  | intro oid entries found wellFormed below ih =>
    have subtrees := drains_map valid (entries.filter TreeEntry.isTree).reverse (by
      intro entry member
      obtain ⟨inside, isTree⟩ := mem_filter.mp (mem_reverse.mp member)
      apply ih entry inside isTree
      right
      refine ⟨by simp, ?_⟩
      intro part inner
      rcases mem_append.mp inner with higher | last
      · rcases valid with rfl | path
        · simp at higher
        · exact path.2 part higher
      · rw [mem_singleton.mp last]
        exact wellFormed.names entry inside)
    obtain ⟨deeper, ⟨bound, drains⟩, membership⟩ := subtrees
    refine ⟨(entries.filter fun entry => !entry.isTree).map (fileOf (joined above)) ++ deeper, ?_,
      bound + 1, ?_⟩
    · intro path leaf
      rw [mem_append, membership path leaf]
      have lookup := TreeStored.lookup_iff found wellFormed
      constructor
      · rintro (file | ⟨entry, member, parts, rfl, inside⟩)
        · obtain ⟨entry, member, same⟩ := mem_map.mp file
          obtain ⟨inside, notTree⟩ := mem_filter.mp member
          rw [fileOf, entryPath_joined valid, Prod.mk.injEq] at same
          refine ⟨[entry.filename], same.1.symm, ?_⟩
          have present := (lookup entry.filename entry).mpr ⟨inside, rfl⟩
          have leafEntry : entry.isTree = false := by simpa using notTree
          simp [treeFiles, fileMap, mapValues, storedLeaves, present, leafEntry, same.2]
        · obtain ⟨listed, isTree⟩ := mem_filter.mp (mem_reverse.mp member)
          refine ⟨entry.filename :: parts, rfl, ?_⟩
          have present := (lookup entry.filename entry).mpr ⟨listed, rfl⟩
          simpa [treeFiles, fileMap, mapValues, storedLeaves, present, isTree] using inside
      · rintro ⟨parts, rfl, inside⟩
        cases parts with
        | nil => simp [treeFiles, fileMap, mapValues, storedLeaves] at inside
        | cons name rest =>
          simp only [treeFiles, fileMap, mapValues, storedLeaves] at inside
          rcases present : (storedEntries repo.objects oid).lookup name with _ | entry
          · simp [present] at inside
          · obtain ⟨listed, rfl⟩ := (lookup name entry).mp present
            by_cases isTree : entry.isTree
            · right
              refine ⟨entry, mem_reverse.mpr (mem_filter.mpr ⟨listed, isTree⟩), rest, rfl, ?_⟩
              simpa [present, isTree, treeFiles, fileMap, mapValues] using inside
            · left
              by_cases last : rest = []
              · subst last
                refine mem_map.mpr ⟨entry, mem_filter.mpr ⟨listed, by simp [isTree]⟩, ?_⟩
                simp only [present, isTree, Bool.false_eq_true, if_false, if_true, Option.map_some,
                  Option.some.injEq] at inside
                rw [fileOf, entryPath_joined valid, inside]
              · simp [present, isTree, last] at inside
    · intro fuel stack result
      rw [singleton_append, ← Nat.add_assoc, flattenLoop, GitM.exec_bind_ok (exec_loadTree found)]
      simp only [foldl_visitEntry]
      rw [← map_reverse, drains, append_assoc]

theorem exec_flatten (stored : TreeStored repo.objects oid) :
    ∃ bound files, (∀ fuel, bound ≤ fuel → (flatten fuel oid none).exec repo = (.ok files, repo)) ∧
      Enumerates repo.objects [] oid files := by
  obtain ⟨files, enumerates, bound, drains⟩ := drains_tree stored [] (.inl rfl)
  refine ⟨bound, files.insertionSort fun first second => first.1 ≤ second.1, ?_, ?_⟩
  · intro fuel enough
    have run := drains (fuel - bound) [] []
    rw [Nat.sub_add_cancel enough] at run
    have ending : (flattenLoop none (fuel - bound) [] ([] ++ files)).exec repo = (.ok files, repo) := by
      cases fuel - bound <;> rfl
    have whole : (flattenLoop none fuel [([], oid)] []).exec repo = (.ok files, repo) := run.trans ending
    rw [flatten, GitM.exec_bind_ok whole]
    rfl
  · intro path leaf
    rw [mem_insertionSort]
    exact enumerates path leaf

theorem listedFiles_eq {objects : Objects Oid} (stored : TreeStored objects oid)
    {files : List (Text × Oid)} (enumerates : Enumerates objects [] oid files) :
    listedFiles files = treeFiles objects oid := by
  have isPath : ∀ parts leaf, treeFiles objects oid parts = some leaf → IsPath parts := by
    intro parts leaf found
    obtain ⟨entry, present, -⟩ := Option.map_eq_some_iff.mp found
    exact isPath_of_storedLeaves stored present
  funext parts
  by_cases valid : IsPath parts
  · simp only [listedFiles, valid, if_true]
    rcases found : treeFiles objects oid parts with _ | leaf
    · have missing : files.find? (fun file => file.1 = joined parts) = none := by
        rw [find?_eq_none]
        rintro ⟨path, leaf⟩ member same
        obtain ⟨other, rfl, present⟩ := (enumerates path leaf).mp member
        have equal := joined_injective (isPath other leaf present) valid (by simpa using same)
        rw [equal, found] at present
        cases present
      rw [missing]
      rfl
    · have member : (joined parts, leaf) ∈ files :=
        (enumerates _ _).mpr ⟨parts, rfl, found⟩
      rcases located : files.find? (fun file => file.1 = joined parts) with _ | ⟨path, other⟩
      · rw [find?_eq_none] at located
        exact absurd (by simp) (located _ member)
      · have same : path = joined parts := by simpa using find?_some located
        obtain ⟨source, joined, present⟩ := (enumerates path other).mp (mem_of_find?_eq_some located)
        have equal := joined_injective (isPath source other present) valid
          (by rw [← same, joined, nil_append])
        rw [equal, found] at present
        rw [located]
        exact present.symm
  · rcases found : treeFiles objects oid parts with _ | leaf
    · simp [listedFiles, valid]
    · exact absurd (isPath parts leaf found) valid

end LoginomDock.Git
