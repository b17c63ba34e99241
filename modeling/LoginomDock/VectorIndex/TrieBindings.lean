import Mathlib.Data.List.Nodup
import LoginomDock.VectorIndex.DirIndex

namespace LoginomDock.VectorIndex

open List

namespace TrieNode

inductive Bound : TrieNode → List Text → Text → Prop
  | here {segment : Text} {bound : List Text} {children : List TrieNode} {key : Text} (member : key ∈ bound) :
      Bound (node segment true bound children) [] key
  | under {segment : Text} {isLeaf : Bool} {bound : List Text} {children : List TrieNode} {child : TrieNode}
      {path : List Text} {key : Text} (member : child ∈ children) (below : Bound child path key) :
      Bound (node segment isLeaf bound children) (child.segment :: path) key

inductive WellFormed : TrieNode → Prop
  | intro {segment : Text} {isLeaf : Bool} {bound : List Text} {children : List TrieNode}
      (unbound : isLeaf = false → bound = []) (distinct : (children.map TrieNode.segment).Nodup)
      (each : ∀ child ∈ children, WellFormed child) : WellFormed (node segment isLeaf bound children)

theorem wellFormed_root : root.WellFormed := .intro (fun _ => rfl) .nil nofun

section Nodes

variable {name : Text} {isLeaf : Bool} {keys : List Text} {children : List TrieNode} {key : Text}

theorem bound_nil : (node name isLeaf keys children).Bound [] key ↔ isLeaf = true ∧ key ∈ keys := by
  constructor
  · intro bound
    cases bound with
    | here member => exact ⟨rfl, member⟩
  · rintro ⟨rfl, member⟩
    exact .here member

theorem bound_cons {step : Text} {path : List Text} : (node name isLeaf keys children).Bound (step :: path) key ↔
    ∃ child ∈ children, child.segment = step ∧ child.Bound path key := by
  constructor
  · intro bound
    cases bound with
    | under member below => exact ⟨_, member, rfl, below⟩
  · rintro ⟨child, member, rfl, below⟩
    exact .under member below

end Nodes

theorem not_bound_root (path : List Text) (key : Text) : ¬ root.Bound path key := by
  intro bound
  cases bound with
  | under member => exact absurd member not_mem_nil

theorem mem_bindLeafBitmap (bound : List Text) (key other : Text) :
    other ∈ bindLeafBitmap bound key ↔ other ∈ bound ∨ other = key := by
  rw [bindLeafBitmap]
  split
  next member =>
    constructor
    · exact .inl
    · rintro (old | rfl)
      · exact old
      · exact member
  next => simp

section Children

variable {name : Text} {change : TrieNode → TrieNode}

section

variable (segmentKept : ∀ child, (change child).segment = child.segment)

include segmentKept

theorem exists_updateChild {bound : TrieNode → Prop} {added : Prop}
    (changed : ∀ child, child.WellFormed → (bound (change child) ↔ bound child ∨ added)) (fresh : ¬ bound (node name false [] []))
    (other : Text) {children : List TrieNode} (each : ∀ child ∈ children, child.WellFormed) :
    (∃ child ∈ updateChild name change children, child.segment = other ∧ bound child) ↔
      (∃ child ∈ children, child.segment = other ∧ bound child) ∨ name = other ∧ added := by
  induction children with
  | nil =>
    have made : (change (node name false [] [])).segment = name := segmentKept _
    have empty : (node name false [] []).WellFormed := .intro (fun _ => rfl) .nil nofun
    simp only [updateChild, mem_singleton, exists_eq_left, made, changed _ empty, fresh, false_or]
    simp
  | cons child rest ih =>
    obtain ⟨head, tail⟩ := forall_mem_cons.mp each
    rw [updateChild]
    split
    next same =>
      simp only [mem_cons, exists_eq_or_imp, segmentKept, changed child head, same, and_or_left]
      exact or_right_comm
    next => simp only [mem_cons, exists_eq_or_imp, ih tail, or_assoc]

theorem map_segment_updateChild (children : List TrieNode) :
    (updateChild name change children).map segment =
      if name ∈ children.map segment then children.map segment else children.map segment ++ [name] := by
  induction children with
  | nil =>
    rw [updateChild, map_singleton, segmentKept]
    rfl
  | cons child rest ih =>
    rw [updateChild]
    split
    next same => simp [segmentKept, same]
    next different =>
      have other : name ≠ child.segment := fun same => different same.symm
      simp only [map_cons, ih, mem_cons, other, false_or]
      split <;> rfl

theorem nodup_updateChild {children : List TrieNode}
    (distinct : (children.map segment).Nodup) : ((updateChild name change children).map segment).Nodup := by
  rw [map_segment_updateChild segmentKept]
  split
  · exact distinct
  next absent =>
    apply nodup_append.mpr
    refine ⟨distinct, by simp, ?_⟩
    intro other member last single same
    rw [mem_singleton] at single
    rw [same, single] at member
    exact absent member

end

theorem wellFormed_updateChild (changed : ∀ child, child.WellFormed → (change child).WellFormed) {children : List TrieNode}
    (each : ∀ child ∈ children, child.WellFormed) : ∀ child ∈ updateChild name change children, child.WellFormed := by
  induction children with
  | nil =>
    intro child member
    rw [updateChild, mem_singleton] at member
    rw [member]
    exact changed _ (.intro (fun _ => rfl) .nil nofun)
  | cons first rest ih =>
    obtain ⟨head, tail⟩ := forall_mem_cons.mp each
    rw [updateChild]
    split
    · exact forall_mem_cons.mpr ⟨changed _ head, tail⟩
    · exact forall_mem_cons.mpr ⟨head, ih tail⟩

end Children

theorem segment_addAt (key : Text) (segments : List Text) (trie : TrieNode) : (addAt key segments trie).segment = trie.segment := by
  cases trie
  cases segments <;> rfl

variable {trie : TrieNode}

theorem WellFormed.addAt (wellFormed : trie.WellFormed) (key : Text) (segments : List Text) :
    (TrieNode.addAt key segments trie).WellFormed := by
  induction segments generalizing trie with
  | nil =>
    cases wellFormed with
    | intro unbound distinct each => exact .intro nofun distinct each
  | cons name rest ih =>
    cases wellFormed with
    | intro unbound distinct each =>
      exact .intro unbound (nodup_updateChild (segment_addAt key rest) distinct)
        (wellFormed_updateChild (fun _ => ih) each)

theorem WellFormed.bound_addAt (wellFormed : trie.WellFormed) (key other : Text) (segments path : List Text) :
    (TrieNode.addAt key segments trie).Bound path other ↔ trie.Bound path other ∨ path = segments ∧ other = key := by
  induction segments generalizing trie path with
  | nil =>
    cases wellFormed with
    | @intro name isLeaf keys children unbound distinct each =>
      cases path with
      | nil =>
        rw [TrieNode.addAt, bound_nil, bound_nil, mem_bindLeafBitmap]
        cases isLeaf with
        | false => simp [unbound rfl]
        | true => simp
      | cons step path =>
        rw [TrieNode.addAt, bound_cons, bound_cons]
        simp
  | cons name rest ih =>
    cases wellFormed with
    | intro unbound distinct each =>
      cases path with
      | nil =>
        rw [TrieNode.addAt, bound_nil, bound_nil]
        simp
      | cons step path =>
        have fresh : ¬ (node name false [] []).Bound path other := by
          cases path with
          | nil => simp [bound_nil]
          | cons step path => simp [bound_cons]
        rw [TrieNode.addAt, bound_cons, bound_cons,
          exists_updateChild (segment_addAt key rest) (fun _ wellFormed => ih wellFormed path) fresh step each]
        simp [eq_comm, and_assoc]

theorem exists_find_segment {children : List TrieNode} (distinct : (children.map segment).Nodup) (name : Text) (test : TrieNode → Prop) :
    (∃ child ∈ children, child.segment = name ∧ test child) ↔
      ∃ child, children.find? (fun child => child.segment = name) = some child ∧ test child := by
  constructor
  · rintro ⟨child, member, named, holds⟩
    have found : (children.find? fun child => decide (child.segment = name)).isSome := by
      rw [find?_isSome]
      exact ⟨child, member, by simpa using named⟩
    obtain ⟨first, isFirst⟩ := Option.isSome_iff_exists.mp found
    have firstNamed : first.segment = name := by simpa using find?_some isFirst
    have same : first = child :=
      inj_on_of_nodup_map distinct (mem_of_find?_eq_some isFirst) member (firstNamed.trans named.symm)
    exact ⟨first, isFirst, same ▸ holds⟩
  · rintro ⟨child, found, holds⟩
    exact ⟨child, mem_of_find?_eq_some found, by simpa using find?_some found, holds⟩

theorem WellFormed.findAt_spec (wellFormed : trie.WellFormed) (path : List Text) :
    (∀ found, findAt path trie = some found → found.WellFormed) ∧
      ∀ more key, trie.Bound (path ++ more) key ↔ ∃ found, findAt path trie = some found ∧ found.Bound more key := by
  induction path generalizing trie with
  | nil =>
    constructor
    · rintro found ⟨⟩
      exact wellFormed
    · intro more key
      simp [findAt]
  | cons name rest ih =>
    cases wellFormed with
    | @intro segment isLeaf keys children unbound distinct each =>
      constructor
      · intro found isFound
        obtain ⟨child, isChild, below⟩ := Option.bind_eq_some_iff.mp isFound
        exact (ih (each child (mem_of_find?_eq_some isChild))).1 found below
      · intro more key
        rw [cons_append, bound_cons, exists_find_segment distinct, findAt]
        cases isChild : children.find? (fun child => decide (child.segment = name)) with
        | none => simp
        | some child =>
          have below := (ih (each child (mem_of_find?_eq_some isChild))).2 more key
          simp [below]

theorem collectChildren_eq (maxDepth : Int) (currentDepth : Nat) (children : List TrieNode) :
    collectChildren maxDepth currentDepth children = children.flatMap (collectBitmaps maxDepth currentDepth) := by
  induction children with
  | nil => rfl
  | cons child rest ih => rw [collectChildren, ih, flatMap_cons]

theorem WellFormed.mem_collectBitmaps (wellFormed : trie.WellFormed) (maxDepth : Int) (currentDepth : Nat) (key : Text) :
    key ∈ collectBitmaps maxDepth currentDepth trie ↔
      ∃ path, trie.Bound path key ∧ (path = [] ∨ maxDepth = -1 ∨ (currentDepth + path.length : Int) ≤ maxDepth) := by
  induction wellFormed generalizing currentDepth with
  | @intro segment isLeaf keys children unbound distinct each ih =>
    rw [collectBitmaps, collectChildren_eq, mem_append]
    constructor
    · rintro (own | deeper)
      · split at own
        next leaf => exact ⟨[], bound_nil.mpr ⟨leaf, own⟩, .inl rfl⟩
        · exact absurd own not_mem_nil
      · split at deeper
        · exact absurd deeper not_mem_nil
        next reaches =>
          obtain ⟨child, member, collected⟩ := mem_flatMap.mp deeper
          obtain ⟨path, bound, within⟩ := (ih child member _).mp collected
          refine ⟨child.segment :: path, .under member bound, .inr ?_⟩
          rcases within with rfl | within
          · simp only [length_singleton]
            omega
          · simp only [length_cons]
            omega
    · rintro ⟨path, bound, within⟩
      cases path with
      | nil =>
        obtain ⟨leaf, own⟩ := bound_nil.mp bound
        rw [if_pos leaf]
        exact .inl own
      | cons step path =>
        obtain ⟨child, member, -, below⟩ := bound_cons.mp bound
        have within := within.resolve_left nofun
        rw [length_cons] at within
        right
        rw [if_neg (by omega)]
        refine mem_flatMap.mpr ⟨child, member, (ih child member _).mpr ⟨path, below, .inr ?_⟩⟩
        omega

theorem WellFormed.mem_getMergedBitmaps (wellFormed : trie.WellFormed) (pathPrefix : Text) (depth : Int)
    (key : Text) : key ∈ trie.getMergedBitmaps pathPrefix depth ↔
      ∃ path, trie.Bound (splitPath pathPrefix ++ path) key ∧ (path = [] ∨ depth = -1 ∨ (path.length : Int) ≤ depth) := by
  obtain ⟨shaped, below⟩ := wellFormed.findAt_spec (splitPath pathPrefix)
  simp only [below]
  rw [getMergedBitmaps, findNode]
  cases found : findAt (splitPath pathPrefix) trie with
  | none => simp
  | some start =>
    simp only [Option.some_inj, exists_eq_left', (shaped start found).mem_collectBitmaps, Int.ofNat_zero, Int.zero_add]

end TrieNode

end LoginomDock.VectorIndex
