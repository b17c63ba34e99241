import LoginomDock.VectorIndex.HeldRows
import LoginomDock.VectorIndex.TrieBindings

/-! A path field finds the rows under a prefix through its directory index, which only knows the keys that were added
before a deletion named them. -/

namespace LoginomDock.VectorIndex

open List

inductive PathCall where
  | addFieldData (fieldStr : Text) (offset : Nat)
  | deleteFieldData (fieldStr : Text) (offset : Nat)

namespace FieldBitmapGroup

def call (group : FieldBitmapGroup) : PathCall → FieldBitmapGroup
  | .addFieldData fieldStr offset => group.addString fieldStr offset
  | .deleteFieldData fieldStr offset => group.deleteString fieldStr offset

def pathField (calls : List PathCall) : FieldBitmapGroup := calls.foldl call (create .dir)

def rowsUnder (group : FieldBitmapGroup) (pathPrefix : Text) (depth : Int) : Bitmap :=
  FieldBitmapGroupSet.unionAll
    (((group.dirIndex.map fun trie => trie.getMergedBitmaps pathPrefix depth).getD []).filterMap group.getBitmap)

end FieldBitmapGroup

def pathKeys (fieldStr : Text) : List Text := (splitKeys fieldStr).map normalizePathKey

def pathRows (fieldStr : Text) (offset : Nat) : Finset (Text × Nat) := ((pathKeys fieldStr).map fun key => (key, offset)).toFinset

def PathCall.apply (rows : Finset (Text × Nat)) : PathCall → Finset (Text × Nat)
  | .addFieldData fieldStr offset => rows ∪ pathRows fieldStr offset
  | .deleteFieldData fieldStr offset => rows \ pathRows fieldStr offset

def heldPaths (calls : List PathCall) : Finset (Text × Nat) := calls.foldl PathCall.apply ∅

-- The keys by their first call, where a deletion only counts below the size
structure Mentions where
  size : Nat := 0
  added : List Text := []
  deleted : List Text := []

namespace Mentions

def add (mentions : Mentions) (key : Text) : Mentions :=
  if key ∈ mentions.deleted then mentions else { mentions with added := key :: mentions.added }

def delete (mentions : Mentions) (key : Text) : Mentions :=
  if key ∈ mentions.added then mentions else { mentions with deleted := key :: mentions.deleted }

def call (mentions : Mentions) : PathCall → Mentions
  | .addFieldData fieldStr offset =>
    { (pathKeys fieldStr).foldl add mentions with size := max (offset + 1) mentions.size }
  | .deleteFieldData fieldStr offset =>
    if mentions.size ≤ offset then mentions else (pathKeys fieldStr).foldl delete mentions

def of (calls : List PathCall) : Mentions := calls.foldl call {}

end Mentions

-- The segments of the path are those of the prefix and no more than that many others; -1 is any number.
def Under (pathPrefix : Text) (depth : Int) (path : Text) : Prop :=
  splitPath pathPrefix <+: splitPath path ∧
    (depth = -1 ∨ ((splitPath path).length : Int) ≤ (splitPath pathPrefix).length + depth)

namespace FieldBitmapGroup

variable {group : FieldBitmapGroup} {mentions : Mentions}

structure Indexes (group : FieldBitmapGroup) (mentions : Mentions) : Prop where
  trie : ∃ trie, group.dirIndex = some trie ∧ trie.WellFormed ∧
    ∀ path key, trie.Bound path key ↔ key ∈ mentions.added ∧ path = splitPath key
  known : ∀ key, (group.getBitmap key).isSome ↔ key ∈ mentions.added ∨ key ∈ mentions.deleted

theorem indexes_create : (create .dir).Indexes {} := by
  constructor
  · refine ⟨.root, rfl, TrieNode.wellFormed_root, ?_⟩
    intro path key
    simp [TrieNode.not_bound_root]
  · intro key
    simp [create, getBitmap]

theorem Indexes.keyOf (indexes : group.Indexes mentions) (key : Text) : group.keyOf key = normalizePathKey key := by
  obtain ⟨trie, some', -⟩ := indexes.trie
  rw [FieldBitmapGroup.keyOf, some']
  rfl

theorem Indexes.resize (indexes : group.Indexes mentions) (size : Nat) :
    { group with elementSize := size }.Indexes { mentions with size := size } := ⟨indexes.trie, indexes.known⟩

theorem isSome_getBitmap_insert {after : FieldBitmapGroup} {key : Text} {bits : Bitmap}
    (inserted : after.bitmapGroup = group.bitmapGroup.insert key bits) (other : Text) :
    (after.getBitmap other).isSome ↔ other = key ∨ (group.getBitmap other).isSome := by
  rw [getBitmap, inserted, Table.lookup_insert_if]
  split
  next same => simp [same]
  next different => simp [different, getBitmap]

section

variable (indexes : group.Indexes mentions) (offset : Nat)

include indexes offset

theorem Indexes.setBit (key : Text) :
    (setBit offset group key).Indexes (mentions.add (normalizePathKey key)) := by
  obtain ⟨trie, some', wellFormed, bound⟩ := indexes.trie
  have keyOf := indexes.keyOf key
  have known := indexes.known (normalizePathKey key)
  have bitmaps : ∀ other, ((FieldBitmapGroup.setBit offset group key).getBitmap other).isSome ↔
      other = normalizePathKey key ∨ (group.getBitmap other).isSome := keyOf ▸ isSome_getBitmap_insert rfl
  constructor
  · rw [FieldBitmapGroup.setBit, keyOf]
    simp only [some', Option.map_some]
    by_cases isKnown : (group.getBitmap (normalizePathKey key)).isSome
    · refine ⟨trie, if_pos isKnown, wellFormed, ?_⟩
      intro path other
      rw [bound, Mentions.add]
      split
      · rfl
      next fresh =>
        have old := (known.mp isKnown).resolve_right fresh
        simp only [mem_cons]
        constructor
        · rintro ⟨member, rfl⟩
          exact ⟨.inr member, rfl⟩
        · rintro ⟨rfl | member, rfl⟩
          · exact ⟨old, rfl⟩
          · exact ⟨member, rfl⟩
    · have fresh : normalizePathKey key ∉ mentions.deleted := fun member => isKnown (known.mpr (.inr member))
      refine ⟨trie.addKey (normalizePathKey key), if_neg isKnown, wellFormed.addAt _ _, ?_⟩
      intro path other
      rw [TrieNode.addKey, wellFormed.bound_addAt, bound, Mentions.add, if_neg fresh, mem_cons]
      constructor
      · rintro (⟨member, rfl⟩ | ⟨rfl, rfl⟩)
        · exact ⟨.inr member, rfl⟩
        · exact ⟨.inl rfl, rfl⟩
      · rintro ⟨rfl | member, rfl⟩
        · exact .inr ⟨rfl, rfl⟩
        · exact .inl ⟨member, rfl⟩
  · intro other
    rw [bitmaps, indexes.known, Mentions.add]
    split
    next old =>
      constructor
      · rintro (rfl | member)
        · exact .inr old
        · exact member
      · exact .inr
    next => rw [mem_cons, or_assoc]

theorem Indexes.unsetBit (key : Text) :
    (unsetBit offset group key).Indexes (mentions.delete (normalizePathKey key)) := by
  obtain ⟨trie, some', wellFormed, bound⟩ := indexes.trie
  have keyOf := indexes.keyOf key
  have bitmaps : ∀ other, ((FieldBitmapGroup.unsetBit offset group key).getBitmap other).isSome ↔
      other = normalizePathKey key ∨ (group.getBitmap other).isSome := keyOf ▸ isSome_getBitmap_insert rfl
  constructor
  · refine ⟨trie, some', wellFormed, ?_⟩
    intro path other
    rw [bound, Mentions.delete]
    split <;> rfl
  · intro other
    rw [bitmaps, indexes.known, Mentions.delete]
    split
    next old =>
      constructor
      · rintro (rfl | member)
        · exact .inl old
        · exact member
      · exact .inr
    next => rw [mem_cons, or_left_comm]

theorem Indexes.foldl_setBit (keys : List Text) :
    (keys.foldl (FieldBitmapGroup.setBit offset) group).Indexes ((keys.map normalizePathKey).foldl Mentions.add mentions) := by
  induction keys generalizing group mentions with
  | nil => exact indexes
  | cons key rest ih => exact ih (indexes.setBit offset key)

theorem Indexes.foldl_unsetBit (keys : List Text) :
    (keys.foldl (FieldBitmapGroup.unsetBit offset) group).Indexes ((keys.map normalizePathKey).foldl Mentions.delete mentions) := by
  induction keys generalizing group mentions with
  | nil => exact indexes
  | cons key rest ih => exact ih (indexes.unsetBit offset key)

end

theorem size_foldl_delete (keys : List Text) (mentions : Mentions) : (keys.foldl Mentions.delete mentions).size = mentions.size := by
  induction keys generalizing mentions with
  | nil => rfl
  | cons key rest ih =>
    rw [foldl_cons, ih, Mentions.delete]
    split <;> rfl

-- The group after the calls, beside what the calls say
structure Follows (group : FieldBitmapGroup) (rows : Finset (Text × Nat)) (mentions : Mentions) : Prop where
  indexes : group.Indexes mentions
  bits : ∀ key offset, offset ∈ group.editableBitmap key ↔ (key, offset) ∈ rows
  size : group.elementSize = mentions.size
  inside : ∀ key offset, (key, offset) ∈ rows → offset < mentions.size

theorem mem_pathRows {fieldStr key : Text} {offset other : Nat} :
    (key, other) ∈ pathRows fieldStr offset ↔ other = offset ∧ key ∈ pathKeys fieldStr := by
  simp only [pathRows, mem_toFinset, mem_map, Prod.mk.injEq]
  constructor
  · rintro ⟨_, member, rfl, rfl⟩
    exact ⟨rfl, member⟩
  · rintro ⟨rfl, member⟩
    exact ⟨key, member, rfl, rfl⟩

theorem follows_create : (create .dir).Follows ∅ {} where
  indexes := indexes_create
  bits := by simp [create, editableBitmap, getBitmap]
  size := rfl
  inside := by simp

theorem Follows.call {rows : Finset (Text × Nat)} (follows : group.Follows rows mentions) (pathCall : PathCall) :
    (group.call pathCall).Follows (pathCall.apply rows) (mentions.call pathCall) := by
  have keyOf : group.keyOf = normalizePathKey := funext follows.indexes.keyOf
  cases pathCall with
  | addFieldData fieldStr offset =>
    obtain ⟨shape, bits⟩ := FieldBitmapGroup.foldl_setBit offset (splitKeys fieldStr) group
    have size : (group.addString fieldStr offset).elementSize = max (offset + 1) mentions.size :=
      congrArg (max (offset + 1)) follows.size
    constructor
    · have added := (follows.indexes.foldl_setBit offset (splitKeys fieldStr)).resize (max (offset + 1) mentions.size)
      rw [← size] at added
      rw [Mentions.call, ← size]
      exact added
    · intro key other
      rw [PathCall.apply, Finset.mem_union, ← follows.bits, mem_pathRows, pathKeys, ← keyOf]
      exact bits key other
    · exact size
    · intro key other member
      rw [PathCall.apply, Finset.mem_union, mem_pathRows] at member
      rw [Mentions.call]
      rcases member with old | ⟨rfl, -⟩
      · have := follows.inside key other old
        simp only
        omega
      · simp only
        omega
  | deleteFieldData fieldStr offset =>
    rw [FieldBitmapGroup.call, FieldBitmapGroup.deleteString, Mentions.call, follows.size]
    have unheld : ∀ key other, (key, other) ∈ PathCall.apply rows (.deleteFieldData fieldStr offset) ↔
        (key, other) ∈ rows ∧ ¬ (other = offset ∧ key ∈ pathKeys fieldStr) := by
      intro key other
      rw [PathCall.apply, Finset.mem_sdiff, mem_pathRows]
    split
    next outside =>
      refine ⟨follows.indexes, ?_, follows.size, ?_⟩
      · intro key other
        rw [unheld, follows.bits]
        constructor
        · intro held
          have := follows.inside key other held
          refine ⟨held, ?_⟩
          rintro ⟨rfl, -⟩
          omega
        · exact And.left
      · intro key other member
        exact follows.inside key other ((unheld key other).mp member).1
    next =>
      obtain ⟨shape, bits⟩ := FieldBitmapGroup.foldl_unsetBit offset (splitKeys fieldStr) group
      constructor
      · exact follows.indexes.foldl_unsetBit offset (splitKeys fieldStr)
      · intro key other
        rw [unheld, bits, follows.bits, pathKeys, keyOf]
      · rw [shape.size, size_foldl_delete, follows.size]
      · intro key other member
        rw [size_foldl_delete]
        exact follows.inside key other ((unheld key other).mp member).1

theorem follows_pathField (calls : List PathCall) : (pathField calls).Follows (heldPaths calls) (Mentions.of calls) := by
  have run : ∀ (calls : List PathCall) {group : FieldBitmapGroup} {rows : Finset (Text × Nat)} {mentions : Mentions},
      group.Follows rows mentions →
        (calls.foldl FieldBitmapGroup.call group).Follows (calls.foldl PathCall.apply rows) (calls.foldl Mentions.call mentions) := by
    intro calls
    induction calls with
    | nil => exact id
    | cons pathCall rest ih => exact fun follows => ih (follows.call pathCall)
  exact run calls follows_create

theorem mem_unionAll (bitmaps : List Bitmap) (offset : Nat) :
    offset ∈ FieldBitmapGroupSet.unionAll bitmaps ↔ ∃ bitmap ∈ bitmaps, offset ∈ bitmap := by
  induction bitmaps with
  | nil => simp [FieldBitmapGroupSet.unionAll]
  | cons bitmap rest ih =>
    rw [FieldBitmapGroupSet.unionAll, foldr_cons, Finset.mem_union, ← FieldBitmapGroupSet.unionAll, ih]
    simp

theorem Follows.mem_rowsUnder {rows : Finset (Text × Nat)} (follows : group.Follows rows mentions) (pathPrefix : Text) {depth : Int}
    (valid : -1 ≤ depth) (offset : Nat) : offset ∈ group.rowsUnder pathPrefix depth ↔
      ∃ key ∈ mentions.added, (key, offset) ∈ rows ∧ Under pathPrefix depth key := by
  obtain ⟨trie, some', wellFormed, bound⟩ := follows.indexes.trie
  have merged : ∀ key, key ∈ trie.getMergedBitmaps pathPrefix depth ↔ key ∈ mentions.added ∧ Under pathPrefix depth key := by
    intro key
    simp only [wellFormed.mem_getMergedBitmaps, bound]
    constructor
    · rintro ⟨path, ⟨added, spelled⟩, within⟩
      refine ⟨added, ⟨path, spelled⟩, ?_⟩
      rw [← spelled, List.length_append]
      rcases within with rfl | within
      · simp only [length_nil]
        omega
      · omega
    · rintro ⟨added, ⟨path, spelled⟩, within⟩
      refine ⟨path, ⟨added, spelled⟩, .inr ?_⟩
      rw [← spelled, List.length_append] at within
      omega
  have held : ∀ key, (∃ bits, group.getBitmap key = some bits ∧ offset ∈ bits) ↔ (key, offset) ∈ rows := by
    intro key
    rw [← follows.bits, editableBitmap]
    cases group.getBitmap key <;> simp
  rw [rowsUnder, some', Option.map_some, Option.getD_some, mem_unionAll]
  simp only [mem_filterMap]
  constructor
  · rintro ⟨bits, ⟨key, member, isBits⟩, inside⟩
    obtain ⟨added, under⟩ := (merged key).mp member
    exact ⟨key, added, (held key).mp ⟨bits, isBits, inside⟩, under⟩
  · rintro ⟨key, added, isHeld, under⟩
    obtain ⟨bits, isBits, inside⟩ := (held key).mpr isHeld
    exact ⟨bits, ⟨key, (merged key).mpr ⟨added, under⟩, isBits⟩, inside⟩

theorem path_rows_found_iff (calls : List PathCall) :
    (∀ pathPrefix depth, -1 ≤ depth → ∀ offset, offset ∈ (pathField calls).rowsUnder pathPrefix depth ↔
      ∃ key, (key, offset) ∈ heldPaths calls ∧ Under pathPrefix depth key) ↔
    ∀ key offset, (key, offset) ∈ heldPaths calls →
      ∃ other ∈ (Mentions.of calls).added, splitPath other = splitPath key ∧ (other, offset) ∈ heldPaths calls := by
  have follows := follows_pathField calls
  constructor
  · intro found key offset held
    have under : Under key 0 key := ⟨prefix_rfl, .inr (by omega)⟩
    obtain ⟨other, added, held', ⟨start, within⟩⟩ := (follows.mem_rowsUnder key (by decide) offset).mp
      ((found key 0 (by decide) offset).mpr ⟨key, held, under⟩)
    have short := within.resolve_left (by decide)
    exact ⟨other, added, (start.eq_of_length_le (by omega)).symm, held'⟩
  · intro spelled pathPrefix depth valid offset
    rw [follows.mem_rowsUnder pathPrefix valid]
    constructor
    · rintro ⟨key, -, held, under⟩
      exact ⟨key, held, under⟩
    · rintro ⟨key, held, under⟩
      obtain ⟨other, added, same, held'⟩ := spelled key offset held
      refine ⟨other, added, held', ?_⟩
      rw [Under, same]
      exact under

def deletedFirst : List PathCall :=
  [.addFieldData "/x" 0, .deleteFieldData "/a" 0, .addFieldData "/a" 0]

theorem deleted_first_not_found :
    ¬ ∀ pathPrefix depth, -1 ≤ depth → ∀ offset, offset ∈ (pathField deletedFirst).rowsUnder pathPrefix depth ↔
      ∃ key, (key, offset) ∈ heldPaths deletedFirst ∧ Under pathPrefix depth key := by
  intro found
  have held : ("/a".toList, 0) ∈ heldPaths deletedFirst := by decide
  have under : Under "/a" (-1) "/a" := ⟨prefix_rfl, .inl rfl⟩
  have visible := (found "/a" (-1) (by decide) 0).mpr ⟨_, held, under⟩
  have none' : (pathField deletedFirst).rowsUnder "/a" (-1) = ∅ := by decide
  rw [none'] at visible
  cases visible

end FieldBitmapGroup

end LoginomDock.VectorIndex
