import LoginomDock.VectorIndex.FieldGroups

namespace LoginomDock.VectorIndex

namespace FieldBitmapGroup

variable {group : FieldBitmapGroup}

-- What the bits of a group do not touch.
structure SameShape (group after : FieldBitmapGroup) : Prop where
  kind : after.kind = group.kind
  rangedmap : after.rangedmap = group.rangedmap
  dir : after.dirIndex.isSome = group.dirIndex.isSome
  size : after.elementSize = group.elementSize

theorem SameShape.keyOf {after : FieldBitmapGroup} (same : SameShape group after) : after.keyOf = group.keyOf := by
  funext key
  rw [FieldBitmapGroup.keyOf, FieldBitmapGroup.keyOf, same.dir]

theorem editableBitmap_insert (group after : FieldBitmapGroup) (key other : Text) (bits : Bitmap)
    (inserted : after.bitmapGroup = group.bitmapGroup.insert key bits) :
    after.editableBitmap other = if other = key then bits else group.editableBitmap other := by
  rw [editableBitmap, getBitmap, inserted, Table.lookup_insert_if]
  split <;> rfl

theorem setBit_shape (offset : Nat) (group : FieldBitmapGroup) (key : Text) : SameShape group (setBit offset group key) := by
  refine ⟨rfl, rfl, ?_, rfl⟩
  rw [setBit]
  dsimp only
  split <;> simp

theorem mem_setBit {offset other : Nat} {key name : Text} :
    other ∈ (setBit offset group key).editableBitmap name ↔
      other ∈ group.editableBitmap name ∨ other = offset ∧ name = group.keyOf key := by
  rw [editableBitmap_insert group _ (group.keyOf key) name _ rfl]
  split
  next same => simp [same, or_comm]
  next different => simp [different]

theorem mem_unsetBit {offset other : Nat} {key name : Text} :
    other ∈ (unsetBit offset group key).editableBitmap name ↔
      other ∈ group.editableBitmap name ∧ ¬ (other = offset ∧ name = group.keyOf key) := by
  rw [editableBitmap_insert group _ (group.keyOf key) name _ rfl]
  split
  next same => simp [same, and_comm]
  next different => simp [different]

theorem foldl_bits {offset : Nat} {step : FieldBitmapGroup → Text → FieldBitmapGroup} {combine : Prop → Prop → Prop}
    (keeps : ∀ group key, SameShape group (step group key))
    (bits : ∀ group key name other, other ∈ (step group key).editableBitmap name ↔
      combine (other ∈ group.editableBitmap name) (other = offset ∧ name = group.keyOf key))
    (none : ∀ before, combine before False ↔ before)
    (both : ∀ before first rest, combine (combine before first) rest ↔ combine before (first ∨ rest))
    (keys : List Text) (group : FieldBitmapGroup) :
    SameShape group (keys.foldl step group) ∧ ∀ name other, other ∈ (keys.foldl step group).editableBitmap name ↔
      combine (other ∈ group.editableBitmap name) (other = offset ∧ name ∈ keys.map group.keyOf) := by
  induction keys generalizing group with
  | nil => exact ⟨⟨rfl, rfl, rfl, rfl⟩, fun name other => by simp [none]⟩
  | cons key rest ih =>
    obtain ⟨shape, folded⟩ := ih (step group key)
    have first := keeps group key
    refine ⟨⟨shape.kind.trans first.kind, shape.rangedmap.trans first.rangedmap, shape.dir.trans first.dir,
      shape.size.trans first.size⟩, fun name other => ?_⟩
    rw [List.foldl_cons, folded, propext (bits group key name other), both, first.keyOf, List.map_cons, List.mem_cons, and_or_left]

theorem foldl_setBit (offset : Nat) (keys : List Text) (group : FieldBitmapGroup) :
    SameShape group (keys.foldl (setBit offset) group) ∧ ∀ name other,
      other ∈ (keys.foldl (setBit offset) group).editableBitmap name ↔
        other ∈ group.editableBitmap name ∨ other = offset ∧ name ∈ keys.map group.keyOf :=
  @foldl_bits offset (setBit offset) Or (setBit_shape offset) (fun _ _ _ _ => mem_setBit) (by simp) (by simp [or_assoc]) keys group

theorem foldl_unsetBit (offset : Nat) (keys : List Text) (group : FieldBitmapGroup) :
    SameShape group (keys.foldl (unsetBit offset) group) ∧ ∀ name other,
      other ∈ (keys.foldl (unsetBit offset) group).editableBitmap name ↔
        other ∈ group.editableBitmap name ∧ ¬ (other = offset ∧ name ∈ keys.map group.keyOf) :=
  @foldl_bits offset (unsetBit offset) (fun before named => before ∧ ¬ named) (fun _ _ => ⟨rfl, rfl, rfl, rfl⟩)
    (fun _ _ _ _ => mem_unsetBit) (by simp) (by simp [and_assoc]) keys group

end FieldBitmapGroup

end LoginomDock.VectorIndex
