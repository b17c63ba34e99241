import LoginomDock.VectorIndex.RangeAnswers

namespace LoginomDock.VectorIndex

open List Nat

structure Cursor where
  slot : Int
  offset : Int

namespace RangedMap

section Reads

variable (slots : List Slot)

def slotAt (place : Int) : Option Slot := if place < 0 then none else slots[place.toNat]?

section

variable (cursor : Cursor)

def valueAt : Option ℚ := do
  let slot ← slotAt slots cursor.slot
  if cursor.offset < 0 then none else slot.valueVec[cursor.offset.toNat]?

def offsetAt : Option Nat := do
  let slot ← slotAt slots cursor.slot
  if cursor.offset < 0 then none else slot.offsetVec[cursor.offset.toNat]?

def entryAt : Option (ℚ × Nat) := do
  let value ← valueAt slots cursor
  let offset ← offsetAt slots cursor
  return (value, offset)

def stepLeft : Option Cursor :=
  if cursor.offset - 1 = -1 then
    if cursor.slot - 1 = -1 then some ⟨-1, -1⟩
    else (slotAt slots (cursor.slot - 1)).map fun slot => ⟨cursor.slot - 1, slot.offsetVec.length - 1⟩
  else some ⟨cursor.slot, cursor.offset - 1⟩

def stepRight : Option Cursor :=
  (slotAt slots cursor.slot).map fun slot =>
    if cursor.offset + 1 = slot.offsetVec.length then ⟨cursor.slot + 1, 0⟩ else ⟨cursor.slot, cursor.offset + 1⟩

end

end Reads

def firstReaching (center : ℚ) : List Slot → Option Nat
  | [] => some 0
  | slot :: rest => do
      let back ← slot.valueVec.getLast?
      if center ≤ back then return 0 else return (← firstReaching center rest) + 1

def behindReached (center : ℚ) : List Slot → Option Nat
  | [] => some 0
  | slot :: rest => do
      let back ← slot.valueVec.getLast?
      if back ≤ center then return rest.length + 1 else behindReached center rest

def centerCursors (slots : List Slot) (center : ℚ) : Option (Cursor × Cursor) := do
  let first ← (← slots[0]?).valueVec[0]?
  if center < first then return (⟨-1, 0⟩, ⟨0, 0⟩)
  else
    let last ← (← slots.getLast?).valueVec.getLast?
    if last < center then return (⟨slots.length, 0⟩, ⟨slots.length, 0⟩)
    else
      let slotL ← firstReaching center slots
      let left ← slots[slotL]?
      let slotR ← behindReached center slots.reverse
      let right ← slots[slotR]?
      return (⟨slotL, lowerBound left.valueVec center⟩, ⟨slotR, upperBound right.valueVec center⟩)

section Loops

variable (slots : List Slot) (skips : Nat → Bool) (topk : Int)

def takeBetween (last : Cursor) : Nat → Cursor → List (ℚ × Nat) → Option (List (ℚ × Nat))
  | 0, _, _ => none
  | fuel + 1, cursor, taken =>
    if (cursor.slot < last.slot ∨ cursor.slot = last.slot ∧ cursor.offset < last.offset) ∧ taken.length < topk then
      (offsetAt slots cursor).bind fun offset =>
        (if skips offset then some taken else (entryAt slots cursor).map fun entry => taken ++ [entry]).bind fun taken =>
          (stepRight slots cursor).bind fun next => takeBetween last fuel next taken
    else some taken

def skipLeft : Nat → Cursor → Option Cursor
  | 0, _ => none
  | fuel + 1, cursor =>
    if cursor.slot = -1 then some cursor
    else do
      let offset ← offsetAt slots cursor
      if skips offset then skipLeft fuel (← stepLeft slots cursor) else return cursor

def skipRight : Nat → Cursor → Option Cursor
  | 0, _ => none
  | fuel + 1, cursor =>
    if cursor.slot = slots.length then some cursor
    else do
      let offset ← offsetAt slots cursor
      if skips offset then skipRight fuel (← stepRight slots cursor) else return cursor

def takeOutward (center : ℚ) : Nat → Cursor → Cursor → List (ℚ × Nat) → Option (List (ℚ × Nat))
  | 0, _, _, _ => none
  | fuel + 1, left, right, taken =>
    if taken.length < topk ∧ (left.slot ≠ -1 ∨ right.slot ≠ slots.length) then do
      let left ← skipLeft slots skips (fuel + 1) left
      let right ← skipRight slots skips (fuel + 1) right
      if left.slot = -1 ∧ right.slot = slots.length then return taken
      else if left.slot ≠ -1 ∧ right.slot ≠ slots.length then
        let l ← valueAt slots left
        let r ← valueAt slots right
        if |center - l| ≤ |center - r| then
          takeOutward center fuel (← stepLeft slots left) right (taken ++ [← entryAt slots left])
        else takeOutward center fuel left (← stepRight slots right) (taken ++ [← entryAt slots right])
      else if left.slot ≠ -1 then
        takeOutward center fuel (← stepLeft slots left) right (taken ++ [← entryAt slots left])
      else takeOutward center fuel left (← stepRight slots right) (taken ++ [← entryAt slots right])
    else some taken

end Loops

-- The rows that are taken, nothing when a read has no slot or no entry. As many rounds as there are entries are enough for each
-- loop.
def takeAround (map : RangedMap) (topk : Int) (center : ℚ) (skips : Nat → Bool) : Option (List (ℚ × Nat)) :=
  if map.slots = [] then some []
  else do
    let fuel := (map.slots.map fun slot => slot.offsetVec.length).sum + 1
    let (left, right) ← centerCursors map.slots center
    if left.slot = -1 then takeOutward map.slots skips topk center fuel left right []
    else
      let taken ← takeBetween map.slots skips topk right fuel left []
      takeOutward map.slots skips topk center fuel (← stepLeft map.slots left) right taken

inductive RightAt (slots : List Slot) : Cursor → List (ℚ × Nat) → Prop
  | behind : RightAt slots ⟨slots.length, 0⟩ []
  | inside {place offset : Nat} {slot : Slot} {rest : List (ℚ × Nat)} (there : slots[place]? = some slot)
      (less : offset < slot.entries.length)
      (isRest : rest = slot.entries.drop offset ++ (slots.drop (place + 1)).flatMap Slot.entries) : RightAt slots ⟨place, offset⟩ rest

inductive LeftAt (slots : List Slot) : Cursor → List (ℚ × Nat) → Prop
  | before {offset : Int} : LeftAt slots ⟨-1, offset⟩ []
  | inside {place offset : Nat} {slot : Slot} {rest : List (ℚ × Nat)} (there : slots[place]? = some slot)
      (less : offset < slot.entries.length)
      (isRest : rest = (slot.entries.take (offset + 1)).reverse ++ ((slots.take place).flatMap Slot.entries).reverse) :
      LeftAt slots ⟨place, offset⟩ rest

section Cursors

variable {slots : List Slot} {cursor : Cursor} {entry : ℚ × Nat} {rest : List (ℚ × Nat)}

theorem slotAt_natCast (place : Nat) : slotAt slots place = slots[place]? := by
  rw [slotAt, if_neg (by omega), Int.toNat_natCast]

theorem reads_inside (sound : ∀ slot ∈ slots, slot.Valid) {place offset : Nat} {slot : Slot} (there : slots[place]? = some slot)
    (found : slot.entries[offset]? = some entry) :
    valueAt slots ⟨place, offset⟩ = some entry.1 ∧ offsetAt slots ⟨place, offset⟩ = some entry.2 ∧
      entryAt slots ⟨place, offset⟩ = some entry := by
  have valid := sound slot (mem_of_getElem? there)
  have value : valueAt slots ⟨place, offset⟩ = some entry.1 := by
    rw [valueAt, slotAt_natCast, there]
    simp only [Option.bind_eq_bind, Option.bind_some]
    rw [if_neg (by omega), Int.toNat_natCast, ← valid.valueVec, getElem?_map, found, Option.map_some]
  have offset' : offsetAt slots ⟨place, offset⟩ = some entry.2 := by
    rw [offsetAt, slotAt_natCast, there]
    simp only [Option.bind_eq_bind, Option.bind_some]
    rw [if_neg (by omega), Int.toNat_natCast, ← valid.offsetVec, getElem?_map, found, Option.map_some]
  exact ⟨value, offset', by rw [entryAt, value, offset']; rfl⟩

theorem filled (valid : ∀ slot ∈ slots, slot.Valid) {slot : Slot} (inside : slot ∈ slots) : 0 < slot.entries.length := by
  have head := (valid slot inside).left
  have values := (valid slot inside).valueVec
  rw [← length_map Prod.fst, values]
  exact length_pos_iff.mpr fun empty => by rw [empty] at head; cases head

theorem rightAt_start (sound : ∀ slot ∈ slots, slot.Valid) {place : Nat} (within : place ≤ slots.length) :
    RightAt slots ⟨place, 0⟩ ((slots.drop place).flatMap Slot.entries) := by
  rcases within.eq_or_lt with rfl | less
  · rw [drop_length, flatMap_nil]
    exact .behind
  · have there := getElem?_eq_getElem less
    refine @RightAt.inside _ _ 0 _ _ there (filled sound (getElem_mem less)) ?_
    rw [drop_zero, drop_eq_getElem_cons less, flatMap_cons]

theorem stepLeft_succ (place offset : Nat) : stepLeft slots ⟨place, (offset + 1 : Nat)⟩ = some ⟨place, offset⟩ := by
  have back : ((offset + 1 : Nat) : Int) - 1 = offset := by omega
  have inside : ¬ (offset : Int) = -1 := by omega
  simp only [stepLeft, back, inside, if_false]

theorem leftAt_end (sound : ∀ slot ∈ slots, slot.Valid) {place : Nat} (within : place ≤ slots.length) :
    ∃ next, stepLeft slots ⟨place, 0⟩ = some next ∧ LeftAt slots next ((slots.take place).flatMap Slot.entries).reverse := by
  cases place with
  | zero => exact ⟨⟨-1, -1⟩, rfl, .before⟩
  | succ place =>
    have there := getElem?_eq_getElem (show place < slots.length by omega)
    have valid := sound _ (mem_of_getElem? there)
    have some' := filled sound (mem_of_getElem? there)
    have lengths : slots[place].offsetVec.length = slots[place].entries.length := by rw [← valid.offsetVec, length_map]
    have back : ((place + 1 : Nat) : Int) - 1 = place := by omega
    have last : ((slots[place].offsetVec.length : Nat) : Int) - 1 = (slots[place].entries.length - 1 : Nat) := by omega
    refine ⟨⟨place, (slots[place].entries.length - 1 : Nat)⟩, ?_, .inside there (by omega) ?_⟩
    · have some' : ¬ (place : Int) = -1 := by omega
      simp only [stepLeft, back, some', if_false]
      rw [if_pos (by decide), slotAt_natCast, there, Option.map_some, last]
    · rw [take_of_length_le (show slots[place].entries.length ≤ _ by omega),
        take_succ_eq_append_getElem (show place < slots.length by omega), flatMap_append, reverse_append,
        flatMap_singleton]

theorem RightAt.nil (at' : RightAt slots cursor []) : cursor.slot = slots.length := by
  cases at' with
  | behind => rfl
  | inside there less isRest =>
    have length := congrArg List.length isRest
    rw [length_nil, List.length_append, length_drop] at length
    omega

theorem RightAt.cons (sound : ∀ slot ∈ slots, slot.Valid) (at' : RightAt slots cursor (entry :: rest)) :
    cursor.slot ≠ slots.length ∧ (valueAt slots cursor = some entry.1 ∧ offsetAt slots cursor = some entry.2 ∧
      entryAt slots cursor = some entry) ∧ ∃ next, stepRight slots cursor = some next ∧ RightAt slots next rest := by
  cases at' with
  | @inside place offset slot _ there less isRest =>
    have inside := (List.getElem?_eq_some_iff.mp there).1
    have valid := sound slot (mem_of_getElem? there)
    have lengths : slot.offsetVec.length = slot.entries.length := by rw [← valid.offsetVec, length_map]
    rw [drop_eq_getElem_cons less, cons_append, List.cons.injEq] at isRest
    obtain ⟨rfl, rfl⟩ := isRest
    refine ⟨by simp only; omega, reads_inside sound there (getElem?_eq_getElem less), ?_⟩
    have isStep : stepRight slots ⟨place, offset⟩ =
        some (if offset + 1 = slot.entries.length then ⟨(place + 1 : Nat), 0⟩ else ⟨place, (offset + 1 : Nat)⟩) := by
      have same : (offset : Int) + 1 = (slot.offsetVec.length : Int) ↔ offset + 1 = slot.entries.length := by omega
      simp only [stepRight, slotAt_natCast, there, Option.map_some, same, cast_add, cast_one]
    rw [isStep]
    by_cases last : offset + 1 = slot.entries.length
    · rw [if_pos last, drop_eq_nil_of_le last.ge, nil_append]
      exact ⟨_, rfl, rightAt_start sound inside⟩
    · rw [if_neg last]
      exact ⟨_, rfl, .inside there (by omega) rfl⟩

theorem LeftAt.nil (at' : LeftAt slots cursor []) : cursor.slot = -1 := by
  cases at' with
  | before => rfl
  | inside there less isRest =>
    have length := congrArg List.length isRest
    rw [length_nil, List.length_append, length_reverse, length_take] at length
    omega

theorem LeftAt.cons (sound : ∀ slot ∈ slots, slot.Valid) (at' : LeftAt slots cursor (entry :: rest)) :
    cursor.slot ≠ -1 ∧ (valueAt slots cursor = some entry.1 ∧ offsetAt slots cursor = some entry.2 ∧
      entryAt slots cursor = some entry) ∧ ∃ next, stepLeft slots cursor = some next ∧ LeftAt slots next rest := by
  cases at' with
  | @inside place offset slot _ there less isRest =>
    have inside := (List.getElem?_eq_some_iff.mp there).1
    rw [take_succ_eq_append_getElem less, reverse_append, reverse_singleton, singleton_append, cons_append,
      List.cons.injEq] at isRest
    obtain ⟨rfl, rfl⟩ := isRest
    refine ⟨by simp only; omega, reads_inside sound there (getElem?_eq_getElem less), ?_⟩
    cases offset with
    | zero =>
      rw [take_zero, reverse_nil, nil_append]
      exact leftAt_end sound inside.le
    | succ offset =>
      refine ⟨⟨place, offset⟩, ?_, .inside there (by omega) rfl⟩
      exact stepLeft_succ place offset

theorem RightAt.turn (sound : ∀ slot ∈ slots, slot.Valid) (at' : RightAt slots cursor rest) {before : List (ℚ × Nat)}
    (whole : slots.flatMap Slot.entries = before ++ rest) :
    ∃ next, stepLeft slots cursor = some next ∧ LeftAt slots next before.reverse := by
  cases at' with
  | behind =>
    rw [append_nil] at whole
    have ends := leftAt_end sound (le_refl slots.length)
    rw [take_length, whole] at ends
    exact ends
  | @inside place offset slot _ there less isRest =>
    have inside := (List.getElem?_eq_some_iff.mp there).1
    have isBefore : before = (slots.take place).flatMap Slot.entries ++ slot.entries.take offset := by
      refine @append_cancel_right _ _ rest _ ?_
      rw [← whole, isRest]
      conv_lhs => rw [Cuts.around there, flatMap_append, flatMap_cons, ← take_append_drop offset slot.entries]
      simp only [append_assoc]
    cases offset with
    | zero =>
      rw [isBefore, take_zero, append_nil]
      exact leftAt_end sound inside.le
    | succ offset =>
      refine ⟨⟨place, offset⟩, ?_, .inside there (by omega) ?_⟩
      · exact stepLeft_succ place offset
      · rw [isBefore, reverse_append]

variable {skips : Nat → Bool} {topk : Int}

theorem length_behind {place other : Nat} {slot : Slot} (before : place < other) (there : slots[other]? = some slot) :
    slot.entries.length + ((slots.drop (other + 1)).flatMap Slot.entries).length ≤
      ((slots.drop (place + 1)).flatMap Slot.entries).length := by
  have later : (slots.drop (place + 1))[other - (place + 1)]? = some slot := by
    rw [getElem?_drop, Nat.add_sub_cancel' before, there]
  have cut := Cuts.around later
  rw [drop_drop, show place + 1 + (other - (place + 1) + 1) = other + 1 by omega] at cut
  rw [cut, flatMap_append, flatMap_cons, List.length_append, List.length_append]
  omega

-- The order of two cursors is that of how much lies behind them.
theorem RightAt.before_iff {first second : Cursor} {later : List (ℚ × Nat)} (at' : RightAt slots first rest)
    (other : RightAt slots second later) :
    (first.slot < second.slot ∨ first.slot = second.slot ∧ first.offset < second.offset) ↔ later.length < rest.length := by
  cases at' with
  | behind =>
    cases other with
    | behind => simp
    | inside there _ _ =>
      have inside := (List.getElem?_eq_some_iff.mp there).1
      simp only [length_nil, not_lt_zero, iff_false]
      omega
  | @inside place offset slot _ there less isRest =>
    have length : rest.length = slot.entries.length - offset + ((slots.drop (place + 1)).flatMap Slot.entries).length := by
      rw [isRest, List.length_append, length_drop]
    cases other with
    | behind =>
      have inside := (List.getElem?_eq_some_iff.mp there).1
      simp only [length_nil]
      constructor
      · intro _
        omega
      · intro _
        left
        omega
    | @inside place' offset' slot' _ there' less' isLater =>
      have length' : later.length = slot'.entries.length - offset' + ((slots.drop (place' + 1)).flatMap Slot.entries).length := by
        rw [isLater, List.length_append, length_drop]
      rcases lt_trichotomy place place' with before | same | behind
      · have more := length_behind before there'
        constructor
        · intro _
          omega
        · intro _
          left
          simp only
          omega
      · subst same
        cases there.symm.trans there'
        simp only [lt_irrefl, false_or, true_and]
        omega
      · have more := length_behind behind there
        constructor
        · rintro (lower | ⟨same, _⟩) <;> simp only at * <;> omega
        · intro _
          omega

-- A loop that stops behind its entries, and at the first one that is not skipped
theorem skip_spec {At : Cursor → List (ℚ × Nat) → Prop} {skip : Nat → Cursor → Option Cursor}
    (stops : ∀ fuel cursor, At cursor [] → skip (fuel + 1) cursor = some cursor)
    (goes : ∀ fuel cursor entry rest, At cursor (entry :: rest) → ∃ next, At next rest ∧
      skip (fuel + 1) cursor = if skips entry.2 = true then skip fuel next else some cursor)
    (at' : At cursor rest) {fuel : Nat} (enough : rest.length < fuel) :
    ∃ next, skip fuel cursor = some next ∧ At next (rest.dropWhile fun entry => skips entry.2) := by
  induction rest generalizing cursor fuel with
  | nil =>
    obtain ⟨fuel, rfl⟩ := exists_eq_succ_of_ne_zero (ne_of_gt enough)
    exact ⟨cursor, stops fuel cursor at', at'⟩
  | cons entry rest ih =>
    obtain ⟨fuel, rfl⟩ := exists_eq_succ_of_ne_zero (ne_of_gt (zero_lt_of_lt enough))
    obtain ⟨next, later, stepped⟩ := goes fuel cursor entry rest at'
    rw [succ_eq_add_one, stepped]
    cases skipped : skips entry.2 with
    | true =>
      rw [if_pos rfl, dropWhile_cons_of_pos (by simpa using skipped)]
      exact ih later (by rw [length_cons] at enough; omega)
    | false =>
      rw [if_neg nofun, dropWhile_cons_of_neg (by simp [skipped])]
      exact ⟨cursor, rfl, at'⟩

section

variable (sound : ∀ slot ∈ slots, slot.Valid)

include sound

theorem skipRight_spec (at' : RightAt slots cursor rest) {fuel : Nat}
    (enough : rest.length < fuel) : ∃ next, skipRight slots skips fuel cursor = some next ∧
      RightAt slots next (rest.dropWhile fun entry => skips entry.2) := by
  refine skip_spec (fun fuel cursor ends => by rw [skipRight, if_pos ends.nil]) (fun fuel cursor entry rest at' => ?_) at' enough
  obtain ⟨inside, ⟨_, read, _⟩, next, stepped, later⟩ := at'.cons sound
  exact ⟨next, later, by simp [skipRight, inside, read, stepped]⟩

theorem skipLeft_spec (at' : LeftAt slots cursor rest) {fuel : Nat}
    (enough : rest.length < fuel) : ∃ next, skipLeft slots skips fuel cursor = some next ∧
      LeftAt slots next (rest.dropWhile fun entry => skips entry.2) := by
  refine skip_spec (fun fuel cursor ends => by rw [skipLeft, if_pos ends.nil]) (fun fuel cursor entry rest at' => ?_) at' enough
  obtain ⟨inside, ⟨_, read, _⟩, next, stepped, later⟩ := at'.cons sound
  exact ⟨next, later, by simp [skipLeft, inside, read, stepped]⟩

theorem takeBetween_spec {last : Cursor} {between after : List (ℚ × Nat)}
    (at' : RightAt slots cursor (between ++ after)) (ends : RightAt slots last after) {fuel : Nat} (enough : between.length < fuel)
    (taken : List (ℚ × Nat)) : takeBetween slots skips topk last fuel cursor taken =
      some (taken ++ (between.filter fun entry => !skips entry.2).take (topk - taken.length).toNat) := by
  induction between generalizing cursor fuel taken with
  | nil =>
    obtain ⟨fuel, rfl⟩ := exists_eq_succ_of_ne_zero (ne_of_gt enough)
    have done := at'.before_iff ends
    rw [nil_append] at done
    rw [takeBetween, if_neg fun open' => absurd (done.mp open'.1) (lt_irrefl _), filter_nil, take_nil, append_nil]
  | cons entry between ih =>
    obtain ⟨fuel, rfl⟩ := exists_eq_succ_of_ne_zero (ne_of_gt (zero_lt_of_lt enough))
    have open' := at'.before_iff ends
    obtain ⟨_, ⟨_, read, readBoth⟩, next, stepped, later⟩ := at'.cons sound
    rw [length_cons] at enough
    rw [takeBetween]
    by_cases more : (taken.length : Int) < topk
    · have before := open'.mpr (by rw [List.length_append, length_cons]; omega)
      rw [if_pos ⟨before, more⟩]
      simp only [read, readBoth, stepped, Option.bind_some, Option.map_some]
      cases skipped : skips entry.2 with
      | true =>
        simp only [if_true, Option.bind_some]
        rw [ih later (by omega), filter_cons_of_neg (by simp [skipped])]
      | false =>
        have one : (topk - taken.length).toNat = (topk - (taken ++ [entry]).length).toNat + 1 := by
          rw [List.length_append, length_singleton]
          omega
        simp only [Bool.false_eq_true, if_false, Option.bind_some]
        rw [ih later (by omega), filter_cons_of_pos (by simp [skipped]), one, take_succ_cons, append_assoc,
          singleton_append]
    · have nothing : (topk - taken.length).toNat = 0 := by omega
      rw [if_neg fun both => more both.2, nothing, take_zero, append_nil]

end

theorem filter_dropWhile (skips : Nat → Bool) (entries : List (ℚ × Nat)) :
    (entries.dropWhile fun entry => skips entry.2).filter (fun entry => !skips entry.2) = entries.filter fun entry => !skips entry.2 := by
  induction entries with
  | nil => rfl
  | cons entry rest ih =>
    cases skipped : skips entry.2 with
    | true => rw [dropWhile_cons_of_pos (by exact skipped), ih, filter_cons_of_neg (by simp [skipped])]
    | false => rw [dropWhile_cons_of_neg (by simp [skipped])]

theorem head_dropWhile {entries : List (ℚ × Nat)} (isRest : (entries.dropWhile fun entry => skips entry.2) = entry :: rest) :
    skips entry.2 = false := by
  have head := head_dropWhile_not (fun entry : ℚ × Nat => skips entry.2) (by rw [isRest]; exact cons_ne_nil _ _)
  simpa [isRest] using head

theorem takeOutward_spec (sound : ∀ slot ∈ slots, slot.Valid) {center : ℚ} {left right : List (ℚ × Nat)} {leftCursor rightCursor : Cursor}
    (atLeft : LeftAt slots leftCursor left) (atRight : RightAt slots rightCursor right) {fuel : Nat}
    (enough : left.length + right.length < fuel) (taken : List (ℚ × Nat)) :
    takeOutward slots skips topk center fuel leftCursor rightCursor taken =
      some (taken ++ mergeAround center (topk - taken.length).toNat (left.filter fun entry => !skips entry.2)
        (right.filter fun entry => !skips entry.2)) := by
  induction fuel generalizing left right leftCursor rightCursor taken with
  | zero => omega
  | succ fuel ih =>
    rw [takeOutward]
    by_cases more : (taken.length : Int) < topk
    · obtain ⟨count, one, rest⟩ : ∃ count, (topk - taken.length).toNat = count + 1 ∧
          ∀ entry : ℚ × Nat, (topk - (taken ++ [entry]).length).toNat = count := by
        refine ⟨(topk - taken.length - 1).toNat, by omega, fun entry => ?_⟩
        rw [List.length_append, length_singleton]
        omega
      by_cases both : leftCursor.slot ≠ -1 ∨ rightCursor.slot ≠ slots.length
      · obtain ⟨nextLeft, skippedLeft, atLeft'⟩ := @skipLeft_spec _ _ _ skips sound atLeft _ (show left.length < fuel + 1 by omega)
        obtain ⟨nextRight, skippedRight, atRight'⟩ := @skipRight_spec _ _ _ skips sound atRight _ (show right.length < fuel + 1 by omega)
        have shortLeft := (dropWhile_suffix (fun entry : ℚ × Nat => skips entry.2) (l := left)).length_le
        have shortRight := (dropWhile_suffix (fun entry : ℚ × Nat => skips entry.2) (l := right)).length_le
        rw [if_pos ⟨more, both⟩, ← filter_dropWhile skips left, ← filter_dropWhile skips right]
        simp only [skippedLeft, skippedRight, Option.bind_eq_bind, Option.bind_some]
        cases isLeft : left.dropWhile fun entry => skips entry.2 with
        | nil =>
          rw [isLeft] at atLeft'
          cases isRight : right.dropWhile fun entry => skips entry.2 with
          | nil =>
            rw [isRight] at atRight'
            rw [if_pos ⟨atLeft'.nil, atRight'.nil⟩, filter_nil, one, mergeAround, append_nil]
            rfl
          | cons r right' =>
            rw [isRight] at atRight' shortRight
            rw [length_cons] at shortRight
            obtain ⟨insideRight, ⟨_, _, readRight⟩, stepRight', stepped, later⟩ := atRight'.cons sound
            have kept := head_dropWhile isRight
            rw [if_neg fun ends => insideRight ends.2, if_neg fun inside => inside.1 atLeft'.nil,
              if_neg fun inside => inside atLeft'.nil]
            simp only [readRight, stepped, Option.bind_some]
            rw [ih atLeft' later (by rw [length_nil]; omega), filter_cons_of_pos (by simp [kept]), filter_nil, rest, one,
              mergeAround, append_assoc, singleton_append]
        | cons l left' =>
          rw [isLeft] at atLeft' shortLeft
          rw [length_cons] at shortLeft
          obtain ⟨insideLeft, ⟨valueLeft, _, readLeft⟩, stepLeft', steppedLeft, laterLeft⟩ := atLeft'.cons sound
          have keptLeft := head_dropWhile isLeft
          cases isRight : right.dropWhile fun entry => skips entry.2 with
          | nil =>
            rw [isRight] at atRight'
            rw [if_neg fun ends => insideLeft ends.1, if_neg fun inside => inside.2 atRight'.nil, if_pos insideLeft]
            simp only [readLeft, steppedLeft, Option.bind_some]
            rw [ih laterLeft atRight' (by rw [length_nil]; omega), filter_cons_of_pos (by simp [keptLeft]), filter_nil,
              rest, one, mergeAround, append_assoc, singleton_append]
          | cons r right' =>
            rw [isRight] at atRight' shortRight
            rw [length_cons] at shortRight
            obtain ⟨insideRight, ⟨valueRight, _, readRight⟩, stepRight', steppedRight, laterRight⟩ := atRight'.cons sound
            have keptRight := head_dropWhile isRight
            rw [if_neg fun ends => insideLeft ends.1, if_pos ⟨insideLeft, insideRight⟩]
            simp only [valueLeft, valueRight, readLeft, readRight, steppedLeft, steppedRight, Option.bind_some]
            rw [filter_cons_of_pos (by simp [keptLeft]), filter_cons_of_pos (by simp [keptRight]), one, mergeAround]
            by_cases nearer : |center - l.1| ≤ |center - r.1|
            · rw [if_pos nearer, if_pos nearer, ih laterLeft atRight' (by rw [length_cons]; omega), rest,
                filter_cons_of_pos (by simp [keptRight]), append_assoc, singleton_append]
            · rw [if_neg nearer, if_neg nearer, ih atLeft' laterRight (by rw [length_cons]; omega), rest,
                filter_cons_of_pos (by simp [keptLeft]), append_assoc, singleton_append]
      · -- nothing on either side
        have noLeft : left = [] := by
          cases left with
          | nil => rfl
          | cons l left => exact absurd (.inl (atLeft.cons sound).1) both
        have noRight : right = [] := by
          cases right with
          | nil => rfl
          | cons r right => exact absurd (.inr (atRight.cons sound).1) both
        rw [if_neg fun open' => both open'.2, noLeft, noRight, filter_nil, one, mergeAround, append_nil]
    · have nothing : (topk - taken.length).toNat = 0 := by omega
      rw [if_neg fun both => more both.1, nothing, mergeAround, append_nil]

end Cursors

section Start

variable {map : RangedMap} (valid : map.Valid)

include valid

theorem rightAt_cut {passes : ℚ → Bool} (downward : Downward passes) {slot : Slot}
    (there : map.slots[Cuts.place (fun slot => passes slot.right) map.slots]? = some slot) :
    RightAt map.slots ⟨Cuts.place (fun slot => passes slot.right) map.slots, Cuts.place (fun entry => passes entry.1) slot.entries⟩
      (map.entries.filter fun entry => !passes entry.1) := by
  have inside := mem_of_getElem? there
  have cut := ordered_slot valid downward inside
  have front := take_pass valid downward
  have back := drop_fail valid downward
  have beyond : passes slot.right = false := by
    by_contra passed
    rw [Bool.not_eq_false] at passed
    exact absurd ((Cuts.lt_place_iff (ordered_right valid downward) there).mpr passed) (lt_irrefl _)
  have less : Cuts.place (fun entry => passes entry.1) slot.entries < slot.entries.length := by
    by_contra all
    -- the entry with the greatest value does not pass
    obtain ⟨entry, member, isRight⟩ := (valid.between inside).2.2
    have whole : slot.entries.take (Cuts.place (fun entry => passes entry.1) slot.entries) = slot.entries :=
      take_of_length_le (not_lt.mp all)
    have passed := Cuts.passes_of_mem_take (whole.symm ▸ member)
    rw [isRight, beyond] at passed
    cases passed
  refine .inside there less ?_
  generalize Cuts.place (fun slot => passes slot.right) map.slots = index at front back there
  rw [entries]
  conv_lhs => rw [Cuts.around there, flatMap_append, flatMap_cons, filter_append, filter_append]
  rw [filter_eq_nil_iff.mpr fun entry member => by simp [front entry member], Cuts.filter_not_eq_drop cut,
    filter_eq_self.mpr fun entry member => by simp [back entry member], nil_append]

theorem firstReaching_eq (center : ℚ) :
    firstReaching center map.slots = some (Cuts.place (fun slot => isBelow center true slot.right) map.slots) := by
  have sound := valid.slots
  generalize map.slots = slots at sound
  induction slots with
  | nil => rfl
  | cons slot rest ih =>
    have last := (sound slot mem_cons_self).right
    have later := ih fun other member => sound other (mem_cons_of_mem _ member)
    simp only [firstReaching, last, Option.bind_eq_bind, Option.bind_some, Cuts.place]
    by_cases reached : center ≤ slot.right
    · rw [if_pos reached, takeWhile_cons_of_neg (by simp [isBelow, reached])]
      rfl
    · rw [if_neg reached, later, takeWhile_cons_of_pos (by simpa [isBelow] using reached)]
      rfl

theorem behindReached_eq (center : ℚ) :
    behindReached center map.slots.reverse = some (Cuts.place (fun slot => isUpTo center true slot.right) map.slots) := by
  have sound := valid.slots
  have ordered := ordered_right valid (downward_isUpTo center true)
  generalize map.slots = slots at sound ordered
  induction slots using List.reverseRecOn with
  | nil => rfl
  | append_singleton front slot ih =>
    have last := (sound slot (by simp)).right
    have earlier := ih (fun other member => sound other (mem_append_left _ member)) (pairwise_append.mp ordered).1
    rw [reverse_append, reverse_singleton, singleton_append]
    simp only [behindReached, last, Option.bind_eq_bind, Option.bind_some]
    by_cases reached : slot.right ≤ center
    · have all : ∀ other ∈ front ++ [slot], isUpTo center true other.right = true := by
        intro other member
        rcases mem_append.mp member with before | same
        · exact (pairwise_append.mp ordered).2.2 other before slot (by simp) (by simpa [isUpTo] using reached)
        · rw [mem_singleton.mp same]
          simpa [isUpTo] using reached
      rw [if_pos reached, Cuts.place, takeWhile_eq_self_iff.mpr all, List.length_append, length_reverse]
      rfl
    · rw [if_neg reached, earlier, Cuts.place, Cuts.place, takeWhile_append]
      split
      next whole => rw [takeWhile_cons_of_neg (by simpa [isUpTo] using reached), append_nil, whole]
      next => rfl

omit valid in
theorem mergeAround_nil (center : ℚ) (count : Nat) : mergeAround center count [] [] = [] := by
  cases count <;> rfl

theorem first_least {first : Slot} (there : map.slots[0]? = some first) : ∀ entry ∈ map.entries, first.left ≤ entry.1 := by
  intro entry member
  obtain ⟨slot, inside, within⟩ := mem_flatMap.mp member
  obtain ⟨index, less, rfl⟩ := getElem_of_mem inside
  have between := ((valid.between inside).1 entry within).1
  obtain ⟨zero, isFirst⟩ := List.getElem?_eq_some_iff.mp there
  rcases Nat.eq_zero_or_pos index with rfl | later
  · rwa [isFirst] at between
  · have side := pairwise_iff_getElem.mp valid.borders 0 index zero less later
    rw [isFirst] at side
    exact ((valid.left_le_right (mem_of_getElem? there)).trans side).trans between

theorem last_greatest {last : Slot} (there : map.slots.getLast? = some last) : ∀ entry ∈ map.entries, entry.1 ≤ last.right := by
  obtain ⟨front, isFront⟩ := getLast?_eq_some_iff.mp there
  intro entry member
  obtain ⟨slot, inside, within⟩ := mem_flatMap.mp member
  have between := ((valid.between inside).1 entry within).2
  have borders := valid.borders
  have lastIn : last ∈ map.slots := by rw [isFront]; simp
  rw [isFront] at inside borders
  rcases mem_append.mp inside with before | same
  · have side := (pairwise_append.mp borders).2.2 slot before last (by simp)
    exact (between.trans side).trans (valid.left_le_right lastIn)
  · rwa [mem_singleton.mp same] at between

theorem length_entries : (map.slots.map fun slot => slot.offsetVec.length).sum = map.entries.length := by
  rw [entries, length_flatMap]
  congr 1
  refine map_congr_left fun slot inside => ?_
  rw [← (valid.slots slot inside).offsetVec, length_map]

end Start

-- The center is a value, and no value is greater.
def Greatest (map : RangedMap) (center : ℚ) : Prop :=
  (∃ entry ∈ map.entries, entry.1 = center) ∧ ∀ entry ∈ map.entries, entry.1 ≤ center

def around (map : RangedMap) (topk : Int) (center : ℚ) (skips : Nat → Bool) : List (ℚ × Nat) :=
  let keeps := fun entry : ℚ × Nat => !skips entry.2
  let same := ((map.entries.filter fun entry => decide (entry.1 = center)).filter keeps).take topk.toNat
  same ++ mergeAround center (topk - same.length).toNat
    ((map.entries.filter fun entry => decide (entry.1 < center)).reverse.filter keeps)
    ((map.entries.filter fun entry => !decide (entry.1 ≤ center)).filter keeps)

section Taken

variable {map : RangedMap} (valid : map.Valid) (topk : Int) (center : ℚ) (skips : Nat → Bool)

include valid

theorem from_center : (map.entries.filter fun entry => !decide (entry.1 < center)) =
    (map.entries.filter fun entry => decide (entry.1 = center)) ++ map.entries.filter fun entry => !decide (entry.1 ≤ center) := by
  have ordered := List.Pairwise.filter (fun entry : ℚ × Nat => !decide (entry.1 < center))
    (ordered_entries valid (downward_isUpTo center true))
  have cut := Cuts.filter_append_filter_not ordered
  rw [filter_filter, filter_filter] at cut
  rw [← cut]
  congr 1
  · refine filter_congr fun entry _ => ?_
    rw [Bool.eq_iff_iff]
    simpa [isUpTo] using le_antisymm_iff.symm
  · refine filter_congr fun entry _ => ?_
    rw [Bool.eq_iff_iff]
    simpa [isUpTo] using fun above : center < entry.1 => le_of_lt above

theorem centerCursors_inside {first last : Slot} (start : map.slots[0]? = some first) (finish : map.slots.getLast? = some last)
    (above : first.left ≤ center) (below : center ≤ last.right) :
    centerCursors map.slots center = (do
      let left ← map.slots[Cuts.place (fun slot => isBelow center true slot.right) map.slots]?
      let right ← map.slots[Cuts.place (fun slot => isUpTo center true slot.right) map.slots]?
      return (⟨Cuts.place (fun slot => isBelow center true slot.right) map.slots, lowerBound left.valueVec center⟩,
        ⟨Cuts.place (fun slot => isUpTo center true slot.right) map.slots, upperBound right.valueVec center⟩)) := by
  have head : first.valueVec[0]? = some first.left := by
    rw [← head?_eq_getElem?]
    exact (valid.slots first (mem_of_getElem? start)).left
  have tail : last.valueVec.getLast? = some last.right := (valid.slots last (mem_of_getLast? finish)).right
  rw [centerCursors]
  simp only [start, finish, head, tail, Option.bind_eq_bind, Option.bind_some, not_lt.mpr above, not_lt.mpr below, if_false,
    firstReaching_eq valid, behindReached_eq valid]

theorem takeAround_greatest (greatest : map.Greatest center) : map.takeAround topk center skips = none := by
  obtain ⟨⟨entry, member, isCenter⟩, most⟩ := greatest
  obtain ⟨slot, inside, within⟩ := mem_flatMap.mp member
  have filled : map.slots ≠ [] := ne_nil_of_mem inside
  obtain ⟨last, finish⟩ : ∃ last, map.slots.getLast? = some last := ⟨_, getLast?_eq_some_getLast filled⟩
  obtain ⟨first, start⟩ : ∃ first, map.slots[0]? = some first :=
    ⟨_, getElem?_eq_getElem (length_pos_iff.mpr filled)⟩
  have below := last_greatest valid finish entry member
  have above := first_least valid start entry member
  rw [isCenter] at below above
  -- all slots end at or before the center, and there is none behind them
  have all : Cuts.place (fun slot => isUpTo center true slot.right) map.slots = map.slots.length := by
    have passes : ∀ slot ∈ map.slots, isUpTo center true slot.right = true := by
      intro slot inside
      obtain ⟨top, topIn, isRight⟩ := (valid.between inside).2.2
      have reached := most top (mem_flatMap.mpr ⟨slot, inside, topIn⟩)
      rw [isRight] at reached
      simpa [isUpTo] using reached
    rw [Cuts.place, takeWhile_eq_self_iff.mpr passes]
  rw [takeAround, if_neg filled, centerCursors_inside valid center start finish above below, all, getElem?_eq_none le_rfl]
  cases map.slots[Cuts.place (fun slot => isBelow center true slot.right) map.slots]? <;> rfl

theorem takeAround_from {left right : Cursor} (filled : map.slots ≠ []) (cursors : centerCursors map.slots center = some (left, right))
    (inside : left.slot ≠ -1) (atLeft : RightAt map.slots left (map.entries.filter fun entry => !decide (entry.1 < center)))
    (atRight : RightAt map.slots right (map.entries.filter fun entry => !decide (entry.1 ≤ center))) :
    map.takeAround topk center skips = some (map.around topk center skips) := by
  have sound := valid.slots
  have whole := Cuts.filter_append_filter_not (ordered_entries valid (downward_isBelow center true))
  have count := congrArg List.length whole
  rw [List.length_append] at count
  simp only [isBelow, if_true] at whole count
  obtain ⟨next, stepped, atNext⟩ := atLeft.turn sound whole.symm
  have parts := congrArg List.length (from_center valid center)
  rw [List.length_append] at parts
  rw [from_center valid center] at atLeft
  rw [takeAround, if_neg filled, length_entries valid]
  simp only [cursors, Option.bind_eq_bind, Option.bind_some]
  rw [if_neg inside, takeBetween_spec sound atLeft atRight (by omega)]
  simp only [stepped, Option.bind_some, nil_append, length_nil, Nat.cast_zero, Int.sub_zero]
  rw [takeOutward_spec sound atNext atRight (by rw [length_reverse]; omega), around]

theorem takeAround_eq (other : ¬ map.Greatest center) : map.takeAround topk center skips = some (map.around topk center skips) := by
  by_cases empty : map.slots = []
  · have none' : map.entries = [] := by rw [entries, empty, flatMap_nil]
    rw [takeAround, if_pos empty, around, none']
    simp only [filter_nil, reverse_nil, take_nil, nil_append, mergeAround_nil]
  · obtain ⟨last, finish⟩ : ∃ last, map.slots.getLast? = some last := ⟨_, getLast?_eq_some_getLast empty⟩
    obtain ⟨first, start⟩ : ∃ first, map.slots[0]? = some first :=
      ⟨_, getElem?_eq_getElem (length_pos_iff.mpr empty)⟩
    have least := first_least valid start
    have most := last_greatest valid finish
    have sound := valid.slots
    have head : first.valueVec[0]? = some first.left := by
      rw [← head?_eq_getElem?]
      exact (sound first (mem_of_getElem? start)).left
    have tail : last.valueVec.getLast? = some last.right := (sound last (mem_of_getLast? finish)).right
    by_cases before : center < first.left
    · -- all values are right of the center
      have cursors : centerCursors map.slots center = some (⟨-1, 0⟩, ⟨0, 0⟩) := by
        rw [centerCursors]
        simp only [start, head, Option.bind_eq_bind, Option.bind_some, before, if_true]
        rfl
      have far : ∀ entry ∈ map.entries, center < entry.1 := fun entry member => before.trans_le (least entry member)
      have below : (map.entries.filter fun entry => decide (entry.1 < center)) = [] :=
        filter_eq_nil_iff.mpr fun entry member => by simpa using (far entry member).le
      have same : (map.entries.filter fun entry => decide (entry.1 = center)) = [] :=
        filter_eq_nil_iff.mpr fun entry member => by simpa using (far entry member).ne'
      have above : (map.entries.filter fun entry => !decide (entry.1 ≤ center)) = map.entries :=
        filter_eq_self.mpr fun entry member => by simpa using far entry member
      rw [takeAround, if_neg empty, length_entries valid]
      simp only [cursors, Option.bind_eq_bind, Option.bind_some, if_true]
      have atRight := rightAt_start sound (zero_le map.slots.length)
      rw [drop_zero, ← entries] at atRight
      have taken := @takeOutward_spec _ skips topk sound center _ _ _ _ (@LeftAt.before _ 0) atRight _
        (show [].length + map.entries.length < map.entries.length + 1 by simp) []
      rw [around, below, same, above]
      simpa using taken
    · by_cases beyond : last.right < center
      · -- all values are left of the center
        have cursors : centerCursors map.slots center = some (⟨map.slots.length, 0⟩, ⟨map.slots.length, 0⟩) := by
          rw [centerCursors]
          simp only [start, finish, head, tail, Option.bind_eq_bind, Option.bind_some, before, beyond, if_true, if_false]
          rfl
        have near : ∀ entry ∈ map.entries, entry.1 < center := fun entry member => (most entry member).trans_lt beyond
        have none' : (map.entries.filter fun entry => !decide (entry.1 < center)) = [] :=
          filter_eq_nil_iff.mpr fun entry member => by simpa using near entry member
        have none'' : (map.entries.filter fun entry => !decide (entry.1 ≤ center)) = [] :=
          filter_eq_nil_iff.mpr fun entry member => by simpa using (near entry member).le
        refine takeAround_from valid topk center skips empty cursors (by simp only; omega) ?_ ?_
        · rw [none']
          exact .behind
        · rw [none'']
          exact .behind
      · have lastIn := mem_of_getLast? finish
        obtain ⟨top, topIn, isTop⟩ := (valid.between lastIn).2.2
        have topMember : top ∈ map.entries := mem_flatMap.mpr ⟨last, lastIn, topIn⟩
        have notTop : center < last.right := by
          refine lt_of_le_of_ne (not_lt.mp beyond) fun same => other ⟨⟨top, topMember, isTop.trans same.symm⟩, ?_⟩
          exact fun entry member => same ▸ most entry member
        -- neither cut is behind the last slot
        have inside {passes : ℚ → Bool} (failed : passes last.right = false) :
            ∃ slot, map.slots[Cuts.place (fun slot => passes slot.right) map.slots]? = some slot := by
          refine ⟨_, getElem?_eq_getElem (lt_of_le_of_ne (Cuts.place_le _ _) fun all => ?_)⟩
          have whole : map.slots.take (Cuts.place (fun slot => passes slot.right) map.slots) = map.slots := by
            rw [all, take_length]
          have passed := Cuts.passes_of_mem_take (whole.symm ▸ lastIn)
          rw [failed] at passed
          cases passed
        obtain ⟨left, isLeft⟩ := @inside (isBelow center true) (by simpa [isBelow] using notTop.le)
        obtain ⟨right, isRight⟩ := @inside (isUpTo center true) (by simpa [isUpTo] using notTop)
        have cursors := centerCursors_inside valid center start finish (not_lt.mp before) notTop.le
        simp only [isLeft, isRight, Option.bind_eq_bind, Option.bind_some] at cursors
        have atLeft := rightAt_cut valid (downward_isBelow center true) isLeft
        have atRight := rightAt_cut valid (downward_isUpTo center true) isRight
        have lower := lowerBound_eq (sound left (mem_of_getElem? isLeft)) center
        have upper := upperBound_eq (sound right (mem_of_getElem? isRight)) center
        rw [lower, upper] at cursors
        exact takeAround_from valid topk center skips empty cursors (by simp only; omega) atLeft atRight

end Taken

end RangedMap

end LoginomDock.VectorIndex
