import Mathlib.Data.List.Perm.Subperm
import LoginomDock.Library.Cycles
import LoginomDock.Client.RenamePlan

/-! A plan always ends, no moment of it has two records with one name, and a temporary name breaks a cycle of names. -/

namespace LoginomDock.Client

open List

section Runs

variable {lowering : LocaleLowerCase} {fields : List OutputField}

theorem toLower_of_isDigit {char : Char} (digit : char.isDigit = true) : char.toLower = char ∧ char.toNat < 128 := by
  simp only [Char.isDigit, Bool.and_eq_true, decide_eq_true_eq, UInt32.le_iff_toNat_le] at digit
  have small : char.toNat ≤ 57 := digit.2
  constructor
  · unfold Char.toLower
    rw [dif_neg]
    rintro ⟨low, -⟩
    have large : 65 ≤ char.toNat := low
    omega
  · omega

theorem lower_temporaryName (lowering : LocaleLowerCase) (suffix : Nat) :
    lowering.lower (temporaryName suffix) = "dockmappingtemporary".toList ++ Nat.toDigits 10 suffix := by
  have digits : ∀ char ∈ Nat.toDigits 10 suffix, char.toLower = char ∧ char.toNat < 128 := fun char member =>
    toLower_of_isDigit (Nat.isDigit_of_mem_toDigits (by omega) (by omega) member)
  have start : "DockMappingTemporary".toList.map Char.toLower = "dockmappingtemporary" := by decide
  have kept : (Nat.toDigits 10 suffix).map Char.toLower = Nat.toDigits 10 suffix :=
    (map_congr_left fun char member => (digits char member).1).trans (map_id _)
  have letters : ∀ char ∈ "DockMappingTemporary".toList, char.toNat < 128 := by simp
  have ascii : ∀ char ∈ temporaryName suffix, char.toNat < 128 := by
    intro char member
    rcases mem_append.mp member with letter | digit
    · exact letters char letter
    · exact (digits char digit).2
  calc lowering.lower (temporaryName suffix) = (temporaryName suffix).map Char.toLower := lowering.ascii _ ascii
    _ = "DockMappingTemporary".toList.map Char.toLower ++ (Nat.toDigits 10 suffix).map Char.toLower := map_append
    _ = "dockmappingtemporary" ++ Nat.toDigits 10 suffix := congrArg₂ (· ++ ·) start kept

theorem lower_temporaryName_injective (lowering : LocaleLowerCase) :
    Function.Injective fun suffix => lowering.lower (temporaryName suffix) := by
  intro first second same
  simp only [lower_temporaryName, append_cancel_left_eq] at same
  rw [← @Nat.ofDigitChars_ten_toDigits first, ← @Nat.ofDigitChars_ten_toDigits second, same]

theorem freshName_spec {reserved : List Text} {fuel suffix : Nat} (enough : reserved.length < fuel) :
    ∃ fresh, freshName lowering reserved fuel suffix = some fresh ∧ lowering.lower (temporaryName fresh) ∉ reserved := by
  by_contra none'
  have stuck : ∀ fresh, freshName lowering reserved fuel suffix = some fresh → lowering.lower (temporaryName fresh) ∈ reserved :=
    fun fresh found => by_contra fun absent => none' ⟨fresh, found, absent⟩
  have taken : ∀ (fuel suffix : Nat), (∀ fresh, freshName lowering reserved fuel suffix = some fresh →
      lowering.lower (temporaryName fresh) ∈ reserved) → ∀ count < fuel, lowering.lower (temporaryName (suffix + 1 + count)) ∈ reserved := by
    intro fuel
    induction fuel with
    | zero => exact fun _ _ count less => absurd less (Nat.not_lt_zero _)
    | succ fuel ih =>
      intro suffix all count less
      rw [freshName] at all
      split at all
      next member =>
        cases count with
        | zero => exact member
        | succ count =>
          have later := ih (suffix + 1) all count (by omega)
          rwa [show suffix + 1 + 1 + count = suffix + 1 + (count + 1) by omega] at later
      next absent => exact absurd (all (suffix + 1) rfl) absent
  have names : ((List.range fuel).map fun count => lowering.lower (temporaryName (suffix + 1 + count))).Nodup := by
    apply nodup_range.map
    intro first second same
    have := lower_temporaryName_injective lowering same
    omega
  have inside : ((List.range fuel).map fun count => lowering.lower (temporaryName (suffix + 1 + count))) ⊆ reserved := by
    intro name member
    obtain ⟨count, less, rfl⟩ := mem_map.mp member
    exact taken fuel suffix stuck count (mem_range.mp less)
  have few := (subperm_of_subset names inside).length_le
  rw [length_map, length_range] at few
  omega

def Occupies (lowering : LocaleLowerCase) (occupied : Table Text Text) (records : List OutputRecord) : Prop :=
  ∀ key recordId, occupied.lookup key = some recordId ↔ ∃ record ∈ records, lowering.lower record.name = key ∧ record.recordId = recordId

variable {occupied : Table Text Text}

theorem Occupies.nodup {records : List OutputRecord} (occupies : Occupies lowering occupied records)
    (ids : (records.map OutputRecord.recordId).Nodup) : (records.map fun record => lowering.lower record.name).Nodup := by
  apply Nodup.map_on _ ids.of_map
  intro first member second member' same
  have one := (occupies _ _).mpr ⟨first, member, rfl, rfl⟩
  have other := (occupies _ _).mpr ⟨second, member', rfl, rfl⟩
  rw [same, other, Option.some_inj] at one
  exact inj_on_of_nodup_map ids member member' one.symm

variable {record : OutputRecord}

theorem Occupies.rekey {records : List OutputRecord} (occupies : Occupies lowering occupied records)
    (ids : (records.map OutputRecord.recordId).Nodup) (member : record ∈ records) (step : OutputEdit)
    (own : step.recordId = record.recordId)
    (free : ∀ other, occupied.lookup (lowering.lower step.name) = some other → other = record.recordId) :
    Occupies lowering (rekey lowering occupied record.name step.name record.recordId) (records.map (OutputRecord.edit step)) := by
  have same : ∀ other ∈ records, other.recordId = step.recordId → other = record := fun other member' equal =>
    inj_on_of_nodup_map ids member' member (equal.trans own)
  intro key recordId
  rw [Client.rekey, Table.lookup_insert_if, Table.lookup_erase_if]
  simp only [mem_map, exists_exists_and_eq_and, OutputRecord.edit]
  by_cases new : key = lowering.lower step.name
  · rw [if_pos new, Option.some_inj]
    constructor
    · rintro rfl
      refine ⟨record, member, ?_⟩
      rw [if_pos own.symm]
      exact ⟨new.symm, rfl⟩
    · rintro ⟨other, member', named, isId⟩
      split at isId
      next equal => exact (congrArg OutputRecord.recordId (same other member' equal)).symm.trans isId
      next different =>
        rw [if_neg different] at named
        have taken := (occupies key _).mpr ⟨other, member', named, rfl⟩
        rw [new] at taken
        exact absurd ((free _ taken).trans own.symm) different
  · rw [if_neg new]
    by_cases old : key = lowering.lower record.name
    · rw [if_pos old]
      constructor
      · exact nofun
      · rintro ⟨other, member', named, -⟩
        split at named
        · exact absurd named.symm new
        next different =>
          have one := (occupies key _).mpr ⟨other, member', named, rfl⟩
          have two := (occupies key _).mpr ⟨record, member, old.symm, rfl⟩
          rw [one, Option.some_inj] at two
          exact absurd (two.trans own.symm) different
    · rw [if_neg old, occupies]
      constructor
      · rintro ⟨other, member', named, isId⟩
        have different : ¬ other.recordId = step.recordId := by
          intro equal
          rw [same other member' equal] at named
          exact old named.symm
        refine ⟨other, member', ?_⟩
        rw [if_neg different]
        exact ⟨named, isId⟩
      · rintro ⟨other, member', named, isId⟩
        split at named
        · exact absurd named.symm new
        next different =>
          rw [if_neg different] at isId
          exact ⟨other, member', named, isId⟩

structure DistinctNames (lowering : LocaleLowerCase) (fields : List OutputField) : Prop where
  ids : (fields.map fun field => field.current.recordId).Nodup
  current : (fields.map fun field => lowering.lower field.current.name).Nodup
  requested : (fields.map fun field => lowering.lower field.name).Nodup

def Stands (lowering : LocaleLowerCase) (fields : List OutputField) (state : PlanState) (field : OutputField) (record : OutputRecord) : Prop :=
  record.recordId = field.current.recordId ∧
    ((record.name = field.name ∧ record.label = field.label ∧ ∀ other ∈ state.pending, other.current.recordId ≠ record.recordId) ∨
      { field with current := record } ∈ state.pending ∧ (record = field.current ∨
        lowering.lower record.name ∈ state.reserved ∧ ∀ other ∈ fields,
          lowering.lower record.name ≠ lowering.lower other.name ∧ lowering.lower record.name ≠ lowering.lower other.current.name))

structure Sound (lowering : LocaleLowerCase) (fields : List OutputField) (state : PlanState) (records : List OutputRecord) : Prop where
  each : Forall₂ (Stands lowering fields state) fields records
  pendingIds : (state.pending.map fun field => field.current.recordId).Nodup
  known : ∀ field ∈ state.pending, ∃ other ∈ fields, other.current.recordId = field.current.recordId
  occupies : Occupies lowering state.occupied records
  reserved : ∀ field ∈ fields, lowering.lower field.current.name ∈ state.reserved ∧ lowering.lower field.name ∈ state.reserved

namespace Sound

variable {state : PlanState} {records : List OutputRecord} (sound : Sound lowering fields state records)

include sound

theorem map_recordId : records.map OutputRecord.recordId = fields.map fun field => field.current.recordId := by
  have ids : Forall₂ (fun field record => record.recordId = field.current.recordId) fields records :=
    sound.each.imp fun _ _ stands => stands.1
  clear sound
  induction ids with
  | nil => rfl
  | cons own _ ih => rw [map_cons, map_cons, ih, own]

theorem exists_record {field : OutputField} (member : field ∈ fields) : ∃ record ∈ records, Stands lowering fields state field record := by
  obtain ⟨place, inside, rfl⟩ := mem_iff_getElem.mp member
  have inside' : place < records.length := sound.each.length_eq ▸ inside
  exact ⟨records[place], getElem_mem inside', by simpa using sound.each.get inside inside'⟩

theorem exists_field (member : record ∈ records) : ∃ field ∈ fields, Stands lowering fields state field record := by
  obtain ⟨place, inside, rfl⟩ := mem_iff_getElem.mp member
  have inside' : place < fields.length := sound.each.length_eq ▸ inside
  exact ⟨fields[place], getElem_mem inside', by simpa using sound.each.get inside' inside⟩

theorem of_pending {pending : OutputField} (member : pending ∈ state.pending) :
    ∃ field ∈ fields, pending = { field with current := pending.current } ∧ pending.current ∈ records ∧
      field.current.recordId = pending.current.recordId ∧ (pending.current = field.current ∨
        lowering.lower pending.current.name ∈ state.reserved ∧ ∀ other ∈ fields,
          lowering.lower pending.current.name ≠ lowering.lower other.name ∧
            lowering.lower pending.current.name ≠ lowering.lower other.current.name) := by
  obtain ⟨field, isField, sameId⟩ := sound.known pending member
  obtain ⟨record, isRecord, own, settled | ⟨stays, first⟩⟩ := sound.exists_record isField
  · exact absurd (sameId.symm.trans own.symm) (settled.2.2 pending member)
  · have same := inj_on_of_nodup_map sound.pendingIds stays member (own.trans sameId)
    subst same
    exact ⟨field, isField, rfl, isRecord, sameId, first⟩

theorem name_reserved (member : record ∈ records) : lowering.lower record.name ∈ state.reserved := by
  obtain ⟨field, isField, -, ⟨named, -⟩ | ⟨-, rfl | ⟨reserved, -⟩⟩⟩ := sound.exists_field member
  · rw [named]
    exact (sound.reserved field isField).2
  · exact (sound.reserved field isField).1
  · exact reserved

section

variable (distinct : DistinctNames lowering fields) {field : OutputField} {rest : List OutputField}

include distinct

theorem finish (pending : state.pending.Perm (field :: rest)) (available : state.available lowering field = true) :
    Sound lowering fields
      { state with pending := rest, occupied := rekey lowering state.occupied field.current.name field.name field.current.recordId }
      (records.map (OutputRecord.edit ⟨field.current.recordId, field.name, field.label, false⟩)) := by
  have ids : (records.map OutputRecord.recordId).Nodup := sound.map_recordId ▸ distinct.ids
  have member : field ∈ state.pending := pending.mem_iff.mpr mem_cons_self
  have apart := (pending.map fun field => field.current.recordId).nodup_iff.mp sound.pendingIds
  rw [map_cons, nodup_cons] at apart
  have rest_ne : ∀ other ∈ rest, other.current.recordId ≠ field.current.recordId := by
    intro other isRest same
    exact apart.1 (mem_map.mpr ⟨other, isRest, same⟩)
  have within : ∀ other ∈ rest, other ∈ state.pending := fun other isRest => pending.mem_iff.mpr (mem_cons_of_mem _ isRest)
  constructor
  · apply forall₂_map_right_iff.mpr
    apply sound.each.imp
    rintro asked record ⟨own, stands⟩
    rw [OutputRecord.edit]
    split
    next same =>
      rcases stands with ⟨-, -, none'⟩ | ⟨stays, -⟩
      · exact absurd same.symm (none' field member)
      · have isField := inj_on_of_nodup_map sound.pendingIds stays member same
        subst isField
        exact ⟨own, .inl ⟨rfl, rfl, rest_ne⟩⟩
    next different =>
      rcases stands with ⟨named, labelled, none'⟩ | ⟨stays, first⟩
      · exact ⟨own, .inl ⟨named, labelled, fun other isRest => none' other (within other isRest)⟩⟩
      · have isRest := (mem_cons.mp (pending.mem_iff.mp stays)).resolve_left fun same =>
          different (congrArg (fun field : OutputField => field.current.recordId) same)
        exact ⟨own, .inr ⟨isRest, first⟩⟩
  · exact apart.2
  · exact fun other isRest => sound.known other (within other isRest)
  · obtain ⟨-, -, -, isRecord, -, -⟩ := sound.of_pending member
    apply sound.occupies.rekey ids isRecord ⟨field.current.recordId, field.name, field.label, false⟩ rfl
    intro other taken
    rw [PlanState.available, taken] at available
    exact of_decide_eq_true available
  · exact sound.reserved

theorem shelve (pending : state.pending = field :: rest) {suffix : Nat} (fresh : lowering.lower (temporaryName suffix) ∉ state.reserved) :
    Sound lowering fields
      { pending := { field with current := { field.current with name := temporaryName suffix } } :: rest
        occupied := rekey lowering state.occupied field.current.name (temporaryName suffix) field.current.recordId
        reserved := lowering.lower (temporaryName suffix) :: state.reserved
        suffix := suffix }
      (records.map (OutputRecord.edit ⟨field.current.recordId, temporaryName suffix, field.current.label, true⟩)) := by
  have ids : (records.map OutputRecord.recordId).Nodup := sound.map_recordId ▸ distinct.ids
  have member : field ∈ state.pending := pending ▸ mem_cons_self
  have within : ∀ other ∈ rest, other ∈ state.pending := fun other isRest => pending ▸ mem_cons_of_mem _ isRest
  have unlike : ∀ other ∈ fields, lowering.lower (temporaryName suffix) ≠ lowering.lower other.name ∧
      lowering.lower (temporaryName suffix) ≠ lowering.lower other.current.name := by
    intro other isField
    constructor
    · intro same
      exact fresh (same ▸ (sound.reserved other isField).2)
    · intro same
      exact fresh (same ▸ (sound.reserved other isField).1)
  constructor
  · apply forall₂_map_right_iff.mpr
    apply sound.each.imp
    rintro asked record ⟨own, stands⟩
    rw [OutputRecord.edit]
    split
    next same =>
      rcases stands with ⟨-, -, none'⟩ | ⟨stays, -⟩
      · exact absurd same.symm (none' field member)
      · have isField := inj_on_of_nodup_map sound.pendingIds stays member same
        subst isField
        exact ⟨own, .inr ⟨mem_cons_self, .inr ⟨mem_cons_self, unlike⟩⟩⟩
    next different =>
      rcases stands with ⟨named, labelled, none'⟩ | ⟨stays, first⟩
      · refine ⟨own, .inl ⟨named, labelled, ?_⟩⟩
        intro other isPending
        rcases mem_cons.mp isPending with rfl | isRest
        · exact fun same => different same.symm
        · exact none' other (within other isRest)
      · rw [pending] at stays
        have isRest := (mem_cons.mp stays).resolve_left fun same =>
          different (congrArg (fun field : OutputField => field.current.recordId) same)
        exact ⟨own, .inr ⟨mem_cons_of_mem _ isRest, first.imp_right fun ⟨kept, others⟩ => ⟨mem_cons_of_mem _ kept, others⟩⟩⟩
  · have apart := sound.pendingIds
    rw [pending] at apart
    exact apart
  · intro other isPending
    rcases mem_cons.mp isPending with rfl | isRest
    · exact sound.known field member
    · exact sound.known other (within other isRest)
  · obtain ⟨-, -, -, isRecord, -, -⟩ := sound.of_pending member
    apply sound.occupies.rekey ids isRecord ⟨field.current.recordId, temporaryName suffix, field.current.label, true⟩ rfl
    intro other taken
    obtain ⟨record, isHere, named, -⟩ := (sound.occupies _ _).mp taken
    exact absurd (named ▸ sound.name_reserved isHere) fresh
  · exact fun other isField => ⟨mem_cons_of_mem _ (sound.reserved other isField).1, mem_cons_of_mem _ (sound.reserved other isField).2⟩

end

end Sound

def Waits (lowering : LocaleLowerCase) (fields : List OutputField) (first second : Text) : Prop :=
  first ≠ second ∧ ∃ field ∈ fields, ∃ other ∈ fields, field.current.recordId = first ∧ other.current.recordId = second ∧
    lowering.lower field.name = lowering.lower other.current.name

namespace Sound

variable {state : PlanState} {records : List OutputRecord} (sound : Sound lowering fields state records)
  (distinct : DistinctNames lowering fields) (stuck : ∀ field ∈ state.pending, state.available lowering field = false)

include sound distinct stuck

variable {field : OutputField}

theorem blocked (member : field ∈ state.pending) : ∃ other ∈ state.pending,
    field.current.recordId ≠ other.current.recordId ∧ lowering.lower field.name = lowering.lower other.current.name := by
  have taken := stuck field member
  rw [PlanState.available] at taken
  split at taken
  next => cases taken
  next recordId found =>
    have different := of_decide_eq_false taken
    obtain ⟨record, isRecord, named, rfl⟩ := (sound.occupies _ _).mp found
    obtain ⟨asked, isAsked, same, -, sameId, -⟩ := sound.of_pending member
    obtain ⟨holder, isHolder, own, ⟨settled, -⟩ | ⟨stays, -⟩⟩ := sound.exists_field isRecord
    · -- a settled record has its own requested name
      rw [settled] at named
      have own' : lowering.lower field.name = lowering.lower asked.name := by rw [same]
      have one := inj_on_of_nodup_map distinct.requested isHolder isAsked (named.trans own')
      rw [own, one] at different
      exact absurd sameId different
    · exact ⟨_, stays, fun same => different same.symm, named.symm⟩

theorem requested_perm : (state.pending.map fun field => lowering.lower field.name).Perm
    (state.pending.map fun field => lowering.lower field.current.name) := by
  have names : (state.pending.map fun field => lowering.lower field.name).Nodup := by
    apply Nodup.map_on _ sound.pendingIds.of_map
    intro first member second member' same
    obtain ⟨asked, isAsked, one, -, firstId, -⟩ := sound.of_pending member
    obtain ⟨asked', isAsked', other, -, secondId, -⟩ := sound.of_pending member'
    rw [one, other] at same
    have both := inj_on_of_nodup_map distinct.requested isAsked isAsked' same
    exact inj_on_of_nodup_map sound.pendingIds member member' (by rw [← firstId, ← secondId, both])
  have held : (state.pending.map fun field => lowering.lower field.name) ⊆
      state.pending.map fun field => lowering.lower field.current.name := by
    intro name member
    obtain ⟨field, isPending, rfl⟩ := mem_map.mp member
    obtain ⟨other, isOther, -, same⟩ := sound.blocked distinct stuck isPending
    exact mem_map.mpr ⟨other, isOther, same.symm⟩
  apply (subperm_of_subset names held).perm_of_length_le
  rw [length_map, length_map]

section

variable (member : field ∈ state.pending)

include member

theorem awaited :
    ∃ other ∈ state.pending, lowering.lower other.name = lowering.lower field.current.name :=
  mem_map.mp ((sound.requested_perm distinct stuck).mem_iff.mpr (mem_map.mpr ⟨field, member, rfl⟩))

theorem first_name : field ∈ fields := by
  obtain ⟨asked, isAsked, same, -, -, rfl' | ⟨-, unlike⟩⟩ := sound.of_pending member
  · rw [same, rfl']
    exact isAsked
  · obtain ⟨other, isOther, named⟩ := sound.awaited distinct stuck member
    obtain ⟨asked', isAsked', same', -⟩ := sound.of_pending isOther
    rw [same'] at named
    exact absurd named.symm (unlike asked' isAsked').1

theorem waits :
    ∃ other ∈ state.pending, Waits lowering fields field.current.recordId other.current.recordId := by
  obtain ⟨other, isOther, different, same⟩ := sound.blocked distinct stuck member
  exact ⟨other, isOther, different, field, sound.first_name distinct stuck member, other, sound.first_name distinct stuck isOther, rfl, rfl, same⟩

end

theorem waits_within (first second : Text) (member : second ∈ state.pending.map fun field => field.current.recordId)
    (waits : Waits lowering fields first second) : first ∈ state.pending.map fun field => field.current.recordId := by
  obtain ⟨field, isPending, rfl⟩ := mem_map.mp member
  obtain ⟨-, asked, isAsked, holder, isHolder, rfl, sameId, same⟩ := waits
  have isField := inj_on_of_nodup_map distinct.ids isHolder (sound.first_name distinct stuck isPending) sameId
  obtain ⟨other, isOther, named⟩ := sound.awaited distinct stuck isPending
  rw [isField, ← named] at same
  have one := inj_on_of_nodup_map distinct.requested isAsked (sound.first_name distinct stuck isOther) same
  rw [one]
  exact mem_map.mpr ⟨other, isOther, rfl⟩

theorem onCycle (member : field ∈ state.pending) :
    Relation.TransGen (Waits lowering fields) field.current.recordId field.current.recordId := by
  apply @onCycle_of_closed _ _ (state.pending.map fun field => field.current.recordId)
  · intro id listed
    obtain ⟨field, isPending, rfl⟩ := mem_map.mp listed
    obtain ⟨other, isOther, waits⟩ := sound.waits distinct stuck isPending
    exact ⟨_, mem_map.mpr ⟨other, isOther, rfl⟩, waits⟩
  · rintro first - second - held ⟨-, asked, isAsked, holder, isHolder, rfl, rfl, same⟩ ⟨-, asked', isAsked', holder', isHolder', rfl, sameId, same'⟩
    have one := inj_on_of_nodup_map distinct.ids isHolder' isHolder sameId
    rw [one, ← same] at same'
    rw [inj_on_of_nodup_map distinct.requested isAsked' isAsked same']
  · exact mem_map.mpr ⟨field, member, rfl⟩

end Sound

def editsLeft (lowering : LocaleLowerCase) (fields : List OutputField) (field : OutputField) : Nat :=
  if lowering.lower field.current.name ∈ fields.map fun field => lowering.lower field.name then 2 else 1

def firstNamed (fields : List OutputField) (state : PlanState) : List Text :=
  (state.pending.filter fun field => decide (field ∈ fields)).map fun field => field.current.recordId

theorem mem_firstNamed {state : PlanState} {recordId : Text} :
    recordId ∈ firstNamed fields state ↔ ∃ field ∈ state.pending, field ∈ fields ∧ field.current.recordId = recordId := by
  simp [firstNamed, and_assoc]

def OnOneCycle (lowering : LocaleLowerCase) (fields : List OutputField) (first second : Text) : Prop :=
  Relation.TransGen (Waits lowering fields) first second ∧ Relation.TransGen (Waits lowering fields) second first

structure Outcome (lowering : LocaleLowerCase) (fields : List OutputField) (state : PlanState) (records : List OutputRecord)
    (steps : List OutputEdit) : Prop where
  apart : ∀ done, done <+: steps → ((applyEdits done records).map fun record => lowering.lower record.name).Nodup
  final : Forall₂ (fun field record => record.recordId = field.current.recordId ∧ record.name = field.name ∧ record.label = field.label)
    fields (applyEdits steps records)
  touched : ∀ step ∈ steps, ∃ field ∈ state.pending, field.current.recordId = step.recordId
  fresh : ∀ step ∈ steps, step.temporary = true → ∀ field ∈ fields,
    lowering.lower step.name ≠ lowering.lower field.current.name ∧ lowering.lower step.name ≠ lowering.lower field.name
  cycles : ∀ step ∈ steps, step.temporary = true → Relation.TransGen (Waits lowering fields) step.recordId step.recordId
  firsts : ∀ step ∈ steps, step.temporary = true → ∀ other, Relation.TransGen (Waits lowering fields) other step.recordId →
    other ∈ firstNamed fields state
  once : (steps.filter (·.temporary)).Pairwise fun first second => ¬ OnOneCycle lowering fields first.recordId second.recordId

section Plans

variable {state : PlanState} {records : List OutputRecord}

section

variable (sound : Sound lowering fields state records) (distinct : DistinctNames lowering fields)

include sound distinct

theorem Outcome.done (none' : state.pending = []) :
    Outcome lowering fields state records [] where
  apart := by
    intro done before
    rw [prefix_nil.mp before]
    exact sound.occupies.nodup (sound.map_recordId ▸ distinct.ids)
  final := by
    apply sound.each.imp
    rintro field record ⟨own, ⟨named, labelled, -⟩ | ⟨stays, -⟩⟩
    · exact ⟨own, named, labelled⟩
    · rw [none'] at stays
      exact absurd stays not_mem_nil
  touched := nofun
  fresh := nofun
  cycles := nofun
  firsts := nofun
  once := .nil

theorem Outcome.cons {after : PlanState}
    {step : OutputEdit} {steps : List OutputEdit} (outcome : Outcome lowering fields after (records.map (OutputRecord.edit step)) steps)
    (touches : ∃ field ∈ state.pending, field.current.recordId = step.recordId)
    (within : ∀ field ∈ after.pending, ∃ other ∈ state.pending, other.current.recordId = field.current.recordId)
    (fewer : firstNamed fields after ⊆ firstNamed fields state)
    (breaks : step.temporary = true → step.recordId ∉ firstNamed fields after ∧
      Relation.TransGen (Waits lowering fields) step.recordId step.recordId ∧
        (∀ other, Relation.TransGen (Waits lowering fields) other step.recordId → other ∈ firstNamed fields state) ∧
          ∀ field ∈ fields, lowering.lower step.name ≠ lowering.lower field.current.name ∧
            lowering.lower step.name ≠ lowering.lower field.name) :
    Outcome lowering fields state records (step :: steps) where
  apart := by
    intro done before
    rcases prefix_cons_iff.mp before with rfl | ⟨rest, rfl, shorter⟩
    · exact sound.occupies.nodup (sound.map_recordId ▸ distinct.ids)
    · exact outcome.apart rest shorter
  final := outcome.final
  touched := by
    intro other member
    rcases mem_cons.mp member with rfl | member
    · exact touches
    · obtain ⟨field, isPending, same⟩ := outcome.touched other member
      obtain ⟨pending, isPending', same'⟩ := within field isPending
      exact ⟨pending, isPending', same'.trans same⟩
  fresh := by
    intro other member temporary
    rcases mem_cons.mp member with rfl | member
    · exact (breaks temporary).2.2.2
    · exact outcome.fresh other member temporary
  cycles := by
    intro other member temporary
    rcases mem_cons.mp member with rfl | member
    · exact (breaks temporary).2.1
    · exact outcome.cycles other member temporary
  firsts := by
    intro other member temporary first leads
    rcases mem_cons.mp member with rfl | member
    · exact (breaks temporary).2.2.1 first leads
    · exact fewer (outcome.firsts other member temporary first leads)
  once := by
    rw [filter_cons]
    split
    next temporary =>
      refine pairwise_cons.mpr ⟨?_, outcome.once⟩
      rintro other member ⟨leads, -⟩
      obtain ⟨isStep, temporary'⟩ := mem_filter.mp member
      exact (breaks temporary).1 (outcome.firsts other isStep temporary' _ leads)
    next => exact outcome.once

end

theorem sum_editsLeft_le (lowering : LocaleLowerCase) (fields pending : List OutputField) :
    (pending.map (editsLeft lowering fields)).sum ≤ 2 * pending.length := by
  induction pending with
  | nil => exact Nat.le_refl _
  | cons field rest ih =>
    have most : editsLeft lowering fields field ≤ 2 := by
      rw [editsLeft]
      split <;> omega
    rw [map_cons, sum_cons, length_cons]
    omega

theorem eq_map_of_forall₂ {α β : Type} {make : α → β} {list : List α} {made : List β}
    (each : Forall₂ (fun from' to' => to' = make from') list made) : made = list.map make := by
  induction each with
  | nil => rfl
  | cons same _ ih => rw [map_cons, same, ih]

theorem perm_of_find {α : Type} {test : α → Bool} {list : List α} {found : α} (isFound : list.find? test = some found) :
    list.Perm (found :: list.eraseP test) := by
  induction list with
  | nil => cases isFound
  | cons first rest ih =>
    rw [find?_cons] at isFound
    rw [eraseP_cons]
    split at isFound
    next passes =>
      cases isFound
      rw [passes]
      exact .refl _
    next fails =>
      rw [fails]
      exact ((ih isFound).cons first).trans (.swap found first _)

theorem planLoop_outcome (distinct : DistinctNames lowering fields) (fuel : Nat) (sound : Sound lowering fields state records)
    (enough : (state.pending.map (editsLeft lowering fields)).sum ≤ fuel) :
    ∃ steps, planLoop lowering fuel state = some steps ∧ Outcome lowering fields state records steps := by
  induction fuel generalizing state records with
  | zero =>
    have none' : state.pending = [] := by
      cases found : state.pending with
      | nil => rfl
      | cons field rest =>
        rw [found, map_cons, sum_cons, editsLeft] at enough
        split at enough <;> omega
    exact ⟨[], if_pos none', .done sound distinct none'⟩
  | succ fuel ih =>
    rw [planLoop]
    split
    next none' => exact ⟨[], rfl, .done sound distinct none'⟩
    next =>
      rw [planRound]
      cases free : state.pending.find? (state.available lowering) with
      | some field =>
        have pending := perm_of_find free
        have member := mem_of_find?_eq_some free
        have after := sound.finish distinct pending (find?_some free)
        have sum := (pending.map (editsLeft lowering fields)).sum_eq
        have positive : 0 < editsLeft lowering fields field := by
          rw [editsLeft]
          split <;> omega
        rw [map_cons, sum_cons] at sum
        obtain ⟨steps, planned, outcome⟩ := ih after (by simp only; omega)
        refine ⟨_, by simp only [Option.bind_some, planned, Option.map_some], outcome.cons sound distinct ⟨field, member, rfl⟩ ?_ ?_ nofun⟩
        · exact fun other isRest => ⟨other, pending.mem_iff.mpr (mem_cons_of_mem _ isRest), rfl⟩
        · intro recordId named
          obtain ⟨other, isRest, isField, same⟩ := mem_firstNamed.mp named
          exact mem_firstNamed.mpr ⟨other, pending.mem_iff.mpr (mem_cons_of_mem _ isRest), isField, same⟩
      | none =>
        have stuck : ∀ field ∈ state.pending, state.available lowering field = false := by
          simpa using free
        cases pending : state.pending with
        | nil => contradiction
        | cons field rest =>
          have member : field ∈ state.pending := pending ▸ mem_cons_self
          obtain ⟨suffix, found, fresh⟩ := @freshName_spec lowering state.reserved (state.reserved.length + 1) state.suffix (by omega)
          have after := sound.shelve distinct pending fresh
          have unlike : ∀ other ∈ fields, lowering.lower (temporaryName suffix) ≠ lowering.lower other.current.name ∧
              lowering.lower (temporaryName suffix) ≠ lowering.lower other.name := by
            intro other isField
            constructor
            · intro same
              exact fresh (same ▸ (sound.reserved other isField).1)
            · intro same
              exact fresh (same ▸ (sound.reserved other isField).2)
          have before : editsLeft lowering fields field = 2 := by
            obtain ⟨other, isOther, same⟩ := sound.awaited distinct stuck member
            exact if_pos (mem_map.mpr ⟨other, sound.first_name distinct stuck isOther, same⟩)
          have now : editsLeft lowering fields { field with current := { field.current with name := temporaryName suffix } } = 1 := by
            apply if_neg
            intro requested
            obtain ⟨other, isField, same⟩ := mem_map.mp requested
            exact (unlike other isField).2 same.symm
          rw [pending, map_cons, sum_cons, before] at enough
          obtain ⟨steps, planned, outcome⟩ := ih after (by simp only [map_cons, sum_cons, now]; omega)
          have rest_ne : field.current.recordId ∉ rest.map fun field => field.current.recordId := by
            have apart := sound.pendingIds
            rw [pending] at apart
            exact (nodup_cons.mp apart).1
          have renamed : { field with current := { field.current with name := temporaryName suffix } } ∉ fields :=
            fun isField => (unlike _ isField).1 rfl
          refine ⟨_, by simp only [found, Option.map_some, Option.bind_some, planned],
            outcome.cons sound distinct ⟨field, member, rfl⟩ ?_ ?_ fun _ => ⟨?_, sound.onCycle distinct stuck member, ?_, unlike⟩⟩
          · intro other isPending
            rcases mem_cons.mp isPending with rfl | isRest
            · exact ⟨field, member, rfl⟩
            · exact ⟨other, pending ▸ mem_cons_of_mem _ isRest, rfl⟩
          · intro recordId named
            obtain ⟨other, isPending, isField, same⟩ := mem_firstNamed.mp named
            rcases mem_cons.mp isPending with rfl | isRest
            · exact absurd isField renamed
            · exact mem_firstNamed.mpr ⟨other, pending ▸ mem_cons_of_mem _ isRest, isField, same⟩
          · intro named
            obtain ⟨other, isPending, isField, same⟩ := mem_firstNamed.mp named
            rcases mem_cons.mp isPending with rfl | isRest
            · exact renamed isField
            · exact rest_ne (mem_map.mpr ⟨other, isRest, same⟩)
          · intro other leads
            have within := mem_of_transGen (sound.waits_within distinct stuck) leads (mem_map.mpr ⟨field, member, rfl⟩)
            obtain ⟨first, isPending, same⟩ := mem_map.mp within
            exact mem_firstNamed.mpr ⟨first, isPending, sound.first_name distinct stuck isPending, same⟩

end Plans

structure Checks (lowering : LocaleLowerCase) (checked : CheckedFields) (seen : List OutputField) : Prop where
  ids : ∀ recordId, recordId ∈ checked.ids ↔ ∃ field ∈ seen, field.current.recordId = recordId
  occupied : ∀ key recordId, checked.occupied.lookup key = some recordId ↔
    ∃ field ∈ seen, lowering.lower field.current.name = key ∧ field.current.recordId = recordId
  requested : ∀ key, key ∈ checked.requested ↔ ∃ field ∈ seen, lowering.lower field.name = key
  distinct : DistinctNames lowering seen

theorem checks_empty : Checks lowering {} [] where
  ids := by simp
  occupied := by simp
  requested := by simp
  distinct := ⟨.nil, .nil, .nil⟩

theorem Checks.field {checked after : CheckedFields} {seen : List OutputField} {field : OutputField} (checks : Checks lowering checked seen)
    (accepted : checkField lowering checked field = .ok after) : Checks lowering after (field :: seen) := by
  rw [checkField] at accepted
  split at accepted
  next => cases accepted
  next fine =>
    split at accepted
    next => cases accepted
    next clear =>
      cases accepted
      obtain ⟨newCurrent, newRequested⟩ := not_or.mp clear
      have newId : field.current.recordId ∉ checked.ids := by
        simp only [supported, Bool.and_eq_true, decide_eq_true_eq, Bool.not_eq_false] at fine
        exact fine.1.1.1.1.2
      rw [checks.ids] at newId
      rw [checks.requested] at newRequested
      have freeKey : ∀ other ∈ seen, lowering.lower other.current.name ≠ lowering.lower field.current.name := by
        intro other member same
        have taken := (checks.occupied _ _).mpr ⟨other, member, rfl, rfl⟩
        rw [same] at taken
        exact newCurrent (AList.lookup_isSome.mp (by rw [taken]; rfl))
      constructor
      · intro recordId
        simp only [mem_cons, exists_eq_or_imp, checks.ids, @eq_comm _ recordId]
      · intro key recordId
        rw [Table.lookup_insert_if]
        simp only [mem_cons, exists_eq_or_imp]
        split
        next same =>
          rw [Option.some_inj]
          constructor
          · exact fun own => .inl ⟨same.symm, own⟩
          · rintro (⟨-, own⟩ | ⟨other, member, named, -⟩)
            · exact own
            · exact absurd (named.trans same) (freeKey other member)
        next different =>
          rw [checks.occupied]
          constructor
          · exact .inr
          · rintro (⟨named, -⟩ | found)
            · exact absurd named.symm different
            · exact found
      · intro key
        simp only [mem_cons, exists_eq_or_imp, checks.requested, @eq_comm _ key]
      · constructor
        · exact nodup_cons.mpr ⟨fun member => newId (mem_map.mp member), checks.distinct.ids⟩
        · refine nodup_cons.mpr ⟨fun member => ?_, checks.distinct.current⟩
          obtain ⟨other, isSeen, same⟩ := mem_map.mp member
          exact freeKey other isSeen same
        · exact nodup_cons.mpr ⟨fun member => newRequested (mem_map.mp member), checks.distinct.requested⟩

theorem Checks.all {rest seen : List OutputField} {checked after : CheckedFields} (checks : Checks lowering checked seen)
    (accepted : rest.foldlM (checkField lowering) checked = .ok after) : Checks lowering after (rest.reverse ++ seen) := by
  induction rest generalizing checked seen with
  | nil =>
    cases accepted
    exact checks
  | cons field rest ih =>
    rw [foldlM_cons] at accepted
    cases one : checkField lowering checked field with
    | error message =>
      rw [one] at accepted
      cases accepted
    | ok middle =>
      rw [one] at accepted
      rw [reverse_cons, append_assoc]
      exact ih (checks.field one) accepted

theorem DistinctNames.of_reverse (distinct : DistinctNames lowering fields.reverse) : DistinctNames lowering fields := by
  obtain ⟨ids, current, requested⟩ := distinct
  rw [map_reverse, nodup_reverse] at ids current requested
  exact ⟨ids, current, requested⟩

theorem sound_start {checked : CheckedFields} (checks : Checks lowering checked fields.reverse) :
    Sound lowering fields {
      pending := fields.filter fun field => decide (field.current.name ≠ field.name ∨ field.current.label ≠ field.label)
      occupied := checked.occupied
      reserved := checked.occupied.keys ++ checked.requested } (fields.map OutputField.current) := by
  have distinct := checks.distinct.of_reverse
  constructor
  · apply forall₂_map_right_iff.mpr
    apply forall₂_same.mpr
    intro field member
    refine ⟨rfl, ?_⟩
    by_cases differs : field.current.name ≠ field.name ∨ field.current.label ≠ field.label
    · exact .inr ⟨mem_filter.mpr ⟨member, decide_eq_true differs⟩, .inl rfl⟩
    · obtain ⟨named, labelled⟩ := not_or.mp differs
      refine .inl ⟨not_not.mp named, not_not.mp labelled, ?_⟩
      intro other isPending same
      obtain ⟨isField, differs'⟩ := mem_filter.mp isPending
      rw [inj_on_of_nodup_map distinct.ids isField member same] at differs'
      exact differs (of_decide_eq_true differs')
  · exact (filter_sublist.map _).nodup distinct.ids
  · exact fun field isPending => ⟨field, (mem_filter.mp isPending).1, rfl⟩
  · intro key recordId
    simp only [checks.occupied, mem_reverse, mem_map, exists_exists_and_eq_and]
  · intro field member
    have member' := mem_reverse.mpr member
    constructor
    · have taken := (checks.occupied _ _).mpr ⟨field, member', rfl, rfl⟩
      exact mem_append_left _ (AList.mem_keys.mp (AList.lookup_isSome.mp (by rw [taken]; rfl)))
    · exact mem_append_right _ ((checks.requested _).mpr ⟨field, member', rfl⟩)

-- What makes a plan one that can be carried out
structure Executable (lowering : LocaleLowerCase) (fields : List OutputField) (steps : List OutputEdit) : Prop where
  apart : ∀ done, done <+: steps →
    ((applyEdits done (fields.map OutputField.current)).map fun record => lowering.lower record.name).Nodup
  final : applyEdits steps (fields.map OutputField.current) =
    fields.map fun field => { field.current with name := field.name, label := field.label }
  untouched : ∀ field ∈ fields, field.current.name = field.name → field.current.label = field.label →
    ∀ step ∈ steps, step.recordId ≠ field.current.recordId
  fresh : ∀ step ∈ steps, step.temporary = true → ∀ field ∈ fields, step.name ≠ field.current.name ∧ step.name ≠ field.name
  cycles : ∀ step ∈ steps, step.temporary = true → OnOneCycle lowering fields step.recordId step.recordId
  once : (steps.filter (·.temporary)).Pairwise fun first second => ¬ OnOneCycle lowering fields first.recordId second.recordId

theorem output_plan_executable (lowering : LocaleLowerCase) {fields : List OutputField} {checked : CheckedFields}
    (accepted : checkFields lowering fields = .ok checked) :
    ∃ steps, planOutputFieldEdits lowering fields = some (.ok steps) ∧ Executable lowering fields steps := by
  have folded : fields.foldlM (checkField lowering) {} = .ok checked := by
    rw [checkFields] at accepted
    split at accepted
    · cases accepted
    · exact accepted
  have checks := checks_empty.all folded
  rw [append_nil] at checks
  have distinct := checks.distinct.of_reverse
  have sound := sound_start checks
  have enough : ((fields.filter fun field => decide (field.current.name ≠ field.name ∨ field.current.label ≠ field.label)).map
      (editsLeft lowering fields)).sum ≤ 2 * fields.length := by
    have sum := sum_editsLeft_le lowering fields
      (fields.filter fun field => decide (field.current.name ≠ field.name ∨ field.current.label ≠ field.label))
    have fewer := length_filter_le (fun field => decide (field.current.name ≠ field.name ∨ field.current.label ≠ field.label)) fields
    omega
  obtain ⟨steps, planned, outcome⟩ := planLoop_outcome distinct (2 * fields.length) sound enough
  refine ⟨steps, by simp only [planOutputFieldEdits, accepted, planned, Option.map_some], ?_⟩
  constructor
  · exact outcome.apart
  · apply eq_map_of_forall₂
    apply outcome.final.imp
    rintro field ⟨recordId, name, label⟩ ⟨own, named, labelled⟩
    exact (OutputRecord.mk.injEq ..).mpr ⟨own, named, labelled⟩
  · intro field member named labelled step isStep same
    obtain ⟨pending, isPending, own⟩ := outcome.touched step isStep
    obtain ⟨isField, differs⟩ := mem_filter.mp isPending
    rw [inj_on_of_nodup_map distinct.ids isField member (own.trans same)] at differs
    exact (of_decide_eq_true differs).elim (absurd named) (absurd labelled)
  · intro step isStep temporary field member
    obtain ⟨current, requested⟩ := outcome.fresh step isStep temporary field member
    exact ⟨fun same => current (congrArg _ same), fun same => requested (congrArg _ same)⟩
  · intro step isStep temporary
    have cycle := outcome.cycles step isStep temporary
    exact ⟨cycle, cycle⟩
  · exact outcome.once

end Runs

def swappedFields : List OutputField :=
  [{ current := ⟨['1'], ['A'], []⟩, name := ['b'], label := [] }, { current := ⟨['2'], ['B'], []⟩, name := ['a'], label := [] },
    { current := ⟨['3'], ['c'], []⟩, name := ['C'], label := [] }]

def asciiLowerCase : LocaleLowerCase := ⟨List.map Char.toLower, fun _ _ => rfl⟩

theorem swapped_plan : ∃ steps, planOutputFieldEdits asciiLowerCase swappedFields = some (.ok steps) ∧
    Executable asciiLowerCase swappedFields steps ∧ steps = [⟨['3'], ['C'], [], false⟩, ⟨['1'], temporaryName 1, [], true⟩,
      ⟨['2'], ['a'], [], false⟩, ⟨['1'], ['b'], [], false⟩] := by
  cases accepted : checkFields asciiLowerCase swappedFields with
  | error message =>
    have fine : (checkFields asciiLowerCase swappedFields).isOk = true := by decide
    rw [accepted] at fine
    cases fine
  | ok checked =>
    obtain ⟨steps, planned, executable⟩ := output_plan_executable asciiLowerCase accepted
    have plan : planOutputFieldEdits asciiLowerCase swappedFields = some (.ok [⟨['3'], ['C'], [], false⟩,
        ⟨['1'], temporaryName 1, [], true⟩, ⟨['2'], ['a'], [], false⟩, ⟨['1'], ['b'], [], false⟩]) := by rfl
    refine ⟨steps, planned, executable, ?_⟩
    rw [plan, Option.some_inj, Except.ok.injEq] at planned
    exact planned.symm

end LoginomDock.Client
