import LoginomDock.Access.AclManager

/-! What a list of segments is permitted is united from the grants on it and above it. The records of a store hold this
for every resource, denormalized. -/

namespace LoginomDock.Access

open List

-- From the first segment to all of them
def prefixes (parts : List Text) : List (List Text) := (List.range parts.length).map fun depth => parts.take (depth + 1)

theorem prefixes_append_singleton (parts : List Text) (last : Text) :
    prefixes (parts ++ [last]) = prefixes parts ++ [parts ++ [last]] := by
  rw [prefixes, length_append, length_singleton, range_succ, map_append, map_singleton]
  congr 1
  · refine map_congr_left fun depth member => ?_
    have inside := mem_range.mp member
    rw [take_append_of_le_length (by omega)]
  · rw [take_of_length_le (by simp)]

@[simp] theorem prefixes_nil : prefixes [] = [] := rfl

theorem dropLast_prefixes (parts : List Text) : (prefixes parts).dropLast = prefixes parts.dropLast := by
  induction parts using List.reverseRecOn with
  | nil => rfl
  | append_singleton parts last _ => rw [prefixes_append_singleton, dropLast_concat, dropLast_concat]

theorem mem_prefixes (parts other : List Text) : other ∈ prefixes parts ↔ other ≠ [] ∧ other <+: parts := by
  rw [prefixes, mem_map]
  constructor
  · rintro ⟨depth, member, rfl⟩
    have inside := mem_range.mp member
    refine ⟨fun empty => ?_, List.take_prefix _ _⟩
    have length := congrArg List.length empty
    rw [length_take, length_nil] at length
    omega
  · rintro ⟨filled, rest, rfl⟩
    have some' := length_pos_iff.mpr filled
    refine ⟨other.length - 1, mem_range.mpr (by rw [length_append]; omega), ?_⟩
    rw [Nat.sub_add_cancel some', take_left]

-- Segments that a URI keeps
def Plain (parts : List Text) : Prop := ∀ part ∈ parts, Text.IsName part ∧ '?' ∉ part

variable {parts : List Text}

theorem Plain.isNames (plain : Plain parts) : Text.IsNames parts := fun part member => (plain part member).1

theorem Plain.of_prefix {parts other : List Text} (plain : Plain parts) (starts : other <+: parts) : Plain other :=
  fun part member => plain part (starts.subset member)

theorem cutQuery_plain (plain : ∀ part ∈ parts, '?' ∉ part) : cutQuery parts = parts := by
  induction parts with
  | nil => rfl
  | cons part rest ih =>
    rw [cutQuery, if_neg (plain part (by simp)), ih fun other member => plain other (by simp [member])]

theorem uriParts_canonical (plain : Plain parts) : uriParts (canonical parts) = .ok parts := by
  rw [canonical, uriParts_scheme, names_joined plain.isNames, cutQuery_plain fun part member => (plain part member).2]

theorem plain_cutQuery (valid : Text.IsNames parts) : Plain (cutQuery parts) := by
  induction parts with
  | nil => exact fun part member => absurd member not_mem_nil
  | cons first rest ih =>
    have own : Text.IsName first := valid first mem_cons_self
    have later := ih fun part member => valid part (mem_cons_of_mem _ member)
    rw [cutQuery]
    split
    next query =>
      split
      next => exact fun part member => absurd member not_mem_nil
      next filled =>
        intro part member
        obtain rfl := mem_singleton.mp member
        exact ⟨⟨filled, noSlash_beforeQuery own.2⟩, fun inside => by simpa using mem_takeWhile_imp inside⟩
    next plain =>
      intro part member
      rcases mem_cons.mp member with rfl | inside
      · exact ⟨own, plain⟩
      · exact later part inside

theorem plain_of_uriParts {uri : Text} (read : uriParts uri = .ok parts) : Plain parts := by
  obtain ⟨rest, rfl, rfl⟩ := uriParts_ok_iff.mp read
  exact plain_cutQuery fun part member => isName_of_mem_names member

theorem normalizedUri_canonical (plain : Plain parts) : normalizedUri (canonical parts) = parts := by
  rw [normalizedUri, canonical, drop_left, names_joined plain.isNames]

theorem canonical_inj {first second : List Text} (plainFirst : Plain first) (plainSecond : Plain second) :
    canonical first = canonical second ↔ first = second := by
  constructor
  · intro same
    have back := congrArg normalizedUri same
    rwa [normalizedUri_canonical plainFirst, normalizedUri_canonical plainSecond] at back
  · rintro rfl
    rfl

theorem canonical_ne_nil (parts : List Text) : canonical parts ≠ [] := by
  rw [canonical]
  exact append_ne_nil_of_left_ne_nil (by decide) _

structure Resource (parts : List Text) : Prop where
  plain : Plain parts
  scope : parts.head? = some "resources".toList

theorem Resource.filled (resource : Resource parts) : parts ≠ [] := by
  rintro rfl
  cases resource.scope

theorem Resource.of_prefix {parts other : List Text} (resource : Resource parts) (starts : other <+: parts) (filled : other ≠ []) :
    Resource other := by
  refine ⟨resource.plain.of_prefix starts, ?_⟩
  obtain ⟨rest, rfl⟩ := starts
  rw [← resource.scope, head?_append_of_ne_nil _ filled]

theorem isAclUri_canonical (plain : Plain parts) :
    isAclUri (canonical parts) = .ok (parts.head? = some "resources".toList) := by
  rw [isAclUri, uriParts_canonical plain]
  rfl

theorem aclAncestors_eq {uri : Text} (read : uriParts uri = .ok parts) (resource : Resource parts) :
    aclAncestors uri = .ok ((prefixes parts).map canonical) := by
  rw [aclAncestors, read]
  simp only [liftUri, ok_bind]
  rw [if_neg (by simpa using resource.scope), prefixes, map_map]
  rfl

theorem aclAncestors_canonical (resource : Resource parts) :
    aclAncestors (canonical parts) = .ok ((prefixes parts).map canonical) :=
  aclAncestors_eq (uriParts_canonical resource.plain) resource

theorem resource_of_aclAncestors (plain : Plain parts) {ancestors : List Text}
    (done : aclAncestors (canonical parts) = .ok ancestors) : Resource parts := by
  rw [aclAncestors, uriParts_canonical plain] at done
  simp only [liftUri, ok_bind] at done
  split at done
  · cases done
  next scope => exact ⟨plain, not_not.mp scope⟩

theorem parentOf_ancestors (parts : List Text) : AclManager.parentOf ((prefixes parts).map canonical) =
    if parts.dropLast = [] then none else some (canonical parts.dropLast) := by
  rw [AclManager.parentOf, ← map_dropLast, dropLast_prefixes]
  generalize parts.dropLast = above
  induction above using List.reverseRecOn with
  | nil => rfl
  | append_singleton above last _ => simp [prefixes_append_singleton]

-- The grants on some segments and above them, the highest of each principal
def reference (direct : List Text → DirectAcl) (parts : List Text) : Grants :=
  ((prefixes parts).map fun other => (direct other).ranks).foldr (· ⊔ ·) ⊥

theorem foldr_sup_append (first second : List Grants) :
    (first ++ second).foldr (· ⊔ ·) ⊥ = first.foldr (· ⊔ ·) ⊥ ⊔ second.foldr (· ⊔ ·) ⊥ := by
  induction first with
  | nil => rw [nil_append, foldr_nil, bot_sup_eq]
  | cons grants rest ih => rw [cons_append, foldr_cons, ih, foldr_cons, sup_assoc]

variable (direct : List Text → DirectAcl)

@[simp] theorem reference_nil : reference direct [] = ⊥ := rfl

theorem reference_append_singleton (parts : List Text) (last : Text) :
    reference direct (parts ++ [last]) = reference direct parts ⊔ (direct (parts ++ [last])).ranks := by
  rw [reference, prefixes_append_singleton, map_append, foldr_sup_append]
  simp [reference]

theorem reference_split (filled : parts ≠ []) :
    reference direct parts = reference direct parts.dropLast ⊔ (direct parts).ranks := by
  have split := reference_append_singleton direct parts.dropLast (parts.getLast filled)
  rwa [dropLast_append_getLast] at split

theorem foldr_sup_le_iff {list : List Grants} {bound : Grants} : list.foldr (· ⊔ ·) ⊥ ≤ bound ↔ ∀ grants ∈ list, grants ≤ bound := by
  induction list with
  | nil => simp
  | cons grants rest ih => rw [foldr_cons, sup_le_iff, ih, forall_mem_cons]

theorem reference_le_iff {direct : List Text → DirectAcl} {bound : Grants} :
    reference direct parts ≤ bound ↔ ∀ other, other ≠ [] → other <+: parts → (direct other).ranks ≤ bound := by
  rw [reference, foldr_sup_le_iff, forall_mem_map]
  refine forall_congr' fun other => ?_
  rw [mem_prefixes, and_imp]

theorem le_reference {parts other : List Text} (filled : other ≠ []) (starts : other <+: parts) :
    (direct other).ranks ≤ reference direct parts := reference_le_iff.mp le_rfl other filled starts

theorem reference_congr {first second : List Text → DirectAcl}
    (same : ∀ other, other ≠ [] → other <+: parts → first other = second other) : reference first parts = reference second parts := by
  rw [reference, reference]
  congr 1
  refine map_congr_left fun other member => ?_
  obtain ⟨filled, starts⟩ := (mem_prefixes parts other).mp member
  rw [same other filled starts]

theorem ranks_foldl_union (above : List (List Text)) (base : DirectAcl) :
    (above.foldl (fun acl other => acl.union (direct other)) base).ranks =
      base.ranks ⊔ (above.map fun other => (direct other).ranks).foldr (· ⊔ ·) ⊥ := by
  induction above generalizing base with
  | nil => rw [foldl_nil, map_nil, foldr_nil, sup_bot_eq]
  | cons other rest ih => rw [foldl_cons, ih, Ranked.ranks_union, map_cons, foldr_cons, sup_assoc]

section

variable (direct : List Text → DirectAcl) (parts : List Text)

def inheritedAcl : DirectAcl :=
  (prefixes parts.dropLast).foldl (fun acl other => acl.union (direct other)) .empty

def effectiveAcl : EffectiveAcl :=
  .of (direct parts) (inheritedAcl direct parts)

end

theorem ranks_inheritedAcl (parts : List Text) :
    (inheritedAcl direct parts).ranks = reference direct parts.dropLast := by
  rw [inheritedAcl, ranks_foldl_union, Ranked.ranks_empty, bot_sup_eq, reference]

theorem ranks_permissions (filled : parts ≠ []) :
    (effectiveAcl direct parts).permissions.ranks = reference direct parts := by
  rw [EffectiveAcl.permissions, Ranked.ranks_union, reference_split direct filled]
  exact congrArg (· ⊔ _) (ranks_inheritedAcl direct parts)

end LoginomDock.Access
