import LoginomDock.Access.MaterializedAcl

/-! Where the lists of an account are enabled, they decide on the URIs of resources; the namespaces decide on the
others, and on resources that nothing is granted on. -/

namespace LoginomDock.Access

open AclManager List

section Deciding

variable (classes : CharClasses) (store : ContextStore) (ctx : RequestContext) (action : AclLevel)

def visible (uri : Text) : Except AclError Bool := liftUri (isAccessible classes uri ctx)

def decided (uri : Text) : Except AclError (Option Bool) := do
  let control ← liftUri (isWatchTaskControlUri uri)
  let acl ← isAclUri uri
  if control || !acl then do
    let answer ← visible classes ctx uri
    .ok (some answer)
  else do
    let manage ← hasImplicitManage ctx uri
    .ok (if ctx.bypassAcl || manage then some true else none)

def checkedUri (uri : Text) : Except AclError Bool :=
  match safeUriParts classes.isalpha uri with
  | .ok _ => .ok true
  | .error (.denied message resource) => .error (.uri (.denied message resource))
  | .error _ => .ok false

def canAccessMany (enabled : Bool) (uris : List Text) : Except AclError (List (Text × Bool)) := do
  let checked ← mapUris uris.eraseDups (checkedUri classes)
  let refused := checked.filter fun entry => !entry.2
  let valid := (checked.filter fun entry => entry.2).map Prod.fst
  if !enabled then do
    let answers ← mapUris valid (visible classes ctx)
    .ok (refused ++ answers)
  else do
    let early ← mapUris valid (decided classes ctx)
    let pending := (early.filter fun entry => entry.2 = none).map Prod.fst
    let effective ← resolveMany store pending
    let late ← mapUris pending fun uri =>
      let acl := (valueOf effective uri).getD .none
      if !acl.enabled then visible classes ctx uri else .ok (aclAllows acl ctx action)
    .ok (refused ++ early.filterMap (fun entry => entry.2.map fun answer => (entry.1, answer)) ++ late)

def answer (uri : Text) : Option Bool := (canAccessMany classes store ctx action true [uri]).toOption.bind fun answers => valueOf answers uri

def listAnswer (uri : Text) : Except AclError Bool := do
  let effective ← resolveMany store [uri]
  let acl := (valueOf effective uri).getD .none
  if !acl.enabled then visible classes ctx uri else .ok (aclAllows acl ctx action)

end Deciding

section One

variable {classes : CharClasses} {store : ContextStore} {ctx : RequestContext} {action : AclLevel} {uri : Text} {parts : List Text}

theorem mapUris_one {α : Type} (program : Text → Except AclError α) : mapUris [uri] program = (program uri).map fun value => [(uri, value)] := by
  rw [mapUris, mapM_cons]
  cases program uri <;> rfl

theorem mapUris_nil {α : Type} (program : Text → Except AclError α) : mapUris [] program = .ok [] := rfl

theorem resolveMany_nil : resolveMany store [] = .ok [] := rfl

theorem answer_eq (safe : safeUriParts classes.isalpha uri = .ok parts) :
    answer classes store ctx action uri = (decided classes ctx uri).toOption.bind fun early =>
      early.or (listAnswer classes store ctx action uri).toOption := by
  have checked : checkedUri classes uri = .ok true := by rw [checkedUri, safe]
  rw [answer, canAccessMany, show [uri].eraseDups = [uri] from rfl, mapUris_one, checked]
  dsimp only [map_ok, ok_bind]
  rw [if_neg (by decide), show (List.map Prod.fst (List.filter (fun entry => entry.2) [(uri, true)])) = [uri] from rfl, mapUris_one]
  cases decided classes ctx uri with
  | error _ => rfl
  | ok early =>
    cases early with
    | some known =>
      dsimp only [map_ok, ok_bind]
      rw [show ((List.filter (fun entry => decide (entry.2 = none)) [(uri, some known)]).map Prod.fst) = [] from rfl,
        resolveMany_nil, ok_bind, mapUris_nil, ok_bind]
      simp [valueOf]
    | none =>
      dsimp only [map_ok, ok_bind]
      rw [show ((List.filter (fun entry => decide (entry.2 = none)) [(uri, (none : Option Bool))]).map Prod.fst) = [uri] from rfl, listAnswer]
      cases resolveMany store [uri] with
      | error _ => rfl
      | ok effective =>
        rw [ok_bind, ok_bind, mapUris_one]
        dsimp only
        generalize (if (!((valueOf effective uri).getD EffectiveAcl.none).enabled) = true then visible classes ctx uri
          else Except.ok (aclAllows ((valueOf effective uri).getD EffectiveAcl.none) ctx action)) = late
        cases late <;> simp [valueOf]

end One

section Entries

variable {α : Type} {entries : List (Text × α)}

theorem valueOf_of_mem {uri : Text} {value : α} (member : (uri, value) ∈ entries)
    (only : ∀ entry ∈ entries, entry.1 = uri → entry.2 = value) : valueOf entries uri = some value := by
  rw [valueOf]
  cases found : entries.find? fun entry => entry.1 = uri with
  | none => exact absurd (decide_eq_true rfl) (find?_eq_none.mp found _ member)
  | some entry =>
    have own : entry.1 = uri := by simpa using find?_some found
    rw [Option.map_some, only entry (mem_of_find?_eq_some found) own]

theorem valueOf_eq_none {uri : Text} (absent : ∀ entry ∈ entries, entry.1 ≠ uri) : valueOf entries uri = none := by
  rw [valueOf, find?_eq_none.mpr]
  · rfl
  · exact fun entry member same => absent entry member (of_decide_eq_true same)

variable {program : Text → Except AclError α} {uris : List Text}

section

variable (done : mapUris uris program = .ok entries)

include done

theorem mem_mapUris :
    (∀ entry ∈ entries, entry.1 ∈ uris ∧ program entry.1 = .ok entry.2) ∧ ∀ uri ∈ uris, ∃ value, program uri = .ok value ∧ (uri, value) ∈ entries := by
  rw [mapUris, mapM_ok_iff] at done
  induction done with
  | nil => exact ⟨fun _ member => absurd member not_mem_nil, fun _ member => absurd member not_mem_nil⟩
  | @cons uri entry uris entries first _ ih =>
    obtain ⟨value, computed, same⟩ := bind_ok_iff.mp first
    cases same
    constructor
    · intro other member
      rcases mem_cons.mp member with rfl | inside
      · exact ⟨mem_cons_self, computed⟩
      · exact ⟨mem_cons_of_mem _ (ih.1 other inside).1, (ih.1 other inside).2⟩
    · intro other member
      rcases mem_cons.mp member with rfl | inside
      · exact ⟨value, computed, mem_cons_self⟩
      · obtain ⟨later, computed, there⟩ := ih.2 other inside
        exact ⟨later, computed, mem_cons_of_mem _ there⟩

theorem valueOf_mapUris {uri : Text} (member : uri ∈ uris) :
    ∃ value, program uri = .ok value ∧ valueOf entries uri = some value := by
  obtain ⟨each, all⟩ := mem_mapUris done
  obtain ⟨value, computed, there⟩ := all uri member
  refine ⟨value, computed, valueOf_of_mem there fun entry inside same => ?_⟩
  have own := (each entry inside).2
  rw [same, computed] at own
  exact (Except.ok.inj own).symm

theorem valueOf_mapUris_none {uri : Text} (absent : uri ∉ uris) : valueOf entries uri = none :=
  valueOf_eq_none fun entry inside same => absent (same ▸ ((mem_mapUris done).1 entry inside).1)

end

theorem mapUris_succeeds (each : ∀ uri ∈ uris, ∃ value, program uri = .ok value) :
    ∃ entries, mapUris uris program = .ok entries := by
  induction uris with
  | nil => exact ⟨[], rfl⟩
  | cons first rest ih =>
    obtain ⟨value, computed⟩ := each first mem_cons_self
    obtain ⟨entries, done⟩ := ih fun uri member => each uri (mem_cons_of_mem _ member)
    rw [mapUris] at done
    rw [mapUris, mapM_cons, computed, done]
    exact ⟨_, rfl⟩

theorem mapUris_congr {first second : Text → Except AclError α} (same : ∀ uri ∈ uris, first uri = second uri) :
    mapUris uris first = mapUris uris second := by
  induction uris with
  | nil => rfl
  | cons uri rest ih =>
    have later := ih fun other member => same other (mem_cons_of_mem _ member)
    rw [mapUris, mapUris] at later
    rw [mapUris, mapUris, mapM_cons, mapM_cons, same uri mem_cons_self, later]

end Entries

section Batches

variable {store : ContextStore}

theorem groupByUri_grouped {asked : List Text} {uri : Text} (member : uri ∈ groupedUris (store.recordsForUris asked)) :
    groupByUri (store.recordsForUris asked) uri = store.filter fun record => record.uri = uri := by
  obtain ⟨-, record, inside, rfl⟩ := (mem_groupedUris _ _).mp member
  have matched := (mem_filter.mp inside).2
  rw [groupByUri, ContextStore.recordsForUris, filter_filter]
  refine filter_congr fun other _ => ?_
  by_cases same : other.uri = record.uri
  · rw [decide_eq_true same, Bool.true_and, same, matched]
  · rw [decide_eq_false same, Bool.false_and]

def storedDirect (store : ContextStore) (uri : Text) : Except AclError DirectAcl := do
  let effective ← effectiveFromRecords (store.filter fun record => record.uri = uri)
  .ok effective.direct

theorem directs_eq (store : ContextStore) (asked : List Text) :
    mapUris (groupedUris (store.recordsForUris asked)) (fun uri => do
      let effective ← effectiveFromRecords (groupByUri (store.recordsForUris asked) uri)
      .ok effective.direct) = mapUris (groupedUris (store.recordsForUris asked)) (storedDirect store) := by
  refine mapUris_congr fun uri member => ?_
  rw [groupByUri_grouped member]
  rfl

theorem valueOf_directs {asked : List Text} {directMap : List (Text × DirectAcl)}
    (done : mapUris (groupedUris (store.recordsForUris asked)) (storedDirect store) = .ok directMap) {uri : Text}
    (known : uri ∈ asked ∨ ∀ record ∈ store, record.uri ≠ uri) :
    (valueOf directMap uri).getD .empty =
      if uri ≠ [] ∧ ∃ record ∈ store, record.uri = uri then (storedDirect store uri).toOption.getD .empty else .empty := by
  by_cases grouped : uri ∈ groupedUris (store.recordsForUris asked)
  · obtain ⟨value, computed, found⟩ := valueOf_mapUris done grouped
    obtain ⟨filled, record, inside, same⟩ := (mem_groupedUris _ _).mp grouped
    rw [found, if_pos ⟨filled, record, (mem_filter.mp inside).1, same⟩, computed]
    rfl
  · rw [valueOf_mapUris_none done grouped, if_neg]
    · rfl
    · rintro ⟨filled, record, there, same⟩
      rcases known with member | absent
      · refine grouped ((mem_groupedUris _ _).mpr ⟨filled, record, mem_filter.mpr ⟨there, any_eq_true.mpr ⟨uri, member, ?_⟩⟩, same⟩)
        rw [same, decide_eq_true rfl]
      · exact absent record there same

theorem unionOf_congr {first second : List (Text × DirectAcl)} {ancestors : List Text} {base : DirectAcl}
    (same : ∀ ancestor ∈ ancestors, (valueOf first ancestor).getD .empty = (valueOf second ancestor).getD .empty) :
    unionOf first base ancestors = unionOf second base ancestors := by
  induction ancestors generalizing base with
  | nil => rfl
  | cons ancestor rest ih =>
    rw [unionOf, unionOf, foldl_cons, foldl_cons, same ancestor mem_cons_self]
    exact ih fun other member => same other (mem_cons_of_mem _ member)

-- One URI resolves alone as it does among others.
theorem resolveMany_one {uris : List Text} {result : List (Text × EffectiveAcl)} (done : resolveMany store uris = .ok result) {uri : Text}
    (member : uri ∈ uris) : ∃ acl, resolveMany store [uri] = .ok [(uri, acl)] ∧ valueOf result uri = some acl := by
  have asked : uri ∈ uris.eraseDups := mem_eraseDups.mpr member
  have own : groupByUri (store.recordsForUris [uri]) uri = groupByUri (store.recordsForUris uris.eraseDups) uri := by
    rw [groupByUri_recordsForUris store (mem_singleton_self uri), groupByUri_recordsForUris store asked]
  rw [resolveMany] at done
  obtain ⟨paths, pathsDone, done⟩ := bind_ok_iff.mp done
  obtain ⟨exact', exactDone, done⟩ := bind_ok_iff.mp done
  dsimp only at done
  obtain ⟨path, onPath, pathFound⟩ := valueOf_mapUris pathsDone asked
  rw [resolveMany, show [uri].eraseDups = [uri] from rfl, mapUris_one, onPath]
  dsimp only [map_ok, ok_bind]
  by_cases bare : groupByUri (store.recordsForUris uris.eraseDups) uri = []
  · have inMissing : uri ∈ uris.eraseDups.filter fun uri => groupByUri (store.recordsForUris uris.eraseDups) uri = [] :=
      mem_filter.mpr ⟨asked, decide_eq_true bare⟩
    have notExact : uri ∉ uris.eraseDups.filter fun uri => groupByUri (store.recordsForUris uris.eraseDups) uri ≠ [] :=
      fun inside => of_decide_eq_true (mem_filter.mp inside).2 bare
    have none' : ∀ record ∈ store, record.uri ≠ uri := by
      intro record there same
      rw [groupByUri_recordsForUris store asked, filter_eq_nil_iff] at bare
      exact bare record there (decide_eq_true same)
    split at done
    next empty =>
      rw [empty] at inMissing
      cases inMissing
    next =>
      obtain ⟨directMap, directsDone, done⟩ := bind_ok_iff.mp done
      cases done
      rw [directs_eq] at directsDone
      generalize asked_eq : (List.flatMap (fun uri => (valueOf paths uri).getD []) (uris.eraseDups.filter fun uri =>
        groupByUri (store.recordsForUris uris.eraseDups) uri = [])) = ancestors at directsDone
      have onAsked : ∀ ancestor ∈ path, ancestor ∈ ancestors := by
        intro ancestor above
        rw [← asked_eq]
        exact mem_flatMap.mpr ⟨uri, inMissing, by rw [pathFound]; exact above⟩
      obtain ⟨ownMap, ownDone⟩ : ∃ ownMap, mapUris (groupedUris (store.recordsForUris path)) (storedDirect store) = .ok ownMap := by
        refine mapUris_succeeds fun other grouped => ?_
        obtain ⟨filled, record, inside, same⟩ := (mem_groupedUris _ _).mp grouped
        obtain ⟨there, matched⟩ := mem_filter.mp inside
        obtain ⟨ancestor, above, equal⟩ := any_eq_true.mp matched
        have inBatch : other ∈ groupedUris (store.recordsForUris ancestors) :=
          (mem_groupedUris _ _).mpr ⟨filled, record, mem_filter.mpr ⟨there, any_eq_true.mpr ⟨ancestor, onAsked ancestor above, equal⟩⟩, same⟩
        obtain ⟨value, computed, -⟩ := valueOf_mapUris directsDone inBatch
        exact ⟨value, computed⟩
      have asks : List.flatMap (fun other => (valueOf [(uri, path)] other).getD []) [uri] = path := by simp [valueOf]
      simp only [filter_cons, filter_nil, own, bare, ne_eq, not_true_eq_false, decide_true, decide_false, if_true,
        Bool.false_eq_true, if_false]
      rw [mapUris_nil, ok_bind, if_neg (cons_ne_nil _ _), asks, directs_eq, ownDone]
      refine ⟨_, rfl, ?_⟩
      have found : (valueOf [(uri, path)] uri).getD [] = path := by simp [valueOf]
      rw [valueOf_append, valueOf_mapUris_none exactDone notExact, valueOf_map, if_pos inMissing, pathFound, found, Option.none_or,
        Option.getD_some, valueOf_directs directsDone (.inr none'), valueOf_directs ownDone (.inr none')]
      congr 2
      refine unionOf_congr fun ancestor above => ?_
      have inPath := mem_of_mem_dropLast above
      rw [valueOf_directs directsDone (.inl (onAsked ancestor inPath)), valueOf_directs ownDone (.inl inPath)]
  · have inExact : uri ∈ uris.eraseDups.filter fun uri => groupByUri (store.recordsForUris uris.eraseDups) uri ≠ [] :=
      mem_filter.mpr ⟨asked, decide_eq_true bare⟩
    obtain ⟨acl, computed, found⟩ := valueOf_mapUris exactDone inExact
    simp only [filter_cons, filter_nil, own, bare, ne_eq, not_false_eq_true, decide_true, decide_false, if_true,
      Bool.false_eq_true, if_false]
    rw [mapUris_one, own, computed]
    refine ⟨acl, rfl, ?_⟩
    split at done
    · cases done
      exact found
    · obtain ⟨directMap, -, done⟩ := bind_ok_iff.mp done
      cases done
      rw [valueOf_append, found, Option.some_or]

section

variable {classes : CharClasses} {ctx : RequestContext} {action : AclLevel} {uris : List Text} {answers : List (Text × Bool)}

section

variable (done : canAccessMany classes store ctx action true uris = .ok answers) {uri : Text} (member : uri ∈ uris)

include done member

theorem answer_of_many {parts : List Text}
    (safe : safeUriParts classes.isalpha uri = .ok parts) : valueOf answers uri = answer classes store ctx action uri := by
  rw [canAccessMany] at done
  obtain ⟨checked, checkedDone, done⟩ := bind_ok_iff.mp done
  dsimp only at done
  rw [if_neg (by decide)] at done
  obtain ⟨early, earlyDone, done⟩ := bind_ok_iff.mp done
  obtain ⟨effective, resolved, done⟩ := bind_ok_iff.mp done
  obtain ⟨late, lateDone, done⟩ := bind_ok_iff.mp done
  cases done
  have isSafe : checkedUri classes uri = .ok true := by rw [checkedUri, safe]
  obtain ⟨checks, covers⟩ := mem_mapUris checkedDone
  have notRefused : valueOf (checked.filter fun entry => !entry.2) uri = none := by
    refine valueOf_eq_none fun entry inside same => ?_
    obtain ⟨there, refused⟩ := mem_filter.mp inside
    have own := (checks entry there).2
    rw [same, isSafe] at own
    rw [← Except.ok.inj own] at refused
    cases refused
  have valid : uri ∈ (checked.filter fun entry => entry.2).map Prod.fst := by
    obtain ⟨value, computed, there⟩ := covers uri (mem_eraseDups.mpr member)
    rw [isSafe] at computed
    cases computed
    exact mem_map.mpr ⟨_, mem_filter.mpr ⟨there, rfl⟩, rfl⟩
  obtain ⟨earlies, coversEarly⟩ := mem_mapUris earlyDone
  obtain ⟨known, isDecided, inEarly⟩ := coversEarly uri valid
  have onlyEarly : ∀ entry ∈ early, entry.1 = uri → entry.2 = known := by
    intro entry inside same
    have own := (earlies entry inside).2
    rw [same, isDecided] at own
    exact (Except.ok.inj own).symm
  rw [append_assoc, valueOf_append, notRefused, Option.none_or, valueOf_append, answer_eq safe, isDecided, toOption_ok, Option.bind_some]
  cases known with
  | some known =>
    rw [@valueOf_of_mem _ _ _ known (mem_filterMap.mpr ⟨_, inEarly, rfl⟩) fun entry inside same => ?_, Option.some_or, Option.some_or]
    obtain ⟨source, there, mapped⟩ := mem_filterMap.mp inside
    obtain ⟨value, isValue, rfl⟩ := Option.map_eq_some_iff.mp mapped
    have own := onlyEarly source there same
    rw [isValue] at own
    exact Option.some.inj own
  | none =>
    rw [valueOf_eq_none fun entry inside same => ?_, Option.none_or, Option.none_or]
    · have pending : uri ∈ (early.filter fun entry => entry.2 = none).map Prod.fst :=
        mem_map.mpr ⟨_, mem_filter.mpr ⟨inEarly, decide_eq_true rfl⟩, rfl⟩
      obtain ⟨acl, alone, found⟩ := resolveMany_one resolved pending
      obtain ⟨value, computed, isLate⟩ := valueOf_mapUris lateDone pending
      have single : (valueOf [(uri, acl)] uri).getD .none = acl := by simp [valueOf]
      rw [isLate, listAnswer, alone, ok_bind, single]
      rw [found, Option.getD_some] at computed
      exact (congrArg Except.toOption computed).symm
    · obtain ⟨source, there, mapped⟩ := mem_filterMap.mp inside
      obtain ⟨value, isValue, rfl⟩ := Option.map_eq_some_iff.mp mapped
      have own := onlyEarly source there same
      rw [isValue] at own
      cases own

theorem answered_of_many :
    (∃ value, checkedUri classes uri = .ok value) ∧ valueOf answers uri ≠ none := by
  rw [canAccessMany] at done
  obtain ⟨checked, checkedDone, done⟩ := bind_ok_iff.mp done
  dsimp only at done
  rw [if_neg (by decide)] at done
  obtain ⟨early, earlyDone, done⟩ := bind_ok_iff.mp done
  obtain ⟨effective, -, done⟩ := bind_ok_iff.mp done
  obtain ⟨late, lateDone, done⟩ := bind_ok_iff.mp done
  cases done
  obtain ⟨value, computed, isChecked⟩ := (mem_mapUris checkedDone).2 uri (mem_eraseDups.mpr member)
  refine ⟨⟨value, computed⟩, fun absent => ?_⟩
  rw [valueOf, Option.map_eq_none_iff, find?_eq_none] at absent
  have answered : ∃ entry ∈ checked.filter (fun entry => !entry.2) ++ early.filterMap (fun entry => entry.2.map fun answer => (entry.1, answer)) ++ late,
      entry.1 = uri := by
    cases value with
    | false => exact ⟨_, mem_append_left _ (mem_append_left _ (mem_filter.mpr ⟨isChecked, rfl⟩)), rfl⟩
    | true =>
      obtain ⟨known, -, inEarly⟩ := (mem_mapUris earlyDone).2 uri (mem_map.mpr ⟨_, mem_filter.mpr ⟨isChecked, rfl⟩, rfl⟩)
      cases known with
      | some answer => exact ⟨(uri, answer), mem_append_left _ (mem_append_right _ (mem_filterMap.mpr ⟨_, inEarly, rfl⟩)), rfl⟩
      | none =>
        obtain ⟨answer, -, inLate⟩ := (mem_mapUris lateDone).2 uri
          (mem_map.mpr ⟨_, mem_filter.mpr ⟨inEarly, decide_eq_true rfl⟩, rfl⟩)
        exact ⟨(uri, answer), mem_append_right _ inLate, rfl⟩
  obtain ⟨entry, inside, same⟩ := answered
  exact absent entry inside (decide_eq_true same)

end

end

end Batches

end LoginomDock.Access
