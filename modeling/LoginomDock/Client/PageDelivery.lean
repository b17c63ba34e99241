import LoginomDock.Client.ObservationPages

namespace LoginomDock.Client

open Json List PageOutput

namespace PageOutput

def changingBytes (number : ℚ → Text) (output : PageOutput) : Nat :=
  utf8Bytes (stringify number (.object output.truncated)) + utf8Bytes (decimal output.page.returned) +
    utf8Bytes (stringify number output.page.cursorJson) + utf8Bytes (stringify number (.bool output.page.capturedSnapshotComplete))

structure SameContent (first second : PageOutput) : Prop where
  metadata : second.metadata = first.metadata
  records : second.records = first.records
  scope : second.page.scope = first.page.scope
  offset : second.page.offset = first.page.offset
  total : second.page.totalRecords = first.page.totalRecords

theorem bytes_sameContent (sources : PageSources) {first second : PageOutput} (same : SameContent first second) :
    second.bytes sources + first.changingBytes sources.number = first.bytes sources + second.changingBytes sources.number := by
  obtain ⟨metadata, records, scope, offset, total⟩ := same
  simp only [bytes, toJson, utf8Bytes_object, metadata, records, scope, offset, total, map_append, sum_append,
    map_cons, map_nil, sum_cons, sum_nil, length_append, length_cons, length_nil,
    memberBytes, changingBytes, stringify_integer]
  omega

end PageOutput

namespace PageOutput

structure SameHeader (first second : PageOutput) : Prop where
  metadata : second.metadata = first.metadata
  page : second.page = first.page

theorem markTruncated_spec (number : ℚ → Text) (names : List String) (output : PageOutput)
    (short : ∀ name ∈ names, utf8Bytes (quoted name.toList) ≤ 13) :
    SameHeader output (names.foldl markTruncated output) ∧ (names.foldl markTruncated output).records = output.records ∧
      utf8Bytes (stringify number (.object (names.foldl markTruncated output).truncated)) ≤
        utf8Bytes (stringify number (.object output.truncated)) + 19 * names.length := by
  induction names generalizing output with
  | nil => exact ⟨⟨rfl, rfl⟩, rfl, by simp⟩
  | cons name rest ih =>
    obtain ⟨⟨metadata, page⟩, records, bytes⟩ := ih (output.markTruncated name) fun other member => short other (by simp [member])
    refine ⟨⟨metadata, page⟩, records, ?_⟩
    have one := setMember_bytes number name.toList (.bool true) output.truncated
    have size := short name (by simp)
    have true' : utf8Bytes (stringify number (.bool true)) = 4 := by
      rw [stringify]
      rfl
    simp only [memberBytes, true'] at one
    simp only [foldl_cons, length_cons]
    have marked : (output.markTruncated name).truncated = setMember name.toList (.bool true) output.truncated := rfl
    rw [marked] at bytes
    omega

end PageOutput

namespace Pages

variable (limits : PageLimits) (sources : PageSources)

def recordsOf (collection : Collection) (rows : List Record) : List Json :=
  (rows.filter fun row => row.1 = collection).map Prod.snd

theorem recordsOf_append (collection : Collection) (first second : List Record) :
    recordsOf collection (first ++ second) = recordsOf collection first ++ recordsOf collection second := by
  simp [recordsOf]

theorem push_records (output : PageOutput) (row : Record) (collection : Collection) :
    (output.push row).records collection = output.records collection ++ recordsOf collection [row] := by
  rw [push]
  dsimp only
  rw [Function.update_apply]
  by_cases own : row.1 = collection
  · simp [recordsOf, own]
  · simp [recordsOf, own, Ne.symm own]

theorem fill_spec (rows : List Record) (left : Nat) (output : PageOutput) :
    (fill limits sources rows left output).2 ≤ min rows.length left ∧
      SameHeader output (fill limits sources rows left output).1 ∧
        (fill limits sources rows left output).1.truncated = output.truncated ∧
          (∀ collection, (fill limits sources rows left output).1.records collection = output.records collection ++
            recordsOf collection (rows.take (fill limits sources rows left output).2)) ∧
            ((output.bytes sources : Int) ≤ limits.maxBytes - 700 →
              ((fill limits sources rows left output).1.bytes sources : Int) ≤ limits.maxBytes - 700) := by
  induction rows generalizing left output with
  | nil => exact ⟨by simp [fill], ⟨rfl, rfl⟩, rfl, by simp [fill, recordsOf], id⟩
  | cons row rest ih =>
    cases left with
    | zero => exact ⟨by simp [fill], ⟨rfl, rfl⟩, rfl, by simp [fill, recordsOf], id⟩
    | succ left =>
      rw [fill]
      split
      next => exact ⟨by simp, ⟨rfl, rfl⟩, rfl, by simp [recordsOf], id⟩
      next fits =>
        obtain ⟨count, header, truncated, records, bytes⟩ := ih left (output.push row)
        refine ⟨?_, ⟨header.metadata, header.page⟩, truncated, fun collection => ?_, fun _ => bytes (by omega)⟩
        · simp only [length_cons]
          omega
        · rw [records, push_records, take_succ_cons, append_assoc, ← recordsOf_append]
          rfl

theorem truncatedNames_short (entry : Entry) (offset finish : Nat) (output : PageOutput) :
    (truncatedNames entry offset finish output).length ≤ 11 ∧
      ∀ name ∈ truncatedNames entry offset finish output, utf8Bytes (quoted name.toList) ≤ 13 := by
  have collections : ∀ collection : Collection, utf8Bytes (quoted collection.name.toList) ≤ 13 := by
    intro collection
    cases collection <;> decide
  constructor
  · have some' := length_filter_le (fun collection => (entry.rows.take offset ++ entry.rows.drop finish).any
      fun row => decide (row.1 = collection)) Collection.all
    have all : Collection.all.length = 7 := rfl
    simp only [truncatedNames, length_append, length_map]
    have limited : (if entry.scope ≠ .all ∧ entry.scope ≠ .graph then ["nodes", "links", "ports"] else []).length ≤ 3 := by
      split <;> simp
    have ports : (if (output.records .nodes).any fun node => truthy (node.member? "ports_page") then ["ports"] else []).length ≤ 1 := by
      split <;> simp
    omega
  · intro name member
    rw [truncatedNames] at member
    rcases mem_append.mp member with front | last
    · rcases mem_append.mp front with first | limited
      · obtain ⟨collection, -, rfl⟩ := mem_map.mp first
        exact collections collection
      · split at limited
        · simp only [mem_cons, not_mem_nil, or_false] at limited
          rcases limited with rfl | rfl | rfl <;> decide
        · cases limited
    · split at last
      · rw [mem_singleton.mp last]
        decide
      · cases last

theorem emptyPage_records (entry : Entry) (offset : Nat) : (emptyPage entry offset).records = (fun _ => []) ∧
    (emptyPage entry offset).page = ⟨entry.scope, offset, 0, entry.rows.length, none, false⟩ := by
  have marks : ∀ (names : List String) (output : PageOutput),
      (names.foldl markTruncated output).records = output.records ∧
        (names.foldl markTruncated output).page = output.page := by
    intro names
    induction names with
    | nil => exact fun output => ⟨rfl, rfl⟩
    | cons name rest ih => exact fun output => ih (output.markTruncated name)
  rw [emptyPage]
  dsimp only
  split
  · exact ⟨rfl, rfl⟩
  · split
    · split <;> exact ⟨rfl, rfl⟩
    · obtain ⟨records, page⟩ := marks ["dialogs", "masks", "messages", "table_cells"]
        (if decide ((entry.rows.filter fun row => row.1 = .elements).length <
          (listOf (get? (entry.snapshot.member? "ui") "elements")).length) = true then _ else _)
      rw [records, page]
      split <;> exact ⟨rfl, rfl⟩

structure Renders (pages : Pages) (entry : Entry) (offset : Nat) (after : Pages) (now : Entry) (output : PageOutput)
    (count : Nat) : Prop where
  inside : count ≤ (entry.rows.drop offset).length
  records : ∀ collection, output.records collection = recordsOf collection ((entry.rows.drop offset).take count)
  issued : now.issued = entry.issued ++ (output.records .elements).filterMap refOf
  kept : now.id = entry.id ∧ now.rows = entry.rows
  same : now.snapshot = entry.snapshot ∧ now.scope = entry.scope
  place : output.page.offset = offset ∧ output.page.returned = count
  last : output.page.nextCursor = none → entry.rows.length ≤ offset + count
  cursor : ∀ cursor, output.page.nextCursor = some cursor → offset + count < entry.rows.length ∧ 0 < count
  fits : output.bytes sources ≤ limits.maxBytes
  next : (after = pages ∧ now.next = entry.next ∧ ∀ cursor, output.page.nextCursor = some cursor →
      (offset + count, cursor) ∈ entry.next) ∨
    (output.page.nextCursor = some (sources.uuid pages.drawn) ∧
      after = { pages with
        cursors := pages.cursors.insert (sources.uuid pages.drawn) (entry.id, offset + count), drawn := pages.drawn + 1 } ∧
      now.next = entry.next ++ [(offset + count, sources.uuid pages.drawn)])

theorem bytes_finished (filled marked : PageOutput) (count : Nat) (few : count < 10 ^ 309) (cursor : Option Text)
    (short : ∀ text ∈ cursor, utf8Bytes (quoted text) ≤ 38) (complete : Bool)
    (header : SameHeader filled marked) (records : marked.records = filled.records)
    (marks : utf8Bytes (stringify sources.number (.object marked.truncated)) ≤
      utf8Bytes (stringify sources.number (.object filled.truncated)) + 209) :
    (marked.finished count complete cursor).bytes sources ≤ filled.bytes sources + 700 := by
  have same := @bytes_sameContent sources filled (marked.finished count complete cursor)
    ⟨header.metadata, records, by rw [finished, header.page], by rw [finished, header.page],
      by rw [finished, header.page]⟩
  have digits := utf8Bytes_decimal (by omega : 0 < 309) few
  have cursorBytes : utf8Bytes (stringify sources.number (marked.finished count complete cursor).page.cursorJson) ≤ 38 := by
    cases cursor with
    | none =>
      rw [PageInfo.cursorJson, finished]
      dsimp only
      rw [stringify]
      decide
    | some text =>
      rw [PageInfo.cursorJson, finished]
      dsimp only
      rw [stringify]
      exact short text rfl
  have flagBytes : utf8Bytes (stringify sources.number (.bool complete)) ≤ 5 := by
    cases complete <;> rw [stringify] <;> decide
  have parts : (marked.finished count complete cursor).changingBytes sources.number =
      utf8Bytes (stringify sources.number (.object marked.truncated)) + utf8Bytes (decimal count) +
        utf8Bytes (stringify sources.number (marked.finished count complete cursor).page.cursorJson) +
          utf8Bytes (stringify sources.number (.bool complete)) := rfl
  rw [parts, changingBytes] at same
  omega

theorem render_spec {pages after : Pages} {entry now : Entry} {offset : Nat} {output : PageOutput}
    (short : utf8Bytes (quoted (sources.uuid pages.drawn)) ≤ 38) (known : ∀ place ∈ entry.next, utf8Bytes (quoted place.2) ≤ 38)
    (done : render limits sources pages entry offset = .ok (after, now, output)) :
    ∃ count, Renders limits sources pages entry offset after now output count := by
  have budget := fill_spec limits sources (entry.rows.drop offset) limits.maxRecords (emptyPage entry offset)
  obtain ⟨noRecords, page⟩ := emptyPage_records entry offset
  rw [render] at done
  dsimp only at done
  split at done
  · cases done
  next metadata =>
    generalize fill limits sources (entry.rows.drop offset) limits.maxRecords (emptyPage entry offset) = filled at done budget
    obtain ⟨inside, header, truncated, records, bytes⟩ := budget
    have fits := bytes (by omega)
    split at done
    · cases done
    next some' =>
      obtain ⟨marked, markedRecords, marks⟩ := markTruncated_spec sources.number
        (truncatedNames entry offset (offset + filled.2) filled.1) filled.1
        (truncatedNames_short entry offset (offset + filled.2) filled.1).2
      have few := (truncatedNames_short entry offset (offset + filled.2) filled.1).1
      generalize (truncatedNames entry offset (offset + filled.2) filled.1).foldl markTruncated filled.1 = finished
        at done marked markedRecords marks
      have count : filled.2 < 10 ^ 309 := by
        have finite := limits.finite
        omega
      have own : ∀ collection, finished.records collection =
          recordsOf collection ((entry.rows.drop offset).take filled.2) := by
        intro collection
        rw [markedRecords, records, noRecords]
        rfl
      have within : ∀ (cursor : Option Text) (complete : Bool), (∀ text ∈ cursor, utf8Bytes (quoted text) ≤ 38) →
          (finished.finished filled.2 complete cursor).bytes sources ≤ limits.maxBytes := by
        intro cursor complete short
        have := bytes_finished sources filled.1 finished filled.2 count cursor short complete marked markedRecords (by omega)
        omega
      have elements : (((entry.rows.drop offset).take filled.2).filter fun row => row.1 = .elements).filterMap
          (fun row => refOf row.2) = (finished.records .elements).filterMap refOf := by
        rw [own, recordsOf, filterMap_map]
        rfl
      have issued : entry.issued ++ (((entry.rows.drop offset).take filled.2).filter fun row => row.1 = .elements).filterMap
          (fun row => refOf row.2) = entry.issued ++ (finished.records .elements).filterMap refOf := by rw [elements]
      have less : filled.2 ≤ (entry.rows.drop offset).length := by omega
      have place' : finished.page.offset = offset ∧ filled.2 = filled.2 := by
        rw [marked.page, header.page, page]
        exact ⟨rfl, rfl⟩
      split at done
      next more =>
        have filledSome : 0 < filled.2 := by
          rw [not_and_or] at some'
          omega
        rw [cursorAt] at done
        dsimp only at done
        split at done
        next at' found =>
          cases done
          have place := find?_some found
          simp only [decide_eq_true_eq] at place
          refine ⟨filled.2, less, own, issued, ⟨rfl, rfl⟩, ⟨rfl, rfl⟩, place', (fun none' => by cases none'),
            (fun _ _ => ⟨more, filledSome⟩), ?_, .inl ⟨rfl, rfl, ?_⟩⟩
          · refine within _ _ ?_
            rintro text ⟨⟩
            exact known _ (mem_of_find?_eq_some found)
          · rintro cursor ⟨⟩
            rw [← place]
            exact mem_of_find?_eq_some found
        next fresh =>
          cases done
          refine ⟨filled.2, less, own, issued, ⟨rfl, rfl⟩, ⟨rfl, rfl⟩, place', (fun none' => by cases none'),
            (fun _ _ => ⟨more, filledSome⟩), ?_, .inr ⟨rfl, rfl, rfl⟩⟩
          refine within _ _ ?_
          rintro text ⟨⟩
          exact short
      next whole =>
        cases done
        exact ⟨filled.2, less, own, issued, ⟨rfl, rfl⟩, ⟨rfl, rfl⟩, place', (fun _ => not_lt.mp whole),
          (fun _ some' => by cases some'), within _ _ nofun, .inl ⟨rfl, rfl, nofun⟩⟩

end Pages

end LoginomDock.Client
