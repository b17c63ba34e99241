import LoginomDock.Client.PageHistory

namespace LoginomDock.Client

open Json Pages List

namespace PageHistory

variable {limits : PageLimits} {sources : PageSources}

theorem render_pages {pages after : Pages} {entry now : Entry} {offset : Nat} {output : PageOutput}
    (done : render limits sources pages entry offset = .ok (after, now, output)) :
    pages.drawn ≤ after.drawn ∧ after.entries = pages.entries := by
  rw [render] at done
  dsimp only at done
  split at done
  · cases done
  · split at done
    · cases done
    · split at done
      · rw [cursorAt] at done
        dsimp only at done
        split at done
        · cases done
          exact ⟨le_rfl, rfl⟩
        · cases done
          exact ⟨Nat.le_succ _, rfl⟩
      · cases done
        exact ⟨le_rfl, rfl⟩

theorem length_replace (pages : Pages) (now : Entry) : (pages.replace now).entries.length = pages.entries.length := by
  simp [Pages.replace]

theorem length_remove (pages : Pages) (id : Text) : (pages.remove id).entries.length ≤ pages.entries.length :=
  length_filter_le _ _

theorem call_size (history : PageHistory) (made : PageCall) :
    history.pages.drawn ≤ (history.call limits sources made).pages.drawn ∧
      (history.pages.entries.length ≤ limits.capacity →
        (history.call limits sources made).pages.entries.length ≤ limits.capacity) := by
  cases made with
  | clear => exact ⟨le_rfl, fun _ => Nat.zero_le _⟩
  | retain outcome scope =>
    simp only [call, retain]
    split
    next => exact ⟨le_rfl, id⟩
    next =>
      split
      · exact ⟨le_rfl, id⟩
      · split
        next => exact ⟨Nat.le_succ _, id⟩
        next done =>
          refine ⟨?_, fun _ => length_evict _ _⟩
          have more := (render_pages done).1
          change _ ≤ (evict _ _).drawn
          rw [evict, (foldl_remove _ _).1]
          exact (Nat.le_succ _).trans more
  | next cursor fresh =>
    simp only [call, Pages.next]
    split
    next => exact ⟨le_rfl, id⟩
    next =>
      split
      · exact ⟨le_rfl, fun within => (length_remove _ _).trans within⟩
      · split
        next => exact ⟨le_rfl, id⟩
        next =>
          split
          next => exact ⟨le_rfl, fun within => (length_replace _ _).trans_le within⟩
          next done =>
            obtain ⟨more, entries⟩ := render_pages done
            refine ⟨more, fun within => (length_replace _ _).trans_le ?_⟩
            rw [entries]
            exact within

section

variable (short : ∀ index, utf8Bytes (quoted (sources.uuid index)) ≤ 38)

include short

theorem sound_call {history : PageHistory} {origins : Nat → Origin}
    (sound : history.Sound limits sources origins) (made : PageCall)
    (distinct : Distinct sources (history.call limits sources made).pages.drawn) :
    ∃ later, (history.call limits sources made).Sound limits sources later := by
  cases made with
  | retain outcome scope => exact sound.retain short outcome scope distinct
  | next cursor fresh => exact sound.next' short cursor fresh distinct
  | clear => exact ⟨origins, {
      cursors := by simp [call, clear]
      resolves := by simp [call, clear]
      entries := by simp [call, clear]
      different := nodup_nil
      next := by simp [call, clear]
      issued := by simp [call, clear]
      deliveries := sound.deliveries
      followed := by simp [call, clear] }⟩

theorem sound_run (calls : List PageCall)
    (distinct : Distinct sources (run limits sources calls).pages.drawn) :
    (∃ origins, (run limits sources calls).Sound limits sources origins) ∧
      (run limits sources calls).pages.entries.length ≤ limits.capacity := by
  induction calls using List.reverseRecOn with
  | nil => exact ⟨⟨fun _ => .entry [], by constructor <;> simp [run, foldl_nil]⟩, Nat.zero_le _⟩
  | append_singleton calls last ih =>
    have one : run limits sources (calls ++ [last]) = (run limits sources calls).call limits sources last := foldl_concat ..
    rw [one] at distinct ⊢
    obtain ⟨more, within⟩ := @call_size limits sources (run limits sources calls) last
    obtain ⟨⟨origins, sound⟩, few⟩ := ih (distinct.mono more)
    exact ⟨sound_call short sound last distinct, within few⟩

end

end PageHistory

inductive Follows (deliveries : List Delivery) : Delivery → List Delivery → Prop
  | last {page : Delivery} (delivered : page ∈ deliveries) (none' : page.output.page.nextCursor = none) :
      Follows deliveries page [page]
  | more {page following : Delivery} {rest : List Delivery} {cursor : Text} (delivered : page ∈ deliveries)
      (some' : page.output.page.nextCursor = some cursor) (asked : following.asked = some cursor)
      (follows : Follows deliveries following rest) : Follows deliveries page (page :: rest)

def Delivers (page : Delivery) (rows : List Record) : Prop :=
  page.output.page.returned = rows.length ∧ ∀ collection, page.output.records collection = recordsOf collection rows

theorem Follows.head {deliveries chain : List Delivery} {page : Delivery} (follows : Follows deliveries page chain) :
    page ∈ deliveries := by
  cases follows <;> assumption

namespace PageHistory

variable {limits : PageLimits} {sources : PageSources}

theorem delivers {origins : Nat → Origin} {drawn : Nat} {page : Delivery} (sound : page.Sound limits sources origins drawn) :
    Delivers page ((page.entry.rows.drop page.output.page.offset).take page.output.page.returned) :=
  ⟨(length_take_of_le sound.inside).symm, sound.records⟩

theorem Sound.follows {history : PageHistory} {origins : Nat → Origin} (sound : history.Sound limits sources origins)
    (distinct : Distinct sources history.pages.drawn) {page : Delivery} {chain : List Delivery}
    (follows : Follows history.deliveries page chain) :
    ∃ parts : List (List Record), parts.flatten = page.entry.rows.drop page.output.page.offset ∧
      Forall₂ Delivers chain parts := by
  induction follows with
  | @last page delivered none' =>
    have own := sound.deliveries page delivered
    refine ⟨[_], ?_, .cons (delivers own) .nil⟩
    have whole := own.last none'
    rw [flatten_singleton, take_of_length_le]
    rw [length_drop]
    omega
  | @more page following rest cursor delivered some' asked follows ih =>
    obtain ⟨parts, flat, each⟩ := ih
    have own := sound.deliveries page delivered
    have other := sound.deliveries following follows.head
    -- the cursor was drawn for one place only
    have place := (own.next cursor some').unique distinct (other.asked cursor asked)
    injection place with id offset
    have rows := own.own.unique distinct (id ▸ other.own)
    injection rows with rows
    refine ⟨_ :: parts, ?_, .cons (delivers own) each⟩
    rw [flatten_cons, flat, ← rows, ← offset, ← drop_drop, take_append_drop]

theorem assertIssued_iff (pages : Pages) (id : Text) (action : Action) :
    pages.assertIssued id action = .ok () ↔ ∃ entry, pages.entry? id = some entry ∧ ∀ ref ∈ Action.refs action, ref ∈ entry.issued := by
  rw [assertIssued]
  dsimp only
  have accepted : ((pages.entry? id).any fun entry => (Action.refs action).all fun ref => ref ∈ entry.issued) = true ↔
      ∃ entry, pages.entry? id = some entry ∧ ∀ ref ∈ Action.refs action, ref ∈ entry.issued := by
    cases pages.entry? id <;> simp
  rw [← accepted]
  split
  next yes => exact ⟨fun _ => yes, fun _ => rfl⟩
  next no => exact ⟨nofun, fun yes => absurd yes no⟩

theorem mem_refs (page : Delivery) (ref : Text) :
    ref ∈ refs page ↔ ∃ element ∈ page.output.records .elements, refOf element = some ref :=
  mem_filterMap

theorem entry?_of_mem {pages : Pages} {entry : Entry} (member : entry ∈ pages.entries) : (pages.entry? entry.id).isSome := by
  rw [ entry?, find?_isSome]
  exact ⟨entry, member, by simp⟩

end PageHistory

end LoginomDock.Client
