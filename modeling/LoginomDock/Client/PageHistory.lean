import LoginomDock.Client.PageDelivery

namespace LoginomDock.Client

open Json Pages List Function

inductive PageCall where
  | retain (outcome : Json) (scope : Text)
  | next (cursor : Text) (fresh : Json)
  | clear

structure Delivery where
  asked : Option Text
  entry : Entry
  output : PageOutput

structure PageHistory where
  pages : Pages := {}
  deliveries : List Delivery := []

namespace PageHistory

def deliver (history : PageHistory) (pages : Pages) (asked : Option Text) : Option (Entry × PageOutput) → PageHistory
  | none => { history with pages := pages }
  | some (entry, output) => ⟨pages, history.deliveries ++ [⟨asked, entry, output⟩]⟩

def call (limits : PageLimits) (sources : PageSources) (history : PageHistory) : PageCall → PageHistory
  | .retain outcome scope =>
    let done := history.pages.retain limits sources outcome scope
    history.deliver done.1 none (done.2.toOption.bind id)
  | .next cursor fresh =>
    let done := history.pages.next limits sources cursor fresh
    history.deliver done.1 (some cursor) (done.2.toOption.map fun page => (page.1, page.2.2))
  | .clear => { history with pages := history.pages.clear }

def run (limits : PageLimits) (sources : PageSources) (calls : List PageCall) : PageHistory :=
  calls.foldl (call limits sources) {}

end PageHistory

inductive Origin where
  | entry (rows : List Record)
  | place (id : Text) (offset : Nat)

def Drawn (sources : PageSources) (origins : Nat → Origin) (drawn : Nat) (text : Text) (origin : Origin) : Prop :=
  ∃ index < drawn, sources.uuid index = text ∧ origins index = origin

def Distinct (sources : PageSources) (drawn : Nat) : Prop :=
  ∀ first < drawn, ∀ second < drawn, sources.uuid first = sources.uuid second → first = second

theorem Distinct.mono {sources : PageSources} {drawn now : Nat} (more : drawn ≤ now) (distinct : Distinct sources now) :
    Distinct sources drawn :=
  fun first before second prior => distinct first (by omega) second (by omega)

namespace Drawn

variable {sources : PageSources} {origins later : Nat → Origin} {drawn now : Nat} {text : Text} {first second : Origin}

theorem unique (distinct : Distinct sources drawn) (one : Drawn sources origins drawn text first)
    (other : Drawn sources origins drawn text second) : first = second := by
  obtain ⟨index, before, uuid, rfl⟩ := one
  obtain ⟨position, prior, uuid', rfl⟩ := other
  rw [distinct index before position prior (uuid.trans uuid'.symm)]

theorem extend (more : drawn ≤ now) (kept : ∀ index < drawn, later index = origins index)
    (one : Drawn sources origins drawn text first) : Drawn sources later now text first := by
  obtain ⟨index, before, uuid, origin⟩ := one
  exact ⟨index, by omega, uuid, (kept index before).trans origin⟩

theorem ne_fresh (distinct : Distinct sources (drawn + 1)) (one : Drawn sources origins drawn text first) :
    text ≠ sources.uuid drawn := by
  obtain ⟨index, before, rfl, -⟩ := one
  intro same
  have := distinct index (by omega) drawn (by omega) same
  omega

end Drawn

namespace Delivery

structure Sound (limits : PageLimits) (sources : PageSources) (origins : Nat → Origin) (drawn : Nat) (page : Delivery) : Prop where
  fits : page.output.bytes sources ≤ limits.maxBytes
  own : Drawn sources origins drawn page.entry.id (.entry page.entry.rows)
  records : ∀ collection, page.output.records collection =
    recordsOf collection ((page.entry.rows.drop page.output.page.offset).take page.output.page.returned)
  inside : page.output.page.returned ≤ (page.entry.rows.drop page.output.page.offset).length
  first : page.asked = none →
    page.output.page.offset = 0 ∧ page.entry.rows = Client.records page.entry.snapshot page.entry.scope
  asked : ∀ cursor, page.asked = some cursor →
    Drawn sources origins drawn cursor (.place page.entry.id page.output.page.offset)
  last : page.output.page.nextCursor = none →
    page.entry.rows.length ≤ page.output.page.offset + page.output.page.returned
  next : ∀ cursor, page.output.page.nextCursor = some cursor →
    Drawn sources origins drawn cursor (.place page.entry.id (page.output.page.offset + page.output.page.returned))

theorem Sound.extend {limits : PageLimits} {sources : PageSources} {origins later : Nat → Origin} {drawn now : Nat} {page : Delivery}
    (more : drawn ≤ now) (kept : ∀ index < drawn, later index = origins index) (sound : page.Sound limits sources origins drawn) :
    page.Sound limits sources later now where
  __ := sound
  own := sound.own.extend more kept
  asked cursor same := (sound.asked cursor same).extend more kept
  next cursor same := (sound.next cursor same).extend more kept

end Delivery

namespace PageHistory

def refs (page : Delivery) : List Text := (page.output.records .elements).filterMap refOf

structure Sound (limits : PageLimits) (sources : PageSources) (origins : Nat → Origin) (history : PageHistory) : Prop where
  cursors : ∀ cursor page, history.pages.cursors.lookup cursor = some page →
    Drawn sources origins history.pages.drawn cursor (.place page.1 page.2)
  resolves : ∀ cursor page, history.pages.cursors.lookup cursor = some page → ∃ entry ∈ history.pages.entries, entry.id = page.1
  entries : ∀ entry ∈ history.pages.entries, Drawn sources origins history.pages.drawn entry.id (.entry entry.rows)
  different : (history.pages.entries.map Entry.id).Nodup
  next : ∀ entry ∈ history.pages.entries, ∀ place ∈ entry.next,
    history.pages.cursors.lookup place.2 = some (entry.id, place.1)
  issued : ∀ entry ∈ history.pages.entries, ∀ ref,
    ref ∈ entry.issued ↔ ∃ page ∈ history.deliveries, page.entry.id = entry.id ∧ ref ∈ refs page
  deliveries : ∀ page ∈ history.deliveries, page.Sound limits sources origins history.pages.drawn
  followed : ∀ page ∈ history.deliveries, ∀ cursor, page.output.page.nextCursor = some cursor →
    ∀ entry ∈ history.pages.entries, entry.id = page.entry.id →
      (page.output.page.offset + page.output.page.returned, cursor) ∈ entry.next

variable {limits : PageLimits} {sources : PageSources} {origins : Nat → Origin} {history : PageHistory}
variable {asked : Option Text} {offset count : Nat} {output : PageOutput}

theorem lookup_remove (pages : Pages) (id cursor : Text) :
    (pages.remove id).cursors.lookup cursor = (pages.cursors.lookup cursor).filter fun page => decide (page.1 ≠ id) := by
  rw [Pages.remove]
  dsimp only
  have erased := Table.lookup_foldl_erase ((pages.cursors.entries.filter fun page => page.2.1 = id).map Sigma.fst) pages.cursors cursor
  rw [foldl_map] at erased
  rw [erased]
  cases found : pages.cursors.lookup cursor with
  | none => simp
  | some page =>
    by_cases gone : page.1 = id
    · have there : cursor ∈ (pages.cursors.entries.filter fun page => page.2.1 = id).map Sigma.fst :=
        mem_map.mpr ⟨⟨cursor, page⟩, mem_filter.mpr ⟨(Table.mem_entries_iff _ _ _).mpr found, by simp [gone]⟩, rfl⟩
      rw [if_pos there]
      simp [Option.filter, gone]
    · have kept : cursor ∉ (pages.cursors.entries.filter fun page => page.2.1 = id).map Sigma.fst := by
        intro there
        obtain ⟨⟨name, other⟩, member, rfl⟩ := mem_map.mp there
        obtain ⟨inside, own⟩ := mem_filter.mp member
        have same := (Table.mem_entries_iff _ _ _).mp inside
        rw [found] at same
        cases same
        exact gone (by simpa using own)
      rw [if_neg kept]
      simp [Option.filter, gone]

theorem mem_remove (pages : Pages) (id : Text) (entry : Entry) :
    entry ∈ (pages.remove id).entries ↔ entry ∈ pages.entries ∧ entry.id ≠ id := by
  simp [Pages.remove]

theorem Sound.remove (sound : history.Sound limits sources origins) (id : Text) :
    ({ history with pages := history.pages.remove id } : PageHistory).Sound limits sources origins where
  cursors cursor page found := by
    rw [lookup_remove, Option.filter_eq_some_iff] at found
    exact sound.cursors cursor page found.1
  resolves cursor page found := by
    rw [lookup_remove, Option.filter_eq_some_iff] at found
    obtain ⟨entry, member, own⟩ := sound.resolves cursor page found.1
    have other : page.1 ≠ id := by simpa using found.2
    exact ⟨entry, (mem_remove _ _ _).mpr ⟨member, own ▸ other⟩, own⟩
  entries entry member := sound.entries entry ((mem_remove _ _ _).mp member).1
  different := (filter_sublist.map _).nodup sound.different
  next entry member place inside := by
    obtain ⟨there, other⟩ := (mem_remove _ _ _).mp member
    rw [lookup_remove, sound.next entry there place inside]
    simp [other]
  issued entry member := sound.issued entry ((mem_remove _ _ _).mp member).1
  deliveries := sound.deliveries
  followed page member cursor next entry inside := sound.followed page member cursor next entry ((mem_remove _ _ _).mp inside).1

theorem Sound.removeAll (ids : List Text) (sound : history.Sound limits sources origins) :
    ({ history with pages := ids.foldl Pages.remove history.pages } : PageHistory).Sound limits sources origins := by
  induction ids generalizing history with
  | nil => exact sound
  | cons id rest ih => exact ih (sound.remove id)

theorem Sound.evict (sound : history.Sound limits sources origins) (capacity : Nat) :
    ({ history with pages := history.pages.evict capacity } : PageHistory).Sound limits sources origins :=
  sound.removeAll ((history.pages.entries.take (history.pages.entries.length - capacity)).map Entry.id)

theorem foldl_remove (ids : List Text) (pages : Pages) : (ids.foldl Pages.remove pages).drawn = pages.drawn ∧
    (ids.foldl Pages.remove pages).entries = pages.entries.filter fun entry => entry.id ∉ ids := by
  induction ids generalizing pages with
  | nil => simp
  | cons id rest ih =>
    obtain ⟨drawn, entries⟩ := ih (pages.remove id)
    refine ⟨drawn, ?_⟩
    rw [foldl_cons, entries, Pages.remove, filter_filter]
    refine filter_congr fun entry _ => ?_
    simp [Bool.and_comm]

theorem length_evict (capacity : Nat) (pages : Pages) : (pages.evict capacity).entries.length ≤ capacity := by
  rw [Pages.evict, (foldl_remove _ pages).2]
  have oldest := take_append_drop (pages.entries.length - capacity) pages.entries
  generalize pages.entries.take (pages.entries.length - capacity) = first at oldest ⊢
  have rest : (pages.entries.drop (pages.entries.length - capacity)).length ≤ capacity := by
    rw [length_drop]
    omega
  rw [← oldest, filter_append]
  have gone : (first.filter fun entry => entry.id ∉ first.map Entry.id) = [] := by
    refine filter_eq_nil_iff.mpr fun entry member => ?_
    simpa using ⟨entry, member, rfl⟩
  rw [gone, nil_append]
  exact (length_filter_le _ _).trans rest

theorem mem_replace (pages : Pages) (now entry : Entry) : entry ∈ (pages.replace now).entries ↔
    (entry ∈ pages.entries ∧ entry.id ≠ now.id) ∨ (entry = now ∧ ∃ old ∈ pages.entries, old.id = now.id) := by
  rw [Pages.replace]
  simp only [mem_map]
  constructor
  · rintro ⟨old, member, rfl⟩
    by_cases own : old.id = now.id
    · exact .inr ⟨if_pos own, old, member, own⟩
    · rw [if_neg own]
      exact .inl ⟨member, own⟩
  · rintro (⟨member, other⟩ | ⟨rfl, old, member, own⟩)
    · exact ⟨entry, member, if_neg other⟩
    · exact ⟨old, member, if_pos own⟩

theorem ids_replace (pages : Pages) (now : Entry) : (pages.replace now).entries.map Entry.id = pages.entries.map Entry.id := by
  rw [Pages.replace]
  dsimp only
  rw [map_map]
  refine map_congr_left fun entry _ => ?_
  rw [comp_apply]
  split
  next own => exact own.symm
  next => rfl

-- An entry of the same records, references and cursors
structure Alike (first second : Entry) : Prop where
  id : second.id = first.id
  rows : second.rows = first.rows
  issued : second.issued = first.issued
  next : second.next = first.next

theorem Sound.replace (sound : history.Sound limits sources origins) {old now : Entry} (member : old ∈ history.pages.entries)
    (alike : Alike old now) : ({ history with pages := history.pages.replace now } : PageHistory).Sound limits sources origins := by
  have each : ∀ entry ∈ (history.pages.replace now).entries, ∃ before ∈ history.pages.entries, Alike before entry := by
    intro entry inside
    rcases (mem_replace _ _ _).mp inside with ⟨there, -⟩ | ⟨rfl, -⟩
    · exact ⟨entry, there, rfl, rfl, rfl, rfl⟩
    · exact ⟨old, member, alike⟩
  refine ⟨sound.cursors, ?_, ?_, (ids_replace _ _).symm ▸ sound.different, ?_, ?_, sound.deliveries, ?_⟩
  · intro cursor page found
    obtain ⟨entry, there, own⟩ := sound.resolves cursor page found
    by_cases same : entry.id = now.id
    · exact ⟨now, (mem_replace _ _ _).mpr (.inr ⟨rfl, entry, there, same⟩), same.symm.trans own⟩
    · exact ⟨entry, (mem_replace _ _ _).mpr (.inl ⟨there, same⟩), own⟩
  · intro entry inside
    obtain ⟨before, there, id, rows, -, -⟩ := each entry inside
    rw [id, rows]
    exact sound.entries before there
  · intro entry inside
    obtain ⟨before, there, id, -, -, next⟩ := each entry inside
    rw [id, next]
    exact sound.next before there
  · intro entry inside
    obtain ⟨before, there, id, -, issued, -⟩ := each entry inside
    rw [id, issued]
    exact sound.issued before there
  · intro page delivered cursor same entry inside own
    obtain ⟨before, there, id, -, -, next⟩ := each entry inside
    rw [next]
    exact sound.followed page delivered cursor same before there (id.symm.trans own)

theorem replace_replace (pages : Pages) {first second : Entry} (same : second.id = first.id) :
    (pages.replace first).replace second = pages.replace second := by
  simp only [Pages.replace, map_map]
  congr 1
  refine map_congr_left fun entry _ => ?_
  rw [comp_apply]
  by_cases own : entry.id = first.id
  · rw [if_pos own, if_pos same.symm, if_pos (own.trans same.symm)]
  · rw [if_neg own]

section

variable (sound : history.Sound limits sources origins)

include sound

theorem Sound.draw (origin : Origin) :
    ({ history with pages := { history.pages with drawn := history.pages.drawn + 1 } } : PageHistory).Sound limits sources
      (Function.update origins history.pages.drawn origin) := by
  have kept : ∀ index < history.pages.drawn, Function.update origins history.pages.drawn origin index = origins index :=
    fun index before => update_of_ne (by omega) _ _
  have more : history.pages.drawn ≤ history.pages.drawn + 1 := by omega
  exact {
    cursors := fun cursor page found => (sound.cursors cursor page found).extend more kept
    resolves := sound.resolves
    entries := fun entry member => (sound.entries entry member).extend more kept
    different := sound.different
    next := sound.next
    issued := sound.issued
    deliveries := fun page member => (sound.deliveries page member).extend more kept
    followed := sound.followed }

theorem Sound.add {entry : Entry}
    (drawn : Drawn sources origins history.pages.drawn entry.id (.entry entry.rows))
    (unused : (∀ other ∈ history.pages.entries, other.id ≠ entry.id) ∧ ∀ page ∈ history.deliveries, page.entry.id ≠ entry.id)
    (empty : entry.issued = [] ∧ entry.next = []) :
    ({ history with pages := { history.pages with entries := history.pages.entries ++ [entry] } } : PageHistory).Sound
      limits sources origins := by
  have each : ∀ other ∈ history.pages.entries ++ [entry], other ∈ history.pages.entries ∨ other = entry := by
    simp
  refine ⟨sound.cursors, ?_, ?_, ?_, ?_, ?_, sound.deliveries, ?_⟩
  · intro cursor page found
    obtain ⟨other, member, own⟩ := sound.resolves cursor page found
    exact ⟨other, mem_append_left _ member, own⟩
  · intro other member
    rcases each other member with there | rfl
    · exact sound.entries other there
    · exact drawn
  · rw [map_append, nodup_append]
    refine ⟨sound.different, nodup_singleton _, ?_⟩
    intro id member last same
    obtain ⟨other, there, rfl⟩ := mem_map.mp member
    rw [map_singleton, mem_singleton] at same
    subst same
    exact unused.1 other there
  · intro other member
    rcases each other member with there | rfl
    · exact sound.next other there
    · simp [empty.2]
  · intro other member ref
    rcases each other member with there | rfl
    · exact sound.issued other there ref
    · rw [empty.1]
      simp only [not_mem_nil, false_iff, not_exists, not_and]
      exact fun page delivered own => absurd own (unused.2 page delivered)
  · intro page delivered cursor same other member own
    rcases each other member with there | rfl
    · exact sound.followed page delivered cursor same other there own
    · exact absurd own.symm (unused.2 page delivered)

theorem Sound.place {entry : Entry} (member : entry ∈ history.pages.entries)
    {cursor : Text} {offset : Nat} (drawn : Drawn sources origins history.pages.drawn cursor (.place entry.id offset))
    (unused : history.pages.cursors.lookup cursor = none) :
    (⟨({ history.pages with cursors := history.pages.cursors.insert cursor (entry.id, offset) } : Pages).replace
      { entry with next := entry.next ++ [(offset, cursor)] }, history.deliveries⟩ : PageHistory).Sound limits sources origins := by
  have found : ∀ other page, (history.pages.cursors.insert cursor (entry.id, offset)).lookup other = some page →
      (other = cursor ∧ page = (entry.id, offset)) ∨ history.pages.cursors.lookup other = some page := by
    intro other page found
    rw [Table.lookup_insert_if] at found
    split at found
    next same => exact .inl ⟨same, by injection found with found; exact found.symm⟩
    next => exact .inr found
  have kept : ∀ other page, history.pages.cursors.lookup other = some page →
      (history.pages.cursors.insert cursor (entry.id, offset)).lookup other = some page := by
    intro other page there
    rw [Table.lookup_insert_if, if_neg ?_]
    · exact there
    · rintro rfl
      rw [unused] at there
      cases there
  let placed : Entry := { entry with next := entry.next ++ [(offset, cursor)] }
  have each : ∀ other ∈ (history.pages.replace placed).entries,
      (other ∈ history.pages.entries ∧ other.id ≠ entry.id) ∨ other = placed := by
    intro other inside
    rcases (mem_replace _ _ _).mp inside with ⟨there, different⟩ | ⟨same, -⟩
    · exact .inl ⟨there, different⟩
    · exact .inr same
  refine ⟨?_, ?_, ?_, (ids_replace _ _).symm ▸ sound.different, ?_, ?_, sound.deliveries, ?_⟩
  · intro other page there
    rcases found other page there with ⟨rfl, rfl⟩ | there
    · exact drawn
    · exact sound.cursors other page there
  · intro other page there
    have own : ∃ old ∈ history.pages.entries, old.id = page.1 := by
      rcases found other page there with ⟨rfl, rfl⟩ | there
      · exact ⟨entry, member, rfl⟩
      · exact sound.resolves other page there
    obtain ⟨old, inside, own⟩ := own
    by_cases same : old.id = entry.id
    · exact ⟨placed, (mem_replace _ _ _).mpr (.inr ⟨rfl, entry, member, rfl⟩), same.symm.trans own⟩
    · exact ⟨old, (mem_replace _ _ _).mpr (.inl ⟨inside, same⟩), own⟩
  · intro other inside
    rcases each other inside with ⟨there, -⟩ | rfl
    · exact sound.entries other there
    · exact sound.entries entry member
  · intro other inside place next
    rcases each other inside with ⟨there, -⟩ | rfl
    · exact kept _ _ (sound.next other there place next)
    · rcases mem_append.mp next with old | new
      · exact kept _ _ (sound.next entry member place old)
      · rw [mem_singleton.mp new]
        exact AList.lookup_insert _
  · intro other inside
    rcases each other inside with ⟨there, -⟩ | rfl
    · exact sound.issued other there
    · exact sound.issued entry member
  · intro page delivered next same other inside own
    rcases each other inside with ⟨there, -⟩ | rfl
    · exact sound.followed page delivered next same other there own
    · exact mem_append_left _ (sound.followed page delivered next same entry member own)

theorem Sound.log {old : Entry} (member : old ∈ history.pages.entries)
    {page : Delivery} (kept : page.entry.id = old.id ∧ page.entry.rows = old.rows ∧ page.entry.next = old.next)
    (issued : page.entry.issued = old.issued ++ refs page) (own : page.Sound limits sources origins history.pages.drawn)
    (followed : ∀ cursor, page.output.page.nextCursor = some cursor →
      (page.output.page.offset + page.output.page.returned, cursor) ∈ page.entry.next) :
    (⟨history.pages.replace page.entry, history.deliveries ++ [page]⟩ : PageHistory).Sound limits sources origins := by
  obtain ⟨id, rows, next⟩ := kept
  have each : ∀ entry ∈ (history.pages.replace page.entry).entries,
      (entry ∈ history.pages.entries ∧ entry.id ≠ page.entry.id) ∨ entry = page.entry := by
    intro other inside
    rcases (mem_replace _ _ _).mp inside with ⟨there, different⟩ | ⟨same, -⟩
    · exact .inl ⟨there, different⟩
    · exact .inr same
  refine ⟨sound.cursors, ?_, ?_, (ids_replace _ _).symm ▸ sound.different, ?_, ?_, ?_, ?_⟩
  · intro cursor place found
    obtain ⟨entry, there, same⟩ := sound.resolves cursor place found
    by_cases this : entry.id = page.entry.id
    · exact ⟨page.entry, (mem_replace _ _ _).mpr (.inr ⟨rfl, old, member, id.symm⟩), this.symm.trans same⟩
    · exact ⟨entry, (mem_replace _ _ _).mpr (.inl ⟨there, this⟩), same⟩
  · intro entry inside
    rcases each entry inside with ⟨there, -⟩ | rfl
    · exact sound.entries entry there
    · exact own.own
  · intro entry inside
    rcases each entry inside with ⟨there, -⟩ | rfl
    · exact sound.next entry there
    · rw [next, id]
      exact sound.next old member
  · intro entry inside ref
    have others : (∃ other ∈ history.deliveries ++ [page], other.entry.id = entry.id ∧ ref ∈ refs other) ↔
        (∃ other ∈ history.deliveries, other.entry.id = entry.id ∧ ref ∈ refs other) ∨
          (page.entry.id = entry.id ∧ ref ∈ refs page) := by
      simp only [mem_append, mem_singleton, or_and_right, exists_or, exists_eq_left]
    rw [others]
    rcases each entry inside with ⟨there, different⟩ | rfl
    · rw [sound.issued entry there]
      simp [Ne.symm different]
    · rw [issued, mem_append, sound.issued old member, id]
      simp
  · intro other inside
    rcases mem_append.mp inside with there | last
    · exact sound.deliveries other there
    · rw [mem_singleton.mp last]
      exact own
  · intro other inside cursor same entry there this
    rcases mem_append.mp inside with earlier | last
    · rcases each entry there with ⟨member, -⟩ | rfl
      · exact sound.followed other earlier cursor same entry member this
      · rw [next]
        exact sound.followed other earlier cursor same old member (id.symm.trans this)
    · rw [mem_singleton.mp last] at same this ⊢
      rcases each entry there with ⟨-, different⟩ | rfl
      · exact absurd this different
      · exact followed cursor same

theorem Sound.logRendered {pages after : Pages} {old entry now : Entry}
    (member : old ∈ history.pages.entries) (kept : now.id = old.id ∧ now.rows = old.rows ∧ now.next = old.next)
    (issued : now.issued = old.issued ++ (output.records .elements).filterMap refOf)
    (renders : Renders limits sources pages entry offset after now output count)
    (first : asked = none → offset = 0 ∧ now.rows = Client.records now.snapshot now.scope)
    (asking : ∀ cursor, asked = some cursor → Drawn sources origins history.pages.drawn cursor (.place old.id offset))
    (here : ∀ cursor, output.page.nextCursor = some cursor → (offset + count, cursor) ∈ old.next) :
    (⟨history.pages.replace now, history.deliveries ++ [⟨asked, now, output⟩]⟩ : PageHistory).Sound limits sources origins := by
  obtain ⟨id, rows, next⟩ := kept
  obtain ⟨place, returned⟩ := renders.place
  have same : now.rows = entry.rows := renders.kept.2
  have own : Delivery.Sound limits sources origins history.pages.drawn ⟨asked, now, output⟩ := {
    fits := renders.fits
    own := by
      rw [id, rows]
      exact sound.entries old member
    records := by
      rw [place, returned, same]
      exact renders.records
    inside := by
      rw [place, returned, same]
      exact renders.inside
    first := fun none' => ⟨place.trans (first none').1, (first none').2⟩
    asked := fun cursor some' => by
      rw [place, id]
      exact asking cursor some'
    last := fun none' => by
      rw [place, returned, same]
      exact renders.last none'
    next := fun cursor some' => by
      rw [place, returned, id]
      exact sound.cursors cursor _ (sound.next old member _ (here cursor some')) }
  refine @Sound.log _ _ _ _ sound _ member ⟨asked, now, output⟩ ⟨id, rows, next⟩ issued own fun cursor some' => ?_
  dsimp only
  rw [place, returned, next]
  exact here cursor some'

theorem Sound.deliver {after : Pages} {old entry now : Entry}
    (member : old ∈ history.pages.entries) (alike : Alike old entry)
    (renders : Renders limits sources history.pages entry offset after now output count) (distinct : Distinct sources after.drawn)
    (first : asked = none → offset = 0 ∧ now.rows = Client.records now.snapshot now.scope)
    (asking : ∀ cursor, asked = some cursor → Drawn sources origins history.pages.drawn cursor (.place old.id offset)) :
    ∃ later, (⟨after.replace now, history.deliveries ++ [⟨asked, now, output⟩]⟩ : PageHistory).Sound limits sources later := by
  have id : now.id = old.id := renders.kept.1.trans alike.id
  have rows : now.rows = old.rows := renders.kept.2.trans alike.rows
  have issued : now.issued = old.issued ++ (output.records .elements).filterMap refOf := by rw [renders.issued, alike.issued]
  rcases renders.next with ⟨rfl, next, here⟩ | ⟨drawn, rfl, next⟩
  · rw [alike.next] at next here
    exact ⟨origins, sound.logRendered member ⟨id, rows, next⟩ issued renders first asking here⟩
  · let later := Function.update origins history.pages.drawn (.place old.id (offset + count))
    have kept : ∀ index < history.pages.drawn, later index = origins index :=
      fun index before => update_of_ne (by omega) _ _
    let placed : Entry := { old with next := old.next ++ [(offset + count, sources.uuid history.pages.drawn)] }
    have unused : history.pages.cursors.lookup (sources.uuid history.pages.drawn) = none := by
      refine Option.eq_none_iff_forall_ne_some.mpr fun page found => ?_
      exact (sound.cursors _ page found).ne_fresh distinct rfl
    have now' := @Sound.place _ _ _ _ (sound.draw (.place old.id (offset + count))) _ member (sources.uuid history.pages.drawn)
      (offset + count) ⟨history.pages.drawn, by dsimp only; omega, rfl, update_self ..⟩ unused
    have inside := (mem_replace history.pages placed placed).mpr (.inr ⟨rfl, old, member, rfl⟩)
    have logged := @Sound.logRendered _ _ _ _ asked _ _ _ now' _ _ placed _ now inside ⟨id, rows, by rw [next, alike.next]⟩ issued
      renders first (fun cursor some' => (asking cursor some').extend (Nat.le_succ _) kept) (by
        intro cursor some'
        rw [drawn] at some'
        cases some'
        simp [placed])
    let after : Pages := { history.pages with
      cursors := history.pages.cursors.insert (sources.uuid history.pages.drawn) (old.id, offset + count)
      drawn := history.pages.drawn + 1 }
    have same : (after.replace placed).replace now = after.replace now := replace_replace after id
    refine ⟨later, ?_⟩
    rw [alike.id, ← same]
    exact logged

theorem Sound.short_next (short : ∀ index, utf8Bytes (quoted (sources.uuid index)) ≤ 38)
    {entry : Entry} (member : entry ∈ history.pages.entries) : ∀ place ∈ entry.next, utf8Bytes (quoted place.2) ≤ 38 := by
  intro place inside
  obtain ⟨index, -, uuid, -⟩ := sound.cursors place.2 _ (sound.next entry member place inside)
  rw [← uuid]
  exact short index

end

theorem renders_entries {pages after : Pages} {entry now : Entry} (entries : List Entry)
    (renders : Renders limits sources pages entry offset after now output count) :
    Renders limits sources { pages with entries := entries } entry offset { after with entries := entries } now output count where
  __ := renders
  next := by
    rcases renders.next with ⟨rfl, rest⟩ | ⟨drawn, rfl, rest⟩
    · exact .inl ⟨rfl, rest⟩
    · exact .inr ⟨drawn, rfl, rest⟩

theorem Sound.retain (short : ∀ index, utf8Bytes (quoted (sources.uuid index)) ≤ 38) (sound : history.Sound limits sources origins)
    (outcome : Json) (scope : Text) (distinct : Distinct sources (history.call limits sources (.retain outcome scope)).pages.drawn) :
    ∃ later, (history.call limits sources (.retain outcome scope)).Sound limits sources later := by
  simp only [call, Pages.retain] at distinct ⊢
  cases named : Scope.ofName scope with
  | none => exact ⟨origins, sound⟩
  | some scope =>
    rw [named] at distinct
    dsimp only at distinct ⊢
    split
    next => exact ⟨origins, sound⟩
    next ui =>
      rw [if_neg ui] at distinct
      generalize (outcome.member? "output").getD .null = snapshot at distinct ⊢
      generalize outcome.member? "operation_id" = receipt at distinct ⊢
      set fresh : Entry := ⟨sources.uuid history.pages.drawn, snapshot, receipt, revision sources snapshot, scope,
        Client.records snapshot scope, [], []⟩ with fresh_eq
      have drawn := sound.draw (.entry fresh.rows)
      cases done : render limits sources { history.pages with drawn := history.pages.drawn + 1 } fresh 0 with
      | error message => exact ⟨_, drawn⟩
      | ok rendered =>
        obtain ⟨after, now, output⟩ := rendered
        rw [done] at distinct
        change Distinct sources (Pages.evict limits.capacity { after with entries := after.entries ++ [now] }).drawn at distinct
        rw [Pages.evict, (foldl_remove _ _).1] at distinct
        obtain ⟨count, renders⟩ := render_spec limits sources (short _) (by simp [fresh_eq]) done
        have later : after.entries = history.pages.entries ∧ history.pages.drawn + 1 ≤ after.drawn := by
          rcases renders.next with ⟨rfl, -⟩ | ⟨-, rfl, -⟩
          · exact ⟨rfl, le_rfl⟩
          · exact ⟨rfl, Nat.le_succ _⟩
        have before := distinct.mono later.2
        have unused : (∀ other ∈ history.pages.entries, other.id ≠ fresh.id) ∧
            ∀ page ∈ history.deliveries, page.entry.id ≠ fresh.id :=
          ⟨fun other member => (sound.entries other member).ne_fresh before,
            fun page member => (sound.deliveries page member).own.ne_fresh before⟩
        have added := @Sound.add _ _ _ _ drawn fresh
          ⟨history.pages.drawn, Nat.lt_succ_self _, rfl, update_self ..⟩ unused ⟨rfl, rfl⟩
        have member : fresh ∈ history.pages.entries ++ [fresh] := by simp
        obtain ⟨origins, delivered⟩ := @Sound.deliver _ _ _ _ none _ _ _ added _ _ _ _ member ⟨rfl, rfl, rfl, rfl⟩
          (renders_entries (history.pages.entries ++ [fresh]) renders) distinct
          (fun _ => ⟨rfl, by rw [renders.kept.2, renders.same.1, renders.same.2]⟩) nofun
        -- the rendered entry stands where the fresh one was put
        have stands : Pages.replace { after with entries := history.pages.entries ++ [fresh] } now =
            { after with entries := after.entries ++ [now] } := by
          rw [Pages.replace, later.1]
          dsimp only
          rw [map_append, map_singleton, if_pos renders.kept.1.symm]
          congr 2
          refine (map_congr_left fun other member => ?_).trans (map_id _)
          rw [if_neg]
          · rfl
          · rw [renders.kept.1]
            exact unused.1 other member
        rw [stands] at delivered
        exact ⟨origins, delivered.evict limits.capacity⟩

theorem entry?_eq_some {pages : Pages} {id : Text} {entry : Entry} (found : pages.entry? id = some entry) :
    entry ∈ pages.entries ∧ entry.id = id :=
  ⟨mem_of_find?_eq_some found, by simpa using find?_some found⟩

theorem Sound.next' (short : ∀ index, utf8Bytes (quoted (sources.uuid index)) ≤ 38) (sound : history.Sound limits sources origins)
    (cursor : Text) (fresh : Json) (distinct : Distinct sources (history.call limits sources (.next cursor fresh)).pages.drawn) :
    ∃ later, (history.call limits sources (.next cursor fresh)).Sound limits sources later := by
  simp only [call, Pages.next] at distinct ⊢
  split
  next => exact ⟨origins, sound⟩
  next entry _ found =>
    rw [found] at distinct
    dsimp only at distinct
    obtain ⟨⟨id, place⟩, there, rest⟩ := Option.bind_eq_some_iff.mp found
    obtain ⟨kept, retained, same⟩ := Option.map_eq_some_iff.mp rest
    cases same
    obtain ⟨member, own⟩ := entry?_eq_some retained
    split
    next => exact ⟨origins, sound.remove _⟩
    next matching =>
      rw [if_neg matching] at distinct
      split
      next => exact ⟨origins, sound⟩
      next snapshot counters =>
        rw [counters] at distinct
        dsimp only at distinct ⊢
        set refreshed : Entry := { entry with snapshot := snapshot, receiptOperationId := fresh.member? "operation_id" }
        have alike : Alike entry refreshed := ⟨rfl, rfl, rfl, rfl⟩
        cases done : render limits sources history.pages refreshed place with
        | error message => exact ⟨origins, sound.replace member alike⟩
        | ok rendered =>
          obtain ⟨after, now, output⟩ := rendered
          rw [done] at distinct
          have places := sound.short_next short member
          have known : ∀ place ∈ refreshed.next, utf8Bytes (quoted place.2) ≤ 38 := places
          obtain ⟨count, renders⟩ := render_spec limits sources (short history.pages.drawn) known done
          refine sound.deliver member alike renders distinct nofun ?_
          rintro asked ⟨⟩
          have leads := sound.cursors cursor _ there
          rw [← own] at leads
          exact leads

end PageHistory

end LoginomDock.Client
