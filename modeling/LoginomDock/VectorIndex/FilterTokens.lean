import LoginomDock.VectorIndex.IndexManager
import LoginomDock.VectorIndex.PlacedLabels

/-! A token stands for the bitmap that a filter had when the token was issued. -/

namespace LoginomDock.VectorIndex

open List FlatIndex IndexManager

section Tokens

variable {Q V : Type}

inductive TokenCall (Q : Type) where
  | addData (data : List (AddDataRequest Q)) (now : Nat)
  | deleteData (data : List DeleteDataRequest) (now : Nat)
  | setFilterLayout (orderedLabels : List Nat)
  | evaluateFilter (dsl : Text) (maxCachedCandidates : Nat)
  | evaluateFilterForRouting (dsl : Text) (nativeThreshold : Nat)
  | searchWithFilterToken (request : SearchRequest Q) (token : Nat)

structure TokenState (V : Type) where
  manager : IndexManager V
  issued : List (Nat × Text) := []

variable (runtime : Runtime Q V)

namespace TokenState

section

variable (state : TokenState V)

def evaluated (dsl : Text) (reply : Reply V FilterResult) : TokenState V where
  manager := reply.manager
  issued := if reply.result.nativeFilterToken = 0 then state.issued
    else (reply.result.nativeFilterToken, dsl) :: state.issued

def step : TokenCall Q → TokenState V
  | .addData data now => { state with manager := (state.manager.addData runtime data now).1 }
  | .deleteData data now => { state with manager := state.manager.deleteData runtime data now }
  | .setFilterLayout orderedLabels => { state with manager := state.manager.setFilterLayout orderedLabels }
  | .evaluateFilter dsl limit => state.evaluated dsl (state.manager.evaluateFilter runtime dsl limit)
  | .evaluateFilterForRouting dsl threshold =>
    state.evaluated dsl (state.manager.evaluateFilterForRouting runtime dsl threshold)
  | .searchWithFilterToken request token =>
    { state with manager := (state.manager.searchWithFilterToken runtime request token).manager }

def run (calls : List (TokenCall Q)) : TokenState V := calls.foldl (step runtime) state

def NeverStale : Prop :=
  ∀ token dsl, (token, dsl) ∈ state.issued → ∀ request : SearchRequest Q, request.dsl = dsl →
    (state.manager.searchWithFilterToken runtime request token).result.2 = true →
      ∃ reply, state.manager.search runtime request = some reply ∧ reply.ret = 0 ∧
        reply.result.labels = (state.manager.searchWithFilterToken runtime request token).result.1.labels

end

end TokenState

def AddDataRequest.Mismatched (data : AddDataRequest Q) : Prop := data.sparseRawTerms.length ≠ data.sparseValues.length

def ThrowsAtOnce : List (AddDataRequest Q) → Prop
  | [] => True
  | first :: rest => first.Mismatched ∨ ∀ data ∈ rest, ¬ data.Mismatched

def TokenState.Allows (state : TokenState V) : TokenCall Q → Prop
  | .addData data _ => state.manager.vectorIndex.sparse = none ∨ ThrowsAtOnce data
  | .evaluateFilter dsl _ | .evaluateFilterForRouting dsl _ =>
    (∀ context ∈ parseDslQuery runtime.parseJson dsl, context.sorterOp = none) ∧ state.issued.length + 2 < 2 ^ 64
  | _ => True

structure IndexManager.WithoutTokens (manager : IndexManager V) : Prop where
  next : manager.nextFilterToken = 1
  cache : manager.filterTokenCache = ∅

namespace IndexManager

variable {runtime} {manager after : IndexManager V}

structure SameFilters (manager after : IndexManager V) : Prop where
  fieldSets : after.fieldSets = manager.fieldSets
  offsets : ∀ label, after.offsetOf label = manager.offsetOf label

theorem SameFilters.refl (manager : IndexManager V) : SameFilters manager manager := ⟨rfl, fun _ => rfl⟩

theorem SameFilters.trans {last : IndexManager V} (same : SameFilters manager after) (more : SameFilters after last) :
    SameFilters manager last :=
  ⟨more.fieldSets.trans same.fieldSets, fun label => (more.offsets label).trans (same.offsets label)⟩

theorem SameFilters.calculate (same : SameFilters manager after) (filter : Option FilterOp) :
    after.calculateFilterBitmap runtime filter = manager.calculateFilterBitmap runtime filter := by
  have context : after.filterContext runtime = manager.filterContext runtime := by
    rw [filterContext, filterContext, same.fieldSets, funext same.offsets]
  unfold calculateFilterBitmap
  rw [context]

structure SameTokens (manager after : IndexManager V) : Prop where
  next : after.nextFilterToken = manager.nextFilterToken
  cache : after.filterTokenCache = manager.filterTokenCache

theorem offsetOf_eq_of_offset {label : Nat}
    (same : after.vectorIndex.getOffsetByLabel label = manager.vectorIndex.getOffsetByLabel label) :
    after.offsetOf label = manager.offsetOf label := by
  rw [offsetOf, offsetOf, same]

theorem offsetOf_absent {label : Nat} (absent : manager.vectorIndex.labelMap.lookup label = none) :
    manager.offsetOf label = none := by
  rw [offsetOf, getOffsetByLabel, absent]
  rfl

theorem addPoint_filters (shaped : manager.vectorIndex.Shaped) (data : AddDataRequest Q)
    {added : FlatIndex V × Bool}
    (adds : manager.vectorIndex.addPoint runtime.metric data.vector data.label
      (some ⟨data.sparseRawTerms, data.sparseValues⟩) = added) :
    added.1.Shaped ∧ added.1.sparse.isSome = manager.vectorIndex.sparse.isSome ∧
      (added.2 = true ↔ manager.vectorIndex.sparse.isSome = true ∧ data.Mismatched) ∧
      (added.2 = true ∨ { manager with vectorIndex := added.1 }.offsetOf data.label = none →
        SameFilters manager { manager with vectorIndex := added.1 }) := by
  obtain ⟨shapedNow, sparse, throws, offsets⟩ := addPoint_spec runtime.metric shaped data.vector data.label
    (some ⟨data.sparseRawTerms, data.sparseValues⟩)
  rw [adds] at shapedNow sparse throws offsets
  refine ⟨shapedNow, sparse, ?_, fun unseen => ⟨rfl, fun label => ?_⟩⟩
  · simpa [SparseGiven.Mismatched, AddDataRequest.Mismatched] using throws
  · rcases offsets label with same | ⟨rfl, absent, threw⟩
    · exact offsetOf_eq_of_offset same
    · rcases unseen with thrown | unseen
      · rw [threw] at thrown
        cases thrown
      · rw [unseen, offsetOf_absent absent]

-- What a batch leaves: no filter sees it unless a row was applied, and a batch that throws at once applies none.
theorem addRows_spec (shaped : manager.vectorIndex.Shaped) (data : List (AddDataRequest Q)) (hasUpdate : Bool) :
    (addRows runtime data manager hasUpdate).1.vectorIndex.Shaped ∧
      SameTokens manager (addRows runtime data manager hasUpdate).1 ∧
        ((addRows runtime data manager hasUpdate).2.1 = false →
          SameFilters manager (addRows runtime data manager hasUpdate).1) ∧
          (hasUpdate = true → (addRows runtime data manager hasUpdate).2.1 = true) ∧
            (manager.vectorIndex.sparse = none ∨ (∀ row ∈ data, ¬ row.Mismatched) →
              (addRows runtime data manager hasUpdate).2.2 = false) := by
  induction data generalizing manager hasUpdate with
  | nil => exact ⟨shaped, ⟨rfl, rfl⟩, fun _ => .refl manager, fun same => same, fun _ => rfl⟩
  | cons row rest ih =>
    rw [addRows]
    rcases adds : manager.vectorIndex.addPoint runtime.metric row.vector row.label
      (some ⟨row.sparseRawTerms, row.sparseValues⟩) with ⟨index, threw⟩
    obtain ⟨shapedNow, sparse, throws, unseen⟩ := addPoint_filters shaped row adds
    dsimp only at shapedNow sparse throws unseen ⊢
    have quiet : manager.vectorIndex.sparse = none ∨ (∀ data ∈ row :: rest, ¬ data.Mismatched) → threw = false := by
      intro matched
      by_contra thrown
      obtain ⟨enabled, mismatched⟩ := throws.mp (by simpa using thrown)
      rcases matched with none' | all
      · rw [none'] at enabled
        cases enabled
      · exact all row mem_cons_self mismatched
    have later : manager.vectorIndex.sparse = none ∨ (∀ data ∈ row :: rest, ¬ data.Mismatched) →
        index.sparse = none ∨ ∀ data ∈ rest, ¬ data.Mismatched := by
      rintro (none' | all)
      · exact .inl (by simpa [none'] using sparse)
      · exact .inr fun data member => all data (mem_cons_of_mem _ member)
    cases threw with
    | true =>
      refine ⟨shapedNow, ⟨rfl, rfl⟩, fun _ => unseen (.inl rfl), fun same => same, fun matched => ?_⟩
      exact absurd (quiet matched) (by simp)
    | false =>
      simp only [Bool.false_eq_true, if_false]
      cases found : offsetOf { manager with vectorIndex := index } row.label with
      | none =>
        obtain ⟨shaped', tokens, filters, updates, matches'⟩ :=
          @ih { manager with vectorIndex := index } shapedNow hasUpdate
        exact ⟨shaped', ⟨tokens.next, tokens.cache⟩, fun none' => (unseen (.inr found)).trans (filters none'),
          updates, fun matched => matches' (later matched)⟩
      | some offset =>
        obtain ⟨shaped', tokens, filters, updates, matches'⟩ :=
          @ih (addRow runtime { manager with vectorIndex := index } row offset) shapedNow true
        refine ⟨shaped', ⟨tokens.next, tokens.cache⟩, fun none' => ?_, fun _ => updates rfl,
          fun matched => matches' (later matched)⟩
        rw [updates rfl] at none'
        cases none'

structure DropsStale (manager after : IndexManager V) : Prop where
  shaped : after.vectorIndex.Shaped
  next : after.nextFilterToken = manager.nextFilterToken
  cache : after.filterTokenCache = ∅ ∨ after.filterTokenCache = manager.filterTokenCache ∧ SameFilters manager after

section

variable (shaped : manager.vectorIndex.Shaped)

include shaped

theorem addData_dropsStale {data : List (AddDataRequest Q)}
    (allowed : manager.vectorIndex.sparse = none ∨ ThrowsAtOnce data) (now : Nat) :
    DropsStale manager (manager.addData runtime data now).1 := by
  obtain ⟨shapedNow, tokens, filters, -, quiet⟩ := @addRows_spec _ _ runtime _ shaped data false
  have applied : (addRows runtime data manager false).2.2 = true → (addRows runtime data manager false).2.1 = false := by
    intro threw
    cases data with
    | nil => rfl
    | cons first rest =>
      by_cases enabled : manager.vectorIndex.sparse.isSome = true ∧ first.Mismatched
      · rcases adds : manager.vectorIndex.addPoint runtime.metric first.vector first.label
          (some ⟨first.sparseRawTerms, first.sparseValues⟩) with ⟨index, threw⟩
        have throws : threw = true := (addPoint_filters shaped first adds).2.2.1.mpr enabled
        rw [addRows, adds]
        simp only [throws, if_true]
      · have matched : manager.vectorIndex.sparse = none ∨ ∀ row ∈ first :: rest, ¬ row.Mismatched := by
          rcases allowed with none' | mismatched | matched
          · exact .inl none'
          · exact .inl (by simpa using fun some' => enabled ⟨some', mismatched⟩)
          · by_cases none' : manager.vectorIndex.sparse = none
            · exact .inl none'
            · refine .inr (forall_mem_cons.mpr ⟨fun mismatched => enabled ⟨?_, mismatched⟩, matched⟩)
              exact Option.isSome_iff_ne_none.mpr none'
        rw [quiet matched] at threw
        cases threw
  rw [addData]
  rcases rows : addRows runtime data manager false with ⟨after, hasUpdate, threw⟩
  rw [rows] at shapedNow tokens filters applied
  cases threw with
  | true => exact ⟨shapedNow, tokens.next, .inr ⟨tokens.cache, filters (applied rfl)⟩⟩
  | false =>
    cases hasUpdate with
    | true => exact ⟨shapedNow, tokens.next, .inl rfl⟩
    | false => exact ⟨shapedNow, tokens.next, .inr ⟨tokens.cache, filters rfl⟩⟩

theorem deleteRows_spec (data : List DeleteDataRequest) (hasUpdate : Bool) :
    (deleteRows runtime data manager hasUpdate).1.vectorIndex.Shaped ∧
      SameTokens manager (deleteRows runtime data manager hasUpdate).1 ∧
        ((deleteRows runtime data manager hasUpdate).2 = false →
          (deleteRows runtime data manager hasUpdate).1 = manager) ∧
          (hasUpdate = true → (deleteRows runtime data manager hasUpdate).2 = true) := by
  induction data generalizing manager hasUpdate with
  | nil => exact ⟨shaped, ⟨rfl, rfl⟩, fun _ => rfl, fun same => same⟩
  | cons row rest ih =>
    rw [deleteRows]
    cases manager.offsetOf row.label with
    | none => exact ih shaped hasUpdate
    | some offset =>
      obtain ⟨shaped', tokens, -, updates⟩ := @ih (deleteRow runtime manager row offset)
        (removePoint_spec shaped row.label).1 true
      refine ⟨shaped', ⟨tokens.next, tokens.cache⟩, fun none' => ?_, fun _ => updates rfl⟩
      rw [updates rfl] at none'
      cases none'

theorem deleteData_dropsStale (data : List DeleteDataRequest) (now : Nat) :
    DropsStale manager (manager.deleteData runtime data now) := by
  obtain ⟨shapedNow, tokens, unchanged, -⟩ := @deleteRows_spec _ _ runtime _ shaped data false
  rw [deleteData]
  rcases rows : deleteRows runtime data manager false with ⟨after, hasUpdate⟩
  rw [rows] at shapedNow tokens unchanged
  cases hasUpdate with
  | true => exact ⟨shapedNow, tokens.next, .inl rfl⟩
  | false =>
    have same : after = manager := unchanged rfl
    rw [same]
    exact ⟨shaped, rfl, .inr ⟨rfl, .refl manager⟩⟩

theorem setFilterLayout_dropsStale (orderedLabels : List Nat) :
    DropsStale manager (manager.setFilterLayout orderedLabels) := by
  have same : (manager.setFilterLayout orderedLabels).vectorIndex = manager.vectorIndex ∧
      (manager.setFilterLayout orderedLabels).fieldSets = manager.fieldSets ∧
        SameTokens manager (manager.setFilterLayout orderedLabels) := by
    rw [setFilterLayout]
    split
    · exact ⟨rfl, rfl, rfl, rfl⟩
    · dsimp only
      split
      · exact ⟨rfl, rfl, rfl, rfl⟩
      · split <;> exact ⟨rfl, rfl, rfl, rfl⟩
  refine ⟨same.1 ▸ shaped, same.2.2.next, .inr ⟨same.2.2.cache, same.2.1, fun label => ?_⟩⟩
  rw [offsetOf, offsetOf, same.1]

theorem searchWithFilterToken_dropsStale (request : SearchRequest Q) (token : Nat) :
    DropsStale manager (manager.searchWithFilterToken runtime request token).manager := by
  have unchanged : DropsStale manager manager := ⟨shaped, rfl, .inr ⟨rfl, .refl manager⟩⟩
  unfold searchWithFilterToken
  split
  · exact unchanged
  split
  · exact unchanged
  split
  · exact unchanged
  next bitmap cached =>
    obtain ⟨same, shapedNow, -⟩ := searchKnn_spec runtime.metric shaped _ request.topk (some bitmap)
      (if request.sparseRawTerms = [] ∨ request.sparseValues = [] then none
        else some ⟨request.sparseRawTerms, request.sparseValues⟩)
    exact ⟨shapedNow, rfl, .inr ⟨rfl, rfl, fun label => offsetOf_eq_of_offset (same.offsets label)⟩⟩

end

theorem cacheFilterBitmap_spec (manager : IndexManager V) (bitmap : Bitmap) (fresh : 0 < manager.nextFilterToken)
    (few : manager.nextFilterToken + 1 < 2 ^ 64) :
    (manager.cacheFilterBitmap bitmap).1 = manager.nextFilterToken ∧
      (manager.cacheFilterBitmap bitmap).2.nextFilterToken = manager.nextFilterToken + 1 ∧
        (manager.cacheFilterBitmap bitmap).2.vectorIndex = manager.vectorIndex ∧
          (manager.cacheFilterBitmap bitmap).2.fieldSets = manager.fieldSets ∧
            ∀ token bits, (manager.cacheFilterBitmap bitmap).2.filterTokenCache.lookup token = some bits →
              token = manager.nextFilterToken ∧ bits = bitmap ∨
                token ≠ manager.nextFilterToken ∧ manager.filterTokenCache.lookup token = some bits := by
  have number : (if manager.nextFilterToken = 0 then 1 else manager.nextFilterToken) = manager.nextFilterToken :=
    if_neg fresh.ne'
  refine ⟨number, ?_, rfl, rfl, fun token bits there => ?_⟩
  · simp only [cacheFilterBitmap, number]
    exact Nat.mod_eq_of_lt few
  · simp only [cacheFilterBitmap, number, Table.lookup_foldl_erase, Table.lookup_insert_if] at there
    split at there
    · cases there
    · split at there
      next same =>
        cases there
        exact .inl ⟨same, rfl⟩
      next different => exact .inr ⟨different, there⟩

theorem projectRows_token (bitmap : Option Bitmap) (offsets : List (Option Nat)) (row : Nat) (result : FilterResult) :
    (projectRows bitmap offsets row result).nativeFilterToken = result.nativeFilterToken := by
  induction offsets generalizing row result with
  | nil => rfl
  | cons offset rest ih =>
    rw [projectRows, ih]
    split <;> rfl

theorem routeRows_token (bitmap : Option Bitmap) (threshold total : Nat) (offsets : List (Option Nat)) (row : Nat)
    (narrow : List Nat) (result : FilterResult) :
    (routeRows bitmap threshold total offsets row narrow result).nativeFilterToken = result.nativeFilterToken := by
  induction offsets generalizing row narrow result with
  | nil => rfl
  | cons offset rest ih =>
    rw [routeRows]
    split
    · exact ih ..
    dsimp only
    split
    · exact ih ..
    split
    · split
      · exact ih ..
      · exact ih ..
    · exact ih ..

def Issues (runtime : Runtime Q V) (manager : IndexManager V) (dsl : Text) (reply : Reply V FilterResult) : Prop :=
  reply.result.nativeFilterToken = 0 ∧ reply.manager = manager ∨
    ∃ context bitmap, parseDslQuery runtime.parseJson dsl = some context ∧
      manager.calculateFilterBitmap runtime context.filterOp = some (some bitmap) ∧
        reply.result.nativeFilterToken = (manager.cacheFilterBitmap bitmap).1 ∧
          reply.manager = (manager.cacheFilterBitmap bitmap).2

theorem issues_withToken {dsl : Text} {context : SearchContext} {bitmap : Option Bitmap}
    (parse : parseDslQuery runtime.parseJson dsl = some context)
    (calculated : manager.calculateFilterBitmap runtime context.filterOp = some bitmap) (limit : Nat)
    {result : FilterResult} (without : result.nativeFilterToken = 0) :
    Issues runtime manager dsl ⟨0, (manager.withToken bitmap limit result).1, (manager.withToken bitmap limit result).2⟩ := by
  unfold withToken
  split
  · exact .inl ⟨without, rfl⟩
  next bits =>
    split
    · exact .inr ⟨context, bits, parse, calculated, rfl, rfl⟩
    · exact .inl ⟨without, rfl⟩

theorem issues_evaluateFilter (runtime : Runtime Q V) (manager : IndexManager V) (dsl : Text) (limit : Nat) :
    Issues runtime manager dsl (manager.evaluateFilter runtime dsl limit) := by
  unfold evaluateFilter
  cases parse : parseDslQuery runtime.parseJson dsl with
  | none => exact .inl ⟨rfl, rfl⟩
  | some context =>
    dsimp only
    cases calculated : manager.calculateFilterBitmap runtime context.filterOp with
    | none => exact .inl ⟨rfl, rfl⟩
    | some bitmap => exact issues_withToken parse calculated limit (projectRows_token ..)

theorem issues_evaluateFilterForRouting (runtime : Runtime Q V) (manager : IndexManager V) (dsl : Text) (threshold : Nat) :
    Issues runtime manager dsl (manager.evaluateFilterForRouting runtime dsl threshold) := by
  unfold evaluateFilterForRouting
  split
  · exact issues_evaluateFilter runtime manager dsl 0
  cases parse : parseDslQuery runtime.parseJson dsl with
  | none => exact .inl ⟨rfl, rfl⟩
  | some context =>
    dsimp only
    cases calculated : manager.calculateFilterBitmap runtime context.filterOp with
    | none => exact .inl ⟨rfl, rfl⟩
    | some bitmap =>
      refine issues_withToken parse calculated _ ?_
      split
      · rfl
      · exact routeRows_token ..

end IndexManager

namespace TokenState

variable {runtime} {state : TokenState V}

def Current (runtime : Runtime Q V) (state : TokenState V) (token : Nat) (dsl : Text) : Prop :=
  ∀ bitmap, state.manager.filterTokenCache.lookup token = some bitmap → ∃ context,
    parseDslQuery runtime.parseJson dsl = some context ∧ context.sorterOp = none ∧
      state.manager.calculateFilterBitmap runtime context.filterOp = some (some bitmap)

structure Sound (runtime : Runtime Q V) (state : TokenState V) : Prop where
  shaped : state.manager.vectorIndex.Shaped
  next : state.manager.nextFilterToken = state.issued.length + 1
  numbered : ∀ token dsl, (token, dsl) ∈ state.issued → token ≤ state.issued.length
  current : ∀ token dsl, (token, dsl) ∈ state.issued → state.Current runtime token dsl

theorem Sound.start {manager : IndexManager V} (shaped : manager.vectorIndex.Shaped) (without : manager.WithoutTokens) :
    Sound runtime ⟨manager, []⟩ :=
  ⟨shaped, without.next, nofun, nofun⟩

section

variable (sound : Sound runtime state)

include sound

theorem Sound.changed {after : IndexManager V}
    (drops : DropsStale state.manager after) : Sound runtime { state with manager := after } where
  shaped := drops.shaped
  next := drops.next.trans sound.next
  numbered := sound.numbered
  current := by
    intro token dsl issued bitmap cached
    rcases drops.cache with empty | ⟨same, filters⟩
    · rw [empty] at cached
      cases cached
    · rw [same] at cached
      obtain ⟨context, parse, noSorter, calculated⟩ := sound.current token dsl issued bitmap cached
      exact ⟨context, parse, noSorter, (filters.calculate context.filterOp).trans calculated⟩

theorem Sound.evaluated {dsl : Text} {reply : Reply V FilterResult}
    (issues : Issues runtime state.manager dsl reply)
    (noSorter : ∀ context ∈ parseDslQuery runtime.parseJson dsl, context.sorterOp = none)
    (few : state.issued.length + 2 < 2 ^ 64) : Sound runtime (state.evaluated dsl reply) := by
  rcases issues with ⟨without, same⟩ | ⟨context, bitmap, parse, calculated, token, same⟩
  · rw [TokenState.evaluated, without, if_pos rfl, same]
    exact sound
  · obtain ⟨number, next, vectorIndex, fieldSets, cached⟩ :=
      state.manager.cacheFilterBitmap_spec bitmap (by rw [sound.next]; omega) (by rw [sound.next]; omega)
    rw [number, sound.next] at token
    rw [TokenState.evaluated, token, if_neg (by omega), same]
    have filters : SameFilters state.manager (state.manager.cacheFilterBitmap bitmap).2 :=
      ⟨fieldSets, fun label => by rw [offsetOf, offsetOf, vectorIndex]⟩
    refine ⟨vectorIndex ▸ sound.shaped, ?_, ?_, ?_⟩
    · rw [next, sound.next, length_cons]
    · intro other query issued
      rw [length_cons]
      rcases mem_cons.mp issued with new | old
      · cases new
        exact le_refl _
      · exact Nat.le_succ_of_le (sound.numbered other query old)
    · intro other query issued bits there
      rcases mem_cons.mp issued with new | old
      · cases new
        rcases cached _ bits there with ⟨-, rfl⟩ | ⟨different, -⟩
        · exact ⟨context, parse, noSorter context parse, (filters.calculate context.filterOp).trans calculated⟩
        · exact absurd sound.next.symm different
      · have earlier := sound.numbered other query old
        rcases cached other bits there with ⟨new, -⟩ | ⟨-, before⟩
        · rw [sound.next] at new
          omega
        · obtain ⟨context, parse, noSorter, calculated⟩ := sound.current other query old bits before
          exact ⟨context, parse, noSorter, (filters.calculate context.filterOp).trans calculated⟩

theorem Sound.step {call : TokenCall Q} (allowed : state.Allows runtime call) :
    Sound runtime (state.step runtime call) := by
  cases call with
  | addData data now => exact sound.changed (addData_dropsStale sound.shaped allowed now)
  | deleteData data now => exact sound.changed (deleteData_dropsStale sound.shaped data now)
  | setFilterLayout labels => exact sound.changed (setFilterLayout_dropsStale sound.shaped labels)
  | evaluateFilter dsl limit =>
    exact sound.evaluated (issues_evaluateFilter runtime _ dsl limit) allowed.1 allowed.2
  | evaluateFilterForRouting dsl threshold =>
    exact sound.evaluated (issues_evaluateFilterForRouting runtime _ dsl threshold) allowed.1 allowed.2
  | searchWithFilterToken request token =>
    exact sound.changed (searchWithFilterToken_dropsStale sound.shaped request token)

theorem Sound.run (calls : List (TokenCall Q))
    (allowed : AtEach calls fun before call => (state.run runtime before).Allows runtime call) :
    Sound runtime (state.run runtime calls) := by
  induction calls generalizing state with
  | nil => exact sound
  | cons call rest ih =>
    rw [atEach_cons] at allowed
    exact ih (sound.step allowed.1) allowed.2

theorem Sound.neverStale : state.NeverStale runtime := by
  rintro token _ issued request rfl found
  unfold searchWithFilterToken at found ⊢
  split at found
  next => cases found
  next query given =>
    split at found
    · cases found
    next nonzero =>
      split at found
      · cases found
      next bitmap cached =>
        obtain ⟨context, parse, noSorter, calculated⟩ := sound.current token request.dsl issued bitmap cached
        refine ⟨⟨0, (state.manager.performVectorRecall runtime request query (some bitmap)).1,
          (state.manager.performVectorRecall runtime request query (some bitmap)).2⟩, ?_, rfl, ?_⟩
        · simp only [search, parse, calculated, noSorter, given]
        · simp only [if_neg nonzero]

end

/-- Whatever the order of the calls, a token that is found stands for its query on the data of now. -/
theorem filter_token_never_stale (runtime : Runtime Q V) {manager : IndexManager V}
    (shaped : manager.vectorIndex.Shaped) (without : manager.WithoutTokens) (calls : List (TokenCall Q))
    (allowed : AtEach calls fun before call => (TokenState.run runtime ⟨manager, []⟩ before).Allows runtime call) :
    (TokenState.run runtime ⟨manager, []⟩ calls).NeverStale runtime :=
  ((Sound.start shaped without).run calls allowed).neverStale

end TokenState

end Tokens

namespace HalfAppliedBatch

def query : Json :=
  .object [("filter", .object [("op", .string "must"), ("field", .string "account"),
    ("conds", .array [.string "a"])])]

def runtime : Runtime Unit Unit where
  metric := ⟨id, fun _ _ => 0, fun _ _ => 0, false, 0, fun _ => 0⟩
  std := ⟨fun _ items => items, fun _ items => items⟩
  regexSearch := fun _ => none
  parseJson := fun text => if text = "query" then some query
    else if text = "mine" then some (.object [("account", .string "a")])
    else if text = "other" then some (.object [("account", .string "b")]) else none

def manager : IndexManager Unit where
  vectorIndex := .create (fun _ => ⟨(), 0, 0⟩) 10 true
  fieldSets := .ofSchema [("account", "string")]

def issue : List (TokenCall Unit) :=
  [.addData [{ label := 7, vector := some (), fieldsStr := "mine" }] 1, .setFilterLayout [7],
    .evaluateFilter "query" 10]

-- The row goes to another account; the next one has a term without a value.
def batch : List (TokenCall Unit) := issue ++ [.addData
  [{ label := 7, vector := some (), fieldsStr := "other", oldFieldsStr := "mine" },
    { label := 8, vector := some (), sparseRawTerms := ["term"] }] 2]

def request : SearchRequest Unit := { query := some (), topk := 5, dsl := "query" }

theorem issue_never_stale : (TokenState.run runtime ⟨manager, []⟩ issue).NeverStale runtime := by
  refine TokenState.filter_token_never_stale runtime (shaped_create _ _ _) ⟨rfl, rfl⟩ issue ?_
  simp only [issue, atEach_cons, atEach_nil, and_true]
  refine ⟨.inr (.inr (List.forall_mem_nil _)), trivial, ?_, by decide⟩
  rintro context ⟨⟩
  rfl

/-- The token still finds the row, a search finds none. -/
theorem half_applied_batch_is_stale : ¬ (TokenState.run runtime ⟨manager, []⟩ batch).NeverStale runtime := by
  intro never
  obtain ⟨reply, searched, -, labels⟩ := never 1 "query" (mem_singleton_self _) request rfl rfl
  have nothing : ((TokenState.run runtime ⟨manager, []⟩ batch).manager.search runtime request).map
      (fun reply => reply.result.labels) = some [] := by decide +kernel
  have stale : ((TokenState.run runtime ⟨manager, []⟩ batch).manager.searchWithFilterToken runtime request 1).result.1.labels =
      [7] := by decide +kernel
  rw [searched, Option.map_some, labels, stale] at nothing
  cases nothing

end HalfAppliedBatch

end LoginomDock.VectorIndex
