import LoginomDock.VectorIndex.IndexManager

/-! A filter that cannot be read leaves no operator behind, as a query without a filter does. The three entry points
cannot tell the two apart. -/

namespace LoginomDock.VectorIndex

open IndexManager

def filterPart (doc : Json) : Json := (doc.member? "filter").getD doc

structure HasRejectedFilter (doc : Json) : Prop where
  object : doc.isObject = true
  given : (doc.member? "filter").isSome = true ∨ (doc.member? "sorter").isNone = true
  filled : ∃ first rest, filterPart doc = .object (first :: rest)
  rejected : parseFilterJsonDoc (filterPart doc) = none

theorem HasRejectedFilter.parse {doc : Json} (rejected : HasRejectedFilter doc) {parseJson : Text → Option Json}
    {dsl : Text} (given : dsl ≠ []) (read : parseJson (cString dsl) = some doc) :
    parseDslQuery parseJson dsl = some {
      filterOp := none
      sorterOp := if (doc.member? "sorter").isSome then parseSorterJsonDocOutter doc else none } := by
  have noFilter : parseFilterJsonDocOutter doc = none := rejected.rejected
  simp only [parseDslQuery, if_neg given, read, rejected.object, noFilter]
  simp

namespace IndexManager

variable {Q V : Type} (runtime : Runtime Q V) (manager : IndexManager V)

structure RefusesQuery (dsl : Text) : Prop where
  search : ∀ request : SearchRequest Q, request.dsl = dsl →
    ∀ reply, manager.search runtime request = some reply → reply.ret ≠ 0
  evaluateFilter : ∀ limit, (manager.evaluateFilter runtime dsl limit).ret ≠ 0
  evaluateFilterForRouting : ∀ threshold, (manager.evaluateFilterForRouting runtime dsl threshold).ret ≠ 0

structure AnswersUnfiltered (dsl : Text) : Prop where
  search : ∀ request : SearchRequest Q, request.dsl = dsl →
    ∀ reply, manager.search runtime request = some reply → reply.ret = 0
  searchUnfiltered : ∀ request : SearchRequest Q, request.dsl = dsl → ∀ plain context,
    parseDslQuery runtime.parseJson dsl = some context →
      parseDslQuery runtime.parseJson plain = some { context with filterOp := none } →
        manager.search runtime request = manager.search runtime { request with dsl := plain }
  evaluateFilter : ∀ limit, manager.evaluateFilter runtime dsl limit = manager.evaluateFilter runtime [] limit ∧
    (manager.evaluateFilter runtime dsl limit).ret = 0
  evaluateFilterForRouting : ∀ threshold,
    manager.evaluateFilterForRouting runtime dsl threshold = manager.evaluateFilterForRouting runtime [] threshold ∧
      (manager.evaluateFilterForRouting runtime dsl threshold).ret = 0

variable {runtime manager}

theorem answersUnfiltered_of_parse {dsl : Text} {sorter : Option SorterOpBase}
    (parse : parseDslQuery runtime.parseJson dsl = some { filterOp := none, sorterOp := sorter }) :
    AnswersUnfiltered runtime manager dsl where
  search := by
    rintro request rfl reply answer
    rw [search, parse] at answer
    simp only [calculateFilterBitmap] at answer
    split at answer
    · obtain ⟨result, -, rfl⟩ := Option.map_eq_some_iff.mp answer
      rfl
    · cases answer
      rfl
    · cases answer
      rfl
  searchUnfiltered := by
    rintro request rfl plain context first second
    rw [parse, Option.some_inj] at first
    subst first
    simp only [search, parse, second]
    rfl
  evaluateFilter limit := by
    have empty : parseDslQuery runtime.parseJson [] = some {} := rfl
    simp [evaluateFilter, parse, empty, calculateFilterBitmap]
  evaluateFilterForRouting threshold := by
    have empty : parseDslQuery runtime.parseJson [] = some {} := rfl
    by_cases zero : threshold = 0
    · simp [evaluateFilterForRouting, zero, evaluateFilter, parse, empty,
        calculateFilterBitmap]
    · simp [evaluateFilterForRouting, zero, parse, empty, calculateFilterBitmap]

/-- Whatever is wrong with a filter and wherever in it, it is taken for no filter at all. -/
theorem rejected_filter_answers_unfiltered (runtime : Runtime Q V) (manager : IndexManager V) {dsl : Text} {doc : Json}
    (given : dsl ≠ []) (read : runtime.parseJson (cString dsl) = some doc) (rejected : HasRejectedFilter doc) :
    AnswersUnfiltered runtime manager dsl ∧ ¬ RefusesQuery runtime manager dsl := by
  have unfiltered : AnswersUnfiltered runtime manager dsl := answersUnfiltered_of_parse (rejected.parse given read)
  refine ⟨unfiltered, ?_⟩
  intro refuses
  exact refuses.evaluateFilter 0 (unfiltered.evaluateFilter 0).2

end IndexManager

namespace MisspelledFilter

def query : Json :=
  .object [("filter", .object [("op", .string "musst"), ("field", .string "account"),
    ("conds", .array [.string "a"])])]

def runtime : Runtime Unit Unit where
  metric := ⟨id, fun _ _ => 0, fun _ _ => 0, false, 0, fun _ => 0⟩
  std := ⟨fun _ items => items, fun _ items => items⟩
  regexSearch := fun _ => none
  parseJson := fun text => if text = "query" then some query
    else if text = "row" then some (.object [("account", .string "b")]) else none

def manager : IndexManager Unit :=
  let empty : IndexManager Unit := {
    vectorIndex := .create (fun _ => ⟨(), 0, 0⟩) 10 false
    fieldSets := .ofSchema [("account", "string")] }
  ((empty.addData runtime [{ label := 7, vector := some (), fieldsStr := "row" }] 1).1).setFilterLayout [7]

def request : SearchRequest Unit := { query := some (), topk := 5, dsl := "query" }

theorem query_rejected : HasRejectedFilter query where
  object := rfl
  given := .inl rfl
  filled := ⟨_, _, rfl⟩
  rejected := rfl

/-- The row of the other account is found, and counted as eligible. -/
theorem misspelled_filter_finds_all :
    HasRejectedFilter query ∧ ((manager.search runtime request).map fun reply => (reply.ret, reply.result.labels)) =
      some (0, [7]) ∧ (manager.evaluateFilter runtime request.dsl 0).ret = 0 ∧
        (manager.evaluateFilter runtime request.dsl 0).result.eligibleCount = 1 ∧
          (manager.evaluateFilterForRouting runtime request.dsl 3).result.eligibleCount = 1 :=
  ⟨query_rejected, rfl, rfl, rfl, rfl⟩

theorem misspelled_filter_answers_unfiltered :
    HasRejectedFilter query ∧ AnswersUnfiltered runtime manager request.dsl :=
  ⟨query_rejected,
    (rejected_filter_answers_unfiltered runtime manager (by decide) rfl query_rejected).1⟩

end MisspelledFilter

end LoginomDock.VectorIndex
