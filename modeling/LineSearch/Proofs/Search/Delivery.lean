import Mathlib.Data.List.TakeWhile
import LineSearch.Proofs.Match.Fresh
import LineSearch.Search

/-! What a search of one stream delivers: its matching lines in order, up to the first line without an
answer or the first refusal of the sink. -/
namespace LineSearch

namespace Search
variable (answer : Text → Except MatchError Bool)

/-- The matching lines in front of the first line without an answer. -/
def found (lines : List Text) : List Text :=
  (lines.takeWhile fun line => (answer line).isOk).filter fun line => (answer line).toOption = some true

def stuck? (lines : List Text) : Option MatchError :=
  lines.findSome? fun line =>
    match answer line with
    | .ok _ => none
    | .error e => some e

variable {answer} {line : Text} {rest : List Text}

private theorem found_of_match (h : answer line = .ok true) :
    found answer (line :: rest) = line :: found answer rest := by
  simp [found, h, Except.isOk, Except.toBool, Except.toOption]

private theorem found_of_mismatch (h : answer line = .ok false) :
    found answer (line :: rest) = found answer rest := by
  simp [found, h, Except.isOk, Except.toBool, Except.toOption]

private theorem found_of_error {e : MatchError} (h : answer line = .error e) :
    found answer (line :: rest) = [] := by
  simp [found, h, Except.isOk, Except.toBool, Except.toOption]

private theorem stuck?_of_ok {matched : Bool} (h : answer line = .ok matched) :
    stuck? answer (line :: rest) = stuck? answer rest := by
  simp [stuck?, h]

private theorem stuck?_of_error {e : MatchError} (h : answer line = .error e) :
    stuck? answer (line :: rest) = some e := by
  simp [stuck?, h]

theorem stuck?_eq_none {lines : List Text} :
    stuck? answer lines = none ↔ ∀ line ∈ lines, ∃ matched, answer line = .ok matched := by
  rw [stuck?, List.findSome?_eq_none_iff]
  refine forall₂_congr fun line _ => ?_
  cases answer line <;> simp

theorem stuck?_eq_some {lines : List Text} {e : MatchError} (h : stuck? answer lines = some e) :
    ∃ line ∈ lines, answer line = .error e := by
  obtain ⟨line, hl, he⟩ := List.exists_of_findSome?_eq_some h
  refine ⟨line, hl, ?_⟩
  rcases ha : answer line with e' | matched
  · rw [ha] at he
    cases he
    rfl
  · rw [ha] at he
    cases he

/-- Where every line has an answer, all matching lines are found. -/
theorem found_of_answers {lines : List Text} (h : stuck? answer lines = none) :
    found answer lines = lines.filter fun line => (answer line).toOption = some true := by
  rw [found, List.takeWhile_eq_self_iff.mpr]
  intro line hl
  obtain ⟨matched, ha⟩ := stuck?_eq_none.mp h line hl
  rw [ha]
  rfl

end Search

namespace Sink
variable {σ : Type}

def feed (sink : Sink σ) : List Text → σ → Except Fault Unit × σ
  | [], state => (.ok (), state)
  | line :: rest, state =>
    match sink line state with
    | (.ok (), state) => feed sink rest state
    | (.error fault, state) => (.error fault, state)

/-- A sink that refuses nothing sees every line. -/
private theorem feed_of_accepting {sink : Sink σ} (step : σ → Text → σ)
    (h : ∀ line state, sink line state = (.ok (), step state line)) (lines : List Text) (state : σ) :
    sink.feed lines state = (.ok (), lines.foldl step state) := by
  induction lines generalizing state with
  | nil => rfl
  | cons line rest ih =>
    rw [feed, h]
    exact ih (step state line)

end Sink

namespace Search
variable {σ : Type} (accepts : Text → Matching Bool) (sink : Sink σ)

/-- The sink is handed the lines that are found, and no other. Its refusal comes before the reason why
the search is stuck. -/
theorem fresh_deliver (count : Nat) (lines : List Text) (state : σ) :
    (deliver accepts sink count lines state).fresh =
      match sink.feed (found (fun line => (accepts line).fresh) lines) state with
      | (.error fault, state) => (.error fault, state)
      | (.ok (), state) =>
        match stuck? (fun line => (accepts line).fresh) lines with
        | some e => (.error (.unmatched e), state)
        | none => (.ok (count + (found (fun line => (accepts line).fresh) lines).length), state) := by
  induction lines generalizing count state with
  | nil => rfl
  | cons line rest ih =>
    rw [deliver, OnDemand.fresh_bind]
    rcases ha : (accepts line).fresh with e | matched
    · rw [show (accepts line).run.fresh = .error e from ha, found_of_error ha, stuck?_of_error ha]
      rfl
    · rw [show (accepts line).run.fresh = .ok matched from ha, stuck?_of_ok ha]
      cases matched with
      | false =>
        rw [found_of_mismatch ha]
        exact ih count state
      | true =>
        rw [found_of_match ha, Sink.feed, List.length_cons, ← Nat.add_assoc, Nat.add_right_comm]
        rcases hs : sink line state with ⟨fault | ⟨⟩, state'⟩
        · rfl
        · exact ih (count + 1) state'

end Search

/-- The fault that a source ends in, if there is one. No line is read behind one without an answer. -/
def LineSource.fault? (answer : Text → Except MatchError Bool) (origin : Text) (source : LineSource) :
    Option Fault :=
  match Search.stuck? answer source.lines with
  | some e => some (.unmatched e)
  | none => source.failure.map (.io origin)

namespace Searcher
variable {σ : Type} (searcher : Searcher)

def answer (line : Text) : Except MatchError Bool :=
  (Engine.isMatchCompiled { recursionLimit := searcher.recursionLimit } line searcher.pattern).1

theorem fresh_accepts : (fun line => (searcher.accepts line).fresh) = searcher.answer := by
  funext line
  exact ((Engine.Reachable.new _).isMatchCompiled_fst line searcher.pattern).symm

private theorem fresh_forEachMatch (origin : Text) (source : LineSource) (sink : Sink σ) (state : σ) :
    (searcher.forEachMatch origin source sink state).fresh =
      match sink.feed (Search.found searcher.answer source.lines) state with
      | (.error fault, state) => (.error fault, state)
      | (.ok (), state) =>
        match source.fault? searcher.answer origin with
        | some fault => (.error fault, state)
        | none => (.ok (Search.found searcher.answer source.lines).length, state) := by
  rw [forEachMatch, OnDemand.fresh_bind, Search.fresh_deliver, fresh_accepts, LineSource.fault?]
  rcases sink.feed (Search.found searcher.answer source.lines) state with ⟨fault | ⟨⟩, state'⟩
  · rfl
  · rcases Search.stuck? searcher.answer source.lines with _ | e
    · rw [Nat.zero_add]
      cases source.failure <;> rfl
    · rfl

/-- A sink that refuses nothing is handed every line that is found, whatever fault comes after. -/
theorem fresh_forEachMatch_of_accepting (origin : Text) (source : LineSource) {sink : Sink σ}
    (step : σ → Text → σ) (h : ∀ line state, sink line state = (.ok (), step state line))
    (state : σ) :
    (searcher.forEachMatch origin source sink state).fresh =
      (match source.fault? searcher.answer origin with
        | some fault => .error fault
        | none => .ok (Search.found searcher.answer source.lines).length,
        (Search.found searcher.answer source.lines).foldl step state) := by
  rw [fresh_forEachMatch, Sink.feed_of_accepting step h]
  cases source.fault? searcher.answer origin <;> rfl

theorem fresh_matchingLines (origin : Text) (source : LineSource) :
    (searcher.matchingLines origin source).fresh =
      match source.fault? searcher.answer origin with
      | some fault => .error fault
      | none => .ok (Search.found searcher.answer source.lines) := by
  have hcollect : ∀ line kept, Sink.collect line kept = (.ok (), line :: kept) := fun _ _ => rfl
  rw [matchingLines, OnDemand.fresh_bind,
    fresh_forEachMatch_of_accepting searcher origin source (fun kept line => line :: kept) hcollect]
  cases source.fault? searcher.answer origin with
  | some fault => rfl
  | none => simp

end Searcher

end LineSearch
