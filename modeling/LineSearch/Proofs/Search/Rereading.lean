import LineSearch.Proofs.Program.Writing
import LineSearch.Proofs.Search.Streaming

/-! What a search has written, searched in its turn. Main statement: the same lines are found again. -/
namespace LineSearch

/-- Unlabelled lines are written as they are. -/
private theorem Report.output_of_unlabelled {style : RecordStyle} (h : style.labelled = false)
    (origin : Text) (lines : List Text) :
    (Report.writeLines { style } origin lines).output = lines.flatMap fun line => line ++ ['\n'] := by
  have hrecord : style.record origin = fun line => line ++ ['\n'] :=
    funext (style.record_of_unlabelled h origin)
  rw [output_writeLines, hrecord]
  rfl

namespace Search
variable {answer : Text → Except MatchError Bool} {lines : List Text}

private theorem matched_of_mem_matching {line : Text} (h : line ∈ matching answer lines) :
    answer line = .ok true := by
  have hmatched := of_decide_eq_true (List.mem_filter.mp h).2
  rcases ha : answer line with e | matched
  · rw [ha] at hmatched
    cases hmatched
  · rw [ha] at hmatched
    rw [Option.some_inj.mp hmatched]

theorem matching_matching : matching answer (matching answer lines) = matching answer lines := by
  rw [matching, matching, List.filter_filter]
  simp only [Bool.and_self]

end Search

namespace Searcher

/-- Lines that were found, written down and searched again are found again, all of them and in order, by the
engine that found them and by any other. -/
theorem search_of_output_repeats_it (searcher : Searcher) (engine other : Engine)
    (faithful : engine.cache.Faithful) (faithful' : other.cache.Faithful) (origin : Text) (bytes : Bytes)
    (lines : List Text) (found : (engine.run (searcher.matchingLines origin (.ofBytes bytes))).1 = .ok lines)
    (bare : ∀ line ∈ lines, line.getLast? ≠ some '\r') (style : RecordStyle)
    (unlabelled : style.labelled = false) :
    let written := Utf8.encode (Report.writeLines { style } origin lines).output
    let left := (engine.run (searcher.matchingLines origin (.ofBytes bytes))).2
    (left.run (searcher.matchingLines origin (.ofBytes written))).1 = .ok lines ∧
      (other.run (searcher.matchingLines origin (.ofBytes written))).1 = .ok lines := by
  intro written left
  have faithful_left : left.cache.Faithful := (OnDemand.run_of_faithful _ faithful).2
  rw [Engine.run_of_faithful faithful, fresh_matchingLines_eq_ok] at found
  obtain ⟨-, -, hlines⟩ := found
  have free : ∀ line ∈ lines, '\n' ∉ line := by
    intro line hl
    rw [hlines] at hl
    exact not_mem_of_mem_decodeLines (List.mem_of_mem_filter hl)
  have reread : decodeLines written = lines := by
    rw [← decodeLines_encode free bare, ← Report.output_of_unlabelled unlabelled origin]
  have again : (searcher.matchingLines origin (.ofBytes written)).fresh = .ok lines := by
    rw [fresh_matchingLines_eq_ok]
    refine ⟨rfl, ?_, ?_⟩
    · intro line hl
      rw [LineSource.ofBytes, reread, hlines] at hl
      exact ⟨true, Search.matched_of_mem_matching hl⟩
    · rw [LineSource.ofBytes, reread, hlines, Search.matching_matching]
  constructor
  · rw [Engine.run_of_faithful faithful_left, again]
  · rw [Engine.run_of_faithful faithful', again]

/-- Of a byte that is no text, the replacement is written and found again. -/
theorem replacement_is_found_again :
    let searcher : Searcher :=
      { pattern := { source := ['(', 'a', ')'], tokens := [{ kind := .group ['a'] [['a']] none }]
                     startAnchored := false }
        recursionLimit := 4 }
    let bytes : Bytes := [0xFF, 97, 13, 10, 98, 10, 97]
    let lines : List Text := [[Utf8.replacement, 'a'], ['a']]
    let style : RecordStyle := { labelled := false, colored := false }
    let engine : Engine := { recursionLimit := 4 }
    let written := Utf8.encode (Report.writeLines { style } [] lines).output
    let left := (engine.run (searcher.matchingLines [] (.ofBytes bytes))).2
    engine.cache.Faithful ∧
      (engine.run (searcher.matchingLines [] (.ofBytes bytes))).1 = .ok lines ∧
      (∀ line ∈ lines, line.getLast? ≠ some '\r') ∧
      (left.run (searcher.matchingLines [] (.ofBytes written))).1 = .ok lines ∧
      (engine.run (searcher.matchingLines [] (.ofBytes written))).1 = .ok lines := by
  intro searcher bytes lines style engine written left
  have faithful : engine.cache.Faithful := Cache.faithful_empty
  have found : (engine.run (searcher.matchingLines [] (.ofBytes bytes))).1 = .ok lines := by
    decide +kernel
  have bare : ∀ line ∈ lines, line.getLast? ≠ some '\r' := by
    decide
  exact ⟨faithful, found, bare,
    search_of_output_repeats_it searcher engine engine faithful faithful [] bytes lines found bare style rfl⟩

/-- A carriage return that a line keeps is taken for the end of it where the line is read again. -/
example :
    let written := Utf8.encode (Report.writeLines { style := ⟨false, false⟩ } [] [['a', '\r']]).output
    decodeLines [97, 13, 13, 10] = [['a', '\r']] ∧ decodeLines written = [['a']] := by
  decide

end Searcher

end LineSearch
