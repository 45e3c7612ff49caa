import LineSearch.Proofs.Match.Depth

/-! Main statement: the search refines the enumeration of ends. Its answers are read off the head of
the list, and it withholds an answer for a limit or an uncompiled branch only. -/
namespace LineSearch.Match
open Matching

theorem fresh_isMatch {source : Text} {pattern : Pattern} (h : Pattern.parse source = .ok pattern)
    (limit : Nat) (text : Text) :
    (isMatch limit text source).fresh = (find text.toArray limit pattern).fresh := by
  rw [isMatch, fresh_bind_of_ok (fresh_request source), h]

theorem isMatch_of_error {engine : Engine} (he : engine.Reachable) {text source : Text}
    {error : CompileError} (h : Pattern.parse source = .error error) :
    (engine.isMatch text source).1 = .error (.compile error) := by
  rw [he.isMatch_fst, isMatch, fresh_bind_of_ok (fresh_request source), h]
  rfl

theorem parses_of_answer {engine : Engine} (he : engine.Reachable) {text source : Text} {found : Bool}
    (h : (engine.isMatch text source).1 = .ok found) :
    ∃ pattern, Pattern.parse source = .ok pattern := by
  rcases hp : Pattern.parse source with e | pattern
  · rw [isMatch_of_error he hp] at h
    cases h
  · exact ⟨pattern, rfl⟩

/-- An engine with any history finds a pattern where its stream has an end. -/
theorem isMatch_outcome {engine : Engine} (he : engine.Reachable) (text : Text) {source : Text}
    {pattern : Pattern} (h : Pattern.parse source = .ok pattern) :
    Outcome engine.recursionLimit engine.recursionLimit pattern.tokens
      (fun found => found = true ↔
        ∃ start ≤ text.length, (pattern.startAnchored = true → start = 0) ∧
          successes text.toArray (branchEnd text.toArray) pattern.tokens start ≠ [])
      (engine.isMatch text source).1 := by
  rw [he.isMatch_fst, fresh_isMatch h]
  exact find_outcome engine.recursionLimit pattern

/-- Every run from within the line answers the first of the stream's ends, at any depth of nesting,
and an engine finds a pattern exactly where there is an end. A branch contributes the first of its own
ends, at position 0 only where it starts with `^`. -/
theorem search_takes_first_success :
    (∀ (chars : Line) (limit budget : Nat) (tokens : List Token) (start : Nat), start ≤ chars.size →
      Outcome limit budget tokens (· = (successes chars (branchEnd chars) tokens start).head?)
        (runWithin chars limit budget tokens start).fresh) ∧
    (∀ (engine : Engine) (text source : Text) (pattern : Pattern), engine.Reachable →
      Pattern.parse source = .ok pattern →
      Outcome engine.recursionLimit engine.recursionLimit pattern.tokens
        (fun found => found = true ↔
          ∃ start ≤ text.length, (pattern.startAnchored = true → start = 0) ∧
            successes text.toArray (branchEnd text.toArray) pattern.tokens start ≠ [])
        (engine.isMatch text source).1) ∧
    (∀ (chars : Line) (branch : Text) (start : Nat),
      branchEnd chars branch start =
        match Pattern.parse branch with
        | .error _ => none
        | .ok pattern =>
          if pattern.startAnchored ∧ start ≠ 0 then none
          else (successes chars (branchEnd chars) pattern.tokens start).head?) := by
  refine ⟨?_, ?_, ?_⟩
  · intro chars limit budget tokens start hs
    exact runWithin_outcome limit budget tokens hs
  · intro engine text source pattern he hp
    exact isMatch_outcome he text hp
  · intro chars branch start
    rcases hp : Pattern.parse branch with e | pattern
    · rw [branchEnd_of_error hp]
    · exact branchEnd_of_ok hp start

/-- On `xaac`, `(a+|b)+c` is found from the first `a` to the end. -/
theorem repeated_group_takes_first_success :
    ∃ pattern, Pattern.parse ['(', 'a', '+', '|', 'b', ')', '+', 'c'] = .ok pattern ∧
      (successes #['x', 'a', 'a', 'c'] (branchEnd #['x', 'a', 'a', 'c']) pattern.tokens 1).head? =
        some 4 ∧
      ∃ start ≤ 4, successes #['x', 'a', 'a', 'c'] (branchEnd #['x', 'a', 'a', 'c'])
        pattern.tokens start ≠ [] := by
  obtain ⟨takes, finds, -⟩ := search_takes_first_success
  refine ⟨_, rfl, ?_, ?_⟩
  · have run := takes #['x', 'a', 'a', 'c'] 256 256
      [{ kind := .group ['a', '+', '|', 'b'] [['a', '+'], ['b']] (some .oneOrMore) },
        { kind := .literal ['c'] }] 1 (by decide)
    rw [show fresh _ = .ok (some 4) from rfl] at run
    cases run with
    | answered right => exact right.symm
  · have found := finds { recursionLimit := 256 } ['x', 'a', 'a', 'c']
      ['(', 'a', '+', '|', 'b', ')', '+', 'c'] _ (.new 256) rfl
    rw [show (Engine.isMatch _ _ _).1 = .ok true from rfl] at found
    cases found with
    | answered right =>
      obtain ⟨start, hs, -, hne⟩ := right.mp rfl
      exact ⟨start, hs, hne⟩

end LineSearch.Match
