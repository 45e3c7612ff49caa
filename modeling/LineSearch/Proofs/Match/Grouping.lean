import LineSearch.Proofs.Match.Agreement
import LineSearch.Proofs.Match.Enumeration
import LineSearch.Proofs.Pattern.Relexing

/-! A whole pattern in brackets. Main statement: the brackets cost one level of nesting and change
nothing else, neither an answer nor an error. -/
namespace LineSearch

def MatchError.underLimit (limit : Nat) : MatchError → MatchError
  | .depthExceeded _ => .depthExceeded limit
  | e => e

namespace Pattern

def grouped (source : Text) : Text := '(' :: source ++ [')']

def groupToken (source : Text) : Token := { kind := .group source [source] none }

variable {source : Text}

theorem scan_grouped (closed : Bracket.groupBody? (source ++ [')']) = some source) (position : Nat) :
    Lexeme.scan position (grouped source) = [.group source] := by
  have hread : Lexeme.read position '(' (source ++ [')']) = (.group source, source.length + 1) := by
    simp [Lexeme.read, closed]
  have hrest := Lexeme.scanFrom_append (position + 1) (source ++ [')']) []
  rw [List.length_append, List.length_singleton, List.append_nil] at hrest
  rw [grouped, Lexeme.scan, List.cons_append, Lexeme.scanFrom, hread, hrest]
  rfl

private theorem endsAnchored_grouped (source : Text) : endsAnchored (grouped source) = false := by
  have hlast : (grouped source).getLast? = some ')' := List.getLast?_concat
  simp [endsAnchored, hlast]

/-- Brackets that balance, around a text without a bar of its own, make one group without anchors. -/
theorem parse_grouped (closed : Bracket.groupBody? (source ++ [')']) = some source)
    (single : Bracket.branches source = [source]) :
    parse (grouped source) =
      .ok { source := grouped source, tokens := [groupToken source], startAnchored := false } := by
  have hbody : body (grouped source) = grouped source := rfl
  have hscanned : scanned (grouped source) = grouped source := by
    rw [scanned, hbody, endsAnchored_grouped, if_neg Bool.false_ne_true]
  have hkind : TokenKind.ofGroup source none = .group source [source] none := by
    simp [TokenKind.ofGroup, single]
  refine parse_eq_ok.mpr ⟨[.group source [source] none], ?_, ?_⟩
  · rw [hscanned, scan_grouped closed, ← hkind]
    apply TokenKind.Assembled.bareGroup
    · rintro suffix position tail ⟨⟩
    · exact .nil
  · rw [ofKinds, hbody, endsAnchored_grouped, if_neg Bool.false_ne_true]
    rfl

end Pattern

namespace Match
open Matching Pattern
variable {chars : Line} {source : Text} {pattern : Pattern}

/-- A group whose only branch does not compile fails with that branch, from wherever it is run. -/
private theorem run_grouped_of_error {e : CompileError} (h : Pattern.parse source = .error e)
    (limit budget : Nat) {start : Nat} (hs : start ≤ chars.size) :
    (runWithin chars limit (budget + 1) [groupToken source] start).fresh = .error (.compile e) := by
  simp only [runWithin, if_neg (Nat.not_lt.mpr hs), runTokens, groupToken, offer, groupEnds,
    branchEnds]
  rw [fresh_bind, fresh_map, fresh_bind_of_ok (fresh_request source), h]
  rfl

/-- A group of one branch is run as its branch is, with one level less to spend. -/
private theorem run_grouped (h : Pattern.parse source = .ok pattern) (limit budget : Nat) {start : Nat}
    (hs : start ≤ chars.size) :
    (runWithin chars limit (budget + 1) [groupToken source] start).fresh =
      if pattern.startAnchored ∧ start ≠ 0 then .ok none
      else (runWithin chars limit budget pattern.tokens start).fresh := by
  simp only [runWithin, if_neg (Nat.not_lt.mpr hs), runTokens, groupToken, offer, groupEnds,
    branchEnds]
  rw [fresh_bind, fresh_map, fresh_bind_of_ok (fresh_request source), h]
  by_cases hskip : pattern.startAnchored ∧ start ≠ 0
  · simp [hskip, Except.map, firstViable]
  · have hskip' : (pattern.startAnchored && start != 0) = false := by simpa using hskip
    simp only [hskip', if_neg hskip, Bool.false_eq_true, if_false]
    rw [fresh_bind]
    rcases hr : (runWithin chars limit budget pattern.tokens start).fresh with e | _ | stop
    · rfl
    · rfl
    · have hstop := (bounds_of_mem_successes hs (mem_successes_of_found hr)).2
      have hbudget : 0 < budget := by
        apply Nat.pos_of_ne_zero
        rintro rfl
        cases hr
      have hrest : runWithin chars limit budget [] stop = pure (some stop) := runWithin_nil hbudget hstop
      simp only [fresh_bind, fresh_pure, Except.map, firstViable, mayEnd, hrest]
      rfl

/-- The limit of a run shows in the depth error that names it, and nowhere else. -/
private theorem runWithin_underLimit (limit limit' budget : Nat) (tokens : List Token) {start : Nat}
    (hs : start ≤ chars.size) :
    (runWithin chars limit' budget tokens start).fresh =
      (runWithin chars limit budget tokens start).fresh.mapError (MatchError.underLimit limit') := by
  have hle : budget ≤ budget := Nat.le_refl budget
  have outcome := runWithin_outcome limit budget tokens hs
  have outcome' := runWithin_outcome limit' budget tokens hs
  have down := runWithin_agree_of_le limit limit' hle tokens start hs
  have up := runWithin_agree_of_le limit' limit hle tokens start hs
  unfold Agree at down up
  generalize (runWithin chars limit budget tokens start).fresh = result at outcome down up ⊢
  generalize (runWithin chars limit' budget tokens start).fresh = result' at outcome' down up ⊢
  cases outcome with
  | answered right =>
    rcases down with rfl | ⟨_, _, he⟩
    · rfl
    · cases he
  | uncompiled reached parsed =>
    rcases down with rfl | ⟨_, ⟨_, rfl⟩, he⟩
    · rfl
    · cases he
  | exhausted below =>
    have hexhausted : ∃ named, result' = .error (.depthExceeded named) := by
      rcases up with rfl | ⟨_, ⟨named, rfl⟩, he⟩
      · exact ⟨limit, rfl⟩
      · exact ⟨named, he⟩
    obtain ⟨named, rfl⟩ := hexhausted
    cases outcome' with
    | exhausted below => rfl

/-- From the starts that the branch's own anchor allows, its group is found where it is. -/
private theorem anyStart_grouped (h : Pattern.parse source = .ok pattern) (limit : Nat) {starts : List Nat}
    (hs : ∀ start ∈ starts, start ≤ chars.size ∧ ¬ (pattern.startAnchored ∧ start ≠ 0)) :
    (anyStart chars (limit + 1) [groupToken source] starts).fresh =
      (anyStart chars limit pattern.tokens starts).fresh.mapError
        (MatchError.underLimit (limit + 1)) := by
  induction starts with
  | nil => rfl
  | cons start starts ih =>
    obtain ⟨⟨hstart, hallowed⟩, hrest⟩ := List.forall_mem_cons.mp hs
    rw [anyStart, anyStart, fresh_bind, fresh_bind, run, run, run_grouped h (limit + 1) limit hstart,
      if_neg hallowed, runWithin_underLimit limit (limit + 1) limit pattern.tokens hstart]
    rcases (runWithin chars limit limit pattern.tokens start).fresh with e | _ | finish
    · rfl
    · exact ih hrest
    · rfl

/-- A group whose branch starts with `^` leads to nothing from any start but the first. -/
private theorem anyStart_grouped_of_anchored (h : Pattern.parse source = .ok pattern)
    (hanchored : pattern.startAnchored) (limit : Nat) {starts : List Nat}
    (hs : ∀ start ∈ starts, start ≤ chars.size ∧ start ≠ 0) :
    (anyStart chars (limit + 1) [groupToken source] starts).fresh = .ok false := by
  induction starts with
  | nil => rfl
  | cons start starts ih =>
    obtain ⟨⟨hstart, hne⟩, hrest⟩ := List.forall_mem_cons.mp hs
    rw [anyStart, fresh_bind, run, run_grouped h (limit + 1) limit hstart, if_pos ⟨hanchored, hne⟩]
    exact ih hrest

theorem find_grouped (h : Pattern.parse source = .ok pattern) (limit : Nat) :
    (anyStart chars (limit + 1) [groupToken source] (List.range (chars.size + 1))).fresh =
      (find chars limit pattern).fresh.mapError (MatchError.underLimit (limit + 1)) := by
  rw [find]
  split
  · rename_i hanchored
    have hzero : ∀ start ∈ [0], start ≤ chars.size ∧ ¬ (pattern.startAnchored ∧ start ≠ 0) := by
      simp
    have hlater : ∀ start ∈ (List.range chars.size).map Nat.succ,
        start ≤ chars.size ∧ start ≠ 0 := by
      intro start hstart
      obtain ⟨before, hbefore, rfl⟩ := List.mem_map.mp hstart
      exact ⟨List.mem_range.mp hbefore, Nat.succ_ne_zero before⟩
    have hnothing := anyStart_grouped_of_anchored h hanchored limit hlater
    rw [← anyStart_grouped h limit hzero, List.range_succ_eq_map, anyStart, anyStart, fresh_bind,
      fresh_bind]
    rcases (run chars (limit + 1) [groupToken source] 0).fresh with e | _ | finish
    · rfl
    · exact hnothing
    · rfl
  · rename_i hfree
    apply anyStart_grouped h limit
    intro start hstart
    exact ⟨Nat.lt_succ_iff.mp (List.mem_range.mp hstart), fun hskip => hfree hskip.1⟩

/-- A depth error names the engine's own limit. -/
private theorem limit_of_exhausted {engine : Engine} (he : engine.Reachable) {text source : Text}
    {limit : Nat} (h : (engine.isMatch text source).1 = .error (.depthExceeded limit)) :
    limit = engine.recursionLimit := by
  rcases hp : Pattern.parse source with e | pattern
  · rw [isMatch_of_error he hp] at h
    cases h
  · have outcome := isMatch_outcome he text hp
    rw [h] at outcome
    cases outcome with
    | exhausted below => rfl

theorem isMatch_grouped {outer inner : Engine} (houter : outer.Reachable) (hinner : inner.Reachable)
    (hlimit : outer.recursionLimit = inner.recursionLimit + 1) (text : Text)
    (closed : Bracket.groupBody? (source ++ [')']) = some source)
    (single : Bracket.branches source = [source]) :
    (outer.isMatch text (grouped source)).1 =
      (inner.isMatch text source).1.mapError (MatchError.underLimit outer.recursionLimit) := by
  have hgroup : (outer.isMatch text (grouped source)).1 =
      (anyStart text.toArray (inner.recursionLimit + 1) [groupToken source]
        (List.range (text.toArray.size + 1))).fresh := by
    rw [houter.isMatch_fst, fresh_isMatch (parse_grouped closed single), hlimit]
    rfl
  rw [hgroup]
  rcases hp : Pattern.parse source with e | pattern
  · have hfirst := run_grouped_of_error hp (inner.recursionLimit + 1) inner.recursionLimit
      (Nat.zero_le text.toArray.size)
    rw [isMatch_of_error hinner hp, List.range_succ_eq_map, anyStart, fresh_bind, run, hfirst]
    rfl
  · rw [hinner.isMatch_fst, fresh_isMatch hp, hlimit]
    exact find_grouped hp inner.recursionLimit

/-- A pattern in brackets answers as the pattern alone does under a limit that is one smaller: found or
not found, with the same error of a branch that does not compile, and too deep exactly where the pattern
alone is. Anchors may stand inside the brackets. -/
theorem grouping_is_transparent (outer inner : Engine) (houter : outer.Reachable)
    (hinner : inner.Reachable) (hlimit : outer.recursionLimit = inner.recursionLimit + 1)
    (text source : Text) (closed : Bracket.groupBody? (source ++ [')']) = some source)
    (single : Bracket.branches source = [source]) :
    (∀ found, (outer.isMatch text (grouped source)).1 = .ok found ↔
      (inner.isMatch text source).1 = .ok found) ∧
    (∀ error, (outer.isMatch text (grouped source)).1 = .error (.compile error) ↔
      (inner.isMatch text source).1 = .error (.compile error)) ∧
    ((outer.isMatch text (grouped source)).1 = .error (.depthExceeded outer.recursionLimit) ↔
      (inner.isMatch text source).1 = .error (.depthExceeded inner.recursionLimit)) ∧
    (outer.isMatch text (grouped source)).1 =
      (inner.isMatch text source).1.mapError (MatchError.underLimit outer.recursionLimit) := by
  rw [isMatch_grouped houter hinner hlimit text closed single]
  rcases hr : (inner.isMatch text source).1 with (e | limit | ⟨cursor, length⟩) | found
  · simp [Except.mapError, MatchError.underLimit]
  · cases limit_of_exhausted hinner hr
    simp [Except.mapError, MatchError.underLimit]
  · simp [Except.mapError, MatchError.underLimit]
  · simp [Except.mapError]

/-- `^(b+|a)+c$` needs three levels, and four in brackets. -/
theorem anchored_pattern_in_brackets :
    (Engine.isMatch { recursionLimit := 4 } ['a', 'b', 'c']
      (grouped ['^', '(', 'b', '+', '|', 'a', ')', '+', 'c', '$'])).1 = .ok true ∧
    (Engine.isMatch { recursionLimit := 3 } ['a', 'b', 'c']
      (grouped ['^', '(', 'b', '+', '|', 'a', ')', '+', 'c', '$'])).1 =
        .error (.depthExceeded 3) := by
  have deep := grouping_is_transparent { recursionLimit := 4 } { recursionLimit := 3 } (.new 4)
    (.new 3) rfl ['a', 'b', 'c'] ['^', '(', 'b', '+', '|', 'a', ')', '+', 'c', '$'] rfl rfl
  have shallow := grouping_is_transparent { recursionLimit := 3 } { recursionLimit := 2 } (.new 3)
    (.new 2) rfl ['a', 'b', 'c'] ['^', '(', 'b', '+', '|', 'a', ')', '+', 'c', '$'] rfl rfl
  exact ⟨(deep.1 true).mpr rfl, shallow.2.2.1.mpr rfl⟩

end Match

end LineSearch
