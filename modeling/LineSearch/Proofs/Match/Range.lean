import LineSearch.Proofs.Match.Agreement
import LineSearch.Proofs.Match.Enumeration

/-! The cursor never leaves the line. Main statement: a run that watches over every position it reads
from, and over every end it tries, is the run itself, and nothing is ever reported. -/
namespace LineSearch.Match
open Matching
variable {chars : Line} {nested nested' : Runner}

def watch (line : Line) (low : Nat) (positions : List Nat) : Matching Unit :=
  match positions.find? fun position => decide (position < low ∨ line.size < position) with
  | some position => throw (.cursorOutOfRange position line.size)
  | none => pure ()

/-- Matches a stream and watches over the cursor of every token, and over every end that the token
commits to or has tried. -/
def watchedTokens (line : Line) (nested : Runner) : Runner
  | [], cursor => pure (some cursor)
  | token :: rest, cursor => do
    watch line 0 [cursor]
    let offered ← offer line nested cursor token.kind
    watch line cursor offered.stops
    match offered with
    | .commit (some stop) =>
      if mayEnd line token stop then watchedTokens line nested rest stop else pure none
    | .commit none => pure none
    | .choose stops => firstViable line nested token rest stops
    | .finish stop => pure stop

def watchedWithin (line : Line) (limit : Nat) : (budget : Nat) → Runner
  | 0 => fun _ _ => throw (.depthExceeded limit)
  | budget + 1 => fun tokens cursor =>
    if line.size < cursor then throw (.cursorOutOfRange cursor line.size)
    else watchedTokens line (watchedWithin line limit budget) tokens cursor

private theorem watch_eq_pure {low : Nat} {positions : List Nat}
    (h : ∀ position ∈ positions, low ≤ position ∧ position ≤ chars.size) :
    watch chars low positions = pure () := by
  have hnone : positions.find? (fun position => decide (position < low ∨ chars.size < position)) =
      none := by
    rw [List.find?_eq_none]
    intro position hp
    have := h position hp
    simp only [decide_eq_true_eq]
    omega
  rw [watch, hnone]

/-- Watching over a stream changes nothing, if watching over what is nested in it does not. -/
private theorem runTokens_agree_watched (h : RunnersAgree chars (fun _ => False) nested nested')
    (hn : Follows chars nested) (tokens : List Token) {start : Nat} (hs : start ≤ chars.size) :
    Agree (fun _ => False) (runTokens chars nested tokens start)
      (watchedTokens chars nested' tokens start) := by
  induction tokens generalizing start with
  | nil => exact .refl _
  | cons token rest ih =>
    have hcursor : watch chars 0 [start] = pure () := by
      apply watch_eq_pure
      intro position hp
      rw [List.mem_singleton.mp hp]
      exact ⟨Nat.zero_le _, hs⟩
    rw [runTokens, watchedTokens, hcursor, pure_bind]
    refine (offer_agree h.compiled hn token.kind hs).bind ?_
    intro offered ho
    have hstops := bounds_of_offer hn hs ho
    rw [watch_eq_pure hstops, pure_bind]
    rcases offered with (_ | stop) | stops | stop
    · exact .refl _
    · have hstop := (hstops stop (by simp [Offer.stops])).2
      simp only
      split
      · exact ih hstop
      · exact .refl _
    · exact firstViable_agree rfl (h rest) fun stop hstop => (hstops stop hstop).2
    · exact .refl _

theorem runWithin_agree_watched (limit budget : Nat) :
    RunnersAgree chars (fun _ => False) (runWithin chars limit budget)
      (watchedWithin chars limit budget) := by
  induction budget with
  | zero =>
    intro tokens start _
    exact .refl _
  | succ budget ih =>
    intro tokens start hs
    have hn : Follows chars (runWithin chars limit budget) := follows_runWithin limit budget
    simp only [runWithin, watchedWithin, if_neg (Nat.not_lt.mpr hs)]
    exact runTokens_agree_watched ih hn tokens hs

theorem Outcome.ne_cursorOutOfRange {α : Type} {limit budget : Nat} {tokens : List Token}
    {answer : α → Prop} {result : Except MatchError α} (h : Outcome limit budget tokens answer result)
    (cursor length : Nat) : result ≠ .error (.cursorOutOfRange cursor length) := by
  rintro rfl
  cases h

/-- A run from a position of the line is the run that watches over every cursor and every end it tries,
at every depth of nesting, and ends between its start and the end of the line. What a token offers lies
between its cursor and the end of the line. No search reports a cursor. -/
theorem cursor_stays_on_line :
    (∀ (chars : Line) (limit budget : Nat) (tokens : List Token) (start : Nat), start ≤ chars.size →
      (watchedWithin chars limit budget tokens start).fresh =
        (runWithin chars limit budget tokens start).fresh ∧
      (∀ stop, (runWithin chars limit budget tokens start).fresh = .ok (some stop) →
        start ≤ stop ∧ stop ≤ chars.size) ∧
      ∀ cursor length, (runWithin chars limit budget tokens start).fresh ≠
        .error (.cursorOutOfRange cursor length)) ∧
    (∀ (chars : Line) (limit budget : Nat) (kind : TokenKind) (start : Nat) (offered : Offer),
      start ≤ chars.size →
      (offer chars (runWithin chars limit budget) start kind).fresh = .ok offered →
      ∀ stop ∈ offered.stops, start ≤ stop ∧ stop ≤ chars.size) ∧
    (∀ (engine : Engine) (text source : Text), engine.Reachable → ∀ cursor length,
      (engine.isMatch text source).1 ≠ .error (.cursorOutOfRange cursor length)) := by
  refine ⟨?_, ?_, ?_⟩
  · intro chars limit budget tokens start hs
    refine ⟨?_, ?_, ?_⟩
    · exact (runWithin_agree_watched limit budget tokens start hs).fresh_eq.symm
    · intro stop hstop
      have hmem := List.mem_of_head? (runWithin_yields limit budget tokens start _ hstop).symm
      exact bounds_of_mem_successes hs hmem
    · intro cursor length
      exact (runWithin_outcome limit budget tokens hs).ne_cursorOutOfRange cursor length
  · intro chars limit budget kind start offered hs ho
    have hn : Follows chars (runWithin chars limit budget) :=
      fun tokens start _ => runWithin_yields limit budget tokens start
    exact bounds_of_offer hn hs ho
  · intro engine text source he cursor length
    rcases hp : Pattern.parse source with e | pattern
    · rw [isMatch_of_error he hp]
      rintro ⟨⟩
    · exact (isMatch_outcome he text hp).ne_cursorOutOfRange cursor length

/-- In `(a?)+b` the repetition ends with an empty round. On `aab` it offers the positions 2 and 1. -/
theorem empty_round_stays_on_line :
    (watchedWithin #['a', 'a', 'b'] 8 8
      [{ kind := .group ['a', '?'] [['a', '?']] (some .oneOrMore) }, { kind := .literal ['b'] }] 0).fresh =
        .ok (some 3) ∧
    (∀ stop ∈ [2, 1], 0 ≤ stop ∧ stop ≤ 3) ∧
    ∀ cursor length, (Engine.isMatch { recursionLimit := 8 } ['a', 'a', 'b']
      ['(', 'a', '?', ')', '+', 'b']).1 ≠ .error (.cursorOutOfRange cursor length) := by
  obtain ⟨runs, offers, searches⟩ := cursor_stays_on_line
  refine ⟨?_, ?_, ?_⟩
  · rw [(runs _ 8 8 _ 0 (by decide)).1]
    rfl
  · exact offers #['a', 'a', 'b'] 8 8 (.group ['a', '?'] [['a', '?']] (some .oneOrMore)) 0
      (.choose [2, 1]) (by decide) rfl
  · exact searches _ _ _ (.new 8)

end LineSearch.Match
