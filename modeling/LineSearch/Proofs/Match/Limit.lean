import LineSearch.Proofs.Match.Agreement
import LineSearch.Proofs.Match.Enumeration

/-! When the recursion limit is out of the way: it is never reached if it covers the need of the pattern,
and no pattern needs more than one for every two of its characters, and one. A limit that is reached
withholds an answer, and never gives another one. -/
namespace LineSearch.Match
open Matching

private theorem Outcome.ne_depthExceeded {α : Type} {limit budget : Nat} {tokens : List Token}
    {answer : α → Prop} {result : Except MatchError α} (h : Outcome limit budget tokens answer result)
    (deep : need branchNeed tokens ≤ budget) (reported : Nat) :
    result ≠ .error (.depthExceeded reported) := by
  rintro rfl
  cases h with
  | exhausted below => omega

/-- A limit that covers the need of a pattern, or half the length of its text and one, is not reached.
The need of a branch is that of its tokens. -/
theorem limit_covers_need :
    (∀ branch, branchNeed branch =
      match Pattern.parse branch with
      | .error _ => 0
      | .ok pattern => need branchNeed pattern.tokens) ∧
    (∀ (engine : Engine) (text source : Text) (pattern : Pattern), engine.Reachable →
      Pattern.parse source = .ok pattern →
      (need branchNeed pattern.tokens ≤ engine.recursionLimit →
        ∀ limit, (engine.isMatch text source).1 ≠ .error (.depthExceeded limit)) ∧
      need branchNeed pattern.tokens ≤ 1 + source.length / 2 ∧
      (1 + source.length / 2 ≤ engine.recursionLimit →
        ∀ limit, (engine.isMatch text source).1 ≠ .error (.depthExceeded limit))) := by
  refine ⟨?_, ?_⟩
  · intro branch
    rcases hp : Pattern.parse branch with e | pattern
    · exact Pattern.interpret_of_error hp
    · exact branchNeed_of_ok hp
  · intro engine text source pattern he hp
    have covered : need branchNeed pattern.tokens ≤ engine.recursionLimit →
        ∀ limit, (engine.isMatch text source).1 ≠ .error (.depthExceeded limit) :=
      fun hdeep => (isMatch_outcome he text hp).ne_depthExceeded hdeep
    have bound : need branchNeed pattern.tokens ≤ 1 + source.length / 2 := by
      rw [← branchNeed_of_ok hp]
      exact branchNeed_le source
    refine ⟨covered, bound, ?_⟩
    intro hlimit
    exact covered (Nat.le_trans bound hlimit)

/-- `(((a)))` needs a limit of 4, half its length and one: with 3 its innermost branch is out of reach. -/
theorem nested_groups_need_their_depth :
    ∃ pattern, Pattern.parse ['(', '(', '(', 'a', ')', ')', ')'] = .ok pattern ∧
      need branchNeed pattern.tokens = 4 ∧
      (Engine.isMatch { recursionLimit := 3 } ['a'] ['(', '(', '(', 'a', ')', ')', ')']).1 =
        .error (.depthExceeded 3) ∧
      ∀ limit, (Engine.isMatch { recursionLimit := 4 } ['a']
        ['(', '(', '(', 'a', ')', ')', ')']).1 ≠ .error (.depthExceeded limit) := by
  obtain ⟨pattern, hp⟩ : ∃ pattern, Pattern.parse ['(', '(', '(', 'a', ')', ')', ')'] =
    .ok pattern := ⟨_, rfl⟩
  obtain ⟨-, covers⟩ := limit_covers_need
  have shallow := covers { recursionLimit := 3 } ['a'] _ pattern (.new 3) hp
  have deep := covers { recursionLimit := 4 } ['a'] _ pattern (.new 4) hp
  refine ⟨pattern, hp, ?_, rfl, deep.2.2 (by decide)⟩
  have enough : need branchNeed pattern.tokens ≤ 4 := shallow.2.1
  have short : ¬ need branchNeed pattern.tokens ≤ 3 := fun hneed => shallow.1 hneed 3 rfl
  omega

/-- What is answered under one limit, an error of a branch included, is answered under every larger
one. So two limits under which there is an answer give the same. No token takes a depth error for a branch
that does not match or for the last of its rounds: with more budget it offers the same ends, unless it
failed for lack of budget itself. -/
theorem raised_limit_keeps_answer :
    (∀ (low high : Engine) (text source : Text), low.Reachable → high.Reachable →
      low.recursionLimit ≤ high.recursionLimit →
      (∀ limit, (low.isMatch text source).1 ≠ .error (.depthExceeded limit)) →
      (high.isMatch text source).1 = (low.isMatch text source).1) ∧
    (∀ (first second : Engine) (text source : Text), first.Reachable → second.Reachable →
      (∀ limit, (first.isMatch text source).1 ≠ .error (.depthExceeded limit)) →
      (∀ limit, (second.isMatch text source).1 ≠ .error (.depthExceeded limit)) →
      (first.isMatch text source).1 = (second.isMatch text source).1) ∧
    (∀ (chars : Line) (limit limit' budget budget' : Nat) (kind : TokenKind) (start : Nat),
      start ≤ chars.size → budget ≤ budget' →
      (∀ reported, (offer chars (runWithin chars limit budget) start kind).fresh ≠
        .error (.depthExceeded reported)) →
      (offer chars (runWithin chars limit' budget') start kind).fresh =
        (offer chars (runWithin chars limit budget) start kind).fresh) := by
  have raised (low high : Engine) (text source : Text) (hlow : low.Reachable)
      (hhigh : high.Reachable) (hle : low.recursionLimit ≤ high.recursionLimit)
      (answered : ∀ limit, (low.isMatch text source).1 ≠ .error (.depthExceeded limit)) :
      (high.isMatch text source).1 = (low.isMatch text source).1 := by
    rw [hlow.isMatch_fst] at answered ⊢
    rw [hhigh.isMatch_fst]
    exact fresh_eq_of_not_exhausted (isMatch_agree_of_le hle text source) answered
  refine ⟨raised, ?_, ?_⟩
  · intro first second text source hfirst hsecond answered answered'
    rcases Nat.le_total first.recursionLimit second.recursionLimit with hle | hle
    · exact (raised first second text source hfirst hsecond hle answered).symm
    · exact raised second first text source hsecond hfirst hle answered'
  · intro chars limit limit' budget budget' kind start hs hle answered
    have hn : Follows chars (runWithin chars limit budget) :=
      fun tokens start _ => runWithin_yields limit budget tokens start
    exact fresh_eq_of_not_exhausted
      (offer_agree (runWithin_agree_of_le limit limit' hle).compiled hn kind hs) answered

/-- `((b+)?c)+(+)` needs a limit of 4 to come to its last group on `bcc`, which does not compile. In it the
repeated group offers two rounds, the first with the optional group inside and the second without. -/
theorem raised_limit_keeps_compile_error :
    (Engine.isMatch { recursionLimit := 3 } ['b', 'c', 'c']
      ['(', '(', 'b', '+', ')', '?', 'c', ')', '+', '(', '+', ')']).1 =
        .error (.depthExceeded 3) ∧
    (Engine.isMatch { recursionLimit := 256 } ['b', 'c', 'c']
      ['(', '(', 'b', '+', ')', '?', 'c', ')', '+', '(', '+', ')']).1 =
        .error (.compile (.danglingQuantifier .oneOrMore 0)) ∧
    (offer #['b', 'c', 'c'] (runWithin #['b', 'c', 'c'] 256 256) 0
      (.group ['(', 'b', '+', ')', '?', 'c'] [['(', 'b', '+', ')', '?', 'c']] (some .oneOrMore))).fresh =
        .ok (.choose [3, 2]) := by
  obtain ⟨keeps, -, offers⟩ := raised_limit_keeps_answer
  refine ⟨rfl, ?_, ?_⟩
  · have same := keeps { recursionLimit := 4 } { recursionLimit := 256 } ['b', 'c', 'c']
      ['(', '(', 'b', '+', ')', '?', 'c', ')', '+', '(', '+', ')'] (.new 4) (.new 256) (by decide)
      (by rintro limit ⟨⟩)
    exact same
  · have same := offers #['b', 'c', 'c'] 4 256 4 256
      (.group ['(', 'b', '+', ')', '?', 'c'] [['(', 'b', '+', ')', '?', 'c']] (some .oneOrMore)) 0
      (by decide) (by decide) (by rintro reported ⟨⟩)
    exact same

end LineSearch.Match
