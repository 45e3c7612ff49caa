import LineSearch.Proofs.Match.Refinement

/-! Two runs side by side. Where nested attempts end alike from every position of the line, so does a
stream, errors that are excused in advance apart. -/
namespace LineSearch

namespace Matching
variable {α β : Type} {excused : MatchError → Prop}

/-- The attempts end alike, unless the first ends in an excused error. -/
def Agree (excused : MatchError → Prop) (first second : Matching α) : Prop :=
  first.fresh = second.fresh ∨ ∃ e, excused e ∧ first.fresh = .error e

namespace Agree

theorem refl (attempt : Matching α) : Agree excused attempt attempt := .inl rfl

theorem bind {first second : Matching α} {next next' : α → Matching β}
    (h : Agree excused first second)
    (hn : ∀ a, first.fresh = .ok a → Agree excused (next a) (next' a)) :
    Agree excused (first >>= next) (second >>= next') := by
  unfold Agree
  rw [fresh_bind, fresh_bind]
  rcases h with h | ⟨e, he, h⟩
  · rw [← h]
    rcases hf : first.fresh with e | a
    · exact .inl rfl
    · exact hn a hf
  · rw [h]
    exact .inr ⟨e, he, rfl⟩

theorem map {first second : Matching α} (h : Agree excused first second) (f : α → β) :
    Agree excused (f <$> first) (f <$> second) :=
  h.bind fun a _ => refl (pure (f a))

theorem fresh_eq {first second : Matching α} (h : Agree (fun _ => False) first second) :
    first.fresh = second.fresh := by
  rcases h with h | ⟨e, he, _⟩
  · exact h
  · exact he.elim

end Agree

end Matching

namespace Match
open Matching
variable {chars : Line} {excused : MatchError → Prop} {nested nested' : Runner}

def RunnersAgree (chars : Line) (excused : MatchError → Prop) (nested nested' : Runner) : Prop :=
  ∀ tokens, ∀ start ≤ chars.size, Agree excused (nested tokens start) (nested' tokens start)

def CompiledAgree (chars : Line) (excused : MatchError → Prop) (nested nested' : Runner) : Prop :=
  ∀ source pattern, Pattern.parse source = .ok pattern → ∀ start ≤ chars.size,
    Agree excused (nested pattern.tokens start) (nested' pattern.tokens start)

theorem RunnersAgree.compiled (h : RunnersAgree chars excused nested nested') :
    CompiledAgree chars excused nested nested' :=
  fun _ pattern _ => h pattern.tokens

private theorem branchEnds_agree (h : CompiledAgree chars excused nested nested') (lenient : Bool)
    {start : Nat} (hs : start ≤ chars.size) (branches : List Text) :
    Agree excused (branchEnds nested lenient start branches)
      (branchEnds nested' lenient start branches) := by
  induction branches with
  | nil => exact .refl _
  | cons branch rest ih =>
    rw [branchEnds, branchEnds]
    refine (Agree.refl (request branch)).bind ?_
    intro answer hanswer
    rcases answer with e | pattern
    · cases lenient
      · exact .refl _
      · exact ih
    · have hparse : Pattern.parse branch = .ok pattern := Except.ok.inj hanswer
      simp only
      split
      · exact ih
      · refine (h branch pattern hparse start hs).bind ?_
        intro answer _
        rcases answer with _ | stop
        · exact ih
        · exact ih.map (stop :: ·)

/-- Rounds that agree are repeated from the same positions, all of them on the line. -/
theorem roundsFrom_agree {attempt attempt' : Nat → Matching (Option Nat)}
    {round : Nat → Option Nat}
    (h : ∀ start ≤ chars.size, Agree excused (attempt start) (attempt' start))
    (ha : ∀ start ≤ chars.size, Yields (attempt start) (round start))
    (hr : Advances chars round) (fuel : Nat) {start : Nat} (hs : start ≤ chars.size)
    (reached : List Nat) :
    Agree excused (roundsFrom attempt fuel start reached)
      (roundsFrom attempt' fuel start reached) := by
  induction fuel generalizing start reached with
  | zero => exact .refl _
  | succ fuel ih =>
    rw [roundsFrom, roundsFrom]
    refine (h start hs).bind ?_
    intro answer hanswer
    rcases answer with _ | stop
    · exact .refl _
    · simp only
      split
      · exact .refl _
      · have hround := ha start hs (some stop) hanswer
        have hstop := (hr start hs stop hround.symm).2
        exact ih hstop (stop :: reached)

private theorem groupEnds_agree (h : CompiledAgree chars excused nested nested') (hn : Follows chars nested)
    (branches : List Text) (suffix : Option Suffix) {start : Nat} (hs : start ≤ chars.size) :
    Agree excused (groupEnds chars nested branches start suffix)
      (groupEnds chars nested' branches start suffix) := by
  rcases suffix with _ | _ | _
  · exact branchEnds_agree h false hs branches
  · have agrees (position : Nat) (hp : position ≤ chars.size) :=
      (branchEnds_agree h false hp branches).map List.head?
    have yields (position : Nat) (hp : position ≤ chars.size) :=
      (branchEnds_yields hn false hp branches).map List.head?
    exact roundsFrom_agree agrees yields (advances_firstBranch branches) _ hs []
  · exact (branchEnds_agree h true hs branches).map (· ++ [start])

/-- Only groups ask the runner, so other tokens offer the same whatever it is. -/
theorem offer_agree (h : CompiledAgree chars excused nested nested') (hn : Follows chars nested)
    (kind : TokenKind) {start : Nat} (hs : start ≤ chars.size) :
    Agree excused (offer chars nested start kind) (offer chars nested' start kind) := by
  cases kind with
  | group body branches suffix => exact (groupEnds_agree h hn branches suffix hs).map Offer.choose
  | quantified atom suffix => cases suffix <;> exact .refl _
  | alternation texts suffix => rcases suffix with _ | _ | _ <;> exact .refl _
  | _ => exact .refl _

/-- Tokens with the same anchor find the same of the stops viable, if what is behind them agrees. -/
theorem firstViable_agree {token token' : Token} (anchor : token.endAnchor = token'.endAnchor)
    {rest rest' : List Token}
    (h : ∀ stop ≤ chars.size, Agree excused (nested rest stop) (nested' rest' stop)) {stops : List Nat}
    (hs : ∀ stop ∈ stops, stop ≤ chars.size) :
    Agree excused (firstViable chars nested token rest stops)
      (firstViable chars nested' token' rest' stops) := by
  induction stops with
  | nil => exact .refl _
  | cons stop stops ih =>
    obtain ⟨hstop, hstops⟩ := List.forall_mem_cons.mp hs
    have hend : mayEnd chars token stop = mayEnd chars token' stop := by rw [mayEnd, mayEnd, anchor]
    rw [firstViable, firstViable, hend]
    split
    · refine (h stop hstop).bind ?_
      intro answer _
      rcases answer with _ | finish
      · exact ih hstops
      · exact .refl _
    · exact ih hstops

/-- Streams agree token by token: where their tokens have the same anchors and offer alike, and nested
attempts on such streams end alike. -/
theorem runTokens_agree_of_forall₂ {R : Token → Token → Prop}
    (anchor : ∀ token token', R token token' → token.endAnchor = token'.endAnchor)
    (offers : ∀ token token', R token token' → ∀ start ≤ chars.size,
      Agree excused (offer chars nested start token.kind) (offer chars nested' start token'.kind))
    (behind : ∀ tokens tokens', List.Forall₂ R tokens tokens' → ∀ start ≤ chars.size,
      Agree excused (nested tokens start) (nested' tokens' start))
    (hn : Follows chars nested) {tokens tokens' : List Token} (h : List.Forall₂ R tokens tokens')
    {start : Nat} (hs : start ≤ chars.size) :
    Agree excused (runTokens chars nested tokens start) (runTokens chars nested' tokens' start) := by
  induction h generalizing start with
  | nil => exact .refl _
  | @cons token token' rest rest' here later ih =>
    rw [runTokens, runTokens]
    refine (offers token token' here start hs).bind ?_
    intro offered ho
    have bounds := bounds_of_offer hn hs ho
    rcases offered with (_ | stop) | stops | stop
    · exact .refl _
    · have hend : mayEnd chars token stop = mayEnd chars token' stop := by
        rw [mayEnd, mayEnd, anchor token token' here]
      simp only [hend]
      split
      · exact ih (bounds stop (by simp [Offer.stops])).2
      · exact .refl _
    · exact firstViable_agree (anchor token token' here) (behind rest rest' later)
        fun stop hstop => (bounds stop hstop).2
    · exact .refl _

theorem runTokens_agree (h : RunnersAgree chars excused nested nested')
    (hn : Follows chars nested) (tokens : List Token) {start : Nat} (hs : start ≤ chars.size) :
    Agree excused (runTokens chars nested tokens start) (runTokens chars nested' tokens start) := by
  refine runTokens_agree_of_forall₂ (R := Eq) ?_ ?_ ?_ hn (List.forall₂_eq_eq_eq ▸ rfl) hs
  · rintro token _ rfl
    rfl
  · rintro token _ rfl start hs
    exact offer_agree h.compiled hn token.kind hs
  · intro tokens tokens' same start hs
    rw [List.forall₂_eq_eq_eq] at same
    exact same ▸ h tokens start hs

def Exhausted (e : MatchError) : Prop := ∃ limit, e = .depthExceeded limit

/-- Attempts that agree up to depth errors end alike where the first reports none. -/
theorem fresh_eq_of_not_exhausted {α : Type} {first second : Matching α}
    (h : Agree Exhausted first second)
    (answered : ∀ limit, first.fresh ≠ .error (.depthExceeded limit)) :
    second.fresh = first.fresh := by
  rcases h with h | ⟨_, ⟨limit, rfl⟩, h⟩
  · exact h.symm
  · exact absurd h (answered limit)

/-- A run with more budget ends alike, unless the smaller budget ran out. The limit only shows in what
is then reported. -/
theorem runWithin_agree_of_le (limit limit' : Nat) {budget budget' : Nat} (h : budget ≤ budget') :
    RunnersAgree chars Exhausted (runWithin chars limit budget) (runWithin chars limit' budget') := by
  induction budget generalizing budget' with
  | zero =>
    intro tokens start _
    exact .inr ⟨.depthExceeded limit, ⟨limit, rfl⟩, rfl⟩
  | succ budget ih =>
    obtain ⟨more, rfl⟩ := Nat.exists_eq_add_of_le' (Nat.le_trans (Nat.le_add_left 1 budget) h)
    intro tokens start hs
    have hn : Follows chars (runWithin chars limit budget) := follows_runWithin limit budget
    simp only [runWithin, if_neg (Nat.not_lt.mpr hs)]
    exact runTokens_agree (ih (Nat.le_of_succ_le_succ h)) hn tokens hs

private theorem anyStart_agree_of_le {limit limit' : Nat} (h : limit ≤ limit') (tokens : List Token)
    {starts : List Nat} (hs : ∀ start ∈ starts, start ≤ chars.size) :
    Agree Exhausted (anyStart chars limit tokens starts) (anyStart chars limit' tokens starts) := by
  induction starts with
  | nil => exact .refl _
  | cons start starts ih =>
    obtain ⟨hstart, hrest⟩ := List.forall_mem_cons.mp hs
    rw [anyStart, anyStart]
    refine (runWithin_agree_of_le limit limit' h tokens start hstart).bind ?_
    intro answer _
    rcases answer with _ | finish
    · exact ih hrest
    · exact .refl _

theorem find_agree_of_le {limit limit' : Nat} (h : limit ≤ limit') (pattern : Pattern) :
    Agree Exhausted (find chars limit pattern) (find chars limit' pattern) := by
  apply anyStart_agree_of_le h
  intro start hstart
  split at hstart
  · rw [List.mem_singleton.mp hstart]
    exact Nat.zero_le _
  · exact Nat.lt_succ_iff.mp (List.mem_range.mp hstart)

end Match

/-- A search under a larger limit ends alike, unless the smaller one is exceeded. -/
theorem isMatch_agree_of_le {limit limit' : Nat} (h : limit ≤ limit') (text source : Text) :
    Matching.Agree Match.Exhausted (isMatch limit text source) (isMatch limit' text source) := by
  refine (Matching.Agree.refl (Matching.request source)).bind ?_
  intro answer _
  rcases answer with e | pattern
  · exact .refl _
  · exact Match.find_agree_of_le h pattern

end LineSearch
