import LineSearch.Proofs.Match.Refinement

/-! Where the error of an attempt comes from: a nested attempt that fails, or a branch that does not
compile. -/
namespace LineSearch.Match
open Matching
variable {chars : Line} {nested : Runner} {e : MatchError}

inductive BranchFailure (nested : Runner) (lenient : Bool) (branches : List Text) (start : Nat)
    (e : MatchError) : Prop where
  | uncompiled {branch : Text} {error : CompileError} (member : branch ∈ branches)
      (parsed : Pattern.parse branch = .error error) (strict : lenient = false)
      (eq : e = .compile error)
  | nested {branch : Text} {pattern : Pattern} (member : branch ∈ branches)
      (parsed : Pattern.parse branch = .ok pattern)
      (fails : (nested pattern.tokens start).fresh = .error e)

theorem BranchFailure.cons {lenient : Bool} {branch : Text} {branches : List Text} {start : Nat}
    (h : BranchFailure nested lenient branches start e) :
    BranchFailure nested lenient (branch :: branches) start e := by
  cases h with
  | uncompiled member parsed strict eq => exact .uncompiled (.tail _ member) parsed strict eq
  | nested member parsed fails => exact .nested (.tail _ member) parsed fails

theorem branchEnds_error {lenient : Bool} {start : Nat} {branches : List Text}
    (h : (branchEnds nested lenient start branches).fresh = .error e) :
    BranchFailure nested lenient branches start e := by
  induction branches with
  | nil => cases h
  | cons branch rest ih =>
    rw [branchEnds, fresh_bind_of_ok (fresh_request branch)] at h
    rcases hp : Pattern.parse branch with error | pattern
    · rw [hp] at h
      cases lenient
      · cases h
        exact .uncompiled (.head _) hp rfl rfl
      · exact (ih h).cons
    · rw [hp] at h
      simp only at h
      split at h
      · exact (ih h).cons
      · rcases fresh_bind_eq_error.mp h with h | ⟨stop, _, h⟩
        · exact .nested (.head _) hp h
        · rcases stop with _ | stop
          · exact (ih h).cons
          · exact (ih (fresh_map_eq_error.mp h)).cons

theorem roundsFrom_error {attempt : Nat → Matching (Option Nat)} {round : Nat → Option Nat}
    (ha : ∀ start ≤ chars.size, Yields (attempt start) (round start))
    (hr : Advances chars round) {fuel start : Nat} (hs : start ≤ chars.size) {reached : List Nat}
    (h : (roundsFrom attempt fuel start reached).fresh = .error e) :
    ∃ position ≤ chars.size, (attempt position).fresh = .error e := by
  induction fuel generalizing start reached with
  | zero => cases h
  | succ fuel ih =>
    rw [roundsFrom] at h
    rcases fresh_bind_eq_error.mp h with h | ⟨stop, hstop, h⟩
    · exact ⟨start, hs, h⟩
    · have hround := ha start hs stop hstop
      rcases stop with _ | stop
      · cases h
      · simp only at h
        split at h
        · cases h
        · exact ih (hr start hs stop hround.symm).2 h

/-- A group fails where one of its branches does. Optional groups are lenient with branches that do
not compile. -/
private theorem groupEnds_error (hn : Follows chars nested) {branches : List Text} {suffix : Option Suffix}
    {start : Nat} (hs : start ≤ chars.size)
    (h : (groupEnds chars nested branches start suffix).fresh = .error e) :
    ∃ position ≤ chars.size,
      BranchFailure nested (suffix == some .zeroOrOne) branches position e := by
  rcases suffix with _ | _ | _
  · exact ⟨start, hs, branchEnds_error h⟩
  · obtain ⟨position, hp, he⟩ := roundsFrom_error
      (fun position hp => (branchEnds_yields hn false hp branches).map List.head?)
      (advances_firstBranch branches) hs h
    exact ⟨position, hp, branchEnds_error (fresh_map_eq_error.mp he)⟩
  · exact ⟨start, hs, branchEnds_error (fresh_map_eq_error.mp h)⟩

/-- Does the token choose among several ends, so that the rest of its stream is a nested attempt? -/
def chooses : TokenKind → Bool
  | .wildcardPlus | .quantified _ .oneOrMore | .alternation _ (some .oneOrMore) | .group .. => true
  | _ => false

/-- Only groups fail by themselves. -/
private theorem offer_error {kind : TokenKind} {start : Nat} (hs : start ≤ chars.size)
    (h : (offer chars nested start kind).fresh = .error e) :
    ∃ body branches suffix, kind = .group body branches suffix ∧
      (groupEnds chars nested branches start suffix).fresh = .error e := by
  have repeated {round : Nat → Option Nat} (hr : Advances chars round)
      (hf : (Offer.choose <$> rounds chars (fun position => pure (round position)) start).fresh =
        .error e) : False := by
    obtain ⟨position, _, hp⟩ :=
      roundsFrom_error (fun position _ => Yields.pure (round position)) hr hs (fresh_map_eq_error.mp hf)
    cases hp
  cases kind with
  | wildcardPlus => exact (repeated (advances_atomEnd .any) h).elim
  | quantified atom suffix =>
    cases suffix with
    | zeroOrOne => cases h
    | oneOrMore => exact (repeated (advances_atomEnd atom) h).elim
  | alternation texts suffix =>
    rcases suffix with _ | _ | _
    · cases h
    · exact (repeated (advances_alternativeEnd texts) h).elim
    · cases h
  | group body branches suffix => exact ⟨body, branches, suffix, rfl, fresh_map_eq_error.mp h⟩
  | _ => cases h

/-- Is the offer of the sort that tokens of the kind make? -/
private def Offer.Fits (kind : TokenKind) : Offer → Prop
  | .commit _ => chooses kind = false ∧ concludes kind = false
  | .choose _ => chooses kind = true
  | .finish _ => concludes kind = true

private theorem fits_of_offer {kind : TokenKind} {start : Nat} {offered : Offer}
    (h : (offer chars nested start kind).fresh = .ok offered) : offered.Fits kind := by
  have chosen (hkind : chooses kind = true) {stops : Matching (List Nat)}
      (h : (Offer.choose <$> stops).fresh = .ok offered) : offered.Fits kind := by
    obtain ⟨found, -, rfl⟩ := fresh_map_eq_ok.mp h
    exact hkind
  cases kind with
  | wildcardPlus | group body branches suffix => exact chosen rfl h
  | quantified atom suffix =>
    cases suffix with
    | oneOrMore => exact chosen rfl h
    | zeroOrOne =>
      cases h
      exact ⟨rfl, rfl⟩
  | alternation texts suffix =>
    rcases suffix with _ | _ | _
    · cases h
      exact ⟨rfl, rfl⟩
    · exact chosen rfl h
    · cases h
      exact ⟨rfl, rfl⟩
  | endAnchor =>
    cases h
    rfl
  | _ =>
    cases h
    exact ⟨rfl, rfl⟩

theorem chooses_of_offer {kind : TokenKind} {start : Nat} {stops : List Nat}
    (h : (offer chars nested start kind).fresh = .ok (.choose stops)) : chooses kind :=
  fits_of_offer h

theorem commits_of_offer {kind : TokenKind} {start : Nat} {stop : Option Nat}
    (h : (offer chars nested start kind).fresh = .ok (.commit stop)) :
    chooses kind = false ∧ concludes kind = false :=
  fits_of_offer h

theorem concludes_of_offer {kind : TokenKind} {start : Nat} {stop : Option Nat}
    (h : (offer chars nested start kind).fresh = .ok (.finish stop)) : concludes kind = true :=
  fits_of_offer h

private theorem firstViable_error {token : Token} {rest : List Token} {stops : List Nat}
    (h : (firstViable chars nested token rest stops).fresh = .error e) :
    ∃ stop ∈ stops, (nested rest stop).fresh = .error e := by
  induction stops with
  | nil => cases h
  | cons stop stops ih =>
    have later (h : (firstViable chars nested token rest stops).fresh = .error e) :
        ∃ position ∈ stop :: stops, (nested rest position).fresh = .error e := by
      obtain ⟨position, hp, he⟩ := ih h
      exact ⟨position, .tail _ hp, he⟩
    rw [firstViable] at h
    split at h
    · rcases fresh_bind_eq_error.mp h with h | ⟨finish, _, h⟩
      · exact ⟨stop, .head _, h⟩
      · rcases finish with _ | finish
        · exact later h
        · cases h
    · exact later h

/-- Where an error of a stream comes from: the rest behind a token that chooses, or a group. -/
inductive Failure (chars : Line) (nested : Runner) (tokens : List Token) (e : MatchError) : Prop where
  | rest {front : List Token} {token : Token} {rest : List Token} {stop : Nat}
      (split : tokens = front ++ token :: rest) (choice : chooses token.kind)
      (within : stop ≤ chars.size) (fails : (nested rest stop).fresh = .error e)
  | group {token : Token} {body : Text} {branches : List Text} {suffix : Option Suffix}
      {position : Nat} (member : token ∈ tokens) (kind : token.kind = .group body branches suffix)
      (within : position ≤ chars.size)
      (fails : BranchFailure nested (suffix == some .zeroOrOne) branches position e)

theorem Failure.cons {token : Token} {tokens : List Token} (h : Failure chars nested tokens e) :
    Failure chars nested (token :: tokens) e := by
  cases h with
  | @rest front chooser rest stop split choice within fails =>
    have hsplit : token :: tokens = (token :: front) ++ chooser :: rest := by
      rw [split, List.cons_append]
    exact .rest hsplit choice within fails
  | group member kind within fails => exact .group (.tail _ member) kind within fails

/-- A stream that fails has a reason to. -/
theorem runTokens_error (hn : Follows chars nested) {tokens : List Token} {start : Nat}
    (hs : start ≤ chars.size) (h : (runTokens chars nested tokens start).fresh = .error e) :
    Failure chars nested tokens e := by
  induction tokens generalizing start with
  | nil => cases h
  | cons token rest ih =>
    rw [runTokens] at h
    rcases fresh_bind_eq_error.mp h with h | ⟨offered, ho, h⟩
    · obtain ⟨body, branches, suffix, hk, hg⟩ := offer_error hs h
      obtain ⟨position, hp, hf⟩ := groupEnds_error hn hs hg
      exact .group (.head _) hk hp hf
    · have bounds := bounds_of_offer hn hs ho
      rcases offered with (_ | stop) | stops | stop
      · cases h
      · simp only at h
        split at h
        · exact (ih (bounds stop (by simp [Offer.stops])).2 h).cons
        · cases h
      · obtain ⟨stop, hstop, hrest⟩ := firstViable_error h
        exact .rest (List.nil_append _).symm (chooses_of_offer ho) (bounds stop hstop).2 hrest
      · cases h

end LineSearch.Match
