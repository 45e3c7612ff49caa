import LineSearch.Proofs.Match.Agreement
import LineSearch.Proofs.Match.Depth

/-! One token put in another's place. Streams around two tokens that offer alike end alike; a group of
branches without groups of their own offers what is enumerated for it, as far as the budget goes. -/
namespace LineSearch.Match
open Matching

/-- A stream with room for one token. The anchor belongs to the place. -/
structure Place where
  front : List Token
  anchored : Bool
  rest : List Token

def Place.fill (place : Place) (kind : TokenKind) : List Token :=
  place.front ++ { kind, endAnchor := place.anchored } :: place.rest

variable {chars : Line} {limit : Nat} {branches : List Text}

def Replaces (chars : Line) (limit : Nat) (kind other : TokenKind) : Prop :=
  ∀ budget, ∀ start ≤ chars.size,
    Agree Exhausted (offer chars (runWithin chars limit budget) start kind)
      (offer chars (runWithin chars limit budget) start other)

/-- Streams that replace each other token by token end alike, unless the first runs out of budget. -/
private theorem runWithin_agree_of_replaces {tokens others : List Token}
    (h : List.Forall₂ (fun token other =>
      token.endAnchor = other.endAnchor ∧ Replaces chars limit token.kind other.kind) tokens others)
    (budget start : Nat) :
    Agree Exhausted (runWithin chars limit budget tokens start)
      (runWithin chars limit budget others start) := by
  induction budget generalizing tokens others start with
  | zero => exact .inr ⟨.depthExceeded limit, ⟨limit, rfl⟩, rfl⟩
  | succ budget ih =>
    have hn : Follows chars (runWithin chars limit budget) := follows_runWithin limit budget
    simp only [runWithin]
    split
    · exact .refl _
    · rename_i hs
      exact runTokens_agree_of_forall₂ (fun _ _ here => here.1) (fun _ _ here => here.2 budget)
        (fun _ _ later start _ => ih later start) hn h (Nat.le_of_not_lt hs)

theorem Replaces.fill {kind other : TokenKind} (h : Replaces chars limit kind other) (place : Place)
    (budget start : Nat) :
    Agree Exhausted (runWithin chars limit budget (place.fill kind) start)
      (runWithin chars limit budget (place.fill other) start) := by
  apply runWithin_agree_of_replaces
  have same (tokens : List Token) : List.Forall₂ (fun token other =>
      token.endAnchor = other.endAnchor ∧ Replaces chars limit token.kind other.kind) tokens tokens :=
    List.forall₂_same.mpr fun token _ => ⟨rfl, fun _ _ _ => .refl _⟩
  exact List.rel_append (same place.front) (.cons ⟨rfl, h⟩ (same place.rest))

def Groupless (branch : Text) : Prop :=
  ∃ pattern, Pattern.parse branch = .ok pattern ∧ nestedBranches pattern.tokens = []

/-- All that is nested in a stream stands around the place of one token, or is a branch of that token if
its branches have no groups of their own. -/
theorem nested_of_fill {place : Place} {kind : TokenKind} {branch : Text}
    (groupless : ∀ branch ∈ kind.branches, Groupless branch) (h : Nested (place.fill kind) branch) :
    Nested (place.front ++ place.rest) branch ∨ branch ∈ kind.branches := by
  have split {branch : Text} (hb : branch ∈ nestedBranches (place.fill kind)) :
      branch ∈ nestedBranches (place.front ++ place.rest) ∨ branch ∈ kind.branches := by
    simp only [Place.fill, nestedBranches, List.flatMap_append, List.flatMap_cons,
      List.mem_append] at hb ⊢
    rcases hb with hfront | hown | hrest
    · exact .inl (.inl hfront)
    · exact .inr hown
    · exact .inl (.inr hrest)
  cases h with
  | direct member => exact (split member).imp .direct id
  | inner member parsed below =>
    refine (split member).imp (.inner · parsed below) fun hown => ?_
    obtain ⟨pattern, hp, hnone⟩ := groupless _ hown
    cases hp.symm.trans parsed
    exact absurd hnone below.nestedBranches_ne_nil

/-- The ends of branches without groups are those enumerated, unless the budget runs out. -/
private theorem branchEnds_agree_branchStops (groupless : ∀ branch ∈ branches, Groupless branch)
    (lenient : Bool) (budget : Nat) {start : Nat} (hs : start ≤ chars.size) :
    Agree Exhausted (branchEnds (runWithin chars limit budget) lenient start branches)
      (pure (branchStops (branchEnd chars) branches start)) := by
  have hn : Follows chars (runWithin chars limit budget) := follows_runWithin limit budget
  rcases h : (branchEnds (runWithin chars limit budget) lenient start branches).fresh with e | stops
  · cases branchEnds_error h with
    | uncompiled member parsed strict eq =>
      obtain ⟨pattern, hp, -⟩ := groupless _ member
      cases hp.symm.trans parsed
    | nested member parsed fails =>
      obtain ⟨pattern, hp, hnone⟩ := groupless _ member
      cases hp.symm.trans parsed
      rcases runWithin_error hs fails with ⟨rfl, -⟩ | ⟨_, _, _, _, hnested, -⟩
      · exact .inr ⟨_, ⟨limit, rfl⟩, h⟩
      · exact absurd hnone hnested.nested.nestedBranches_ne_nil
  · cases branchEnds_yields hn lenient hs branches stops h
    exact .inl h

/-- A repeated group of branches without groups can be replaced by a token that repeats what the first
of those branches to match does. -/
theorem replaces_of_rounds {round : Nat → Option Nat} {kind : TokenKind}
    (groupless : ∀ branch ∈ branches, Groupless branch)
    (first : ∀ start, (branchStops (branchEnd chars) branches start).head? = round start)
    (offers : ∀ nested start,
      offer chars nested start kind = .choose <$> rounds chars (fun position => pure (round position)) start)
    (body : Text) : Replaces chars limit (.group body branches (some .oneOrMore)) kind := by
  intro budget start hs
  have hn : Follows chars (runWithin chars limit budget) := follows_runWithin limit budget
  have agrees (position : Nat) (hp : position ≤ chars.size) :
      Agree Exhausted (List.head? <$> branchEnds (runWithin chars limit budget) false position branches)
        (pure (round position)) := by
    rw [← first]
    exact (branchEnds_agree_branchStops groupless false budget hp).map List.head?
  have yields (position : Nat) (hp : position ≤ chars.size) :=
    (branchEnds_yields hn false hp branches).map List.head?
  rw [offers]
  exact (roundsFrom_agree agrees yields (advances_firstBranch branches) _ hs []).map Offer.choose

end LineSearch.Match
