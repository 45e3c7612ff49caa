import Mathlib.Data.List.Range
import LineSearch.Proofs.Match.Exchange
import LineSearch.Proofs.Pattern.Spelling

/-! Repetition of one character. Main statement: an atom with a `+`, and the group of the same atom with a
`+`, try the same ends, from the end of the longest run of characters down to the first. -/
namespace LineSearch.Match
open Matching
variable {chars : Line}

def reach (chars : Line) (atom : Atom) (start : Nat) : Nat :=
  ((chars.toList.drop start).takeWhile atom.accepts).length

private theorem single_eq_some {atom : Atom} {start stop : Nat} :
    single chars atom start = some stop ↔
      (∃ c, chars[start]? = some c ∧ atom.accepts c = true) ∧ stop = start + 1 := by
  rw [single]
  split
  · rename_i haccepts
    rw [Option.any_eq_true] at haccepts
    rw [Option.some.injEq, eq_comm, and_iff_right haccepts]
  · rename_i hrejects
    rw [Option.any_eq_true] at hrejects
    simp [hrejects]

/-- A run that starts at an accepted character goes on behind it. -/
private theorem reach_of_accepts {atom : Atom} {start : Nat} {c : Char} (hc : chars[start]? = some c)
    (ha : atom.accepts c = true) : reach chars atom start = reach chars atom (start + 1) + 1 := by
  obtain ⟨hs, rfl⟩ := Array.getElem?_eq_some_iff.mp hc
  have hlength : start < chars.toList.length := by simpa using hs
  rw [reach, List.drop_eq_getElem_cons hlength, List.takeWhile_cons_of_pos (by simpa using ha)]
  rfl

private theorem reach_of_single_eq_none {atom : Atom} {start : Nat} (h : single chars atom start = none) :
    reach chars atom start = 0 := by
  rw [reach, List.length_eq_zero_iff]
  by_cases hs : start < chars.toList.length
  · have hsize : start < chars.size := by simpa using hs
    rw [List.drop_eq_getElem_cons hs, List.takeWhile_cons_of_neg]
    simpa [single, hsize] using h
  · rw [List.drop_eq_nil_of_le (by omega)]
    rfl

/-- A repeated character can end behind each of its run, the last first. -/
theorem repetition_single (atom : Atom) (start : Nat) :
    repetition chars (single chars atom) start =
      (List.range' (start + 1) (reach chars atom start)).reverse := by
  have hlaps : laps chars (single chars atom) start =
      (List.range' (start + 1) (reach chars atom start)).reverse := by
    induction start using laps.induct chars (single chars atom) with
    | case1 start hnone => simp [laps, hnone, reach_of_single_eq_none hnone]
    | case2 start stop hsome hforward ih =>
      obtain ⟨⟨c, hc, ha⟩, rfl⟩ := single_eq_some.mp hsome
      rw [laps, hsome, reach_of_accepts hc ha, List.range'_succ, List.reverse_cons, ← ih]
      simp only [hforward, and_self, if_true]
    | case3 start stop hsome hstuck =>
      obtain ⟨⟨c, hc, -⟩, rfl⟩ := single_eq_some.mp hsome
      have := (Array.getElem?_eq_some_iff.mp hc).1
      omega
  rw [repetition, if_neg, hlaps]
  rw [single_eq_some]
  omega

private theorem ends_ofAtom (f : Text → Nat → Option Nat) (atom : Atom) (start : Nat) :
    ends chars f (.ofAtom atom) start = (single chars atom start).toList := by
  cases atom with
  | char c =>
    have hoccurs : occurrence chars [c] start = single chars (.char c) start := by
      rw [← literalEnd_eq, ← atomEnd_eq, literalEnd, atomEnd, literalEnd]
      cases chars[start]? with
      | none => rfl
      | some found =>
        by_cases hfound : found = c
        · simp [Atom.accepts, hfound]
        · simp [Atom.accepts, hfound, Ne.symm hfound]
    rw [TokenKind.ofAtom, ends, hoccurs]
  | _ => rfl

private theorem offer_ofRepeated (nested : Runner) (atom : Atom) (start : Nat) :
    offer chars nested start (.ofRepeated atom .oneOrMore) =
      .choose <$> rounds chars (fun position => pure (single chars atom position)) start := by
  cases atom <;> simp only [TokenKind.ofRepeated, offer, atomEnd_eq]

/-- Rounds that ask for nothing are counted off without an error. -/
private theorem fresh_rounds {round : Nat → Option Nat} (hr : Advances chars round) {start : Nat}
    (hs : start ≤ chars.size) :
    (rounds chars (fun position => pure (round position)) start).fresh =
      .ok (repetition chars round start) := by
  have yields (position : Nat) (_ : position ≤ chars.size) : Yields (pure (round position)) (round position) :=
    Yields.pure _
  rcases h : (rounds chars (fun position => pure (round position)) start).fresh with e | stops
  · obtain ⟨position, -, hp⟩ := roundsFrom_error yields hr hs h
    cases hp
  · rw [rounds_yields yields hr hs stops h]

section Written
variable {atom : Atom} {text : Text} (h : atom.Written text)
include h

private theorem branchEnd_of_written (start : Nat) :
    branchEnd chars text start = single chars atom start := by
  have hfree : ¬ ((Pattern.ofKind text (.ofAtom atom)).startAnchored = true ∧ start ≠ 0) := by
    simp [Pattern.ofKind]
  rw [branchEnd_of_ok (Pattern.parse_of_written h), if_neg hfree, Pattern.ofKind, successes, ends_ofAtom]
  cases single chars atom start <;> simp [successes, mayEnd]

private theorem groupless_of_written : Groupless text :=
  ⟨_, Pattern.parse_of_written h, by cases atom <;> rfl⟩

private theorem replaces_repeated (limit : Nat) :
    Replaces chars limit (.group text [text] (some .oneOrMore)) (.ofRepeated atom .oneOrMore) := by
  refine replaces_of_rounds (by simpa using groupless_of_written h) (fun start => ?_)
    (fun nested start => offer_ofRepeated nested atom start) text
  rw [branchStops, ← branchEnd_of_written h]
  cases hend : branchEnd chars text start <;> simp [hend]

end Written

/-- An atom repeated by `+` and the group of that atom repeated by `+`, each the only token of its text,
do the same in every place of a stream, under a limit that suffices for the group. From a position of the
line both offer the ends behind each character of the longest run that the atom accepts, the last
first. -/
theorem repeated_atom_as_group (atom : Atom) (text : Text) (h : atom.Written text) :
    (∃ plain grouped,
      Pattern.parse (text ++ ['+']) = .ok plain ∧
      plain.tokens = [{ kind := .ofRepeated atom .oneOrMore }] ∧
      Pattern.parse ('(' :: text ++ [')', '+']) = .ok grouped ∧
      grouped.tokens = [{ kind := .group text [text] (some .oneOrMore) }]) ∧
    (∀ (chars : Line) (limit budget : Nat) (place : Place) (start : Nat),
      (∀ reported, (runWithin chars limit budget
        (place.fill (.group text [text] (some .oneOrMore))) start).fresh ≠
          .error (.depthExceeded reported)) →
      (runWithin chars limit budget (place.fill (.ofRepeated atom .oneOrMore)) start).fresh =
        (runWithin chars limit budget (place.fill (.group text [text] (some .oneOrMore))) start).fresh) ∧
    (∀ (chars : Line) (limit budget : Nat) (start : Nat), start ≤ chars.size →
      (offer chars (runWithin chars limit budget) start (.ofRepeated atom .oneOrMore)).fresh =
        .ok (.choose (List.range' (start + 1) (reach chars atom start)).reverse) ∧
      ((∀ reported, (offer chars (runWithin chars limit budget) start
          (.group text [text] (some .oneOrMore))).fresh ≠ .error (.depthExceeded reported)) →
        (offer chars (runWithin chars limit budget) start
          (.group text [text] (some .oneOrMore))).fresh =
          .ok (.choose (List.range' (start + 1) (reach chars atom start)).reverse))) := by
  refine ⟨?_, ?_, ?_⟩
  · exact ⟨_, _, Pattern.parse_repeated h, rfl, Pattern.parse_repeated_group h, rfl⟩
  · intro chars limit budget place start enough
    exact fresh_eq_of_not_exhausted ((replaces_repeated h limit).fill place budget start) enough
  · intro chars limit budget start hs
    have plain : (offer chars (runWithin chars limit budget) start (.ofRepeated atom .oneOrMore)).fresh =
        .ok (.choose (List.range' (start + 1) (reach chars atom start)).reverse) := by
      rw [offer_ofRepeated, fresh_map, fresh_rounds (advances_single atom) hs, repetition_single]
      rfl
    refine ⟨plain, fun enough => ?_⟩
    rw [← plain]
    exact (fresh_eq_of_not_exhausted (replaces_repeated h limit budget start hs) enough).symm

/-- On `a))b` the pattern `\)+`, alone and in brackets, offers the ends 3 and 2 behind `a`. With `$` behind
`[^b]+` a run that stops short of the end matches nothing. -/
theorem repeated_bracket_as_group :
    (run #['a', ')', ')', 'b'] 256
      [{ kind := .wildcard }, { kind := .quantified (.char ')') .oneOrMore },
        { kind := .literal ['b'], endAnchor := true }] 0).fresh = .ok (some 4) ∧
    (offer #['a', ')', ')', 'b'] (run #['a', ')', ')', 'b'] 256) 1
      (.group ['\\', ')'] [['\\', ')']] (some .oneOrMore))).fresh = .ok (.choose [3, 2]) ∧
    (run #['a', ')', ')', 'b'] 256
      [{ kind := .quantified (.set { members := ['b'], negated := true }) .oneOrMore,
         endAnchor := true }] 0).fresh = .ok none := by
  obtain ⟨-, runs, offers⟩ := repeated_atom_as_group (.char ')') ['\\', ')'] (.escaped (by decide))
  obtain ⟨-, excluded, -⟩ := repeated_atom_as_group (.set (.ofBody ['^', 'b'])) ['[', '^', 'b', ']']
    (.set (by decide))
  refine ⟨?_, ?_, ?_⟩
  · have same := runs #['a', ')', ')', 'b'] 256 256
      { front := [{ kind := .wildcard }], anchored := false,
        rest := [{ kind := .literal ['b'], endAnchor := true }] } 0 (by rintro reported ⟨⟩)
    exact same.trans rfl
  · exact (offers _ 256 256 1 (by decide)).2 (by rintro reported ⟨⟩)
  · have same := excluded #['a', ')', ')', 'b'] 256 256
      { front := [], anchored := true, rest := [] } 0 (by rintro reported ⟨⟩)
    exact same.trans rfl

end LineSearch.Match
