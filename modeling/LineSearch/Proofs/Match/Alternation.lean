import Mathlib.Data.List.Flatten
import Mathlib.Data.List.Infix
import LineSearch.Proofs.Match.Exchange
import LineSearch.Proofs.Match.Verbatim

/-! Alternations beside groups with the same branches. An alternation commits to the first of its texts
that stands at the cursor, and a group offers them all. Main statement: repeated, both do the same;
otherwise all that is found with the alternation is found with the group. -/
namespace LineSearch.Match
open Matching
open scoped List
variable {chars : Line}

/-- Tokens that do not choose have one end at most. -/
private theorem ends_of_commits {kind : TokenKind} (h : chooses kind = false) (f : Text → Nat → Option Nat)
    (start : Nat) : ∃ stop : Option Nat, ends chars f kind start = stop.toList := by
  cases kind with
  | literal text => exact ⟨_, rfl⟩
  | wildcard => exact ⟨_, rfl⟩
  | digit => exact ⟨_, rfl⟩
  | word => exact ⟨_, rfl⟩
  | set s => exact ⟨_, rfl⟩
  | quantified atom suffix =>
    cases suffix with
    | zeroOrOne => exact ⟨some _, rfl⟩
    | oneOrMore => cases h
  | alternation texts suffix =>
    rcases suffix with _ | _ | _
    · exact ⟨_, rfl⟩
    · cases h
    · exact ⟨some _, rfl⟩
  | endAnchor =>
    rw [ends]
    split
    · exact ⟨some start, rfl⟩
    · exact ⟨none, rfl⟩
  | wildcardPlus | group body branches suffix => cases h

section Fill
variable {f : Text → Nat → Option Nat} {kind other : TokenKind}

/-- A token with more ends gives every stream more ends, and keeps the order of those there were. -/
private theorem successes_fill_sublist (more : ∀ start, ends chars f kind start <+ ends chars f other start)
    (alike : concludes kind = concludes other) (place : Place) (start : Nat) :
    successes chars f (place.fill kind) start <+ successes chars f (place.fill other) start := by
  obtain ⟨front, anchored, rest⟩ := place
  simp only [Place.fill]
  induction front generalizing start with
  | nil =>
    simp only [List.nil_append, successes, alike]
    exact ((more start).filter _).flatMap _
  | cons first front ih =>
    simp only [List.cons_append, successes]
    refine List.Sublist.flatMap_right _ fun stop _ => ?_
    split
    · exact List.Sublist.refl _
    · exact ih stop

/-- Behind tokens that commit, ends that are added last to a token are added last to the stream. -/
private theorem successes_fill_prefix (more : ∀ start, ends chars f kind start <+: ends chars f other start)
    (alike : concludes kind = concludes other) (place : Place)
    (commits : ∀ token ∈ place.front, chooses token.kind = false) (start : Nat) :
    successes chars f (place.fill kind) start <+: successes chars f (place.fill other) start := by
  obtain ⟨front, anchored, rest⟩ := place
  simp only [Place.fill] at commits ⊢
  induction front generalizing start with
  | nil =>
    simp only [List.nil_append, successes, alike]
    exact (List.IsPrefix.filter _ (more start)).flatMap _
  | cons first front ih =>
    obtain ⟨hfirst, hfront⟩ := List.forall_mem_cons.mp commits
    obtain ⟨stop, hstop⟩ : ∃ stop : Option Nat, ends chars f first.kind start = stop.toList :=
      ends_of_commits hfirst f start
    simp only [List.cons_append, successes, hstop]
    rcases stop with _ | stop
    · exact List.prefix_rfl
    · by_cases hend : mayEnd chars first stop
      · by_cases stays : concludes first.kind = true
        · simp [hend, stays]
        · simpa [hend, stays] using ih stop hfront
      · simp [hend]

end Fill

/-- A branch without special characters ends where it stands as a text. -/
private theorem branchEnd_of_verbatim {text : Text} (h : Verbatim text) (start : Nat) :
    branchEnd chars text start = occurrence chars text start := by
  have hfree : ¬ ((Pattern.ofChars text text).startAnchored = true ∧ start ≠ 0) := by
    simp [Pattern.ofChars]
  rw [branchEnd_of_ok (Pattern.parse_of_verbatim h), if_neg hfree, Pattern.ofChars, successes_ofChars]
  cases occurrence chars text start <;> rfl

section Plain
variable {texts : List Text} (plain : ∀ text ∈ texts, Verbatim text)
include plain

private theorem groupless_of_verbatim : ∀ text ∈ texts, Groupless text := fun text ht =>
  ⟨.ofChars text text, Pattern.parse_of_verbatim (plain text ht), nestedBranches_ofChars text⟩

private theorem head?_branchStops_of_verbatim (start : Nat) :
    (branchStops (branchEnd chars) texts start).head? = firstOccurrence chars texts start := by
  rw [branchStops, List.head?_filterMap, firstOccurrence]
  induction texts with
  | nil => rfl
  | cons text texts ih =>
    obtain ⟨htext, htexts⟩ := List.forall_mem_cons.mp plain
    rw [List.findSome?_cons, List.findSome?_cons, branchEnd_of_verbatim htext, ih htexts]

/-- The ends of an alternation come first among those of the group: a repetition has the same ones, and
otherwise there is one at most. -/
private theorem ends_alternation_prefix (body : Text) (suffix : Option Suffix) (start : Nat) :
    ends chars (branchEnd chars) (.alternation texts suffix) start <+:
      ends chars (branchEnd chars) (.group body texts suffix) start := by
  have first (start : Nat) :
      (branchStops (branchEnd chars) texts start).head? = firstOccurrence chars texts start :=
    head?_branchStops_of_verbatim plain start
  rcases suffix with _ | _ | _
  · rw [ends, ends, ← first, ← List.take_one]
    exact List.take_prefix 1 _
  · have hround : (fun position => (branchStops (branchEnd chars) texts position).head?) =
        firstOccurrence chars texts := funext first
    rw [ends, ends, hround]
  · rw [ends, ends, ← first]
    cases branchStops (branchEnd chars) texts start with
    | nil => exact List.prefix_rfl
    | cons stop stops => simp

private theorem replaces_alternation (limit : Nat) (body : Text) :
    Replaces chars limit (.group body texts (some .oneOrMore)) (.alternation texts (some .oneOrMore)) := by
  refine replaces_of_rounds (groupless_of_verbatim plain) (head?_branchStops_of_verbatim plain) ?_ body
  intro nested start
  simp only [offer, alternativeEnd_eq]

end Plain

/-- A match of the second stream follows from one of the first, if it has all the ends that the first
has, its branches compile and the limit suffices. -/
private theorem found_of_sublist {limit budget start stop : Nat} {tokens others : List Token}
    (more : successes chars (branchEnd chars) tokens start <+ successes chars (branchEnd chars) others start)
    (compiles : ∀ branch, Nested others branch → ∃ pattern, Pattern.parse branch = .ok pattern)
    (enough : ∀ reported,
      (runWithin chars limit budget others start).fresh ≠ .error (.depthExceeded reported))
    (h : (runWithin chars limit budget tokens start).fresh = .ok (some stop)) :
    ∃ finish, (runWithin chars limit budget others start).fresh = .ok (some finish) ∧
      (successes chars (branchEnd chars) others start).head? = some finish := by
  have hmem := more.subset (mem_successes_of_found h)
  obtain ⟨finish, hfinish⟩ := Option.isSome_iff_exists.mp
    (List.isSome_head?.mpr (List.ne_nil_of_mem hmem))
  have outcome := runWithin_outcome limit budget others (start_le_of_answer h)
  generalize (runWithin chars limit budget others start).fresh = result at enough outcome ⊢
  cases outcome with
  | answered right => exact ⟨finish, by rw [right, hfinish], hfinish⟩
  | exhausted below => exact absurd rfl (enough limit)
  | uncompiled reached parsed =>
    obtain ⟨pattern, hp⟩ := compiles _ reached
    cases hp.symm.trans parsed

/-- Behind a token that chooses, the group may match from an earlier choice. On `xacabc` the stream
`.+(a|ab)c` ends at 3: behind `xac` the alternation commits to `a`, and `.+` has to give back what it took.
With the group it ends at 6. -/
theorem group_moves_end_behind_choice :
    (∀ text ∈ [['a'], ['a', 'b']], Verbatim text) ∧
    (run #['x', 'a', 'c', 'a', 'b', 'c'] 256
      [{ kind := .wildcardPlus }, { kind := .alternation [['a'], ['a', 'b']] none },
        { kind := .literal ['c'] }] 0).fresh = .ok (some 3) ∧
    (run #['x', 'a', 'c', 'a', 'b', 'c'] 256
      [{ kind := .wildcardPlus }, { kind := .group ['a', '|', 'a', 'b'] [['a'], ['a', 'b']] none },
        { kind := .literal ['c'] }] 0).fresh = .ok (some 6) := by
  have a : Verbatim ['a'] := ⟨by simp, by decide, by decide⟩
  have ab : Verbatim ['a', 'b'] := ⟨by simp, by decide, by decide⟩
  exact ⟨by simp [a, ab], rfl, rfl⟩

/-- Texts without special characters, as an alternation and as the branches of a group in the same place
of a stream, under a limit that suffices for the group. Repeated, the two run alike. Otherwise the stream
has all the ends with the group that it has with the alternation, in the same order, so if the other
branches compile it matches with the group where it does with the alternation. It ends at the same
position if no token in front of the place chooses. -/
theorem group_finds_what_alternation_does (chars : Line) (limit budget : Nat) (place : Place)
    (body : Text) (texts : List Text) (suffix : Option Suffix) (start : Nat)
    (plain : ∀ text ∈ texts, Verbatim text)
    (enough : ∀ reported, (runWithin chars limit budget
      (place.fill (.group body texts suffix)) start).fresh ≠ .error (.depthExceeded reported)) :
    (suffix = some .oneOrMore →
      (runWithin chars limit budget (place.fill (.alternation texts suffix)) start).fresh =
        (runWithin chars limit budget (place.fill (.group body texts suffix)) start).fresh) ∧
    successes chars (branchEnd chars) (place.fill (.alternation texts suffix)) start <+
      successes chars (branchEnd chars) (place.fill (.group body texts suffix)) start ∧
    ((∀ branch, Nested (place.front ++ place.rest) branch →
        ∃ pattern, Pattern.parse branch = .ok pattern) →
      ∀ stop, (runWithin chars limit budget
          (place.fill (.alternation texts suffix)) start).fresh = .ok (some stop) →
        ∃ finish, (runWithin chars limit budget
            (place.fill (.group body texts suffix)) start).fresh = .ok (some finish) ∧
          ((∀ token ∈ place.front, chooses token.kind = false) → finish = stop)) := by
  have first (start : Nat) :
      ends chars (branchEnd chars) (.alternation texts suffix) start <+:
        ends chars (branchEnd chars) (.group body texts suffix) start :=
    ends_alternation_prefix plain body suffix start
  have more := successes_fill_sublist (fun start => (first start).sublist) rfl place start
  refine ⟨?_, more, ?_⟩
  · rintro rfl
    exact fresh_eq_of_not_exhausted
      ((replaces_alternation plain limit body).fill place budget start) enough
  · intro compiles stop hstop
    have groupless : ∀ branch ∈ (TokenKind.group body texts suffix).branches, Groupless branch :=
      groupless_of_verbatim plain
    have allCompile (branch : Text) (hb : Nested (place.fill (.group body texts suffix)) branch) :
        ∃ pattern, Pattern.parse branch = .ok pattern := by
      rcases nested_of_fill groupless hb with hother | hown
      · exact compiles branch hother
      · exact ⟨_, Pattern.parse_of_verbatim (plain branch hown)⟩
    obtain ⟨finish, hfinish, hhead⟩ := found_of_sublist more allCompile enough hstop
    refine ⟨finish, hfinish, fun commits => ?_⟩
    obtain ⟨others, hsame⟩ := successes_fill_prefix first rfl place commits start
    have halternation := (runWithin_yields limit budget _ start _ hstop).symm
    rw [← hsame, List.head?_append, halternation] at hhead
    exact (Option.some.inj hhead).symm

/-- On `zabax` the texts `ab`, `a` and the empty one, repeated behind `z`, take the group and the alternation to
the same end. On `ac` the alternation commits to `a`, which the group tries first. On `abc` it commits to `a`
and loses the match that the group finds. -/
theorem group_finds_overlapping_texts :
    (run #['z', 'a', 'b', 'a', 'x'] 256
      [{ kind := .literal ['z'] }, { kind := .alternation [['a', 'b'], ['a'], []] (some .oneOrMore) },
        { kind := .literal ['x'], endAnchor := true }] 0).fresh = .ok (some 5) ∧
    (run #['a', 'c'] 256
      [{ kind := .group ['a', '|', 'a', 'b'] [['a'], ['a', 'b']] none }, { kind := .literal ['c'] }]
      0).fresh = .ok (some 2) ∧
    (run #['a', 'b', 'c'] 256
      [{ kind := .alternation [['a'], ['a', 'b']] none }, { kind := .literal ['c'] }] 0).fresh =
        .ok none ∧
    (run #['a', 'b', 'c'] 256
      [{ kind := .group ['a', '|', 'a', 'b'] [['a'], ['a', 'b']] none }, { kind := .literal ['c'] }]
      0).fresh = .ok (some 3) := by
  have a : Verbatim ['a'] := ⟨by simp, by decide, by decide⟩
  have ab : Verbatim ['a', 'b'] := ⟨by simp, by decide, by decide⟩
  have empty : Verbatim [] := ⟨by simp, by decide, by decide⟩
  have alike := group_finds_what_alternation_does #['z', 'a', 'b', 'a', 'x'] 256 256
    { front := [{ kind := .literal ['z'] }], anchored := false,
      rest := [{ kind := .literal ['x'], endAnchor := true }] }
    ['a', 'b', '|', 'a', '|'] [['a', 'b'], ['a'], []] (some .oneOrMore) 0
    (by simp [a, ab, empty]) (by rintro reported ⟨⟩)
  have found := group_finds_what_alternation_does #['a', 'c'] 256 256
    { front := [], anchored := false, rest := [{ kind := .literal ['c'] }] }
    ['a', '|', 'a', 'b'] [['a'], ['a', 'b']] none 0 (by simp [a, ab]) (by rintro reported ⟨⟩)
  obtain ⟨finish, hfinish, hsame⟩ := found.2.2 (fun branch hb => absurd rfl hb.nestedBranches_ne_nil) 2 rfl
  cases hsame (by simp)
  exact ⟨(alike.1 rfl).trans rfl, hfinish, rfl, rfl⟩

end LineSearch.Match
