import LineSearch.Proofs.Match.Refinement

/-! The loops behind a `+`. Main statement: the rounds of a repeated alternation or group come to an end by
themselves, at most one more than there are characters left, and each end they reach is listed once. -/
namespace LineSearch.Match
open Matching
variable {chars : Line} {nested : Runner} {kind : TokenKind} {attempt : Nat → Matching (Option Nat)}
  {start : Nat} {answers : List (Except MatchError (Option Nat))}

inductive Repeats (line : Line) (nested : Runner) :
    TokenKind → (Nat → Matching (Option Nat)) → Prop where
  | alternation (texts : List Text) :
      Repeats line nested (.alternation texts (some .oneOrMore)) fun position =>
        pure (alternativeEnd line texts position)
  | group (body : Text) (branches : List Text) :
      Repeats line nested (.group body branches (some .oneOrMore)) fun position =>
        return (← branchEnds nested false position branches).head?

/-- What the rounds of a loop answer, each from where the one before it ended. Behind a round that moved
there is another one. A round that fails, stays where it is or breaks off with an error is the last. Nothing
bounds their number. -/
inductive Course (attempt : Nat → Matching (Option Nat)) :
    Nat → List (Except MatchError (Option Nat)) → Prop where
  | last {start : Nat} (still : ∀ stop, (attempt start).fresh = .ok (some stop) → stop = start) :
      Course attempt start [(attempt start).fresh]
  | next {start stop : Nat} {later : List (Except MatchError (Option Nat))}
      (moved : (attempt start).fresh = .ok (some stop)) (elsewhere : stop ≠ start)
      (rest : Course attempt stop later) : Course attempt start (.ok (some stop) :: later)

def Forward (chars : Line) (attempt : Nat → Matching (Option Nat)) : Prop :=
  ∀ start ≤ chars.size, ∀ stop, (attempt start).fresh = .ok (some stop) →
    start ≤ stop ∧ stop ≤ chars.size

private theorem forward_of_yields {round : Nat → Option Nat}
    (ha : ∀ start ≤ chars.size, Yields (attempt start) (round start)) (hr : Advances chars round) :
    Forward chars attempt := by
  intro start hs stop hstop
  exact hr start hs stop (ha start hs _ hstop).symm

section Repeats
variable (hk : Repeats chars nested kind attempt)
include hk

private theorem Repeats.offer_eq (start : Nat) :
    offer chars nested start kind = .choose <$> rounds chars attempt start := by
  cases hk <;> rfl

private theorem Repeats.forward (hn : Follows chars nested) : Forward chars attempt := by
  cases hk with
  | alternation texts =>
    refine forward_of_yields (fun start _ => ?_) (advances_firstOccurrence texts)
    exact alternativeEnd_eq texts start ▸ Yields.pure _
  | group body branches =>
    refine forward_of_yields (fun start hs => ?_) (advances_firstBranch branches)
    exact (branchEnds_yields hn false hs branches).map List.head?

end Repeats

namespace Course

theorem unique {others : List (Except MatchError (Option Nat))} (h : Course attempt start answers)
    (h' : Course attempt start others) : others = answers := by
  induction h generalizing others with
  | last still =>
    cases h' with
    | last => rfl
    | next moved elsewhere rest => exact absurd (still _ moved) elsewhere
  | next moved elsewhere rest ih =>
    cases h' with
    | last still => exact absurd (still _ moved) elsewhere
    | next moved' elsewhere' rest' =>
      cases moved.symm.trans moved'
      rw [ih rest']

/-- The first round is that at the start. -/
private theorem first_mem (h : Course attempt start answers) : (attempt start).fresh ∈ answers := by
  cases h with
  | last still => exact List.mem_singleton_self _
  | next moved elsewhere rest => exact moved ▸ List.mem_cons_self

/-- A first round that does not move is the only one. -/
private theorem eq_singleton (h : Course attempt start answers)
    (still : ∀ stop, (attempt start).fresh = .ok (some stop) → stop = start) :
    answers = [(attempt start).fresh] :=
  (Course.last still).unique h

/-- A round that moves takes up a character at least, and the last round none. -/
theorem exists_of_forward (hf : Forward chars attempt) (hs : start ≤ chars.size) :
    ∃ answers, Course attempt start answers ∧ answers.length ≤ chars.size - start + 1 := by
  induction hleft : chars.size - start using Nat.strong_induction_on generalizing start with
  | _ left ih =>
    by_cases hmoved : ∃ stop, (attempt start).fresh = .ok (some stop) ∧ stop ≠ start
    · obtain ⟨stop, moved, elsewhere⟩ := hmoved
      have hstop := hf start hs stop moved
      obtain ⟨later, rest, hlength⟩ := ih (chars.size - stop) (by omega) hstop.2 rfl
      refine ⟨_, .next moved elsewhere rest, ?_⟩
      rw [List.length_cons]
      omega
    · push Not at hmoved
      exact ⟨_, .last hmoved, Nat.le_add_left 1 _⟩

private theorem le_of_mem (h : Course attempt start answers) (hf : Forward chars attempt)
    (hs : start ≤ chars.size) {stop : Nat} (hstop : .ok (some stop) ∈ answers) : start ≤ stop := by
  induction h with
  | last still => exact (hf _ hs stop (List.mem_singleton.mp hstop).symm).1
  | next moved elsewhere rest ih =>
    have hnext := hf _ hs _ moved
    rcases List.mem_cons.mp hstop with hstop | hstop
    · cases hstop
      exact hnext.1
    · exact Nat.le_trans hnext.1 (ih hnext.2 hstop)

/-- The start is reached by a first round that stays there only. -/
private theorem start_mem_iff (h : Course attempt start answers) (hf : Forward chars attempt)
    (hs : start ≤ chars.size) : .ok (some start) ∈ answers ↔ (attempt start).fresh = .ok (some start) := by
  refine ⟨fun hmem => ?_, fun hstay => hstay ▸ h.first_mem⟩
  cases h with
  | last still => exact (List.mem_singleton.mp hmem).symm
  | next moved elsewhere rest =>
    have hnext := hf start hs _ moved
    rcases List.mem_cons.mp hmem with hmem | hmem
    · cases hmem
      exact absurd rfl elsewhere
    · have := rest.le_of_mem hf hnext.2 hmem
      omega

end Course

/-- Behind a round that moved the loop notes where, and goes on from there. -/
private theorem fresh_roundsFrom_of_moved {fuel stop : Nat}
    (moved : (attempt start).fresh = .ok (some stop)) (elsewhere : stop ≠ start) (reached : List Nat) :
    (roundsFrom attempt (fuel + 1) start reached).fresh =
      (roundsFrom attempt fuel stop (stop :: reached)).fresh := by
  rw [roundsFrom, fresh_bind_of_ok moved]
  simp only [if_neg elsewhere]

/-- A loop that is allowed its rounds breaks off where one of them does. -/
private theorem Course.fresh_eq_error_iff (h : Course attempt start answers) {fuel : Nat}
    (hfuel : answers.length ≤ fuel) (reached : List Nat) {e : MatchError} :
    (roundsFrom attempt fuel start reached).fresh = .error e ↔ .error e ∈ answers := by
  induction h generalizing fuel reached with
  | @last start still =>
    obtain ⟨fuel, rfl⟩ := Nat.exists_eq_add_of_lt hfuel
    rw [roundsFrom, fresh_bind, List.mem_singleton]
    rcases hanswer : (attempt start).fresh with _ | _ | stop
    · simp [eq_comm]
    · simp
    · simp [still stop hanswer]
  | @next start stop later moved elsewhere rest ih =>
    obtain ⟨fuel, rfl⟩ := Nat.exists_eq_add_of_lt hfuel
    rw [fresh_roundsFrom_of_moved moved elsewhere, ih (Nat.le_add_right _ _)]
    simp

/-- The ends that a loop has noted when it stands at a position, the farthest first: none yet, or the
position and some that were passed before. -/
structure Noted (position : Nat) (reached : List Nat) : Prop where
  falling : reached.Pairwise (· > ·)
  behind : ∀ stop ∈ reached, stop ≤ position
  here : reached ≠ [] → position ∈ reached

private theorem noted_nil (position : Nat) : Noted position [] := by
  constructor <;> simp

theorem Noted.move {position stop : Nat} {reached : List Nat} (h : Noted position reached)
    (forward : position < stop) : Noted stop (stop :: reached) where
  falling := List.pairwise_cons.mpr
    ⟨fun passed hp => Nat.lt_of_le_of_lt (h.behind passed hp) forward, h.falling⟩
  behind := by
    intro passed hp
    rcases List.mem_cons.mp hp with rfl | hp
    · exact Nat.le_refl _
    · exact Nat.le_trans (h.behind passed hp) (Nat.le_of_lt forward)
  here := fun _ => List.mem_cons_self

/-- An empty round adds its position where nothing is noted yet. Elsewhere the position is noted. -/
private theorem Noted.stay {position : Nat} {reached : List Nat} (h : Noted position reached) :
    (if reached.isEmpty then [position] else reached).Pairwise (· > ·) ∧
      ∀ stop, stop ∈ (if reached.isEmpty then [position] else reached) ↔
        stop ∈ reached ∨ stop = position := by
  cases reached with
  | nil => simp
  | cons farthest passed =>
    refine ⟨h.falling, fun stop => ⟨.inl, ?_⟩⟩
    rintro (hstop | rfl)
    · exact hstop
    · exact h.here (List.cons_ne_nil _ _)

/-- A loop none of whose rounds breaks off lists what was noted before and what its rounds reach, the
farthest first and nothing twice. -/
private theorem Course.lists (h : Course attempt start answers) (hf : Forward chars attempt)
    (hs : start ≤ chars.size) {fuel : Nat} (hfuel : answers.length ≤ fuel) {reached : List Nat}
    (noted : Noted start reached) (smooth : ∀ e, .error e ∉ answers) :
    ∃ stops, (roundsFrom attempt fuel start reached).fresh = .ok stops ∧ stops.Pairwise (· > ·) ∧
      ∀ stop, stop ∈ stops ↔ stop ∈ reached ∨ .ok (some stop) ∈ answers := by
  -- What is noted on the way keeps falling, because every round that moves ends behind all of it.
  induction h generalizing fuel reached with
  | @last start still =>
    obtain ⟨fuel, rfl⟩ := Nat.exists_eq_add_of_lt hfuel
    rw [roundsFrom, fresh_bind]
    rcases hanswer : (attempt start).fresh with e | _ | stop
    · exact absurd (List.mem_singleton.mpr hanswer.symm) (smooth e)
    · exact ⟨reached, rfl, noted.falling, by simp⟩
    · obtain rfl := still stop hanswer
      refine ⟨_, by simp only [if_true]; rfl, noted.stay.1, fun position => ?_⟩
      rw [noted.stay.2]
      simp
  | @next start stop later moved elsewhere rest ih =>
    obtain ⟨fuel, rfl⟩ := Nat.exists_eq_add_of_lt hfuel
    have hstop := hf start hs stop moved
    have forward : start < stop := by omega
    obtain ⟨stops, hstops, falling, hmem⟩ := ih hstop.2 (Nat.le_add_right _ fuel)
      (noted.move forward) fun e he => smooth e (.tail _ he)
    refine ⟨stops, ?_, falling, fun position => ?_⟩
    · rw [fresh_roundsFrom_of_moved moved elsewhere]
      exact hstops
    · rw [hmem]
      simp [or_assoc, or_left_comm]

section Reached
variable {stops : List Nat} (h : Course attempt start answers)
  (reached : ∀ stop, stop ∈ stops ↔ .ok (some stop) ∈ answers)
include h reached

/-- Nothing is reached where the first round fails. -/
theorem Course.eq_nil_iff (smooth : ∀ e, .error e ∉ answers) :
    stops = [] ↔ (attempt start).fresh = .ok none := by
  constructor
  · rintro rfl
    have first := h.first_mem
    rcases hanswer : (attempt start).fresh with e | _ | stop
    · exact absurd (hanswer ▸ first) (smooth e)
    · rfl
    · exact absurd ((reached stop).mpr (hanswer ▸ first)) List.not_mem_nil
  · intro fails
    have only : answers = [.ok none] := fails ▸ h.eq_singleton (by simp [fails])
    apply List.eq_nil_iff_forall_not_mem.mpr
    intro stop hstop
    simpa [only] using (reached stop).mp hstop

/-- An empty first round reaches the start, and nothing else is reached. -/
private theorem Course.eq_start (falling : stops.Pairwise (· > ·))
    (stays : (attempt start).fresh = .ok (some start)) : stops = [start] := by
  have only : answers = [.ok (some start)] := stays ▸ h.eq_singleton (by simp [stays])
  have distinct : stops.Nodup := falling.imp Nat.ne_of_gt
  apply List.perm_singleton.mp
  apply (List.perm_ext_iff_of_nodup distinct (by simp)).mpr
  intro stop
  rw [reached, only]
  simp

end Reached

/-- Take a `+` behind an alternation or a group, at a position of the line, in an engine with any history.
Its rounds end by themselves: there are at most as many as characters left, and one. What it offers is an
error where one of them breaks off. If none does, it offers each end that a round reached once, the farthest
first: none where the first round fails, and the position itself, alone, where the first round is empty. -/
theorem loop_lists_each_end_once {engine : Engine} {chars : Line} {limit budget start : Nat}
    {kind : TokenKind} {round : Nat → Matching (Option Nat)} (he : engine.Reachable)
    (hk : Repeats chars (runWithin chars limit budget) kind round) (hs : start ≤ chars.size) :
    ∃ answers, (∀ others, Course round start others ↔ others = answers) ∧
      answers.length ≤ chars.size - start + 1 ∧
      (∀ e, (engine.run (offer chars (runWithin chars limit budget) start kind).run).1 = .error e ↔
        .error e ∈ answers) ∧
      ((∀ e, .error e ∉ answers) → ∃ stops,
        (engine.run (offer chars (runWithin chars limit budget) start kind).run).1 =
          .ok (.choose stops) ∧
        stops.Pairwise (· > ·) ∧
        (stops = [] ↔ (round start).fresh = .ok none) ∧
        (start ∈ stops ↔ (round start).fresh = .ok (some start)) ∧
        (start ∈ stops → stops = [start]) ∧
        ∀ stop, stop ∈ stops ↔ .ok (some stop) ∈ answers) := by
  have hf : Forward chars round := hk.forward (follows_runWithin limit budget)
  obtain ⟨answers, course, hlength⟩ := Course.exists_of_forward hf hs
  have offered : (engine.run (offer chars (runWithin chars limit budget) start kind).run).1 =
      (rounds chars round start).fresh.map .choose := by
    rw [← fresh_map, ← hk.offer_eq]
    exact (OnDemand.run_of_faithful _ he.faithful).1
  refine ⟨answers, ?_, hlength, ?_, ?_⟩
  · exact fun others => ⟨course.unique, fun h => h ▸ course⟩
  · intro e
    rw [offered, ← fresh_map, fresh_map_eq_error]
    exact course.fresh_eq_error_iff hlength []
  · intro smooth
    obtain ⟨stops, hstops, falling, hmem⟩ := course.lists hf hs hlength (noted_nil start) smooth
    have reached (stop : Nat) : stop ∈ stops ↔ .ok (some stop) ∈ answers := by
      simpa using hmem stop
    refine ⟨stops, ?_, falling, ?_, ?_, ?_, reached⟩
    · rw [offered, rounds, hstops]
      rfl
    · exact course.eq_nil_iff reached smooth
    · rw [reached, course.start_mem_iff hf hs]
    · intro hstart
      exact course.eq_start reached falling ((course.start_mem_iff hf hs).mp ((reached start).mp hstart))

/-- On `aab` the last round of `(a|)+` is empty behind two that moved, so the ends are 2 and 1. The rounds of
`(a?)+` from 2 on are one, an empty one, and the only end is 2. -/
theorem empty_round_is_the_last :
    (∃ stops, (Engine.run { recursionLimit := 4 } (offer #['a', 'a', 'b']
        (runWithin #['a', 'a', 'b'] 4 4) 0 (.alternation [['a'], []] (some .oneOrMore))).run).1 =
          .ok (.choose stops) ∧
      stops.Pairwise (· > ·) ∧ ∀ stop, stop ∈ stops ↔ stop = 1 ∨ stop = 2) ∧
    (Engine.run { recursionLimit := 4 } (offer #['a', 'a', 'b'] (runWithin #['a', 'a', 'b'] 4 4) 2
      (.group ['a', '?'] [['a', '?']] (some .oneOrMore))).run).1 = .ok (.choose [2]) := by
  have new : ({ recursionLimit := 4 } : Engine).Reachable := .new 4
  constructor
  · have alternation : Repeats #['a', 'a', 'b'] (runWithin #['a', 'a', 'b'] 4 4)
        (.alternation [['a'], []] (some .oneOrMore)) _ := .alternation [['a'], []]
    obtain ⟨answers, only, -, -, lists⟩ := loop_lists_each_end_once new alternation (Nat.zero_le 3)
    have course : answers = [.ok (some 1), .ok (some 2), .ok (some 2)] := by
      symm
      apply (only _).mp
      refine .next rfl (by decide) (.next rfl (by decide) (.last ?_))
      rintro stop ⟨⟩
      rfl
    subst course
    obtain ⟨stops, hstops, falling, -, -, -, reached⟩ := lists (by simp)
    exact ⟨stops, hstops, falling, fun stop => by simp [reached, or_comm]⟩
  · have group : Repeats #['a', 'a', 'b'] (runWithin #['a', 'a', 'b'] 4 4)
        (.group ['a', '?'] [['a', '?']] (some .oneOrMore)) _ := .group ['a', '?'] [['a', '?']]
    obtain ⟨answers, only, -, -, lists⟩ := loop_lists_each_end_once new group (show 2 ≤ 3 by decide)
    have course : answers = [.ok (some 2)] := by
      symm
      apply (only _).mp
      refine .last ?_
      rintro stop ⟨⟩
      rfl
    subst course
    obtain ⟨stops, hstops, -, -, hstart, alone, -⟩ := lists (by simp)
    rw [hstops, alone (hstart.mpr rfl)]

end LineSearch.Match
