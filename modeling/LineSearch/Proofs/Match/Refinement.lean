import LineSearch.Proofs.Match.Fresh
import LineSearch.Proofs.Match.Successes

/-! The search takes the first of the enumerated ends: what it answers, when it answers, is the head
of the enumeration. -/
namespace LineSearch.Match
open Matching
variable {chars : Line}

private theorem drop_eq_cons_iff {start : Nat} {c : Char} {rest : Text} :
    (c :: rest) <+: chars.toList.drop start ↔
      chars[start]? = some c ∧ rest <+: chars.toList.drop (start + 1) := by
  rw [← Array.getElem?_toList]
  by_cases hs : start < chars.toList.length
  · rw [List.drop_eq_getElem_cons hs, List.cons_prefix_cons, List.getElem?_eq_getElem hs]
    simp [eq_comm]
  · rw [List.drop_eq_nil_of_le (by omega), List.getElem?_eq_none (by omega)]
    simp

theorem literalEnd_eq (text : Text) (start : Nat) :
    literalEnd chars text start = occurrence chars text start := by
  induction text generalizing start with
  | nil => simp [literalEnd, occurrence]
  | cons c rest ih =>
    simp only [literalEnd, ih, occurrence, drop_eq_cons_iff, List.length_cons]
    split <;> simp_all [Nat.add_assoc, Nat.add_comm 1]

theorem atomEnd_eq (atom : Atom) (start : Nat) : atomEnd chars atom start = single chars atom start := by
  unfold atomEnd single
  cases chars[start]? <;> simp

theorem alternativeEnd_eq (texts : List Text) (start : Nat) :
    alternativeEnd chars texts start = firstOccurrence chars texts start := by
  simp only [alternativeEnd, firstOccurrence, literalEnd_eq]

theorem advances_atomEnd (atom : Atom) : Advances chars (atomEnd chars atom) := by
  have same : atomEnd chars atom = single chars atom := funext (atomEnd_eq atom)
  exact same ▸ advances_single atom

theorem advances_alternativeEnd (texts : List Text) : Advances chars (alternativeEnd chars texts) := by
  have same : alternativeEnd chars texts = firstOccurrence chars texts := funext (alternativeEnd_eq texts)
  exact same ▸ advances_firstOccurrence texts

/-- As many rounds are run as there are characters left and one more, so the loop always ends by
itself. -/
private theorem roundsFrom_yields {attempt : Nat → Matching (Option Nat)} {round : Nat → Option Nat}
    (ha : ∀ start ≤ chars.size, Yields (attempt start) (round start)) (hr : Advances chars round)
    {fuel start : Nat} (hs : start ≤ chars.size) (hf : chars.size - start < fuel) (reached : List Nat) :
    Yields (roundsFrom attempt fuel start reached)
      (if reached = [] ∧ round start = some start then [start]
        else laps chars round start ++ reached) := by
  induction fuel generalizing start reached with
  | zero => omega
  | succ fuel ih =>
    rw [roundsFrom, laps_eq hr hs]
    refine (ha start hs).bind ?_
    rcases hround : round start with _ | stop
    · simpa using Yields.pure reached
    · by_cases hstop : stop = start
      · subst hstop
        cases reached <;> simp [Yields.pure]
      · have hb := hr start hs stop hround
        have hne : ¬ (reached = [] ∧ some stop = some start) := by simp [hstop]
        simp only [if_neg hne, if_neg hstop]
        simpa using ih hb.2 (by omega) (stop :: reached)

theorem rounds_yields {attempt : Nat → Matching (Option Nat)} {round : Nat → Option Nat}
    (ha : ∀ start ≤ chars.size, Yields (attempt start) (round start))
    (hr : Advances chars round) {start : Nat} (hs : start ≤ chars.size) :
    Yields (rounds chars attempt start) (repetition chars round start) := by
  simpa [rounds, repetition] using roundsFrom_yields ha hr hs (Nat.lt_succ_self _) []

/-- Does the runner answer the first of the enumerated ends, if it answers? -/
def Follows (chars : Line) (nested : Runner) : Prop :=
  ∀ tokens, ∀ start ≤ chars.size,
    Yields (nested tokens start) (successes chars (branchEnd chars) tokens start).head?

variable {nested : Runner}

theorem branchEnds_yields (hn : Follows chars nested) (lenient : Bool) {start : Nat}
    (hs : start ≤ chars.size) (branches : List Text) :
    Yields (branchEnds nested lenient start branches)
      (branchStops (branchEnd chars) branches start) := by
  induction branches with
  | nil => exact Yields.pure []
  | cons branch rest ih =>
    rw [branchEnds]
    refine (Yields.request branch).bind ?_
    rcases hp : Pattern.parse branch with e | pattern
    · rw [branchStops_cons_of_none (congrFun (branchEnd_of_error hp) start)]
      cases lenient
      · exact Yields.throw _ _
      · exact ih
    · have hb : branchEnd chars branch start = _ := branchEnd_of_ok hp start
      by_cases hskip : pattern.startAnchored ∧ start ≠ 0
      · rw [if_pos hskip] at hb
        rw [branchStops_cons_of_none hb]
        simpa [hskip] using ih
      · rw [if_neg hskip] at hb
        have hskip' : (pattern.startAnchored && start != 0) = false := by simpa using hskip
        simp only [hskip']
        refine (hn pattern.tokens start hs).bind ?_
        rw [← hb]
        rcases hstop : branchEnd chars branch start with _ | stop
        · rw [branchStops_cons_of_none hstop]
          exact ih
        · rw [branchStops_cons_of_some hstop]
          exact ih.bind (Yields.pure _)

private theorem groupEnds_yields (hn : Follows chars nested) (body : Text) (branches : List Text)
    (suffix : Option Suffix) {start : Nat} (hs : start ≤ chars.size) :
    Yields (groupEnds chars nested branches start suffix)
      (ends chars (branchEnd chars) (.group body branches suffix) start) := by
  rcases suffix with _ | _ | _
  · exact branchEnds_yields hn false hs branches
  · rw [ends]
    refine rounds_yields (fun position hp => ?_) (advances_firstBranch branches) hs
    exact (branchEnds_yields hn false hp branches).map List.head?
  · exact (branchEnds_yields hn true hs branches).map (· ++ [start])

/-- How a token offers the ends that are enumerated for it: it commits to the one it has, chooses among
all of them, or ends the attempt with it. -/
inductive Offering (chars : Line) (nested : Runner) (kind : TokenKind) (start : Nat) : Prop where
  | commits {stop : Option Nat} (passes : concludes kind = false)
      (offers : offer chars nested start kind = pure (.commit stop))
      (all : ends chars (branchEnd chars) kind start = stop.toList)
  | chooses {stops : Matching (List Nat)} (passes : concludes kind = false)
      (offers : offer chars nested start kind = .choose <$> stops)
      (all : Yields stops (ends chars (branchEnd chars) kind start))
  | finishes {stop : Option Nat} (stays : concludes kind = true)
      (offers : offer chars nested start kind = pure (.finish stop))
      (all : ends chars (branchEnd chars) kind start = stop.toList)

theorem offering (hn : Follows chars nested) (kind : TokenKind) {start : Nat}
    (hs : start ≤ chars.size) : Offering chars nested kind start := by
  have repeated {step round : Nat → Option Nat} (he : ∀ position, step position = round position)
      (hr : Advances chars round) :
      Yields (rounds chars (fun position => pure (step position)) start)
        (repetition chars round start) :=
    rounds_yields (fun position _ => he position ▸ Yields.pure _) hr hs
  cases kind with
  | literal text => exact .commits rfl rfl (by rw [literalEnd_eq, ends])
  | wildcard => exact .commits rfl rfl (by rw [atomEnd_eq, ends])
  | digit => exact .commits rfl rfl (by rw [atomEnd_eq, ends])
  | word => exact .commits rfl rfl (by rw [atomEnd_eq, ends])
  | set s => exact .commits rfl rfl (by rw [atomEnd_eq, ends])
  | wildcardPlus => exact .chooses rfl rfl (repeated (atomEnd_eq .any) (advances_single .any))
  | quantified atom suffix =>
    cases suffix with
    | zeroOrOne => exact .commits rfl rfl (by rw [atomEnd_eq, ends]; rfl)
    | oneOrMore => exact .chooses rfl rfl (repeated (atomEnd_eq atom) (advances_single atom))
  | alternation texts suffix =>
    rcases suffix with _ | _ | _
    · exact .commits rfl rfl (by rw [alternativeEnd_eq, ends])
    · exact .chooses rfl rfl (repeated (alternativeEnd_eq texts) (advances_firstOccurrence texts))
    · exact .commits rfl rfl (by rw [alternativeEnd_eq, ends]; rfl)
  | group body branches suffix => exact .chooses rfl rfl (groupEnds_yields hn body branches suffix hs)
  | endAnchor =>
    refine .finishes rfl rfl ?_
    rw [ends]
    split <;> rfl

def Offer.stops : Offer → List Nat
  | .commit stop => stop.toList
  | .choose stops => stops
  | .finish stop => stop.toList

/-- A token offers the ends that are enumerated for it. -/
private theorem stops_of_offer (hn : Follows chars nested) {kind : TokenKind} {start : Nat}
    (hs : start ≤ chars.size) {offered : Offer} (h : (offer chars nested start kind).fresh = .ok offered) :
    offered.stops = ends chars (branchEnd chars) kind start := by
  cases offering hn kind hs with
  | commits _ offers all | finishes _ offers all =>
    rw [offers] at h
    cases h
    exact all.symm
  | chooses _ offers all =>
    rw [offers] at h
    obtain ⟨found, hfound, rfl⟩ := fresh_map_eq_ok.mp h
    exact all found hfound

/-- Whatever a token offers lies between its cursor and the end of the line. -/
theorem bounds_of_offer (hn : Follows chars nested) {kind : TokenKind} {start : Nat}
    (hs : start ≤ chars.size) {offered : Offer}
    (h : (offer chars nested start kind).fresh = .ok offered) :
    ∀ stop ∈ offered.stops, start ≤ stop ∧ stop ≤ chars.size := by
  intro stop hstop
  rw [stops_of_offer hn hs h] at hstop
  exact bounds_of_mem_ends hs hstop

/-- A token that ends the attempt does so at the end of the line, where every token may end. -/
private theorem mayEnd_of_concludes {token : Token} {start stop : Nat} (h : concludes token.kind = true)
    (hstop : stop ∈ ends chars (branchEnd chars) token.kind start) : mayEnd chars token stop = true := by
  obtain ⟨kind, anchor⟩ := token
  cases kind with
  | endAnchor =>
    simp only [ends] at hstop
    split at hstop
    · simp_all [mayEnd]
    · cases hstop
  | _ => cases h

private theorem firstViable_yields (hn : Follows chars nested) (token : Token) (rest : List Token)
    {stops : List Nat} (hs : ∀ stop ∈ stops, stop ≤ chars.size) :
    Yields (firstViable chars nested token rest stops)
      ((stops.filter (mayEnd chars token)).flatMap
        (successes chars (branchEnd chars) rest)).head? := by
  induction stops with
  | nil => exact Yields.pure none
  | cons stop stops ih =>
    obtain ⟨hstop, hrest⟩ := List.forall_mem_cons.mp hs
    rw [firstViable]
    split
    · rename_i hend
      rw [List.filter_cons_of_pos hend, List.flatMap_cons, List.head?_append]
      refine (hn rest stop hstop).bind ?_
      rcases (successes chars (branchEnd chars) rest stop).head? with _ | finish
      · exact ih hrest
      · exact Yields.pure (some finish)
    · rename_i hend
      rw [List.filter_cons_of_neg hend]
      exact ih hrest

/-- What a stream answers is the first of its ends, if what is nested in it does. -/
theorem runTokens_yields (hn : Follows chars nested) (tokens : List Token) {start : Nat}
    (hs : start ≤ chars.size) :
    Yields (runTokens chars nested tokens start)
      (successes chars (branchEnd chars) tokens start).head? := by
  induction tokens generalizing start with
  | nil => exact Yields.pure (some start)
  | cons token rest ih =>
    have hb : ∀ stop ∈ ends chars (branchEnd chars) token.kind start, stop ≤ chars.size :=
      fun stop h => (bounds_of_mem_ends hs h).2
    rw [runTokens, successes]
    cases offering hn token.kind hs with
    | @commits stop passes offers all =>
      rw [offers, all]
      rw [all] at hb
      refine (Yields.pure _).bind ?_
      rcases stop with _ | stop
      · exact Yields.pure none
      · have hstop := hb stop (by simp)
        by_cases hend : mayEnd chars token stop
        · simpa [hend, passes] using ih hstop
        · simpa [hend] using Yields.pure none
    | chooses passes offers all =>
      rw [offers]
      simp only [passes]
      exact (all.map Offer.choose).bind (firstViable_yields hn token rest hb)
    | @finishes stop stays offers all =>
      rw [offers, all]
      refine (Yields.pure _).bind ?_
      rcases stop with _ | stop
      · exact Yields.pure none
      · have hmem : stop ∈ ends chars (branchEnd chars) token.kind start := by simp [all]
        have hend : mayEnd chars token stop = true := mayEnd_of_concludes stays hmem
        simpa [hend, stays] using Yields.pure (some stop)

/-- What a run answers is the first of the stream's ends, whatever its budget. -/
theorem runWithin_yields (limit budget : Nat) (tokens : List Token) (start : Nat) :
    Yields (runWithin chars limit budget tokens start)
      (successes chars (branchEnd chars) tokens start).head? := by
  -- Branches and the rest behind a choice are runs of other streams on a smaller budget.
  induction budget generalizing tokens start with
  | zero => exact Yields.throw _ _
  | succ budget ih =>
    simp only [runWithin]
    split
    · exact Yields.throw _ _
    · rename_i hs
      exact runTokens_yields (fun tokens start _ => ih tokens start) tokens (Nat.le_of_not_lt hs)

theorem follows_runWithin (limit budget : Nat) : Follows chars (runWithin chars limit budget) :=
  fun tokens start _ => runWithin_yields limit budget tokens start

theorem mem_successes_of_found {limit budget : Nat} {tokens : List Token} {start stop : Nat}
    (h : (runWithin chars limit budget tokens start).fresh = .ok (some stop)) :
    stop ∈ successes chars (branchEnd chars) tokens start :=
  List.mem_of_head? (runWithin_yields limit budget tokens start _ h).symm

/-- A budget left over is enough for the empty stream. -/
theorem runWithin_nil {limit budget start : Nat} (hb : 0 < budget) (hs : start ≤ chars.size) :
    runWithin chars limit budget [] start = pure (some start) := by
  obtain ⟨budget, rfl⟩ := Nat.exists_eq_add_of_lt hb
  simp only [runWithin, if_neg (Nat.not_lt.mpr hs), runTokens]

/-- A run answers from positions within the line only. -/
theorem start_le_of_answer {limit budget : Nat} {tokens : List Token} {start : Nat}
    {answer : Option Nat} (h : (runWithin chars limit budget tokens start).fresh = .ok answer) :
    start ≤ chars.size := by
  cases budget with
  | zero => cases h
  | succ budget =>
    simp only [runWithin] at h
    split at h
    · cases h
    · exact Nat.le_of_not_lt ‹_›

end LineSearch.Match
