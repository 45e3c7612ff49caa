import LineSearch.Proofs.Match.Enumeration
import LineSearch.Proofs.Pattern.Anchoring
import LineSearch.Proofs.Pattern.RoundTrip

/-! Anchors taken away from a pattern text. Main statement: what is found with an anchor is found without
it under the same limit. Without the end anchor the search tries ends that it skipped before, and that takes
no more nested attempts than the match has taken. -/
namespace LineSearch

namespace Pattern
variable {text : Text}

/-- What stands between anchors compiles to the same tokens whichever of the anchors are there. -/
theorem parse_framed {startAnchored endAnchored : Bool} {pattern : Pattern}
    (hhead : text.head? ≠ some '^') (hsettled : Settled text)
    (h : parse (framed startAnchored endAnchored text) = .ok pattern) :
    ∃ tokens, ∀ startKept endKept : Bool,
      parse (framed startKept endKept text) =
        .ok { source := framed startKept endKept text
              tokens := if endKept then anchorLast tokens else tokens
              startAnchored := startKept } := by
  obtain ⟨kinds, hkinds, -⟩ := parse_eq_ok.mp h
  rw [scanned_framed _ _ hhead hsettled] at hkinds
  refine ⟨kinds.map fun kind => { kind }, fun startKept endKept => ?_⟩
  refine parse_eq_ok.mpr ⟨kinds, ?_, ?_⟩
  · rw [scanned_framed _ _ hhead hsettled]
    exact hkinds.of_alike (Lexeme.alike_scanFrom _ _ 0 text)
  · simp only [ofKinds, head?_framed _ _ hhead, endsAnchored_framed _ _ hhead hsettled]

end Pattern

namespace Match
open Matching
variable {chars : Line} {limit : Nat}

/-- If the first attempt answers, then so does the second, with an end where the first has one. -/
def Widens (first second : Matching (Option Nat)) : Prop :=
  ∀ answer, first.fresh = .ok answer → ∃ other, second.fresh = .ok other ∧ (answer.isSome → other.isSome)

namespace Widens

theorem refl (attempt : Matching (Option Nat)) : Widens attempt attempt :=
  fun answer h => ⟨answer, h, id⟩

private theorem of_found {first second : Matching (Option Nat)} {stop : Nat}
    (h : second.fresh = .ok (some stop)) : Widens first second :=
  fun _ _ => ⟨some stop, h, fun _ => rfl⟩

theorem bind {α : Type} {attempt : Matching α} {next next' : α → Matching (Option Nat)}
    (h : ∀ a, attempt.fresh = .ok a → Widens (next a) (next' a)) :
    Widens (attempt >>= next) (attempt >>= next') := by
  intro answer hanswer
  obtain ⟨a, ha, hn⟩ := fresh_bind_eq_ok.mp hanswer
  rw [fresh_bind_of_ok ha]
  exact h a ha answer hn

/-- An attempt followed by a second one where the first finds nothing. -/
private theorem orElse {first second later later' : Matching (Option Nat)} (h : Widens first second)
    (hl : Widens later later') :
    Widens (first >>= fun | some finish => pure (some finish) | none => later)
      (second >>= fun | some finish => pure (some finish) | none => later') := by
  intro answer hanswer
  obtain ⟨found, hfound, hnext⟩ := fresh_bind_eq_ok.mp hanswer
  obtain ⟨other, hother, himp⟩ := h found hfound
  rw [fresh_bind_of_ok hother]
  cases other with
  | some finish => exact of_found rfl answer hanswer
  | none =>
    cases found with
    | some finish => cases himp rfl
    | none => exact hl answer hnext

end Widens

/-- A token that may end at more of the stops, in front of a rest that finds as much and goes through
where only this token may end. -/
private theorem firstViable_widens {nested : Runner} {token token' : Token} {rest rest' : List Token}
    (more : ∀ stop, mayEnd chars token stop → mayEnd chars token' stop)
    (behind : ∀ stop ≤ chars.size, Widens (nested rest stop) (nested rest' stop))
    (passes : ∀ stop ≤ chars.size, ¬ mayEnd chars token stop → mayEnd chars token' stop →
      ∃ finish, (nested rest' stop).fresh = .ok (some finish))
    {stops : List Nat} (hs : ∀ stop ∈ stops, stop ≤ chars.size) :
    Widens (firstViable chars nested token rest stops)
      (firstViable chars nested token' rest' stops) := by
  induction stops with
  | nil => exact .refl _
  | cons stop stops ih =>
    obtain ⟨hstop, hstops⟩ := List.forall_mem_cons.mp hs
    rw [firstViable, firstViable]
    by_cases hend : mayEnd chars token stop
    · rw [if_pos hend, if_pos (more stop hend)]
      exact (behind stop hstop).orElse (ih hstops)
    · rw [if_neg hend]
      by_cases hend' : mayEnd chars token' stop
      · rw [if_pos hend']
        obtain ⟨finish, hfinish⟩ := passes stop hstop hend hend'
        exact .of_found (by rw [fresh_bind_of_ok hfinish]; rfl)
      · rw [if_neg hend']
        exact ih hstops

def choices : List Token → Nat
  | [] => 0
  | token :: rest =>
    if concludes token.kind then 0 else choices rest + if chooses token.kind then 1 else 0

private theorem choices_of_chooses {token : Token} (h : chooses token.kind = true) (rest : List Token) :
    choices (token :: rest) = choices rest + 1 := by
  obtain ⟨kind, anchor⟩ := token
  cases kind with
  | endAnchor => cases h
  | _ => simp only [choices, concludes, if_pos h]; rfl

private theorem choices_of_commits {token : Token}
    (h : chooses token.kind = false ∧ concludes token.kind = false)
    (rest : List Token) : choices (token :: rest) = choices rest := by
  simp [choices, h]

private theorem exists_of_firstViable_found {nested : Runner} {token : Token} {rest : List Token}
    {stops : List Nat} {finish : Nat}
    (h : (firstViable chars nested token rest stops).fresh = .ok (some finish)) :
    ∃ stop, (nested rest stop).fresh = .ok (some finish) := by
  induction stops with
  | nil => cases h
  | cons stop stops ih =>
    rw [firstViable] at h
    split at h
    · obtain ⟨found, hfound, hnext⟩ := fresh_bind_eq_ok.mp h
      cases found with
      | some other =>
        cases hnext
        exact ⟨stop, hfound⟩
      | none => exact ih hnext
    · exact ih h

private theorem choices_lt_of_runTokens_found {nested : Runner} {budget : Nat}
    (behind : ∀ rest start stop, (nested rest start).fresh = .ok (some stop) → choices rest < budget)
    {tokens : List Token} {start stop : Nat}
    (h : (runTokens chars nested tokens start).fresh = .ok (some stop)) : choices tokens < budget + 1 := by
  induction tokens generalizing start with
  | nil => exact Nat.succ_pos budget
  | cons token rest ih =>
    rw [runTokens] at h
    obtain ⟨offered, ho, hnext⟩ := fresh_bind_eq_ok.mp h
    rcases offered with (_ | next) | stops | next
    · cases hnext
    · rw [choices_of_commits (commits_of_offer ho)]
      simp only at hnext
      split at hnext
      · exact ih hnext
      · cases hnext
    · obtain ⟨next, hfound⟩ := exists_of_firstViable_found hnext
      rw [choices_of_chooses (chooses_of_offer ho)]
      exact Nat.succ_lt_succ (behind rest next stop hfound)
    · rw [choices, if_pos (concludes_of_offer ho)]
      exact Nat.succ_pos budget

/-- A stream that is matched to its end has taken a nested attempt for each token that chooses. -/
private theorem choices_lt_of_found {budget : Nat} {tokens : List Token} {start stop : Nat}
    (h : (runWithin chars limit budget tokens start).fresh = .ok (some stop)) :
    choices tokens < budget := by
  induction budget generalizing tokens start stop with
  | zero => cases h
  | succ budget ih =>
    simp only [runWithin] at h
    split at h
    · cases h
    · exact choices_lt_of_runTokens_found (fun _ _ _ => ih) h

private theorem choices_anchorLast (tokens : List Token) :
    choices (Pattern.anchorLast tokens) = choices tokens := by
  induction tokens using Pattern.anchorLast.induct with
  | case1 => rfl
  | case2 token => rfl
  | case3 token rest hne ih =>
    rw [Pattern.anchorLast, choices, choices, ih]
    exact hne

private theorem mayEnd_of_anchored {token : Token} {stop : Nat}
    (h : mayEnd chars { token with endAnchor := true } stop) : mayEnd chars token stop := by
  simp only [mayEnd, Bool.not_true, Bool.false_or] at h
  simp [mayEnd, h]

private theorem runTokens_widens_last {budget : Nat} {token : Token} (deep : choices [token] < budget + 1)
    {start : Nat} (hs : start ≤ chars.size) :
    Widens (runTokens chars (runWithin chars limit budget) (Pattern.anchorLast [token]) start)
      (runTokens chars (runWithin chars limit budget) [token] start) := by
  rw [Pattern.anchorLast, runTokens, runTokens]
  refine .bind fun offered ho => ?_
  have bounds := bounds_of_offer (follows_runWithin limit budget) hs ho
  rcases offered with (_ | stop) | stops | stop
  · exact .refl _
  · by_cases hend : mayEnd chars token stop
    · exact .of_found (by simp only [hend, if_true]; rfl)
    · have hend' : ¬ mayEnd chars { token with endAnchor := true } stop :=
        fun h => hend (mayEnd_of_anchored h)
      simp only [hend, hend']
      exact .refl _
  · have hone : choices [token] = 1 := choices_of_chooses (chooses_of_offer ho) []
    have hb : 0 < budget := by omega
    have passes (stop : Nat) (hstop : stop ≤ chars.size) :
        (runWithin chars limit budget [] stop).fresh = .ok (some stop) :=
      congrArg fresh (runWithin_nil hb hstop)
    apply firstViable_widens (fun _ => mayEnd_of_anchored) (fun stop _ => .refl _)
    · intro stop hstop _ _
      exact ⟨stop, passes stop hstop⟩
    · intro stop hstop
      exact (bounds stop hstop).2
  · exact .refl _

/-- Without its end anchor a stream finds an end where it did with it, on a budget for its choices. -/
private theorem runTokens_widens {budget : Nat}
    (behind : ∀ rest, choices rest < budget → ∀ start ≤ chars.size,
      Widens (runWithin chars limit budget (Pattern.anchorLast rest) start)
        (runWithin chars limit budget rest start))
    {tokens : List Token} (deep : choices tokens < budget + 1) {start : Nat} (hs : start ≤ chars.size) :
    Widens (runTokens chars (runWithin chars limit budget) (Pattern.anchorLast tokens) start)
      (runTokens chars (runWithin chars limit budget) tokens start) := by
  induction tokens using Pattern.anchorLast.induct generalizing start with
  | case1 => exact .of_found rfl
  | case2 token => exact runTokens_widens_last deep hs
  | case3 token rest hne ih =>
    rw [Pattern.anchorLast, runTokens, runTokens]
    · refine .bind fun offered ho => ?_
      have bounds := bounds_of_offer (follows_runWithin limit budget) hs ho
      rcases offered with (_ | stop) | stops | stop
      · exact .refl _
      · simp only
        split
        · rw [choices_of_commits (commits_of_offer ho)] at deep
          exact ih deep (bounds stop (by simp [Offer.stops])).2
        · exact .refl _
      · rw [choices_of_chooses (chooses_of_offer ho)] at deep
        apply firstViable_widens (fun _ => id) (behind rest (by omega))
        · intro stop _ hend hend'
          exact absurd hend' hend
        · intro stop hstop
          exact (bounds stop hstop).2
      · exact .refl _
    · exact hne

/-- A stream tried without its end anchor goes no deeper than its choices, which the budget covers. -/
theorem runWithin_widens {budget : Nat} {tokens : List Token} (deep : choices tokens < budget)
    (start : Nat) :
    Widens (runWithin chars limit budget (Pattern.anchorLast tokens) start)
      (runWithin chars limit budget tokens start) := by
  induction budget generalizing tokens start with
  | zero => omega
  | succ budget ih =>
    simp only [runWithin]
    split
    · exact .refl _
    · rename_i hs
      exact runTokens_widens (fun rest deep start _ => ih deep start) deep (Nat.le_of_not_lt hs)

/-- A search for an anchored stream that finds it has a limit above its choices, and under that limit finds
the stream without its anchor. -/
private theorem anyStart_of_anchorLast {tokens : List Token} {starts : List Nat}
    (h : (anyStart chars limit (Pattern.anchorLast tokens) starts).fresh = .ok true) :
    choices tokens < limit ∧ (anyStart chars limit tokens starts).fresh = .ok true := by
  induction starts with
  | nil => cases h
  | cons start starts ih =>
    rw [anyStart] at h
    obtain ⟨answer, hanswer, hnext⟩ := fresh_bind_eq_ok.mp h
    cases answer with
    | some stop =>
      have deep : choices tokens < limit := choices_anchorLast tokens ▸ choices_lt_of_found hanswer
      obtain ⟨other, hother, himp⟩ := runWithin_widens deep start _ hanswer
      obtain ⟨finish, rfl⟩ := Option.isSome_iff_exists.mp (himp rfl)
      refine ⟨deep, ?_⟩
      rw [anyStart, run, fresh_bind_of_ok hother]
      rfl
    | none =>
      obtain ⟨deep, hlater⟩ := ih hnext
      obtain ⟨other, hother, -⟩ := runWithin_widens deep start _ hanswer
      refine ⟨deep, ?_⟩
      rw [anyStart, run, fresh_bind_of_ok hother]
      cases other with
      | some finish => rfl
      | none => exact hlater

private theorem anyStart_range_of_zero {tokens : List Token}
    (h : (anyStart chars limit tokens [0]).fresh = .ok true) :
    (anyStart chars limit tokens (List.range (chars.size + 1))).fresh = .ok true := by
  rw [List.range_succ_eq_map, ← List.singleton_append, fresh_anyStart_append, h]

end Match

section Framed
variable {engine other : Engine} {text source : Text}

/-- A pattern that is found between anchors is found between those of them that are kept. -/
theorem isMatch_of_framed (he : engine.Reachable) (ho : other.Reachable)
    (same : other.recursionLimit = engine.recursionLimit) (hhead : source.head? ≠ some '^')
    (hsettled : Pattern.Settled source) {startAnchored endAnchored startKept endKept : Bool}
    (hstart : startKept = true → startAnchored = true) (hend : endKept = true → endAnchored = true)
    (h : (engine.isMatch text (Pattern.framed startAnchored endAnchored source)).1 = .ok true) :
    (other.isMatch text (Pattern.framed startKept endKept source)).1 = .ok true := by
  obtain ⟨pattern, hp⟩ := Match.parses_of_answer he h
  obtain ⟨tokens, parses⟩ := Pattern.parse_framed hhead hsettled hp
  rw [he.isMatch_fst, Match.fresh_isMatch (parses _ _), Match.find] at h
  rw [ho.isMatch_fst, same, Match.fresh_isMatch (parses _ _), Match.find]
  dsimp only at h ⊢
  have unended : (Match.anyStart text.toArray engine.recursionLimit
      (if endKept then Pattern.anchorLast tokens else tokens)
      (if startAnchored then [0] else List.range (text.toArray.size + 1))).fresh = .ok true := by
    cases endKept with
    | true => rwa [hend rfl] at h
    | false =>
      cases endAnchored with
      | true => exact (Match.anyStart_of_anchorLast h).2
      | false => exact h
  cases startKept with
  | true => rwa [hstart rfl] at unended
  | false =>
    cases startAnchored with
    | true => exact Match.anyStart_range_of_zero unended
    | false => exact unended

/-- What stands between anchors, for a text that has none of its own and does not end in an open escape: a
match with both anchors is one with either of them, and a match with one anchor is one with none, for any
engines with the same limit. -/
theorem dropped_anchor_keeps_match (engine other : Engine) (he : engine.Reachable)
    (ho : other.Reachable) (same : other.recursionLimit = engine.recursionLimit) (text source : Text)
    (hhead : source.head? ≠ some '^') (hlast : source.getLast? ≠ some '$')
    (heven : trailingEscapes source % 2 = 0) :
    ((engine.isMatch text ('^' :: source ++ ['$'])).1 = .ok true →
      (other.isMatch text (source ++ ['$'])).1 = .ok true ∧
        (other.isMatch text ('^' :: source)).1 = .ok true) ∧
    ((engine.isMatch text (source ++ ['$'])).1 = .ok true ∨
        (engine.isMatch text ('^' :: source)).1 = .ok true →
      (other.isMatch text source).1 = .ok true) := by
  have hsettled : Pattern.Settled source := ⟨heven, Pattern.endsAnchored_of_getLast? hlast⟩
  have both : Pattern.framed true true source = '^' :: source ++ ['$'] := rfl
  have ended : Pattern.framed false true source = source ++ ['$'] := rfl
  have started : Pattern.framed true false source = '^' :: source := by simp [Pattern.framed]
  have bare : Pattern.framed false false source = source := by simp [Pattern.framed]
  rw [← both, ← ended, ← started]
  refine ⟨fun h => ⟨?_, ?_⟩, fun h => ?_⟩
  · exact isMatch_of_framed he ho same hhead hsettled (by simp) (by simp) h
  · exact isMatch_of_framed he ho same hhead hsettled (by simp) (by simp) h
  · rw [← bare]
    rcases h with h | h
    · exact isMatch_of_framed he ho same hhead hsettled (by simp) (by simp) h
    · exact isMatch_of_framed he ho same hhead hsettled (by simp) (by simp) h

/-- With a limit of 2, `^[ab]+$` matches `ab`, and so it does without either anchor. `a+$` is found at the end
of `aba`, and `a+` at its beginning, where the end anchor had skipped it. -/
theorem dropped_anchor_keeps_repetition :
    (Engine.isMatch { recursionLimit := 2 } ['a', 'b'] ['[', 'a', 'b', ']', '+', '$']).1 = .ok true ∧
    (Engine.isMatch { recursionLimit := 2 } ['a', 'b'] ['^', '[', 'a', 'b', ']', '+']).1 = .ok true ∧
    (Engine.isMatch { recursionLimit := 2 } ['a', 'b', 'a'] ['^', 'a', '+', '$']).1 = .ok false ∧
    (Engine.isMatch { recursionLimit := 2 } ['a', 'b', 'a'] ['a', '+']).1 = .ok true := by
  have both := (dropped_anchor_keeps_match { recursionLimit := 2 } { recursionLimit := 2 } (.new 2)
    (.new 2) rfl ['a', 'b'] ['[', 'a', 'b', ']', '+'] (by decide) (by decide) rfl).1 rfl
  have ended := (dropped_anchor_keeps_match { recursionLimit := 2 } { recursionLimit := 2 } (.new 2)
    (.new 2) rfl ['a', 'b', 'a'] ['a', '+'] (by decide) (by decide) rfl).2 (.inl rfl)
  exact ⟨both.1, both.2, rfl, ended⟩

end Framed

end LineSearch
