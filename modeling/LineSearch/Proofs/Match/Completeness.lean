import LineSearch.Proofs.Match.Language

/-! Where the search backtracks fully: streams in which each token commits to the only end it can
have, or offers every end it can have. Main statement: the search finds what the language of such a
stream allows. -/
namespace LineSearch

def Token.unanchored (token : Token) : Token := { token with endAnchor := false }

namespace Match
variable {chars : Line}

def hasFixedEnd : TokenKind → Bool
  | .literal _ | .wildcard | .digit | .word | .set _ => true
  | _ => false

def FixedBranch (branch : Text) : Prop :=
  ∃ pattern, Pattern.parse branch = .ok pattern ∧ pattern.startAnchored = false ∧
    ∀ token ∈ pattern.tokens, hasFixedEnd token.kind = true ∧ token.endAnchor = false

def PrefixFree (texts : List Text) : Prop :=
  ∀ text ∈ texts, ∀ other ∈ texts, text <+: other → text = other

/-- Tokens that commit to nothing but their only end. -/
def Backtracks : TokenKind → Prop
  | .literal _ | .wildcard | .digit | .word | .set _ | .wildcardPlus | .endAnchor => True
  | .quantified _ suffix => suffix = .oneOrMore
  | .alternation texts suffix => suffix ≠ some .zeroOrOne ∧ PrefixFree texts
  | .group _ branches (some .oneOrMore) => ∃ branch, branches = [branch] ∧ FixedBranch branch
  | .group _ branches _ => ∀ branch ∈ branches, FixedBranch branch

private theorem occurrence_of_reads {text : Text} {start stop : Nat} (h : Reads chars text start stop) :
    occurrence chars text start = some stop := by
  rw [occurrence, if_pos h.1, h.2]

private theorem single_of_readsOne {atom : Atom} {start stop : Nat} (h : ReadsOne chars atom start stop) :
    single chars atom start = some stop := by
  obtain ⟨⟨c, hc, ha⟩, rfl⟩ := h
  simp [single, hc, ha]

/-- Of texts without proper prefixes one at most stands at a position. -/
private theorem firstOccurrence_of_reads {texts : List Text} (hp : PrefixFree texts) {start stop : Nat}
    (h : ∃ text ∈ texts, Reads chars text start stop) : firstOccurrence chars texts start = some stop := by
  obtain ⟨text, ht, hr⟩ := h
  have hsome : (firstOccurrence chars texts start).isSome := by
    rw [firstOccurrence, List.findSome?_isSome_iff]
    exact ⟨text, ht, by rw [occurrence_of_reads hr]; rfl⟩
  obtain ⟨found, hfound⟩ := Option.isSome_iff_exists.mp hsome
  obtain ⟨other, ho, hother⟩ := reads_of_firstOccurrence hfound
  have heq : text = other := by
    rcases List.prefix_or_prefix_of_prefix hr.1 hother.1 with hpre | hpre
    · exact hp text ht other ho hpre
    · exact (hp other ho text ht hpre).symm
  rw [hfound, hr.2, hother.2, heq]

/-- Every position reached by a sequence of rounds is an end of their repetition, if a round has one
end at most. -/
private theorem mem_repetition_of_transGen {round : Nat → Option Nat} {once : Nat → Nat → Prop}
    (hr : Advances chars round) {start stop : Nat} (hs : start ≤ chars.size)
    (h : Relation.TransGen once start stop) (ho : ∀ start stop, once start stop → round start = some stop) :
    stop ∈ repetition chars round start := by
  have reached : stop ∈ laps chars round start ∨ stop = start ∧ round start = some start := by
    induction h using Relation.TransGen.head_induction_on with
    | single hstep =>
      rename_i start
      have hround := ho start stop hstep
      rw [laps_eq hr hs, hround]
      by_cases hstop : stop = start
      · exact .inr ⟨hstop, hstop ▸ rfl⟩
      · exact .inl (by simp [hstop])
    | head hstep hrest ih =>
      rename_i start next
      have hround := ho start next hstep
      by_cases hnext : next = start
      · exact hnext ▸ ih (hr start hs next hround).2
      · rw [laps_eq hr hs, hround]
        rcases ih (hr start hs next hround).2 with hlater | ⟨rfl, _⟩
        · exact .inl (by simp [hnext, hlater])
        · exact .inl (by simp [hnext])
  unfold repetition
  split
  · rename_i hround
    rcases reached with hlaps | ⟨rfl, _⟩
    · rw [laps_eq hr hs, hround] at hlaps
      simp at hlaps
    · exact List.mem_singleton.mpr rfl
  · rename_i hround
    exact reached.resolve_right fun hstuck => hround hstuck.2

/-- A token with one end at most has it where a span of it ends. -/
private theorem ends_of_fixed {nested : Text → Nat → Option Nat} {spans : Text → Nat → Nat → Prop}
    {kind : TokenKind} (hf : hasFixedEnd kind = true) {start stop : Nat}
    (h : KindSpans chars spans kind start stop) : ends chars nested kind start = [stop] := by
  cases kind with
  | literal text => rw [ends, occurrence_of_reads h]; rfl
  | wildcard => rw [ends, single_of_readsOne h]; rfl
  | digit => rw [ends, single_of_readsOne h]; rfl
  | word => rw [ends, single_of_readsOne h]; rfl
  | set s => rw [ends, single_of_readsOne h]; rfl
  | _ => cases hf

private theorem concludes_of_fixed {kind : TokenKind} (hf : hasFixedEnd kind = true) :
    concludes kind = false := by
  cases kind with
  | endAnchor => cases hf
  | _ => rfl

private theorem successes_of_fixed {nested : Text → Nat → Option Nat} {spans : Text → Nat → Nat → Prop}
    {tokens : List Token} (hf : ∀ token ∈ tokens, hasFixedEnd token.kind = true ∧ token.endAnchor = false)
    {start stop : Nat} (h : StreamSpans chars spans tokens start stop) :
    successes chars nested tokens start = [stop] := by
  induction tokens generalizing start with
  | nil => rw [successes, h]
  | cons token rest ih =>
    obtain ⟨⟨hkind, hanchor⟩, hrest⟩ := List.forall_mem_cons.mp hf
    obtain ⟨middle, hm, _, hstop⟩ := h
    have hend : mayEnd chars token middle = true := by simp [mayEnd, hanchor]
    have passes : concludes token.kind = false := concludes_of_fixed hkind
    simp only [passes] at hstop
    simp only [successes, ends_of_fixed hkind hm, List.filter_cons, hend, if_true, List.filter_nil,
      List.flatMap_singleton, passes]
    exact ih hrest hstop

/-- A fixed branch ends where a span of it does. -/
private theorem branchEnd_of_fixed {branch : Text} (hf : FixedBranch branch) {start stop : Nat}
    (h : BranchSpans chars branch start stop) : branchEnd chars branch start = some stop := by
  obtain ⟨pattern, hp, hanchor, htokens⟩ := hf
  obtain ⟨other, ho, _, hspans⟩ := branchSpans_iff.mp h
  cases hp.symm.trans ho
  rw [branchEnd_of_ok hp, if_neg (by simp [hanchor]), successes_of_fixed htokens hspans]
  rfl

private theorem mem_branchStops {branches : List Text} {start stop : Nat}
    (hf : ∀ branch ∈ branches, FixedBranch branch)
    (h : ∃ branch ∈ branches, BranchSpans chars branch start stop) :
    stop ∈ branchStops (branchEnd chars) branches start := by
  obtain ⟨branch, hb, hspan⟩ := h
  exact List.mem_filterMap.mpr ⟨branch, hb, branchEnd_of_fixed (hf branch hb) hspan⟩

/-- A token that backtracks offers the end of every span of it. -/
theorem mem_ends_of_kindSpans {kind : TokenKind} (hk : Backtracks kind) {start stop : Nat}
    (hs : start ≤ chars.size) (h : KindSpans chars (BranchSpans chars) kind start stop) :
    stop ∈ ends chars (branchEnd chars) kind start := by
  have fixed (hf : hasFixedEnd kind = true) : stop ∈ ends chars (branchEnd chars) kind start := by
    rw [ends_of_fixed hf h]
    exact List.mem_singleton.mpr rfl
  cases kind with
  | literal text => exact fixed rfl
  | wildcard => exact fixed rfl
  | digit => exact fixed rfl
  | word => exact fixed rfl
  | set s => exact fixed rfl
  | wildcardPlus =>
    exact mem_repetition_of_transGen (advances_single .any) hs h fun _ _ => single_of_readsOne
  | quantified atom suffix =>
    cases hk
    exact mem_repetition_of_transGen (advances_single atom) hs h fun _ _ => single_of_readsOne
  | alternation texts suffix =>
    obtain ⟨hsuffix, hfree⟩ := hk
    rcases suffix with _ | _ | _
    · exact Option.mem_toList.mpr (firstOccurrence_of_reads hfree h)
    · exact mem_repetition_of_transGen (advances_firstOccurrence texts) hs h fun _ _ =>
        firstOccurrence_of_reads hfree
    · exact absurd rfl hsuffix
  | group body branches suffix =>
    rcases suffix with _ | _ | _
    · exact mem_branchStops hk h
    · obtain ⟨branch, rfl, hf⟩ := hk
      rw [ends]
      refine mem_repetition_of_transGen (advances_firstBranch [branch]) hs h fun _ _ honce => ?_
      obtain ⟨_, hb, hspan⟩ := honce
      cases List.mem_singleton.mp hb
      simp [branchStops, branchEnd_of_fixed hf hspan]
    · cases h with
      | refl => exact List.mem_append_right _ (List.mem_singleton.mpr rfl)
      | single hspan => exact List.mem_append_left _ (mem_branchStops hk hspan)
  | endAnchor =>
    obtain ⟨rfl, hsize⟩ := h
    rw [ends, if_pos hsize]
    exact List.mem_singleton.mpr rfl

/-- A stream that backtracks has an end wherever a span of it ends. -/
theorem mem_successes_of_streamSpans {tokens : List Token}
    (hk : ∀ token ∈ tokens, Backtracks token.kind) {start stop : Nat} (hs : start ≤ chars.size)
    (h : StreamSpans chars (BranchSpans chars) tokens start stop) :
    stop ∈ successes chars (branchEnd chars) tokens start := by
  induction tokens generalizing start with
  | nil => exact List.mem_singleton.mpr h
  | cons token rest ih =>
    obtain ⟨hkind, hrest⟩ := List.forall_mem_cons.mp hk
    obtain ⟨middle, hm, hanchor, hstop⟩ := h
    have hends := mem_ends_of_kindSpans hkind hs hm
    have hsize := (bounds_of_mem_ends hs hends).2
    refine List.mem_flatMap.mpr ⟨middle, List.mem_filter.mpr ⟨hends, mayEnd_iff.mpr hanchor⟩, ?_⟩
    by_cases stays : concludes token.kind = true
    · rw [if_pos stays] at hstop ⊢
      exact List.mem_singleton.mpr hstop
    · rw [if_neg stays] at hstop ⊢
      exact ih hrest hsize hstop

/-- In a stream whose last token alone may be anchored, the anchor only fixes where spans end. -/
private theorem streamSpans_of_unanchored {spans : Text → Nat → Nat → Prop} {tokens : List Token}
    (hplain : ∀ token ∈ tokens.dropLast, token.endAnchor = false) {start stop : Nat}
    (hlast : ∀ last, tokens.getLast? = some last → last.endAnchor = true → stop = chars.size)
    (h : StreamSpans chars spans (tokens.map Token.unanchored) start stop) :
    StreamSpans chars spans tokens start stop := by
  induction tokens generalizing start with
  | nil => exact h
  | cons token rest ih =>
    obtain ⟨middle, hm, _, hrest⟩ := h
    change if concludes token.kind then _ else _ at hrest
    cases rest with
    | nil =>
      have hend : stop = middle := by
        split at hrest <;> exact hrest
      subst hend
      exact ⟨stop, hm, hlast token rfl, hrest⟩
    | cons next rest =>
      rw [List.dropLast_cons_cons] at hplain
      obtain ⟨htoken, hplain⟩ := List.forall_mem_cons.mp hplain
      have hlast' (last : Token) (hl : (next :: rest).getLast? = some last) :=
        hlast last (by rwa [List.getLast?_cons_cons])
      refine ⟨middle, hm, by simp [htoken], ?_⟩
      split at hrest
      · rwa [if_pos ‹_›]
      · rw [if_neg ‹_›]
        exact ih hplain hlast' hrest

private theorem nestedBranches_of_fixed {tokens : List Token}
    (hf : ∀ token ∈ tokens, hasFixedEnd token.kind = true) : nestedBranches tokens = [] := by
  refine List.flatMap_eq_nil_iff.mpr fun token ht => ?_
  have hkind := hf token ht
  cases hcases : token.kind with
  | group body branches suffix =>
    rw [hcases] at hkind
    cases hkind
  | _ => rfl

/-- All that is nested in a stream that backtracks compiles. -/
private theorem parses_of_backtracks {tokens : List Token} (hk : ∀ token ∈ tokens, Backtracks token.kind)
    {branch : Text} (h : Nested tokens branch) : ∃ pattern, Pattern.parse branch = .ok pattern := by
  have direct {branch : Text} (hb : branch ∈ nestedBranches tokens) : FixedBranch branch := by
    obtain ⟨token, ht, hin⟩ := List.mem_flatMap.mp hb
    have hkind := hk token ht
    cases hcases : token.kind with
    | group body branches suffix =>
      rw [hcases] at hkind hin
      rcases suffix with _ | _ | _
      · exact hkind branch hin
      · obtain ⟨only, rfl, hf⟩ := hkind
        cases List.mem_singleton.mp hin
        exact hf
      · exact hkind branch hin
    | _ =>
      rw [hcases] at hin
      cases hin
  cases h with
  | direct member =>
    obtain ⟨pattern, hp, _⟩ := direct member
    exact ⟨pattern, hp⟩
  | inner member parsed below =>
    obtain ⟨pattern, hp, _, htokens⟩ := direct member
    cases hp.symm.trans parsed
    have hnone := nestedBranches_of_fixed fun token ht => (htokens token ht).1
    cases below with
    | direct member => simp [hnone] at member
    | inner member _ _ => simp [hnone] at member

/-- A pattern that backtracks throughout is found wherever its language has a span that the anchors
allow, if one nested attempt is allowed for every two characters and one more. -/
theorem backtracking_pattern_found (engine : Engine) (text source : Text) (pattern : Pattern)
    (start stop : Nat) (he : engine.Reachable) (hp : Pattern.parse source = .ok pattern)
    (hk : ∀ token ∈ pattern.tokens, Backtracks token.kind)
    (hlimit : 1 + source.length / 2 ≤ engine.recursionLimit)
    (hle : start ≤ stop) (hsize : stop ≤ text.length)
    (hstart : pattern.startAnchored = true → start = 0)
    (hstop : ∀ last, pattern.tokens.getLast? = some last → last.endAnchor = true →
      stop = text.length)
    (h : StreamSpans text.toArray (BranchSpans text.toArray)
      (pattern.tokens.map Token.unanchored) start stop) :
    (engine.isMatch text source).1 = .ok true := by
  have hspans := streamSpans_of_unanchored (Pattern.endAnchor_eq_false hp) hstop h
  have hend := mem_successes_of_streamSpans hk (Nat.le_trans hle hsize) hspans
  have hdeep : need branchNeed pattern.tokens ≤ engine.recursionLimit := by
    have := branchNeed_le source
    rw [branchNeed_of_ok hp] at this
    omega
  obtain ⟨found, hfound, hiff⟩ := (isMatch_outcome he text hp).answers hdeep
    fun branch hn => parses_of_backtracks hk hn
  rw [hfound, hiff.mpr ⟨start, Nat.le_trans hle hsize, hstart, List.ne_nil_of_mem hend⟩]

/-- `.+(b| .)?c$` is found in `a xc`, where `.+` has to give back what it takes at first. -/
theorem optional_group_found :
    (Engine.isMatch { recursionLimit := 6 } ['a', ' ', 'x', 'c']
      ['.', '+', '(', 'b', '|', ' ', '.', ')', '?', 'c', '$']).1 = .ok true := by
  have fixed : ∀ branch ∈ [['b'], [' ', '.']], FixedBranch branch := by
    simp only [List.forall_mem_cons, List.not_mem_nil, false_implies, implies_true, and_true]
    exact ⟨⟨_, rfl, rfl, by decide⟩, ⟨_, rfl, rfl, by decide⟩⟩
  have run : ReadsOne #['a', ' ', 'x', 'c'] .any 0 1 := ⟨⟨'a', rfl, rfl⟩, rfl⟩
  have branch : BranchSpans #['a', ' ', 'x', 'c'] [' ', '.'] 1 3 :=
    branchSpans_iff.mpr ⟨_, rfl, by decide, 2, ⟨by decide, rfl⟩, by decide,
      3, ⟨⟨'x', rfl, rfl⟩, rfl⟩, by decide, rfl⟩
  refine backtracking_pattern_found _ _ _
    { source := ['.', '+', '(', 'b', '|', ' ', '.', ')', '?', 'c', '$']
      tokens := [{ kind := .wildcardPlus },
        { kind := .group ['b', '|', ' ', '.'] [['b'], [' ', '.']] (some .zeroOrOne) },
        { kind := .literal ['c'], endAnchor := true }]
      startAnchored := false }
    0 4 (.new 6) rfl ?_ (by decide) (by decide) (by decide) (by decide) ?_ ?_
  · simp only [List.forall_mem_cons, List.not_mem_nil, false_implies, implies_true, and_true]
    exact ⟨trivial, fixed, trivial⟩
  · intro _ _ _
    rfl
  · exact ⟨1, .single run, by decide, 3, .single ⟨[' ', '.'], by decide, branch⟩, by decide,
      4, ⟨by decide, rfl⟩, by decide, rfl⟩

end Match

end LineSearch
