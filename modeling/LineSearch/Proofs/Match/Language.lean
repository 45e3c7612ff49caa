import Mathlib.Logic.Relation
import LineSearch.Proofs.Match.Enumeration

/-! The language of a pattern, as the pairs of positions between which it can be read, with free
choice everywhere. Main statement: what the search finds is in the language. -/
namespace LineSearch.Match
open Matching
variable {chars : Line}

def Reads (chars : Line) (text : Text) (start stop : Nat) : Prop :=
  text <+: chars.toList.drop start ∧ stop = start + text.length

def ReadsOne (chars : Line) (atom : Atom) (start stop : Nat) : Prop :=
  (∃ c, chars[start]? = some c ∧ atom.accepts c = true) ∧ stop = start + 1

/-- Once, one or more times in sequence, or at most once. -/
def Suffixed (once : Nat → Nat → Prop) : Option Suffix → Nat → Nat → Prop
  | none => once
  | some .oneOrMore => Relation.TransGen once
  | some .zeroOrOne => Relation.ReflGen once

def KindSpans (chars : Line) (branchSpans : Text → Nat → Nat → Prop) :
    TokenKind → Nat → Nat → Prop
  | .literal text => Reads chars text
  | .wildcard => ReadsOne chars .any
  | .digit => ReadsOne chars .digit
  | .word => ReadsOne chars .word
  | .set s => ReadsOne chars (.set s)
  | .wildcardPlus => Suffixed (ReadsOne chars .any) (some .oneOrMore)
  | .quantified atom suffix => Suffixed (ReadsOne chars atom) (some suffix)
  | .alternation texts suffix =>
    Suffixed (fun start stop => ∃ text ∈ texts, Reads chars text start stop) suffix
  | .group _ branches suffix =>
    Suffixed (fun start stop => ∃ branch ∈ branches, branchSpans branch start stop) suffix
  | .endAnchor => fun start stop => stop = start ∧ start = chars.size

/-- The spans of a stream: one token after the other, those with an end anchor up to the end of the
line. Nothing is read behind a token that is nothing but an end anchor. -/
def StreamSpans (chars : Line) (branchSpans : Text → Nat → Nat → Prop) :
    List Token → Nat → Nat → Prop
  | [], start, stop => stop = start
  | token :: rest, start, stop => ∃ middle, KindSpans chars branchSpans token.kind start middle ∧
      (token.endAnchor = true → middle = chars.size) ∧
      if concludes token.kind then stop = middle else StreamSpans chars branchSpans rest middle stop

/-- The spans of a branch. One starting with `^` has them at position 0 only, and one that does not
compile has none. -/
def BranchSpans (chars : Line) : Text → Nat → Nat → Prop :=
  Pattern.interpret (fun _ _ => False) fun nested pattern start stop =>
    (pattern.startAnchored = true → start = 0) ∧ StreamSpans chars nested pattern.tokens start stop

private theorem kindSpans_congr {f g : Text → Nat → Nat → Prop} {kind : TokenKind}
    (h : ∀ branch ∈ kind.branches, f branch = g branch) :
    KindSpans chars f kind = KindSpans chars g kind := by
  cases kind with
  | group body branches suffix =>
    have hb : (fun start stop => ∃ branch ∈ branches, f branch start stop) =
        fun start stop => ∃ branch ∈ branches, g branch start stop := by
      funext start stop
      exact propext (exists_congr fun branch => and_congr_right fun hb => by rw [h branch hb])
    rw [KindSpans, KindSpans, hb]
  | _ => rfl

private theorem streamSpans_congr {f g : Text → Nat → Nat → Prop} {tokens : List Token}
    (h : ∀ branch ∈ nestedBranches tokens, f branch = g branch) :
    StreamSpans chars f tokens = StreamSpans chars g tokens := by
  induction tokens with
  | nil => rfl
  | cons token rest ih =>
    have hcons : nestedBranches (token :: rest) = token.kind.branches ++ nestedBranches rest := rfl
    rw [hcons] at h
    funext start stop
    rw [StreamSpans, StreamSpans, kindSpans_congr fun branch hb => h branch (List.mem_append_left _ hb),
      ih fun branch hb => h branch (List.mem_append_right _ hb)]

/-- The spans of a branch, in terms of the branches nested in it. -/
theorem branchSpans_iff {source : Text} {start stop : Nat} :
    BranchSpans chars source start stop ↔ ∃ pattern, Pattern.parse source = .ok pattern ∧
      (pattern.startAnchored = true → start = 0) ∧
      StreamSpans chars (BranchSpans chars) pattern.tokens start stop := by
  rcases hp : Pattern.parse source with e | pattern
  · rw [BranchSpans, Pattern.interpret_of_error hp]
    simp
  · have hlocal : BranchSpans chars source = _ :=
      Pattern.interpret_of_ok (fun f g hfg => by rw [streamSpans_congr hfg]) hp
    rw [hlocal]
    simp [BranchSpans]

private theorem reads_of_occurrence {text : Text} {start stop : Nat}
    (h : occurrence chars text start = some stop) : Reads chars text start stop := by
  unfold occurrence at h
  split at h
  · rename_i hp
    cases h
    exact ⟨hp, rfl⟩
  · cases h

private theorem readsOne_of_single {atom : Atom} {start stop : Nat}
    (h : single chars atom start = some stop) : ReadsOne chars atom start stop := by
  unfold single at h
  split at h
  · rename_i hp
    cases h
    exact ⟨(Option.any_eq_true _ _).mp hp, rfl⟩
  · cases h

theorem reads_of_firstOccurrence {texts : List Text} {start stop : Nat}
    (h : firstOccurrence chars texts start = some stop) :
    ∃ text ∈ texts, Reads chars text start stop := by
  obtain ⟨text, ht, hstop⟩ := List.exists_of_findSome?_eq_some h
  exact ⟨text, ht, reads_of_occurrence hstop⟩

/-- A position reached after some rounds is reached by a sequence of them. -/
private theorem transGen_of_mem_laps {round : Nat → Option Nat} {once : Nat → Nat → Prop}
    (ho : ∀ start stop, round start = some stop → once start stop) {start stop : Nat}
    (h : stop ∈ laps chars round start) : Relation.TransGen once start stop := by
  induction start using laps.induct chars round with
  | case1 start hr => simp [laps, hr] at h
  | case2 start next hr hn ih =>
    rw [laps, hr] at h
    simp only [hn, and_self, if_true, List.mem_append, List.mem_singleton] at h
    rcases h with h | rfl
    · exact Relation.TransGen.head (ho start next hr) (ih h)
    · exact .single (ho start stop hr)
  | case3 start next hr hn => simp [laps, hr, hn] at h

private theorem transGen_of_mem_repetition {round : Nat → Option Nat} {once : Nat → Nat → Prop}
    (ho : ∀ start stop, round start = some stop → once start stop) {start stop : Nat}
    (h : stop ∈ repetition chars round start) : Relation.TransGen once start stop := by
  unfold repetition at h
  split at h
  · rename_i hr
    cases List.mem_singleton.mp h
    exact .single (ho start start hr)
  · exact transGen_of_mem_laps ho h

/-- Every end of a token closes a span of it, if that holds of the branches nested in it. -/
theorem kindSpans_of_mem_ends {nested : Text → Nat → Option Nat} {spans : Text → Nat → Nat → Prop}
    {kind : TokenKind} (hn : ∀ branch ∈ kind.branches, ∀ start stop,
      nested branch start = some stop → spans branch start stop) {start stop : Nat}
    (h : stop ∈ ends chars nested kind start) : KindSpans chars spans kind start stop := by
  have optional {round : Nat → Option Nat} {once : Nat → Nat → Prop}
      (ho : ∀ start stop, round start = some stop → once start stop)
      (hstop : stop = (round start).getD start) : Relation.ReflGen once start stop := by
    subst hstop
    rcases hround : round start with _ | next
    · exact .refl
    · exact .single (ho start next hround)
  cases kind with
  | literal text => exact reads_of_occurrence (Option.mem_toList.mp h)
  | wildcard => exact readsOne_of_single (Option.mem_toList.mp h)
  | digit => exact readsOne_of_single (Option.mem_toList.mp h)
  | word => exact readsOne_of_single (Option.mem_toList.mp h)
  | set s => exact readsOne_of_single (Option.mem_toList.mp h)
  | wildcardPlus => exact transGen_of_mem_repetition (fun _ _ => readsOne_of_single) h
  | quantified atom suffix =>
    cases suffix with
    | zeroOrOne => exact optional (fun _ _ => readsOne_of_single) (List.mem_singleton.mp h)
    | oneOrMore => exact transGen_of_mem_repetition (fun _ _ => readsOne_of_single) h
  | alternation texts suffix =>
    rcases suffix with _ | _ | _
    · exact reads_of_firstOccurrence (Option.mem_toList.mp h)
    · exact transGen_of_mem_repetition (fun _ _ => reads_of_firstOccurrence) h
    · exact optional (fun _ _ => reads_of_firstOccurrence) (List.mem_singleton.mp h)
  | group body branches suffix =>
    have inside {start stop : Nat} (h : stop ∈ branchStops nested branches start) :
        ∃ branch ∈ branches, spans branch start stop := by
      obtain ⟨branch, hb, hstop⟩ := List.mem_filterMap.mp h
      exact ⟨branch, hb, hn branch hb start stop hstop⟩
    rcases suffix with _ | _ | _
    · exact inside h
    · rw [ends] at h
      refine transGen_of_mem_repetition (fun position next hfirst => ?_) h
      exact inside (List.mem_of_head? hfirst)
    · rcases List.mem_append.mp h with h | h
      · exact .single (inside h)
      · cases List.mem_singleton.mp h
        exact .refl
  | endAnchor =>
    simp only [ends] at h
    split at h
    · exact ⟨List.mem_singleton.mp h, ‹_›⟩
    · cases h

theorem mayEnd_iff {token : Token} {stop : Nat} :
    mayEnd chars token stop = true ↔ (token.endAnchor = true → stop = chars.size) := by
  cases h : token.endAnchor <;> simp [mayEnd, h]

/-- Every enumerated end of a stream closes a span of it. -/
private theorem streamSpans_of_mem_successes {nested : Text → Nat → Option Nat}
    {spans : Text → Nat → Nat → Prop} {tokens : List Token}
    (hn : ∀ branch ∈ nestedBranches tokens, ∀ start stop,
      nested branch start = some stop → spans branch start stop)
    {start stop : Nat} (h : stop ∈ successes chars nested tokens start) :
    StreamSpans chars spans tokens start stop := by
  induction tokens generalizing start with
  | nil => exact List.mem_singleton.mp h
  | cons token rest ih =>
    obtain ⟨middle, hm, hstop⟩ := List.mem_flatMap.mp h
    obtain ⟨hends, hanchor⟩ := List.mem_filter.mp hm
    refine ⟨middle, kindSpans_of_mem_ends (fun branch hb => hn branch (List.mem_append_left _ hb)) hends,
      mayEnd_iff.mp hanchor, ?_⟩
    split
    · exact List.mem_singleton.mp (by simpa [*] using hstop)
    · exact ih (fun branch hb => hn branch (List.mem_append_right _ hb)) (by simpa [*] using hstop)

/-- The end of a branch closes a span of it, at every depth of nesting. -/
theorem branchSpans_of_branchEnd (source : Text) (start stop : Nat)
    (h : branchEnd chars source start = some stop) : BranchSpans chars source start stop := by
  induction source using Pattern.nested_induction generalizing start stop with
  | failed source e hp =>
    rw [branchEnd_of_error hp] at h
    cases h
  | compiled source pattern hp ih =>
    rw [branchEnd_of_ok hp] at h
    split at h
    · cases h
    · rename_i hskip
      refine branchSpans_iff.mpr ⟨pattern, hp, ?_, streamSpans_of_mem_successes ih (List.mem_of_head? h)⟩
      intro ha
      by_contra hstart
      exact hskip ⟨ha, hstart⟩

theorem streamSpans_of_mem (tokens : List Token) {start stop : Nat}
    (h : stop ∈ successes chars (branchEnd chars) tokens start) :
    StreamSpans chars (BranchSpans chars) tokens start stop :=
  streamSpans_of_mem_successes (fun branch _ => branchSpans_of_branchEnd branch) h

/-- What the search finds can be read: a run's answer closes a span of its stream within the line, and
where an engine finds a pattern there is a span of it that the anchor allows. -/
theorem found_within_language :
    (∀ (chars : Line) (limit budget : Nat) (tokens : List Token) (start stop : Nat),
      (runWithin chars limit budget tokens start).fresh = .ok (some stop) →
      start ≤ stop ∧ stop ≤ chars.size ∧
        StreamSpans chars (BranchSpans chars) tokens start stop) ∧
    (∀ (engine : Engine) (text source : Text), engine.Reachable →
      (engine.isMatch text source).1 = .ok true →
      ∃ pattern start stop, Pattern.parse source = .ok pattern ∧ start ≤ stop ∧
        stop ≤ text.length ∧ (pattern.startAnchored = true → start = 0) ∧
        StreamSpans text.toArray (BranchSpans text.toArray) pattern.tokens start stop) := by
  refine ⟨?_, ?_⟩
  · intro chars limit budget tokens start stop h
    have hs := start_le_of_answer h
    have hstop := List.mem_of_head? (runWithin_yields limit budget tokens start _ h).symm
    obtain ⟨hle, hsize⟩ := bounds_of_mem_successes hs hstop
    exact ⟨hle, hsize, streamSpans_of_mem tokens hstop⟩
  · intro engine text source he h
    obtain ⟨pattern, hp⟩ := parses_of_answer he h
    have found := isMatch_outcome he text hp
    rw [h] at found
    cases found with
    | answered right =>
      obtain ⟨start, hs, hanchor, hne⟩ := right.mp rfl
      obtain ⟨stop, hstop⟩ := List.exists_mem_of_ne_nil _ hne
      obtain ⟨hle, hsize⟩ := bounds_of_mem_successes hs hstop
      exact ⟨pattern, start, stop, hp, hle, hsize, hanchor, streamSpans_of_mem _ hstop⟩

/-- On `xabc`, `(a.|(b))+c$` can be read from the `a` to the end. -/
theorem repeated_group_within_language :
    ∃ pattern, Pattern.parse ['(', 'a', '.', '|', '(', 'b', ')', ')', '+', 'c', '$'] = .ok pattern ∧
      StreamSpans #['x', 'a', 'b', 'c'] (BranchSpans #['x', 'a', 'b', 'c']) pattern.tokens 1 4 ∧
      ∃ start stop, start ≤ stop ∧ stop ≤ 4 ∧
        StreamSpans #['x', 'a', 'b', 'c'] (BranchSpans #['x', 'a', 'b', 'c']) pattern.tokens
          start stop := by
  obtain ⟨closes, finds⟩ := found_within_language
  refine ⟨_, rfl, (closes _ 256 256 _ 1 4 rfl).2.2, ?_⟩
  obtain ⟨pattern, start, stop, hp, hle, hsize, -, hspans⟩ :=
    finds { recursionLimit := 256 } ['x', 'a', 'b', 'c']
      ['(', 'a', '.', '|', '(', 'b', ')', ')', '+', 'c', '$'] (.new 256) rfl
  cases hp
  exact ⟨start, stop, hle, hsize, hspans⟩

end LineSearch.Match
