import LineSearch.Proofs.Match.Agreement
import LineSearch.Proofs.Match.Failure
import LineSearch.Proofs.Pattern.NormalForm

/-! What the search relies on. Main statement: all that is compiled is in form, and the search comes upon
nothing else, at whatever depth: what it would do with other streams makes no difference. -/
namespace LineSearch.Match
open Matching
variable {chars : Line} {nested nested' stray : Runner}

/-- Matches a stream that is in form as `runTokens` does, as long as only repetitions and groups choose.
Everything else is left to `stray`. -/
def vettedTokens (stray : Runner) (line : Line) (nested : Runner) : Runner
  | [], cursor => pure (some cursor)
  | token :: rest, cursor =>
    if NormalStream (token :: rest) then do
      match ← offer line nested cursor token.kind with
      | .commit (some stop) =>
        if mayEnd line token stop then vettedTokens stray line nested rest stop else pure none
      | .commit none => pure none
      | .choose stops =>
        if chooses token.kind then firstViable line nested token rest stops
        else stray (token :: rest) cursor
      | .finish stop => pure stop
    else stray (token :: rest) cursor

def vettedWithin (stray : Runner) (line : Line) (limit : Nat) : (budget : Nat) → Runner
  | 0 => fun _ _ => throw (.depthExceeded limit)
  | budget + 1 => fun tokens cursor =>
    if line.size < cursor then throw (.cursorOutOfRange cursor line.size)
    else vettedTokens stray line (vettedWithin stray line limit budget) tokens cursor

/-- Vetting a stream in form changes nothing, if vetting what is nested in it does not. -/
private theorem runTokens_agree_vetted
    (h : ∀ tokens, NormalStream tokens → ∀ start ≤ chars.size,
      Agree (fun _ => False) (nested tokens start) (nested' tokens start))
    (hn : Follows chars nested) {tokens : List Token} (normal : NormalStream tokens) {start : Nat}
    (hs : start ≤ chars.size) :
    Agree (fun _ => False) (runTokens chars nested tokens start)
      (vettedTokens stray chars nested' tokens start) := by
  have compiled : CompiledAgree chars (fun _ => False) nested nested' :=
    fun _ pattern hparse => h pattern.tokens (Pattern.normal_of_parse hparse)
  induction tokens generalizing start with
  | nil => exact .refl _
  | cons token rest ih =>
    rw [runTokens, vettedTokens, if_pos normal]
    refine (offer_agree compiled hn token.kind hs).bind ?_
    intro offered ho
    have bounds := bounds_of_offer hn hs ho
    rcases offered with (_ | stop) | stops | stop
    · exact .refl _
    · dsimp only
      split
      · exact ih normal.tail (bounds stop (by simp [Offer.stops])).2
      · exact .refl _
    · simp only [chooses_of_offer ho, if_true]
      exact firstViable_agree rfl (h rest normal.tail) fun stop hstop => (bounds stop hstop).2
    · exact .refl _

theorem runWithin_agree_vetted (limit budget : Nat) {tokens : List Token} (normal : NormalStream tokens)
    {start : Nat} (hs : start ≤ chars.size) :
    Agree (fun _ => False) (runWithin chars limit budget tokens start)
      (vettedWithin stray chars limit budget tokens start) := by
  induction budget generalizing tokens start with
  | zero => exact .refl _
  | succ budget ih =>
    have hn : Follows chars (runWithin chars limit budget) := follows_runWithin limit budget
    simp only [runWithin, vettedWithin, if_neg (Nat.not_lt.mpr hs)]
    exact runTokens_agree_vetted (fun tokens normal start hs => ih normal hs) hn normal hs

/-- Every text that compiles does so to a stream in form. An engine remembers only such streams, those of
the branches it compiled on the way included. And whatever it would do at a stream out of form, or with the
choice of a token that is neither a repetition nor a group, a run ends the same. -/
theorem search_relies_on_normal_streams :
    (∀ source pattern, Pattern.parse source = .ok pattern → NormalStream pattern.tokens) ∧
    (∀ (engine : Engine) source pattern, engine.Reachable → engine.cache.find? source = some pattern →
      Pattern.parse source = .ok pattern ∧ NormalStream pattern.tokens) ∧
    (∀ (stray : Runner) (chars : Line) (limit budget : Nat) (engine : Engine) source pattern start,
      engine.Reachable → Pattern.parse source = .ok pattern → start ≤ chars.size →
      (engine.run (vettedWithin stray chars limit budget pattern.tokens start).run).1 =
        (engine.run (runWithin chars limit budget pattern.tokens start).run).1) := by
  refine ⟨fun source pattern hparse => Pattern.normal_of_parse hparse, ?_, ?_⟩
  · intro engine source pattern he hfind
    have hparse := he.faithful source pattern hfind
    exact ⟨hparse, Pattern.normal_of_parse hparse⟩
  · intro stray chars limit budget engine source pattern start he hparse hs
    have agree : Agree (fun _ => False) (runWithin chars limit budget pattern.tokens start)
        (vettedWithin stray chars limit budget pattern.tokens start) :=
      runWithin_agree_vetted limit budget (Pattern.normal_of_parse hparse) hs
    calc (engine.run (vettedWithin stray chars limit budget pattern.tokens start).run).1
        = (vettedWithin stray chars limit budget pattern.tokens start).fresh :=
          (OnDemand.run_of_faithful _ he.faithful).1
      _ = (runWithin chars limit budget pattern.tokens start).fresh := agree.fresh_eq.symm
      _ = (engine.run (runWithin chars limit budget pattern.tokens start).run).1 :=
          ((OnDemand.run_of_faithful _ he.faithful).1).symm

/-- In `x(a+|b$)+` a repeated group follows a literal, and its second branch has an anchor of its own. On
`xb` nothing is left to a runner that always fails. -/
theorem repeated_group_is_normal :
    let source : Text := ['x', '(', 'a', '+', '|', 'b', '$', ')', '+']
    let tokens : List Token := [{ kind := .literal ['x'] },
      { kind := .group ['a', '+', '|', 'b', '$'] [['a', '+'], ['b', '$']] (some .oneOrMore) }]
    let engine : Engine := ((({ recursionLimit := 4 } : Engine).isMatch ['x', 'b'] source).2)
    NormalStream tokens ∧
      (∃ branch, engine.cache.find? ['b', '$'] = some branch ∧ NormalStream branch.tokens) ∧
      (engine.run (vettedWithin (fun _ _ => throw (.depthExceeded 0)) #['x', 'b'] 4 4 tokens 0).run).1 =
        .ok (some 2) := by
  intro source tokens engine
  obtain ⟨compiles, remembers, runs⟩ := search_relies_on_normal_streams
  have parsed : Pattern.parse source = .ok { source, tokens, startAnchored := false } := by
    rfl
  have reachable : engine.Reachable := .isMatch ['x', 'b'] source (.new 4)
  have cached : (engine.cache.find? ['b', '$']).isSome = true := by
    decide +kernel
  obtain ⟨branch, hbranch⟩ := Option.isSome_iff_exists.mp cached
  refine ⟨compiles source _ parsed, ⟨branch, hbranch, (remembers engine _ branch reachable hbranch).2⟩, ?_⟩
  have found : (engine.run (runWithin #['x', 'b'] 4 4 tokens 0).run).1 = .ok (some 2) := by
    decide +kernel
  exact (runs _ #['x', 'b'] 4 4 engine source _ 0 reachable parsed (Nat.zero_le 2)).trans found

end LineSearch.Match
