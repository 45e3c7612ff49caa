import LineSearch.Proofs.Match.Enumeration

/-! Text put in front of a line. Main statement: behind it a run does what it did without it, errors
included, and every end moves by the length of what stands in front, if no nested branch asks for the
beginning of the line. So what is found in a text is found behind any other, unless the search fails at
a start within that one. -/
namespace LineSearch

namespace Matching
variable {α β γ δ : Type}

/-- The second attempt ends as the first does, with the answer `f a` in place of `a`. -/
def Carries (f : α → β) (first : Matching α) (second : Matching β) : Prop :=
  second.fresh = first.fresh.map f

namespace Carries

theorem pure (f : α → β) (a : α) : Carries f (pure a) (pure (f a)) := rfl

theorem bind {f : α → β} {g : γ → δ} {first : Matching α} {second : Matching β}
    {next : α → Matching γ} {next' : β → Matching δ} (h : Carries f first second)
    (hn : ∀ a, first.fresh = .ok a → Carries g (next a) (next' (f a))) :
    Carries g (first >>= next) (second >>= next') := by
  unfold Carries at h ⊢
  rw [fresh_bind, fresh_bind, h]
  rcases hf : first.fresh with e | a
  · rfl
  · exact hn a hf

theorem map {f : α → β} {g : γ → δ} {first : Matching α} {second : Matching β}
    (h : Carries f first second) {u : α → γ} {v : β → δ} (commutes : ∀ a, v (f a) = g (u a)) :
    Carries g (u <$> first) (v <$> second) :=
  h.bind fun a _ => by
    rw [commutes a]
    exact pure g (u a)

end Carries

end Matching

namespace Match
open Matching
variable {front chars : Line} {nested nested' : Runner}

private theorem getElem?_behind (i : Nat) : (front ++ chars)[front.size + i]? = chars[i]? := by
  rw [Array.getElem?_append_right (Nat.le_add_right _ _), Nat.add_sub_cancel_left]

private theorem literalEnd_behind (text : Text) (cursor : Nat) :
    literalEnd (front ++ chars) text (front.size + cursor) =
      (literalEnd chars text cursor).map (front.size + ·) := by
  induction text generalizing cursor with
  | nil => rfl
  | cons c rest ih =>
    rw [literalEnd, literalEnd, getElem?_behind, Nat.add_assoc, ih]
    split <;> rfl

private theorem atomEnd_behind (atom : Atom) (cursor : Nat) :
    atomEnd (front ++ chars) atom (front.size + cursor) =
      (atomEnd chars atom cursor).map (front.size + ·) := by
  rw [atomEnd, atomEnd, getElem?_behind]
  cases chars[cursor]? with
  | none => rfl
  | some c =>
    dsimp only
    split <;> rfl

private theorem alternativeEnd_behind (texts : List Text) (cursor : Nat) :
    alternativeEnd (front ++ chars) texts (front.size + cursor) =
      (alternativeEnd chars texts cursor).map (front.size + ·) := by
  rw [alternativeEnd, alternativeEnd, List.map_findSome?]
  congr 1
  funext text
  exact literalEnd_behind text cursor

private theorem mayEnd_behind (token : Token) (stop : Nat) :
    mayEnd (front ++ chars) token (front.size + stop) = mayEnd chars token stop := by
  rw [mayEnd, mayEnd, Array.size_append]
  congr 1
  simp

/-- Rounds that move are repeated from the same positions, moved. -/
private theorem roundsFrom_behind {round round' : Nat → Matching (Option Nat)}
    (h : ∀ start ≤ chars.size,
      Carries (Option.map (front.size + ·)) (round start) (round' (front.size + start)))
    (bounds : ∀ start ≤ chars.size, ∀ stop, (round start).fresh = .ok (some stop) → stop ≤ chars.size)
    (fuel : Nat) {start : Nat} (hs : start ≤ chars.size) (reached : List Nat) :
    Carries (List.map (front.size + ·)) (roundsFrom round fuel start reached)
      (roundsFrom round' fuel (front.size + start) (reached.map (front.size + ·))) := by
  induction fuel generalizing start reached with
  | zero => exact .pure _ reached
  | succ fuel ih =>
    rw [roundsFrom, roundsFrom]
    refine (h start hs).bind ?_
    intro answer hanswer
    rcases answer with _ | stop
    · exact .pure _ reached
    · by_cases hstop : stop = start
      · simp only [Option.map_some, hstop, if_true]
        cases reached with
        | nil => exact .pure _ [start]
        | cons next reached => exact .pure _ (next :: reached)
      · simp only [Option.map_some, hstop, Nat.add_left_cancel_iff, if_false]
        exact ih (bounds start hs stop hanswer) (stop :: reached)

theorem rounds_behind {round round' : Nat → Matching (Option Nat)}
    (h : ∀ start ≤ chars.size,
      Carries (Option.map (front.size + ·)) (round start) (round' (front.size + start)))
    (bounds : ∀ start ≤ chars.size, ∀ stop, (round start).fresh = .ok (some stop) → stop ≤ chars.size)
    {start : Nat} (hs : start ≤ chars.size) :
    Carries (List.map (front.size + ·)) (rounds chars round start)
      (rounds (front ++ chars) round' (front.size + start)) := by
  have left : (front ++ chars).size - (front.size + start) = chars.size - start := by
    rw [Array.size_append]
    omega
  rw [rounds, rounds, left]
  exact roundsFrom_behind h bounds _ hs []

/-- No branch that is nested in the stream starts with `^`, at any depth. -/
def Movable (tokens : List Token) : Prop := ∀ branch, Nested tokens branch → branch.head? ≠ some '^'

theorem Movable.tail {token : Token} {rest : List Token} (h : Movable (token :: rest)) : Movable rest := by
  intro branch hb
  cases hb with
  | direct member => exact h branch (.direct (List.mem_append_right _ member))
  | inner member parsed below => exact h branch (.inner (List.mem_append_right _ member) parsed below)

/-- A branch that moves is not anchored, and neither is what is nested in it. -/
theorem Movable.branch {tokens : List Token} (h : Movable tokens) {branch : Text}
    (hb : branch ∈ nestedBranches tokens) {pattern : Pattern} (hp : Pattern.parse branch = .ok pattern) :
    pattern.startAnchored = false ∧ Movable pattern.tokens := by
  refine ⟨?_, fun deeper hd => h deeper (.inner hb hp hd)⟩
  obtain ⟨kinds, -, rfl⟩ := Pattern.parse_eq_ok.mp hp
  simpa [Pattern.ofKinds] using h branch (.direct hb)

private theorem Movable.of_branches {tokens : List Token}
    (h : ∀ branch ∈ nestedBranches tokens, branch.head? ≠ some '^' ∧
      ∀ pattern, Pattern.parse branch = .ok pattern → Movable pattern.tokens) : Movable tokens := by
  intro branch hb
  cases hb with
  | direct member => exact (h branch member).1
  | inner member parsed below => exact (h _ member).2 _ parsed branch below

def RunnersMove (front chars : Line) (nested nested' : Runner) : Prop :=
  ∀ tokens, Movable tokens → ∀ start ≤ chars.size,
    Carries (Option.map (front.size + ·)) (nested tokens start) (nested' tokens (front.size + start))

private theorem branchEnds_behind (h : RunnersMove front chars nested nested') (lenient : Bool)
    {start : Nat} (hs : start ≤ chars.size) {branches : List Text}
    (movable : ∀ branch ∈ branches, ∀ pattern, Pattern.parse branch = .ok pattern →
      pattern.startAnchored = false ∧ Movable pattern.tokens) :
    Carries (List.map (front.size + ·)) (branchEnds nested lenient start branches)
      (branchEnds nested' lenient (front.size + start) branches) := by
  induction branches with
  | nil => exact .pure _ []
  | cons branch rest ih =>
    obtain ⟨hbranch, hrest⟩ := List.forall_mem_cons.mp movable
    have later := ih hrest
    rw [branchEnds, branchEnds]
    have same : Carries id (request branch) (request branch) := rfl
    refine same.bind ?_
    intro answer hanswer
    rcases answer with e | pattern
    · cases lenient
      · exact rfl
      · exact later
    · obtain ⟨free, inside⟩ := hbranch pattern (Except.ok.inj hanswer)
      simp only [id, free, Bool.false_and]
      refine (h pattern.tokens inside start hs).bind ?_
      intro answer _
      rcases answer with _ | stop
      · exact later
      · exact later.map fun stops => rfl

def Offer.move (distance : Nat) : Offer → Offer
  | .commit stop => .commit (stop.map (distance + ·))
  | .choose stops => .choose (stops.map (distance + ·))
  | .finish stop => .finish (stop.map (distance + ·))

private theorem groupEnds_behind (h : RunnersMove front chars nested nested') (hn : Follows chars nested)
    {branches : List Text} (suffix : Option Suffix) {start : Nat} (hs : start ≤ chars.size)
    (movable : ∀ branch ∈ branches, ∀ pattern, Pattern.parse branch = .ok pattern →
      pattern.startAnchored = false ∧ Movable pattern.tokens) :
    Carries (List.map (front.size + ·)) (groupEnds chars nested branches start suffix)
      (groupEnds (front ++ chars) nested' branches (front.size + start) suffix) := by
  rcases suffix with _ | _ | _
  · exact branchEnds_behind h false hs movable
  · refine rounds_behind (fun position hp => ?_) (fun position hp stop hstop => ?_) hs
    · exact (branchEnds_behind h false hp movable).map fun stops => List.head?_map
    · have first := (branchEnds_yields hn false hp branches).map List.head? _ hstop
      exact (advances_firstBranch branches position hp stop first.symm).2
  · exact (branchEnds_behind h true hs movable).map fun stops => by simp

/-- A token offers the same behind the text in front, moved. -/
private theorem offer_behind (h : RunnersMove front chars nested nested') (hn : Follows chars nested)
    {kind : TokenKind} {start : Nat} (hs : start ≤ chars.size)
    (movable : ∀ branch ∈ kind.branches, ∀ pattern, Pattern.parse branch = .ok pattern →
      pattern.startAnchored = false ∧ Movable pattern.tokens) :
    Carries (Offer.move front.size) (offer chars nested start kind)
      (offer (front ++ chars) nested' (front.size + start) kind) := by
  have committed {stop stop' : Option Nat} (heq : stop' = stop.map (front.size + ·)) :
      Carries (Offer.move front.size) (pure (.commit stop)) (pure (.commit stop')) := by
    rw [heq]
    exact .pure _ (Offer.commit stop)
  have optional {stop stop' : Option Nat} (heq : stop' = stop.map (front.size + ·)) :
      some (stop'.getD (front.size + start)) = (some (stop.getD start)).map (front.size + ·) := by
    rw [heq]
    cases stop <;> rfl
  have chosen {stops stops' : Matching (List Nat)} (hc : Carries (List.map (front.size + ·)) stops stops') :
      Carries (Offer.move front.size) (.choose <$> stops) (.choose <$> stops') :=
    hc.map fun stops => rfl
  have repeated {round round' : Nat → Option Nat} (hr : Advances chars round)
      (heq : ∀ position, round' (front.size + position) = (round position).map (front.size + ·)) :
      Carries (Offer.move front.size) (.choose <$> rounds chars (fun position => pure (round position)) start)
        (.choose <$> rounds (front ++ chars) (fun position => pure (round' position))
          (front.size + start)) := by
    refine chosen (rounds_behind (fun position hp => ?_) (fun position hp stop hstop => ?_) hs)
    · rw [heq]
      exact .pure _ (round position)
    · exact (hr position hp stop (Except.ok.inj hstop)).2
  cases kind with
  | literal text => exact committed (literalEnd_behind text start)
  | wildcard => exact committed (atomEnd_behind .any start)
  | digit => exact committed (atomEnd_behind .digit start)
  | word => exact committed (atomEnd_behind .word start)
  | set s => exact committed (atomEnd_behind (.set s) start)
  | wildcardPlus => exact repeated (advances_atomEnd .any) (atomEnd_behind .any)
  | quantified atom suffix =>
    cases suffix with
    | zeroOrOne => exact committed (optional (atomEnd_behind atom start))
    | oneOrMore => exact repeated (advances_atomEnd atom) (atomEnd_behind atom)
  | alternation texts suffix =>
    rcases suffix with _ | _ | _
    · exact committed (alternativeEnd_behind texts start)
    · exact repeated (advances_alternativeEnd texts) (alternativeEnd_behind texts)
    · exact committed (optional (alternativeEnd_behind texts start))
  | group body branches suffix => exact chosen (groupEnds_behind h hn suffix hs movable)
  | endAnchor =>
    simp only [offer, Array.size_append, Nat.add_left_cancel_iff]
    split
    · exact .pure _ (Offer.finish (some start))
    · exact .pure _ (Offer.finish none)

private theorem firstViable_behind {token : Token} {rest : List Token}
    (h : ∀ stop ≤ chars.size,
      Carries (Option.map (front.size + ·)) (nested rest stop) (nested' rest (front.size + stop)))
    {stops : List Nat} (hs : ∀ stop ∈ stops, stop ≤ chars.size) :
    Carries (Option.map (front.size + ·)) (firstViable chars nested token rest stops)
      (firstViable (front ++ chars) nested' token rest (stops.map (front.size + ·))) := by
  induction stops with
  | nil => exact .pure _ none
  | cons stop stops ih =>
    obtain ⟨hstop, hstops⟩ := List.forall_mem_cons.mp hs
    rw [List.map_cons, firstViable, firstViable, mayEnd_behind]
    split
    · refine (h stop hstop).bind ?_
      intro answer _
      rcases answer with _ | finish
      · exact ih hstops
      · exact .pure _ (some finish)
    · exact ih hstops

/-- A stream does the same behind the text in front, if what is nested in it does. -/
private theorem runTokens_behind (h : RunnersMove front chars nested nested') (hn : Follows chars nested)
    {tokens : List Token} (movable : Movable tokens) {start : Nat} (hs : start ≤ chars.size) :
    Carries (Option.map (front.size + ·)) (runTokens chars nested tokens start)
      (runTokens (front ++ chars) nested' tokens (front.size + start)) := by
  induction tokens generalizing start with
  | nil => exact .pure _ (some start)
  | cons token rest ih =>
    have own (branch : Text) (hb : branch ∈ token.kind.branches) (pattern : Pattern)
        (hp : Pattern.parse branch = .ok pattern) :
        pattern.startAnchored = false ∧ Movable pattern.tokens :=
      movable.branch (List.mem_append_left _ hb) hp
    rw [runTokens, runTokens]
    refine (offer_behind h hn hs own).bind ?_
    intro offered ho
    have bounds := bounds_of_offer hn hs ho
    rcases offered with (_ | stop) | stops | stop
    · exact .pure _ none
    · simp only [Offer.move, Option.map_some, mayEnd_behind]
      split
      · exact ih movable.tail (bounds stop (by simp [Offer.stops])).2
      · exact .pure _ none
    · exact firstViable_behind (h rest movable.tail) fun stop hstop => (bounds stop hstop).2
    · exact .pure _ stop

theorem runWithin_behind (limit budget : Nat) : RunnersMove front chars
    (runWithin chars limit budget) (runWithin (front ++ chars) limit budget) := by
  induction budget with
  | zero =>
    intro tokens movable start hs
    exact rfl
  | succ budget ih =>
    intro tokens movable start hs
    have hn : Follows chars (runWithin chars limit budget) := follows_runWithin limit budget
    have hs' : front.size + start ≤ (front ++ chars).size := by
      rw [Array.size_append]
      omega
    simp only [runWithin, if_neg (Nat.not_lt.mpr hs), if_neg (Nat.not_lt.mpr hs')]
    exact runTokens_behind ih hn movable hs

private theorem fresh_anyStart_behind {limit : Nat} {tokens : List Token} (movable : Movable tokens)
    {starts : List Nat} (hs : ∀ start ∈ starts, start ≤ chars.size) :
    (anyStart (front ++ chars) limit tokens (starts.map (front.size + ·))).fresh =
      (anyStart chars limit tokens starts).fresh := by
  induction starts with
  | nil => rfl
  | cons start starts ih =>
    obtain ⟨hstart, hstarts⟩ := List.forall_mem_cons.mp hs
    have here : (run (front ++ chars) limit tokens (front.size + start)).fresh =
        (run chars limit tokens start).fresh.map (Option.map (front.size + ·)) :=
      runWithin_behind limit limit tokens movable start hstart
    rw [List.map_cons, anyStart, anyStart, fresh_bind, fresh_bind, here]
    rcases (run chars limit tokens start).fresh with e | _ | stop
    · rfl
    · exact ih hstarts
    · rfl

/-- A search that is not anchored at the start tries the starts in front first, and then goes on as it does
without them. -/
theorem fresh_find_behind {limit : Nat} {pattern : Pattern} (free : pattern.startAnchored = false)
    (movable : Movable pattern.tokens) :
    (find (front ++ chars) limit pattern).fresh =
      match (anyStart (front ++ chars) limit pattern.tokens (List.range front.size)).fresh with
      | .ok false => (find chars limit pattern).fresh
      | answer => answer := by
  have starts : List.range ((front ++ chars).size + 1) =
      List.range front.size ++ (List.range (chars.size + 1)).map (front.size + ·) := by
    rw [Array.size_append, Nat.add_assoc, List.range_add]
  have behind : (anyStart (front ++ chars) limit pattern.tokens
      ((List.range (chars.size + 1)).map (front.size + ·))).fresh =
        (anyStart chars limit pattern.tokens (List.range (chars.size + 1))).fresh := by
    apply fresh_anyStart_behind movable
    intro start hstart
    exact Nat.lt_succ_iff.mp (List.mem_range.mp hstart)
  simp only [find, free, Bool.false_eq_true, if_false]
  rw [starts, ← behind]
  exact fresh_anyStart_append limit pattern.tokens _ _

/-- Behind a text in front a run does what it does without it, errors included, and its ends move by the
length of that text, if no nested branch starts with `^`. So a pattern that is not anchored at the start is
found behind any text where it is found without it, or the search fails at a start within that text. The
engines may have any history. -/
theorem matching_ignores_text_in_front :
    (∀ (limit budget : Nat) (tokens : List Token) (front text : Text) (start : Nat), Movable tokens →
      start ≤ text.length →
      (runWithin (front ++ text).toArray limit budget tokens (front.length + start)).fresh =
        (runWithin text.toArray limit budget tokens start).fresh.map (Option.map (front.length + ·))) ∧
    (∀ (engine other : Engine) (source front text : Text) (pattern : Pattern), engine.Reachable →
      other.Reachable → other.recursionLimit = engine.recursionLimit →
      Pattern.parse source = .ok pattern → pattern.startAnchored = false → Movable pattern.tokens →
      (engine.isMatch text source).1 = .ok true →
      (other.isMatch (front ++ text) source).1 = .ok true ∨
        ∃ start < front.length, ∃ e,
          (run (front ++ text).toArray other.recursionLimit pattern.tokens start).fresh = .error e ∧
          (other.isMatch (front ++ text) source).1 = .error e) := by
  refine ⟨?_, ?_⟩
  · intro limit budget tokens front text start movable hs
    rw [← List.append_toArray]
    exact runWithin_behind limit budget tokens movable start hs
  · intro engine other source front text pattern he ho same hp free movable found
    rw [he.isMatch_fst, fresh_isMatch hp] at found
    rw [ho.isMatch_fst, fresh_isMatch hp, ← List.append_toArray, fresh_find_behind free movable, same]
    rcases h : (anyStart (front.toArray ++ text.toArray) engine.recursionLimit pattern.tokens
      (List.range front.toArray.size)).fresh with e | _ | _
    · obtain ⟨start, hstart, hrun⟩ := anyStart_error h
      exact .inr ⟨start, List.mem_range.mp hstart, e, hrun, rfl⟩
    · exact .inl found
    · exact .inl rfl

/-- Behind `xa`, `(a|b+)+` takes all of `abb` to the end. `(a(+))?c` is found in `c` alone; behind `a` the
search fails at the start, where the inner group is reached and does not compile. -/
theorem repeated_group_moves_behind_text :
    (run #['x', 'a', 'a', 'b', 'b'] 256
      [{ kind := .group ['a', '|', 'b', '+'] [['a'], ['b', '+']] (some .oneOrMore) }] 2).fresh =
        .ok (some 5) ∧
    (Engine.isMatch { recursionLimit := 256 } ['c']
      ['(', 'a', '(', '+', ')', ')', '?', 'c']).1 = .ok true ∧
    ∃ start < 1, ∃ e,
      (run #['a', 'c'] 256
        [{ kind := .group ['a', '(', '+', ')'] [['a', '(', '+', ')']] (some .zeroOrOne) },
          { kind := .literal ['c'] }] start).fresh = .error e ∧
      (Engine.isMatch { recursionLimit := 256 } ['a', 'c']
        ['(', 'a', '(', '+', ')', ')', '?', 'c']).1 = .error e := by
  obtain ⟨runs, finds⟩ := matching_ignores_text_in_front
  have groupless {tokens : List Token} (h : nestedBranches tokens = []) : Movable tokens :=
    fun branch hb => absurd h hb.nestedBranches_ne_nil
  have repeated : Movable
      [{ kind := .group ['a', '|', 'b', '+'] [['a'], ['b', '+']] (some .oneOrMore) }] := by
    refine .of_branches (List.forall_mem_cons.mpr ⟨⟨by decide, ?_⟩,
      List.forall_mem_singleton.mpr ⟨by decide, ?_⟩⟩)
    · rintro pattern ⟨⟩
      exact groupless rfl
    · rintro pattern ⟨⟩
      exact groupless rfl
  have optional : Movable
      [{ kind := .group ['a', '(', '+', ')'] [['a', '(', '+', ')']] (some .zeroOrOne) },
        { kind := .literal ['c'] }] := by
    refine .of_branches (List.forall_mem_singleton.mpr ⟨by decide, ?_⟩)
    rintro pattern ⟨⟩
    refine .of_branches (List.forall_mem_singleton.mpr ⟨by decide, ?_⟩)
    rintro pattern ⟨⟩
  refine ⟨?_, rfl, ?_⟩
  · exact (runs 256 256 _ ['x', 'a'] ['a', 'b', 'b'] 0 repeated (by decide)).trans rfl
  · have found := finds { recursionLimit := 256 } { recursionLimit := 256 }
      ['(', 'a', '(', '+', ')', ')', '?', 'c'] ['a'] ['c'] _ (.new 256) (.new 256) rfl rfl rfl optional rfl
    exact found.resolve_left (by rintro ⟨⟩)

end Match

end LineSearch
