import LineSearch.Match.Search
import LineSearch.Proofs.Pattern.Nesting

/-! Matching as an enumeration: the ordered list of all ends that a stream of tokens can have from a
position, free of errors, budgets and caches. -/
namespace LineSearch.Match
variable {chars : Line}

def occurrence (chars : Line) (text : Text) (start : Nat) : Option Nat :=
  if text <+: chars.toList.drop start then some (start + text.length) else none

def single (chars : Line) (atom : Atom) (start : Nat) : Option Nat :=
  if chars[start]?.any atom.accepts then some (start + 1) else none

def firstOccurrence (chars : Line) (texts : List Text) (start : Nat) : Option Nat :=
  texts.findSome? fun text => occurrence chars text start

/-- The positions reached by one, two, three, … successive rounds, longest first. The first round
that fails or does not go forward within the line is the last, and is not counted. -/
def laps (chars : Line) (round : Nat → Option Nat) (start : Nat) : List Nat :=
  match round start with
  | none => []
  | some stop => if start < stop ∧ stop ≤ chars.size then laps chars round stop ++ [stop] else []
termination_by chars.size - start

/-- The ends of one or more rounds. An empty first round is the only round. -/
def repetition (chars : Line) (round : Nat → Option Nat) (start : Nat) : List Nat :=
  if round start = some start then [start] else laps chars round start

def branchStops (branchEnd : Text → Nat → Option Nat) (branches : List Text) (start : Nat) :
    List Nat :=
  branches.filterMap fun branch => branchEnd branch start

/-- The ends of a token at the position, in the order of preference. Only repetitions and groups
have more than one. -/
def ends (chars : Line) (branchEnd : Text → Nat → Option Nat) : TokenKind → Nat → List Nat
  | .literal text, start => (occurrence chars text start).toList
  | .wildcard, start => (single chars .any start).toList
  | .digit, start => (single chars .digit start).toList
  | .word, start => (single chars .word start).toList
  | .set s, start => (single chars (.set s) start).toList
  | .wildcardPlus, start => repetition chars (single chars .any) start
  | .quantified atom .zeroOrOne, start => [(single chars atom start).getD start]
  | .quantified atom .oneOrMore, start => repetition chars (single chars atom) start
  | .alternation texts none, start => (firstOccurrence chars texts start).toList
  | .alternation texts (some .zeroOrOne), start => [(firstOccurrence chars texts start).getD start]
  | .alternation texts (some .oneOrMore), start =>
    repetition chars (firstOccurrence chars texts) start
  | .group _ branches none, start => branchStops branchEnd branches start
  | .group _ branches (some .zeroOrOne), start => branchStops branchEnd branches start ++ [start]
  | .group _ branches (some .oneOrMore), start =>
    repetition chars (fun position => (branchStops branchEnd branches position).head?) start
  | .endAnchor, start => if start = chars.size then [start] else []

/-- Does the stream end with the token, whatever stands behind it? -/
def concludes : TokenKind → Bool
  | .endAnchor => true
  | _ => false

/-- The ends of a stream at the position, in the order in which the search meets them. -/
def successes (chars : Line) (branchEnd : Text → Nat → Option Nat) : List Token → Nat → List Nat
  | [], start => [start]
  | token :: rest, start =>
    ((ends chars branchEnd token.kind start).filter (mayEnd chars token)).flatMap fun stop =>
      if concludes token.kind then [stop] else successes chars branchEnd rest stop

/-- The end of a branch at the position: the first of its stream's ends. A branch starting with `^`
has none elsewhere than at position 0, and a branch that does not compile has none at all. -/
def branchEnd (chars : Line) : Text → Nat → Option Nat :=
  Pattern.interpret (fun _ => none) fun nested pattern start =>
    if pattern.startAnchored ∧ start ≠ 0 then none
    else (successes chars nested pattern.tokens start).head?

section BranchStops
variable {f : Text → Nat → Option Nat} {branch : Text} {branches : List Text} {start : Nat}

theorem branchStops_cons_of_none (h : f branch start = none) :
    branchStops f (branch :: branches) start = branchStops f branches start :=
  List.filterMap_cons_none h

theorem branchStops_cons_of_some {stop : Nat} (h : f branch start = some stop) :
    branchStops f (branch :: branches) start = stop :: branchStops f branches start :=
  List.filterMap_cons_some h

end BranchStops

private theorem ends_congr {f g : Text → Nat → Option Nat} {kind : TokenKind}
    (h : ∀ branch ∈ kind.branches, f branch = g branch) : ends chars f kind = ends chars g kind := by
  cases kind with
  | group body branches suffix =>
    have hb : branchStops f branches = branchStops g branches := by
      funext start
      exact List.filterMap_congr fun branch hb => by rw [h branch hb]
    funext start
    rcases suffix with _ | _ | _ <;> simp only [ends, hb]
  | alternation texts suffix => rcases suffix with _ | _ | _ <;> rfl
  | quantified atom suffix => cases suffix <;> rfl
  | _ => rfl

private theorem successes_congr {f g : Text → Nat → Option Nat} {tokens : List Token}
    (h : ∀ branch ∈ nestedBranches tokens, f branch = g branch) :
    successes chars f tokens = successes chars g tokens := by
  induction tokens with
  | nil => rfl
  | cons token rest ih =>
    have hcons : nestedBranches (token :: rest) = token.kind.branches ++ nestedBranches rest := rfl
    rw [hcons] at h
    funext start
    rw [successes, successes, ends_congr fun branch hb => h branch (List.mem_append_left _ hb),
      ih fun branch hb => h branch (List.mem_append_right _ hb)]

theorem branchEnd_of_error {source : Text} {e : CompileError} (h : Pattern.parse source = .error e) :
    branchEnd chars source = fun _ => none :=
  Pattern.interpret_of_error h

/-- The end of a branch that compiles, in terms of the branches nested in it. -/
theorem branchEnd_of_ok {source : Text} {pattern : Pattern}
    (h : Pattern.parse source = .ok pattern) (start : Nat) :
    branchEnd chars source start =
      if pattern.startAnchored ∧ start ≠ 0 then none
      else (successes chars (branchEnd chars) pattern.tokens start).head? := by
  refine congrFun (Pattern.interpret_of_ok ?_ h) start
  intro f g hfg
  rw [successes_congr hfg]

def Advances (chars : Line) (round : Nat → Option Nat) : Prop :=
  ∀ start ≤ chars.size, ∀ stop, round start = some stop → start ≤ stop ∧ stop ≤ chars.size

private theorem advances_occurrence (text : Text) : Advances chars (occurrence chars text) := by
  intro start hs stop h
  unfold occurrence at h
  split at h
  · rename_i hp
    cases h
    have hl : chars.toList.length = chars.size := Array.length_toList
    have := hp.length_le
    rw [List.length_drop, hl] at this
    omega
  · cases h

theorem advances_single (atom : Atom) : Advances chars (single chars atom) := by
  intro start hs stop h
  unfold single at h
  split at h
  · rename_i hp
    cases h
    rcases hc : chars[start]? with _ | c
    · simp [hc] at hp
    · have := (Array.getElem?_eq_some_iff.mp hc).1
      omega
  · cases h

theorem advances_firstOccurrence (texts : List Text) :
    Advances chars (firstOccurrence chars texts) := by
  intro start hs stop h
  obtain ⟨text, _, ht⟩ := List.exists_of_findSome?_eq_some h
  exact advances_occurrence text start hs stop ht

/-- Rounds that go forward are repeated until one fails or is empty. -/
theorem laps_eq {round : Nat → Option Nat} (hr : Advances chars round) {start : Nat}
    (hs : start ≤ chars.size) :
    laps chars round start =
      match round start with
      | none => []
      | some stop => if stop = start then [] else laps chars round stop ++ [stop] := by
  rw [laps]
  rcases hround : round start with _ | stop
  · rfl
  · have hb := hr start hs stop hround
    by_cases hstop : stop = start
    · simp [hstop]
    · have hlt : start < stop ∧ stop ≤ chars.size := by omega
      simp [hstop, hlt]

private theorem laps_bounds {round : Nat → Option Nat} {start stop : Nat}
    (h : stop ∈ laps chars round start) : start ≤ stop ∧ stop ≤ chars.size := by
  induction start using laps.induct chars round with
  | case1 start hr => simp [laps, hr] at h
  | case2 start next hr hn ih =>
    rw [laps, hr] at h
    simp only [hn, and_self, if_true, List.mem_append, List.mem_singleton] at h
    rcases h with h | rfl
    · have := ih h
      omega
    · omega
  | case3 start next hr hn => simp [laps, hr, hn] at h

private theorem repetition_bounds {round : Nat → Option Nat} {start stop : Nat} (hs : start ≤ chars.size)
    (h : stop ∈ repetition chars round start) : start ≤ stop ∧ stop ≤ chars.size := by
  unfold repetition at h
  split at h
  · cases List.mem_singleton.mp h
    exact ⟨Nat.le_refl _, hs⟩
  · exact laps_bounds h

/-- Ends lie between the token's cursor and the end of the line, if branch ends do. -/
theorem ends_bounds {nested : Text → Nat → Option Nat} {kind : TokenKind}
    (hn : ∀ branch ∈ kind.branches, Advances chars (nested branch)) {start stop : Nat}
    (hs : start ≤ chars.size) (h : stop ∈ ends chars nested kind start) :
    start ≤ stop ∧ stop ≤ chars.size := by
  have optional {round : Nat → Option Nat} (hr : Advances chars round)
      (hstop : stop = (round start).getD start) : start ≤ stop ∧ stop ≤ chars.size := by
    subst hstop
    rcases hround : round start with _ | next
    · exact ⟨Nat.le_refl _, hs⟩
    · exact hr start hs next hround
  cases kind with
  | literal text => exact advances_occurrence text start hs stop (Option.mem_toList.mp h)
  | wildcard => exact advances_single _ start hs stop (Option.mem_toList.mp h)
  | digit => exact advances_single _ start hs stop (Option.mem_toList.mp h)
  | word => exact advances_single _ start hs stop (Option.mem_toList.mp h)
  | set s => exact advances_single _ start hs stop (Option.mem_toList.mp h)
  | wildcardPlus => exact repetition_bounds hs h
  | quantified atom suffix =>
    cases suffix with
    | zeroOrOne => exact optional (advances_single atom) (List.mem_singleton.mp h)
    | oneOrMore => exact repetition_bounds hs h
  | alternation texts suffix =>
    rcases suffix with _ | _ | _
    · exact advances_firstOccurrence texts start hs stop (Option.mem_toList.mp h)
    · exact repetition_bounds hs h
    · exact optional (advances_firstOccurrence texts) (List.mem_singleton.mp h)
  | group body branches suffix =>
    have hstops (h : stop ∈ branchStops nested branches start) :
        start ≤ stop ∧ stop ≤ chars.size := by
      obtain ⟨branch, hb, hstop⟩ := List.mem_filterMap.mp h
      exact hn branch hb start hs stop hstop
    rcases suffix with _ | _ | _
    · exact hstops h
    · rw [ends] at h
      exact repetition_bounds hs h
    · rcases List.mem_append.mp h with h | h
      · exact hstops h
      · cases List.mem_singleton.mp h
        exact ⟨Nat.le_refl _, hs⟩
  | endAnchor =>
    simp only [ends] at h
    split at h
    · cases List.mem_singleton.mp h
      exact ⟨Nat.le_refl _, hs⟩
    · cases h

theorem successes_bounds {nested : Text → Nat → Option Nat} {tokens : List Token}
    (hn : ∀ branch ∈ nestedBranches tokens, Advances chars (nested branch)) {start stop : Nat}
    (hs : start ≤ chars.size) (h : stop ∈ successes chars nested tokens start) :
    start ≤ stop ∧ stop ≤ chars.size := by
  induction tokens generalizing start with
  | nil =>
    cases List.mem_singleton.mp h
    exact ⟨Nat.le_refl _, hs⟩
  | cons token rest ih =>
    obtain ⟨middle, hm, hstop⟩ := List.mem_flatMap.mp h
    have first := ends_bounds (fun branch hb => hn branch (List.mem_append_left _ hb)) hs
      (List.mem_filter.mp hm).1
    split at hstop
    · rwa [List.mem_singleton.mp hstop]
    · have second := ih (fun branch hb => hn branch (List.mem_append_right _ hb)) first.2 hstop
      omega

/-- Branches end between their start and the end of the line, at every depth of nesting. -/
theorem advances_branchEnd (source : Text) : Advances chars (branchEnd chars source) := by
  induction source using Pattern.nested_induction with
  | failed source e hp =>
    intro start hs stop h
    rw [branchEnd_of_error hp] at h
    cases h
  | compiled source pattern hp ih =>
    intro start hs stop h
    rw [branchEnd_of_ok hp] at h
    split at h
    · cases h
    · exact successes_bounds ih hs (List.mem_of_head? h)

theorem bounds_of_mem_ends {kind : TokenKind} {start stop : Nat} (hs : start ≤ chars.size)
    (h : stop ∈ ends chars (branchEnd chars) kind start) : start ≤ stop ∧ stop ≤ chars.size :=
  ends_bounds (fun branch _ => advances_branchEnd branch) hs h

theorem bounds_of_mem_successes {tokens : List Token} {start stop : Nat} (hs : start ≤ chars.size)
    (h : stop ∈ successes chars (branchEnd chars) tokens start) :
    start ≤ stop ∧ stop ≤ chars.size :=
  successes_bounds (fun branch _ => advances_branchEnd branch) hs h

theorem advances_firstBranch (branches : List Text) :
    Advances chars fun position => (branchStops (branchEnd chars) branches position).head? := by
  intro start hs stop h
  obtain ⟨branch, _, hstop⟩ := List.mem_filterMap.mp (List.mem_of_head? h)
  exact advances_branchEnd branch start hs stop hstop

end LineSearch.Match
