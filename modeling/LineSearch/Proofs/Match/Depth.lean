import Mathlib.Data.List.MinMax
import Mathlib.Order.Nat
import LineSearch.Proofs.Match.Failure

/-! How deep attempts nest. The only errors of a run are a limit below the need of its stream and a
nested branch that does not compile. -/
namespace LineSearch.Match
open Matching
variable {chars : Line}

/-- How many attempts have to be allowed in one another to match a stream, from the needs of the
branches nested in it. A token that chooses takes one more than what it leads to. -/
def need (branchNeed : Text → Nat) : List Token → Nat
  | [] => 1
  | token :: rest =>
    if chooses token.kind then
      1 + max (need branchNeed rest) ((token.kind.branches.map branchNeed).foldr max 0)
    else need branchNeed rest

def branchNeed : Text → Nat := Pattern.interpret 0 fun nested pattern => need nested pattern.tokens

private theorem need_congr {f g : Text → Nat} {tokens : List Token}
    (h : ∀ branch ∈ nestedBranches tokens, f branch = g branch) : need f tokens = need g tokens := by
  induction tokens with
  | nil => rfl
  | cons token rest ih =>
    have hcons : nestedBranches (token :: rest) = token.kind.branches ++ nestedBranches rest := rfl
    rw [hcons] at h
    have hb : token.kind.branches.map f = token.kind.branches.map g :=
      List.map_congr_left fun branch hb => h branch (List.mem_append_left _ hb)
    rw [need, need, hb, ih fun branch hb => h branch (List.mem_append_right _ hb)]

theorem branchNeed_of_ok {source : Text} {pattern : Pattern}
    (h : Pattern.parse source = .ok pattern) :
    branchNeed source = need branchNeed pattern.tokens :=
  Pattern.interpret_of_ok (fun _ _ => need_congr) h

private theorem need_pos (f : Text → Nat) (tokens : List Token) : 0 < need f tokens := by
  induction tokens with
  | nil => exact Nat.one_pos
  | cons token rest ih =>
    rw [need]
    split <;> omega

private theorem need_le_append (f : Text → Nat) (front rest : List Token) :
    need f rest ≤ need f (front ++ rest) := by
  induction front with
  | nil => exact Nat.le_refl _
  | cons token front ih =>
    rw [List.cons_append, need]
    split <;> omega

/-- What stands behind a token that chooses needs less than the whole stream. -/
private theorem need_rest_lt {f : Text → Nat} {front rest : List Token} {token : Token}
    (h : chooses token.kind) : need f rest < need f (front ++ token :: rest) := by
  have hr : need f rest < need f (token :: rest) := by
    rw [need, if_pos h]
    omega
  exact Nat.lt_of_lt_of_le hr (need_le_append f front _)

/-- A branch needs less than the stream its group stands in. -/
private theorem need_branch_lt {f : Text → Nat} {tokens : List Token} {token : Token} {branch : Text}
    (ht : token ∈ tokens) (hc : chooses token.kind) (hb : branch ∈ token.kind.branches) :
    f branch < need f tokens := by
  obtain ⟨front, rest, rfl⟩ := List.append_of_mem ht
  have hm : f branch ≤ (token.kind.branches.map f).foldr max 0 :=
    List.le_max_of_le' 0 (List.mem_map_of_mem hb) (Nat.le_refl _)
  have hr : f branch < need f (token :: rest) := by
    rw [need, if_pos hc]
    omega
  exact Nat.lt_of_lt_of_le hr (need_le_append f front _)

private theorem two_le_width {kind : TokenKind} (h : chooses kind) : 2 ≤ kind.width := by
  cases kind with
  | group body branches suffix => exact Nat.le_add_left 2 _
  | wildcardPlus => exact Nat.le_refl 2
  | quantified atom suffix => exact Nat.le_refl 2
  | alternation texts suffix => exact Nat.le_refl 2
  | _ => cases h

/-- Two characters pay for one level: those of a repetition, or the brackets of a group. -/
theorem need_le_of_width {f : Text → Nat} {tokens : List Token}
    (h : ∀ kind ∈ tokens.map Token.kind, ∀ branch ∈ kind.branches,
      f branch ≤ 1 + branch.length / 2 ∧ branch.length + 2 ≤ kind.width) :
    need f tokens ≤ 1 + ((tokens.map Token.kind).map TokenKind.width).sum / 2 := by
  induction tokens with
  | nil => exact Nat.le_refl 1
  | cons token rest ih =>
    obtain ⟨hhere, hrest⟩ := List.forall_mem_cons.mp h
    have hi := ih hrest
    rw [need, List.map_cons, List.map_cons, List.sum_cons]
    split
    · rename_i hc
      have hw := two_le_width hc
      have hm : (token.kind.branches.map f).foldr max 0 ≤ token.kind.width / 2 := by
        apply List.max_le_of_forall_le (token.kind.branches.map f)
        intro x hx
        obtain ⟨branch, hb, rfl⟩ := List.mem_map.mp hx
        have := hhere branch hb
        omega
      omega
    · omega

/-- A pattern needs no more than one level for two of its characters, and one. -/
theorem branchNeed_le (source : Text) : branchNeed source ≤ 1 + source.length / 2 := by
  induction source using Pattern.nested_induction with
  | failed source e hp =>
    rw [branchNeed, Pattern.interpret_of_error hp]
    omega
  | compiled source pattern hp ih =>
    have hw := Pattern.width_tokens_le hp
    have hn : need branchNeed pattern.tokens ≤ _ := need_le_of_width fun kind hk branch hb =>
      ⟨ih branch (mem_nestedBranches.mpr ⟨kind, hk, hb⟩), Pattern.length_branch_add_two_le hp hk hb⟩
    rw [branchNeed_of_ok hp]
    omega

/-- The branches that matching a stream may reach, at every depth of nesting. -/
inductive Nested : List Token → Text → Prop where
  | direct {tokens : List Token} {branch : Text} (member : branch ∈ nestedBranches tokens) :
    Nested tokens branch
  | inner {tokens : List Token} {branch deeper : Text} {pattern : Pattern}
    (member : branch ∈ nestedBranches tokens) (parsed : Pattern.parse branch = .ok pattern)
    (below : Nested pattern.tokens deeper) : Nested tokens deeper

theorem Nested.nestedBranches_ne_nil {tokens : List Token} {branch : Text} (h : Nested tokens branch) :
    nestedBranches tokens ≠ [] := by
  cases h with
  | direct member | inner member => exact List.ne_nil_of_mem member

/-- The branch is one of a group with the suffix `own`, which stands in groups with the suffixes
`around`, the outermost first. -/
inductive Enclosed : List Token → List (Option Suffix) → Option Suffix → Text → Prop where
  | direct {tokens : List Token} {token : Token} {body : Text} {branches : List Text}
    {own : Option Suffix} {branch : Text} (member : token ∈ tokens)
    (kind : token.kind = .group body branches own) (inside : branch ∈ branches) :
    Enclosed tokens [] own branch
  | inner {tokens : List Token} {token : Token} {body : Text} {branches : List Text}
    {suffix own : Option Suffix} {around : List (Option Suffix)} {outer branch : Text}
    {pattern : Pattern} (member : token ∈ tokens) (kind : token.kind = .group body branches suffix)
    (inside : outer ∈ branches) (parsed : Pattern.parse outer = .ok pattern)
    (below : Enclosed pattern.tokens around own branch) :
    Enclosed tokens (suffix :: around) own branch

private theorem mem_nestedBranches_of_group {tokens : List Token} {token : Token} {body : Text}
    {branches : List Text} {suffix : Option Suffix} (ht : token ∈ tokens)
    (hk : token.kind = .group body branches suffix) {branch : Text} (hb : branch ∈ branches) :
    branch ∈ nestedBranches tokens := by
  refine List.mem_flatMap.mpr ⟨token, ht, ?_⟩
  rw [hk]
  exact hb

theorem Enclosed.nested {tokens : List Token} {around : List (Option Suffix)} {own : Option Suffix}
    {branch : Text} (h : Enclosed tokens around own branch) : Nested tokens branch := by
  induction h with
  | direct member kind inside => exact .direct (mem_nestedBranches_of_group member kind inside)
  | inner member kind inside parsed below ih =>
    exact .inner (mem_nestedBranches_of_group member kind inside) parsed ih

private theorem Enclosed.append {rest : List Token} {around : List (Option Suffix)} {own : Option Suffix}
    {branch : Text} (h : Enclosed rest around own branch) (front : List Token) :
    Enclosed (front ++ rest) around own branch := by
  cases h with
  | direct member kind inside => exact .direct (List.mem_append_right _ member) kind inside
  | inner member kind inside parsed below =>
    exact .inner (List.mem_append_right _ member) kind inside parsed below

/-- A run within the line fails for lack of budget, or for a nested branch that does not compile and
whose own group is not optional. Its cursor never leaves the line. -/
theorem runWithin_error {limit budget : Nat} {tokens : List Token} {start : Nat} {e : MatchError}
    (hs : start ≤ chars.size) (h : (runWithin chars limit budget tokens start).fresh = .error e) :
    (e = .depthExceeded limit ∧ budget < need branchNeed tokens) ∨
      ∃ around own branch error, Enclosed tokens around own branch ∧ own ≠ some .zeroOrOne ∧
        Pattern.parse branch = .error error ∧ e = .compile error := by
  -- Each nested attempt has one less to spend, and a stream that needs less.
  induction budget generalizing tokens start with
  | zero =>
    cases h
    exact .inl ⟨rfl, need_pos _ _⟩
  | succ budget ih =>
    simp only [runWithin, if_neg (Nat.not_lt.mpr hs)] at h
    have hn : Follows chars (runWithin chars limit budget) := follows_runWithin limit budget
    cases runTokens_error hn hs h with
    | @rest front token rest stop split choice within fails =>
      subst split
      rcases ih within fails with ⟨he, hb⟩ | ⟨around, own, branch, error, henclosed, hown, hparse, he⟩
      · have : need branchNeed rest < need branchNeed (front ++ token :: rest) :=
          need_rest_lt choice
        exact .inl ⟨he, by omega⟩
      · have hall := (henclosed.append [token]).append front
        exact .inr ⟨around, own, branch, error, hall, hown, hparse, he⟩
    | @group token body branches suffix position member kind within fails =>
      cases fails with
      | @uncompiled branch error inside parsed strict eq =>
        have hown : suffix ≠ some .zeroOrOne := by simpa using strict
        exact .inr ⟨[], suffix, branch, error, .direct member kind inside, hown, parsed, eq⟩
      | @nested branch pattern inside parsed fails =>
        rcases ih within fails with
          ⟨he, hb⟩ | ⟨around, own, deeper, error, henclosed, hown, hparse, he⟩
        · have hbranches : branch ∈ token.kind.branches := by
            rw [kind]
            exact inside
          have hlt : branchNeed branch < need branchNeed tokens :=
            need_branch_lt member (by rw [kind]; rfl) hbranches
          rw [branchNeed_of_ok parsed] at hlt
          exact .inl ⟨he, by omega⟩
        · have hall : Enclosed tokens (suffix :: around) own deeper :=
            .inner member kind inside parsed henclosed
          exact .inr ⟨suffix :: around, own, deeper, error, hall, hown, hparse, he⟩

/-- How an attempt on a stream can end: with an answer of the given kind, with a budget below its
need, or at a nested branch that does not compile. -/
inductive Outcome {α : Type} (limit budget : Nat) (tokens : List Token) (answer : α → Prop) :
    Except MatchError α → Prop where
  | answered {a : α} (right : answer a) : Outcome limit budget tokens answer (.ok a)
  | exhausted (below : budget < need branchNeed tokens) :
    Outcome limit budget tokens answer (.error (.depthExceeded limit))
  | uncompiled {branch : Text} {error : CompileError} (reached : Nested tokens branch)
    (parsed : Pattern.parse branch = .error error) :
    Outcome limit budget tokens answer (.error (.compile error))

/-- An attempt that may go deep enough, on a stream whose branches all compile, answers. -/
theorem Outcome.answers {α : Type} {limit budget : Nat} {tokens : List Token} {answer : α → Prop}
    {result : Except MatchError α} (h : Outcome limit budget tokens answer result)
    (deep : need branchNeed tokens ≤ budget)
    (compiles : ∀ branch, Nested tokens branch → ∃ pattern, Pattern.parse branch = .ok pattern) :
    ∃ a, result = .ok a ∧ answer a := by
  cases h with
  | answered right => exact ⟨_, rfl, right⟩
  | exhausted below => omega
  | uncompiled reached parsed =>
    obtain ⟨pattern, hp⟩ := compiles _ reached
    rw [parsed] at hp
    cases hp

/-- A run from within the line answers the first of the enumerated ends. -/
theorem runWithin_outcome (limit budget : Nat) (tokens : List Token) {start : Nat}
    (hs : start ≤ chars.size) :
    Outcome limit budget tokens (· = (successes chars (branchEnd chars) tokens start).head?)
      (runWithin chars limit budget tokens start).fresh := by
  rcases h : (runWithin chars limit budget tokens start).fresh with e | answer
  · rcases runWithin_error hs h with ⟨rfl, hb⟩ | ⟨around, own, branch, error, hn, -, hp, rfl⟩
    · exact .exhausted hb
    · exact .uncompiled hn.nested hp
  · exact .answered (runWithin_yields limit budget tokens start answer h)

/-- Starts are tried one after the other, so the first error ends the search. -/
theorem anyStart_outcome (limit : Nat) (tokens : List Token) (starts : List Nat)
    (hs : ∀ start ∈ starts, start ≤ chars.size) :
    Outcome limit limit tokens
      (fun found => found = true ↔
        ∃ start ∈ starts, successes chars (branchEnd chars) tokens start ≠ [])
      (anyStart chars limit tokens starts).fresh := by
  induction starts with
  | nil => exact .answered (by simp)
  | cons start starts ih =>
    obtain ⟨hstart, hrest⟩ := List.forall_mem_cons.mp hs
    have first : Outcome limit limit tokens _ (run chars limit tokens start).fresh :=
      runWithin_outcome limit limit tokens hstart
    rw [anyStart, fresh_bind]
    generalize (run chars limit tokens start).fresh = result at first ⊢
    cases first with
    | exhausted below => exact .exhausted below
    | uncompiled reached parsed => exact .uncompiled reached parsed
    | @answered answer right =>
      subst right
      rcases hl : successes chars (branchEnd chars) tokens start with _ | ⟨finish, others⟩
      · simpa [hl] using ih hrest
      · exact .answered (by simp [hl])

/-- Later starts are tried where the first ones find nothing. -/
theorem fresh_anyStart_append (limit : Nat) (tokens : List Token) (starts later : List Nat) :
    (anyStart chars limit tokens (starts ++ later)).fresh =
      match (anyStart chars limit tokens starts).fresh with
      | .ok false => (anyStart chars limit tokens later).fresh
      | answer => answer := by
  induction starts with
  | nil => rfl
  | cons start starts ih =>
    simp only [List.cons_append, anyStart, fresh_bind]
    rcases (run chars limit tokens start).fresh with e | _ | finish
    · rfl
    · exact ih
    · rfl

theorem anyStart_error {limit : Nat} {tokens : List Token} {starts : List Nat} {e : MatchError}
    (h : (anyStart chars limit tokens starts).fresh = .error e) :
    ∃ start ∈ starts, (run chars limit tokens start).fresh = .error e := by
  induction starts with
  | nil => cases h
  | cons start starts ih =>
    rw [anyStart] at h
    rcases fresh_bind_eq_error.mp h with h | ⟨finish, _, h⟩
    · exact ⟨start, .head _, h⟩
    · rcases finish with _ | finish
      · obtain ⟨position, hp, he⟩ := ih h
        exact ⟨position, .tail _ hp, he⟩
      · cases h

/-- The error of a search is that of a run from within the line. -/
theorem find_error {limit : Nat} {pattern : Pattern} {e : MatchError}
    (h : (find chars limit pattern).fresh = .error e) :
    ∃ start ≤ chars.size, (runWithin chars limit limit pattern.tokens start).fresh = .error e := by
  obtain ⟨start, hs, he⟩ := anyStart_error h
  refine ⟨start, ?_, he⟩
  split at hs
  · rw [List.mem_singleton.mp hs]
    exact Nat.zero_le _
  · exact Nat.lt_succ_iff.mp (List.mem_range.mp hs)

/-- A pattern is found where its stream has an end from a start that the anchor allows. -/
theorem find_outcome (limit : Nat) (pattern : Pattern) :
    Outcome limit limit pattern.tokens
      (fun found => found = true ↔
        ∃ start ≤ chars.size, (pattern.startAnchored = true → start = 0) ∧
          successes chars (branchEnd chars) pattern.tokens start ≠ [])
      (find chars limit pattern).fresh := by
  unfold find
  split
  · rename_i ha
    simpa [ha] using anyStart_outcome limit pattern.tokens [0] (by simp)
  · rename_i ha
    simpa [ha, Nat.lt_succ_iff] using
      anyStart_outcome limit pattern.tokens (List.range (chars.size + 1))
        fun start hs => Nat.lt_succ_iff.mp (List.mem_range.mp hs)

end LineSearch.Match
