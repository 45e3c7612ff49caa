import Mathlib.Algebra.Order.BigOperators.Group.List
import Mathlib.Algebra.Order.Ring.Nat
import LineSearch.Proofs.Pattern.Assembly

/-! Branches are shorter than the pattern they are nested in, so that the meaning of a pattern text
can be defined from the meanings of its branches. -/
namespace LineSearch

def Lexeme.width : Lexeme → Nat
  | .atom _ => 1
  | .group body => body.length + 2
  | .suffix .. => 1

namespace TokenKind

def width : TokenKind → Nat
  | .literal text => text.length
  | .wildcard | .digit | .word | .set _ => 1
  | .wildcardPlus | .quantified .. | .alternation .. => 2
  | .group body .. => body.length + 2
  | .endAnchor => 0

/-- The branches of a group. Alternatives of an alternation are no patterns. -/
def branches : TokenKind → List Text
  | .group _ branches _ => branches
  | _ => []

end TokenKind

private theorem length_closed {rest body tail : Text} {stop : Char}
    (h : rest = body ++ stop :: tail) : body.length + 1 ≤ rest.length := by
  subst h
  simp only [List.length_append, List.length_cons]
  omega

theorem Lexeme.width_read (position : Nat) (c : Char) (rest : Text) :
    (Lexeme.read position c rest).1.width ≤ (Lexeme.read position c rest).2 + 1 ∧
      (Lexeme.read position c rest).2 ≤ rest.length := by
  cases c, rest using Lexeme.read.fun_cases <;> simp_all [Lexeme.read, Lexeme.width]
  case case5 body h =>
    obtain ⟨_, tail, hrest⟩ := Bracket.classBody?_eq_some h
    exact length_closed hrest
  case case7 body h =>
    obtain ⟨tail, hrest⟩ := Bracket.groupBody?_eq_append h
    exact length_closed hrest

private theorem width_scanFrom (position skip : Nat) (text : Text) :
    ((Lexeme.scanFrom position skip text).map Lexeme.width).sum ≤ text.length - skip := by
  induction text generalizing position skip with
  | nil => simp [Lexeme.scanFrom]
  | cons c rest ih =>
    cases skip with
    | succ skip => simpa [Lexeme.scanFrom] using ih (position + 1) skip
    | zero =>
      have hw := Lexeme.width_read position c rest
      have hi := ih (position + 1) (Lexeme.read position c rest).2
      simp only [Lexeme.scanFrom, List.map_cons, List.sum_cons, List.length_cons]
      omega

/-- Lexemes share no character. -/
private theorem Lexeme.width_scan (position : Nat) (text : Text) :
    ((scan position text).map width).sum ≤ text.length :=
  width_scanFrom position 0 text

namespace TokenKind

private theorem width_ofAtom (atom : Atom) : (ofAtom atom).width = 1 := by
  cases atom <;> rfl

private theorem width_ofRepeated (atom : Atom) (suffix : Suffix) : (ofRepeated atom suffix).width = 2 := by
  unfold ofRepeated
  split <;> rfl

private theorem width_ofGroup (body : Text) (suffix : Option Suffix) :
    (ofGroup body suffix).width ≤ body.length + 2 := by
  simp only [ofGroup]
  split <;> simp [width]

private theorem width_join (kind : TokenKind) (kinds : List TokenKind) :
    ((kind.join kinds).map width).sum = kind.width + (kinds.map width).sum := by
  unfold join
  split <;> simp [width, Nat.add_assoc]

/-- Tokens share no character. -/
private theorem Assembled.width_le {lexemes : List Lexeme} {kinds : List TokenKind}
    (h : Assembled lexemes kinds) : (kinds.map width).sum ≤ (lexemes.map Lexeme.width).sum := by
  induction h with
  | nil => simp
  | repeatedAtom atom suffix position next ih =>
    simp only [List.map_cons, List.sum_cons, width_ofRepeated, Lexeme.width]
    omega
  | repeatedGroup body suffix position next ih =>
    have := width_ofGroup body (some suffix)
    simp only [List.map_cons, List.sum_cons, Lexeme.width]
    omega
  | bareAtom atom bare next ih =>
    simp only [width_join, width_ofAtom, List.map_cons, List.sum_cons, Lexeme.width]
    omega
  | bareGroup body bare next ih =>
    have := width_ofGroup body none
    simp only [List.map_cons, List.sum_cons, Lexeme.width]
    omega

/-- The branches of a group come from its body. -/
private theorem Assembled.length_branch {lexemes : List Lexeme} {kinds : List TokenKind}
    (h : Assembled lexemes kinds) :
    ∀ kind ∈ kinds, ∀ branch ∈ kind.branches, branch.length + 2 ≤ kind.width := by
  refine h.forall ?_ ?_ ?_ ?_
  · intro atom _
    cases atom <;> simp [ofAtom, branches]
  · intro atom suffix _
    unfold ofRepeated
    split <;> simp [branches]
  · intro body suffix branch hb
    simp only [ofGroup] at hb ⊢
    split at hb
    · simp [branches] at hb
    · rename_i hplain
      rw [if_neg hplain]
      exact Nat.add_le_add_right (Bracket.length_le_of_mem_branches hb) 2
  · simp [branches]

end TokenKind

def nestedBranches (tokens : List Token) : List Text := tokens.flatMap fun token => token.kind.branches

theorem mem_nestedBranches {tokens : List Token} {branch : Text} :
    branch ∈ nestedBranches tokens ↔ ∃ kind ∈ tokens.map Token.kind, branch ∈ kind.branches := by
  simp [nestedBranches]

namespace Pattern
variable {source : Text} {pattern : Pattern}

theorem width_tokens_le (h : parse source = .ok pattern) :
    ((pattern.tokens.map Token.kind).map TokenKind.width).sum ≤ source.length := by
  obtain ⟨kinds, ha, rfl⟩ := parse_eq_ok.mp h
  rcases map_kind_ofKinds source kinds with hk | ⟨rfl, hk⟩
  · rw [hk]
    calc (kinds.map TokenKind.width).sum
        ≤ ((Lexeme.scan (offset source) (scanned source)).map Lexeme.width).sum := ha.width_le
      _ ≤ (scanned source).length := Lexeme.width_scan _ _
      _ ≤ source.length := length_scanned_le source
  · simp [hk, TokenKind.width]

theorem length_branch_add_two_le (h : parse source = .ok pattern) {kind : TokenKind}
    (hk : kind ∈ pattern.tokens.map Token.kind) {branch : Text} (hb : branch ∈ kind.branches) :
    branch.length + 2 ≤ kind.width := by
  obtain ⟨kinds, ha, rfl⟩ := parse_eq_ok.mp h
  rcases map_kind_ofKinds source kinds with he | ⟨rfl, he⟩
  · rw [he] at hk
    exact ha.length_branch kind hk branch hb
  · rw [he, List.mem_singleton] at hk
    subst hk
    simp [TokenKind.branches] at hb

/-- A branch is shorter than the pattern it is nested in, by its brackets at least. -/
theorem length_nested_lt (h : parse source = .ok pattern) {branch : Text}
    (hb : branch ∈ nestedBranches pattern.tokens) : branch.length < source.length := by
  obtain ⟨kind, hk, hkb⟩ := mem_nestedBranches.mp hb
  have hone := List.le_sum_of_mem (List.mem_map_of_mem (f := TokenKind.width) hk)
  have := length_branch_add_two_le h hk hkb
  have := width_tokens_le h
  omega

/-- Induction on the nesting of branches. -/
theorem nested_induction {P : Text → Prop}
    (failed : ∀ source e, parse source = .error e → P source)
    (compiled : ∀ source pattern, parse source = .ok pattern →
      (∀ branch ∈ nestedBranches pattern.tokens, P branch) → P source)
    (source : Text) : P source := by
  induction hlen : source.length using Nat.strong_induction_on generalizing source with
  | _ length ih =>
    subst hlen
    rcases hp : parse source with e | pattern
    · exact failed source e hp
    · exact compiled source pattern hp fun branch hb =>
        ih branch.length (length_nested_lt hp hb) branch rfl

/-- The value of a pattern text by recursion on nested branches: `value` gives the value of a
pattern from the values of texts, and `failed` is the value of a text that does not compile. Values
of longer texts are not asked for, since only shorter ones are nested in a pattern. -/
def interpret {α : Type} (failed : α) (value : (Text → α) → Pattern → α) (source : Text) : α :=
  match parse source with
  | .error _ => failed
  | .ok pattern =>
    value (fun branch => if branch.length < source.length then interpret failed value branch else failed)
      pattern
termination_by source.length

theorem interpret_of_error {α : Type} {failed : α} {value : (Text → α) → Pattern → α}
    {e : CompileError} (h : parse source = .error e) : interpret failed value source = failed := by
  rw [interpret, h]

/-- A value that depends on nested branches only is that of the pattern with its branches'
values. -/
theorem interpret_of_ok {α : Type} {failed : α} {value : (Text → α) → Pattern → α}
    (local_ : ∀ f g, (∀ branch ∈ nestedBranches pattern.tokens, f branch = g branch) →
      value f pattern = value g pattern)
    (h : parse source = .ok pattern) :
    interpret failed value source = value (interpret failed value) pattern := by
  rw [interpret, h]
  exact local_ _ _ fun branch hb => if_pos (length_nested_lt h hb)

end Pattern

end LineSearch
