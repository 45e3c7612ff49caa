import Mathlib.Data.List.Chain
import LineSearch.Proofs.Pattern.Anchoring

/-! The form of compiled streams: each kind of token with what its text can hold, literals apart from one
another, and anchors at the end only. -/
namespace LineSearch

/-- The members can stand between brackets and mean themselves. -/
def CharSet.Normal (set : CharSet) : Prop :=
  ']' ∉ set.members ∧ (set.negated = false → set.members.head? ≠ some '^')

def Atom.Normal : Atom → Prop
  | .set s => s.Normal
  | _ => True

def Verbal (text : Text) : Prop := ∀ c ∈ text, c ∉ [' ', '?', '+', '(', ')']

namespace TokenKind

def isLiteral : TokenKind → Bool
  | .literal _ => true
  | _ => false

/-- What holds of a token by itself. A repeated wildcard is no quantified atom, and a group with plain
branches only is an alternation, unless it has but one. No suffix stands for once. -/
def Normal : TokenKind → Prop
  | .literal text => text ≠ []
  | .set s => s.Normal
  | .quantified atom suffix => atom.Normal ∧ ¬(atom = .any ∧ suffix = .oneOrMore)
  | .alternation texts _ => 2 ≤ texts.length ∧ ∀ text ∈ texts, Verbal text
  | .group body branches _ =>
    branches = Bracket.branches body ∧ ¬(2 ≤ branches.length ∧ ∀ branch ∈ branches, Verbal branch)
  | _ => True

end TokenKind

structure NormalStream (tokens : List Token) : Prop where
  kinds : ∀ token ∈ tokens, token.kind.Normal
  apart : tokens.IsChain fun token next => ¬(token.kind.isLiteral ∧ next.kind.isLiteral)
  anchors : ∀ token ∈ tokens.dropLast, token.endAnchor = false
  bare : ∀ token ∈ tokens, token.kind = .endAnchor → tokens = [token]

section Decidable

instance (set : CharSet) : Decidable set.Normal :=
  inferInstanceAs (Decidable (']' ∉ set.members ∧ (set.negated = false → set.members.head? ≠ some '^')))

instance (atom : Atom) : Decidable atom.Normal :=
  match atom with
  | .set s => inferInstanceAs (Decidable s.Normal)
  | .char _ | .any | .digit | .word => isTrue trivial

instance (text : Text) : Decidable (Verbal text) :=
  inferInstanceAs (Decidable (∀ c ∈ text, c ∉ [' ', '?', '+', '(', ')']))

instance (kind : TokenKind) : Decidable kind.Normal :=
  match kind with
  | .literal text => inferInstanceAs (Decidable (text ≠ []))
  | .set s => inferInstanceAs (Decidable s.Normal)
  | .quantified atom suffix =>
    inferInstanceAs (Decidable (atom.Normal ∧ ¬(atom = .any ∧ suffix = .oneOrMore)))
  | .alternation texts _ => inferInstanceAs (Decidable (2 ≤ texts.length ∧ ∀ text ∈ texts, Verbal text))
  | .group body branches _ =>
    inferInstanceAs (Decidable (branches = Bracket.branches body ∧
      ¬(2 ≤ branches.length ∧ ∀ branch ∈ branches, Verbal branch)))
  | .wildcard | .wildcardPlus | .digit | .word | .endAnchor => isTrue trivial

instance (tokens : List Token) : Decidable (NormalStream tokens) :=
  decidable_of_iff
    ((∀ token ∈ tokens, token.kind.Normal) ∧
      (tokens.IsChain fun token next => ¬(token.kind.isLiteral ∧ next.kind.isLiteral)) ∧
      (∀ token ∈ tokens.dropLast, token.endAnchor = false) ∧
      ∀ token ∈ tokens, token.kind = .endAnchor → tokens = [token])
    ⟨fun ⟨kinds, apart, anchors, bare⟩ => ⟨kinds, apart, anchors, bare⟩,
      fun h => ⟨h.kinds, h.apart, h.anchors, h.bare⟩⟩

end Decidable

private theorem isPlainAlternative_iff {text : Text} : isPlainAlternative text = true ↔ Verbal text := by
  simp [isPlainAlternative, Verbal, and_assoc]

private theorem CharSet.normal_ofBody {body : Text} (h : ']' ∉ body) : (CharSet.ofBody body).Normal := by
  unfold ofBody
  split
  · exact ⟨fun hmem => h (.tail _ hmem), by simp⟩
  · rename_i hcaret
    refine ⟨h, fun _ hhead => ?_⟩
    obtain ⟨rest, rfl⟩ := List.head?_eq_some_iff.mp hhead
    exact hcaret rest rfl

/-- The atoms that a text is read as are in form. -/
private theorem Lexeme.normal_of_mem_scanFrom {position skip : Nat} {text : Text} {atom : Atom}
    (h : .atom atom ∈ scanFrom position skip text) : atom.Normal := by
  induction text generalizing position skip with
  | nil => simp [scanFrom] at h
  | cons c rest ih =>
    cases skip with
    | succ skip => exact ih h
    | zero =>
      rcases List.mem_cons.mp h with hread | hrest
      · have legible := legible_read position c rest
        rw [← hread] at legible
        cases legible with
        | set closed => exact CharSet.normal_ofBody closed
        | _ => trivial
      · exact ih hrest

namespace TokenKind

private theorem normal_ofAtom {atom : Atom} (h : atom.Normal) : (ofAtom atom).Normal := by
  cases atom with
  | set s => exact h
  | char c => exact List.cons_ne_nil c []
  | _ => trivial

private theorem normal_ofRepeated {atom : Atom} (h : atom.Normal) (suffix : Suffix) :
    (ofRepeated atom suffix).Normal := by
  unfold ofRepeated
  split
  · trivial
  · rename_i hany
    exact ⟨h, fun ⟨hatom, hsuffix⟩ => hany hatom hsuffix⟩

theorem normal_ofGroup (body : Text) (suffix : Option Suffix) : (ofGroup body suffix).Normal := by
  have plain : ((Bracket.branches body).length > 1 &&
      (Bracket.branches body).all isPlainAlternative) = true ↔
      2 ≤ (Bracket.branches body).length ∧ ∀ branch ∈ Bracket.branches body, Verbal branch := by
    simp only [Bool.and_eq_true, decide_eq_true_eq, List.all_eq_true, isPlainAlternative_iff]
    rfl
  simp only [ofGroup]
  split
  · rename_i hplain
    exact plain.mp hplain
  · rename_i hplain
    exact ⟨rfl, fun h => hplain (plain.mpr h)⟩

/-- Tokens are in form if the atoms are that they come from. -/
theorem Assembled.normal {lexemes : List Lexeme} {kinds : List TokenKind} (h : Assembled lexemes kinds)
    (atoms : ∀ atom, .atom atom ∈ lexemes → atom.Normal) : ∀ kind ∈ kinds, kind.Normal := by
  refine h.forall ?_ ?_ normal_ofGroup ?_
  · exact fun atom hatom => normal_ofAtom (atoms atom hatom)
  · exact fun atom suffix hatom => normal_ofRepeated (atoms atom hatom) suffix
  · exact fun text more htext _ hnil => htext (List.append_eq_nil_iff.mp hnil).1

/-- Literals that meet are joined, so that none are left next to one another. -/
theorem Assembled.isChain {lexemes : List Lexeme} {kinds : List TokenKind} (h : Assembled lexemes kinds) :
    kinds.IsChain fun kind next => ¬(kind.isLiteral ∧ next.isLiteral) := by
  have behind {kind : TokenKind} {kinds : List TokenKind} (hkind : kind.isLiteral = false)
      (hkinds : kinds.IsChain fun kind next => ¬(kind.isLiteral ∧ next.isLiteral)) :
      (kind :: kinds).IsChain fun kind next => ¬(kind.isLiteral ∧ next.isLiteral) :=
    List.isChain_cons.mpr ⟨fun next _ => by simp [hkind], hkinds⟩
  induction h with
  | nil => exact .nil
  | repeatedAtom atom suffix position next ih =>
    refine behind ?_ ih
    unfold ofRepeated
    split <;> rfl
  | repeatedGroup body suffix position next ih =>
    refine behind ?_ ih
    simp only [ofGroup]
    split <;> rfl
  | bareAtom atom bare next ih =>
    unfold join
    split
    · rw [List.isChain_cons] at ih ⊢
      exact ih
    · rename_i rest hmeet
      refine List.isChain_cons.mpr ⟨fun first hfirst => ?_, ih⟩
      rintro ⟨hatom, hliteral⟩
      obtain ⟨rest, rfl⟩ := List.head?_eq_some_iff.mp hfirst
      cases first with
      | literal more =>
        cases atom with
        | char c => exact hmeet [c] more rest rfl rfl
        | _ => cases hatom
      | _ => cases hliteral
  | bareGroup body bare next ih =>
    refine behind ?_ ih
    simp only [ofGroup]
    split <;> rfl

end TokenKind

namespace NormalStream
variable {token : Token} {rest : List Token}

theorem tail (h : NormalStream (token :: rest)) : NormalStream rest where
  kinds next hnext := h.kinds next (.tail _ hnext)
  apart := h.apart.tail
  anchors next hnext := by
    cases rest with
    | nil => cases hnext
    | cons second rest => exact h.anchors next (.tail _ hnext)
  bare next hnext hkind := by
    obtain ⟨rfl, rfl⟩ := List.cons.inj (h.bare next (.tail _ hnext) hkind)
    cases hnext

end NormalStream

namespace Pattern
variable {source : Text} {pattern : Pattern}

/-- Whatever compiles is in form. -/
theorem normal_of_parse (h : parse source = .ok pattern) : NormalStream pattern.tokens := by
  have anchors := endAnchor_eq_false h
  obtain ⟨kinds, hkinds, rfl⟩ := parse_eq_ok.mp h
  have normal := hkinds.normal fun atom hatom => Lexeme.normal_of_mem_scanFrom hatom
  have hmem {token : Token} (ht : token ∈ (ofKinds source kinds).tokens) :
      token.kind ∈ (ofKinds source kinds).tokens.map Token.kind := List.mem_map_of_mem ht
  have hchain := List.isChain_map Token.kind
    (R := fun kind next : TokenKind => ¬(kind.isLiteral = true ∧ next.isLiteral = true))
    (l := (ofKinds source kinds).tokens)
  rcases map_kind_ofKinds source kinds with hk | ⟨rfl, hk⟩
  · rw [hk] at hmem hchain
    refine ⟨fun token ht => normal token.kind (hmem ht), hchain.mp hkinds.isChain, anchors, ?_⟩
    intro token ht hbare
    exact absurd hbare (hkinds.ne_endAnchor token.kind (hmem ht))
  · rw [hk] at hmem hchain
    refine ⟨?_, hchain.mp (.singleton _), anchors, ?_⟩
    · intro token ht
      rw [List.mem_singleton.mp (hmem ht)]
      trivial
    · intro token ht _
      obtain ⟨only, honly, -⟩ := List.map_eq_singleton_iff.mp hk
      rw [honly] at ht ⊢
      rw [List.mem_singleton.mp ht]

end Pattern

end LineSearch
