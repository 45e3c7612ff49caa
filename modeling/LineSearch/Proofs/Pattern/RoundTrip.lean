import LineSearch.Proofs.Pattern.Assembly
import LineSearch.Proofs.Pattern.Relexing

/-! Main statement: a compiled pattern written as text compiles to itself. -/
namespace LineSearch

namespace TokenKind

private theorem print_ofAtom (atom : Atom) : (ofAtom atom).print = atom.print := by
  cases atom with
  | char c => simp [ofAtom, print, Atom.print, escape]
  | _ => rfl

private theorem print_ofRepeated (atom : Atom) (suffix : Suffix) :
    (ofRepeated atom suffix).print = atom.print ++ [suffix.toChar] := by
  unfold ofRepeated
  split <;> rfl

private theorem print_ofGroup (body : Text) (suffix : Option Suffix) :
    (ofGroup body suffix).print = '(' :: body ++ ')' :: Suffix.print suffix := by
  have hb : ((Bracket.branches body).intersperse ['|']).flatten = body :=
    Bracket.joined_branches body
  simp only [ofGroup]
  split
  · simp only [print, hb]
  · rfl

private theorem print_join (kind : TokenKind) (kinds : List TokenKind) :
    (kind.join kinds).flatMap print = kind.print ++ kinds.flatMap print := by
  unfold join
  split
  · simp [print, escape]
  · rfl

/-- Tokens are written as the lexemes that they are put together from. -/
theorem Assembled.flatMap_print {lexemes : List Lexeme} {kinds : List TokenKind}
    (h : Assembled lexemes kinds) : kinds.flatMap print = lexemes.flatMap Lexeme.print := by
  induction h with
  | nil => rfl
  | repeatedAtom atom suffix position next ih =>
    simp [print_ofRepeated, ih, Lexeme.print]
  | repeatedGroup body suffix position next ih =>
    simp [print_ofGroup, Suffix.print, ih, Lexeme.print]
  | bareAtom atom bare next ih =>
    simp [print_join, print_ofAtom, ih, Lexeme.print]
  | bareGroup body bare next ih =>
    simp [print_ofGroup, Suffix.print, ih, Lexeme.print]

private theorem bare_of_alike {rest again : List Lexeme} (h : List.Forall₂ Lexeme.Alike again rest)
    (bare : ∀ suffix position tail, rest ≠ .suffix suffix position :: tail) :
    ∀ suffix position tail, again ≠ .suffix suffix position :: tail := by
  rintro suffix position tail rfl
  cases h with
  | cons head later =>
    cases head
    exact bare _ _ _ rfl

/-- The positions of suffixes do not matter to what is put together. -/
theorem Assembled.of_alike {lexemes again : List Lexeme} {kinds : List TokenKind}
    (h : Assembled lexemes kinds) (halike : List.Forall₂ Lexeme.Alike again lexemes) :
    Assembled again kinds := by
  induction h generalizing again with
  | nil =>
    cases halike
    exact .nil
  | repeatedAtom atom suffix position next ih =>
    obtain _ | ⟨⟨⟩, _ | ⟨⟨⟩, later⟩⟩ := halike
    exact .repeatedAtom atom suffix _ (ih later)
  | repeatedGroup body suffix position next ih =>
    obtain _ | ⟨⟨⟩, _ | ⟨⟨⟩, later⟩⟩ := halike
    exact .repeatedGroup body suffix _ (ih later)
  | bareAtom atom bare next ih =>
    obtain _ | ⟨⟨⟩, later⟩ := halike
    exact .bareAtom atom (bare_of_alike later bare) (ih later)
  | bareGroup body bare next ih =>
    obtain _ | ⟨⟨⟩, later⟩ := halike
    exact .bareGroup body (bare_of_alike later bare) (ih later)

end TokenKind

/-- Only an escaped `^` starts a lexeme's text. -/
theorem Lexeme.print_eq_cons (lexeme : Lexeme) :
    ∃ first front, lexeme.print = first :: front ∧ first ≠ '^' := by
  rcases lexeme with (c | _ | _ | _ | set) | body | s
  · by_cases h : isSpecial c = true
    · exact ⟨'\\', [c], escapeChar_of_special h, by decide⟩
    · exact ⟨c, [], escapeChar_of_plain h, ne_of_plain h (by decide)⟩
  · exact ⟨_, _, rfl, by decide⟩
  · exact ⟨_, _, rfl, by decide⟩
  · exact ⟨_, _, rfl, by decide⟩
  · exact ⟨_, _, rfl, by decide⟩
  · exact ⟨_, _, rfl, by decide⟩
  · exact ⟨_, _, rfl, by cases s <;> decide⟩

namespace Pattern

/-- Nothing at the end of the text reaches beyond it: its last backslashes escape one another in
pairs, and it does not end in an anchor. -/
def Settled (text : Text) : Prop :=
  (text.reverse.takeWhile (· == '\\')).length % 2 = 0 ∧ endsAnchored text = false

namespace Settled
variable {text : Text}

theorem nil : Settled [] := ⟨rfl, rfl⟩

private theorem append_plain (text : Text) {c : Char} (hescape : c ≠ '\\') (hanchor : c ≠ '$') :
    Settled (text ++ [c]) := by
  constructor
  · simp [hescape]
  · simp [endsAnchored, hanchor]

private theorem append_escaped (h : Settled text) (c : Char) : Settled (text ++ ['\\', c]) := by
  have hsplit : text ++ ['\\', c] = (text ++ ['\\']) ++ [c] := by simp
  by_cases hescape : c = '\\'
  · subst hescape
    refine ⟨?_, by simp [endsAnchored]⟩
    have := h.1
    simp only [List.reverse_append, List.reverse_cons, List.reverse_nil, List.nil_append,
      List.cons_append, List.takeWhile_cons, beq_self_eq_true, if_true, List.length_cons]
    omega
  · by_cases hanchor : c = '$'
    · subst hanchor
      refine ⟨by simp, ?_⟩
      have := h.1
      rw [hsplit, endsAnchored, List.dropLast_concat, List.reverse_append]
      simp
      omega
    · rw [hsplit]
      exact append_plain _ hescape hanchor

private theorem append_print (h : Settled text) (lexeme : Lexeme) : Settled (text ++ lexeme.print) := by
  rcases lexeme with (c | _ | _ | _ | set) | body | s
  · by_cases hc : isSpecial c = true
    · rw [Lexeme.print, Atom.print, escapeChar_of_special hc]
      exact h.append_escaped c
    · rw [Lexeme.print, Atom.print, escapeChar_of_plain hc]
      exact append_plain text (ne_of_plain hc (by decide)) (ne_of_plain hc (by decide))
  · exact append_plain text (by decide) (by decide)
  · exact h.append_escaped 'd'
  · exact h.append_escaped 'w'
  · simp only [Lexeme.print, Atom.print, CharSet.print, ← List.append_assoc]
    exact append_plain _ (by decide) (by decide)
  · simp only [Lexeme.print, ← List.append_assoc]
    exact append_plain _ (by decide) (by decide)
  · exact append_plain text (by cases s <;> decide) (by cases s <;> decide)

theorem append_flatMap_print (h : Settled text) (lexemes : List Lexeme) :
    Settled (text ++ lexemes.flatMap Lexeme.print) := by
  induction lexemes generalizing text with
  | nil => simpa using h
  | cons lexeme rest ih =>
    rw [List.flatMap_cons, ← List.append_assoc]
    exact ih (h.append_print lexeme)

private theorem endsAnchored_append (h : Settled text) : endsAnchored (text ++ ['$']) = true := by
  simp [endsAnchored, h.1]

end Settled

def framed (startAnchored endAnchored : Bool) (text : Text) : Text :=
  (if startAnchored then ['^'] else []) ++ (text ++ (if endAnchored then ['$'] else []))

section Framed
variable (startAnchored endAnchored : Bool) {text : Text}

theorem head?_framed (h : text.head? ≠ some '^') :
    ((framed startAnchored endAnchored text).head? == some '^') = startAnchored := by
  cases startAnchored with
  | true => rfl
  | false =>
    cases text with
    | nil => cases endAnchored <;> rfl
    | cons c text => simpa [framed] using h

private theorem body_framed (h : text.head? ≠ some '^') :
    body (framed startAnchored endAnchored text) =
      text ++ (if endAnchored then ['$'] else []) := by
  rw [body, offset, head?_framed startAnchored endAnchored h]
  cases startAnchored <;> rfl

theorem endsAnchored_framed (h : text.head? ≠ some '^') (hs : Settled text) :
    endsAnchored (body (framed startAnchored endAnchored text)) = endAnchored := by
  rw [body_framed startAnchored endAnchored h]
  cases endAnchored with
  | false => simpa using hs.2
  | true => exact hs.endsAnchored_append

theorem scanned_framed (h : text.head? ≠ some '^') (hs : Settled text) :
    scanned (framed startAnchored endAnchored text) = text := by
  rw [scanned, endsAnchored_framed startAnchored endAnchored h hs,
    body_framed startAnchored endAnchored h]
  cases endAnchored <;> simp

end Framed

private theorem flatMap_print_anchorLast (kinds : List TokenKind) :
    (anchorLast (kinds.map fun kind => { kind })).flatMap Token.print =
      kinds.flatMap TokenKind.print ++ ['$'] := by
  induction kinds with
  | nil => rfl
  | cons kind kinds ih =>
    cases kinds with
    | nil => simp [anchorLast, Token.print]
    | cons next kinds => simpa [anchorLast, Token.print] using ih

theorem print_ofKinds (source : Text) (kinds : List TokenKind) :
    (ofKinds source kinds).print =
      framed (source.head? == some '^') (endsAnchored (body source))
        (kinds.flatMap TokenKind.print) := by
  rw [print, framed, ofKinds]
  congr 1
  dsimp only
  split
  · exact flatMap_print_anchorLast kinds
  · simp [List.flatMap_map, Token.print]

private theorem ofKinds_framed (source : Text) (kinds : List TokenKind) {text : Text}
    (h : text.head? ≠ some '^') (hs : Settled text) :
    ofKinds (framed (source.head? == some '^') (endsAnchored (body source)) text) kinds =
      { ofKinds source kinds with
        source := framed (source.head? == some '^') (endsAnchored (body source)) text } := by
  simp only [ofKinds, head?_framed _ _ h, endsAnchored_framed _ _ h hs]

/-- Printing a compiled pattern loses nothing: what is printed compiles, to the same tokens with the
same anchors. -/
theorem parse_of_print (source : Text) (pattern : Pattern) (h : parse source = .ok pattern) :
    parse pattern.print = .ok { pattern with source := pattern.print } := by
  obtain ⟨kinds, hkinds, rfl⟩ := parse_eq_ok.mp h
  have hsettled := Settled.nil.append_flatMap_print (Lexeme.scan (offset source) (scanned source))
  rw [List.nil_append, ← hkinds.flatMap_print] at hsettled
  have hhead : (kinds.flatMap TokenKind.print).head? ≠ some '^' := by
    rw [hkinds.flatMap_print]
    cases Lexeme.scan (offset source) (scanned source) with
    | nil => simp
    | cons lexeme rest =>
      obtain ⟨first, front, hprint, hfirst⟩ := lexeme.print_eq_cons
      simpa [hprint] using hfirst
  rw [print_ofKinds]
  refine parse_eq_ok.mpr ⟨kinds, ?_, ofKinds_framed source kinds hhead hsettled⟩
  rw [scanned_framed _ _ hhead hsettled, hkinds.flatMap_print]
  exact hkinds.of_alike (Lexeme.alike_scan_print _ 0 _ _)

/-- The pattern `^\a[.+$` is written as `^a\[.+$`. -/
theorem parse_of_print_unclosed_class :
    ∃ pattern, parse ['^', '\\', 'a', '[', '.', '+', '$'] = .ok pattern ∧
      pattern.print = ['^', 'a', '\\', '[', '.', '+', '$'] ∧
      parse pattern.print = .ok { pattern with source := pattern.print } :=
  ⟨_, rfl, rfl, parse_of_print ['^', '\\', 'a', '[', '.', '+', '$'] _ rfl⟩

end Pattern

end LineSearch
