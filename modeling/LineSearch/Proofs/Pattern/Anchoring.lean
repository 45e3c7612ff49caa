import LineSearch.Proofs.Pattern.Boundary
import LineSearch.Proofs.Pattern.Misplaced

/-! The `$` at the end of a pattern text. The backslashes in front of it are counted from behind to tell
whether it is escaped, and taken in pairs from the front as lexemes. Main statement: both ways agree,
whatever classes and groups the scan passes on its way. -/
namespace LineSearch

def trailingEscapes (text : Text) : Nat := (text.reverse.takeWhile (· == '\\')).length

private theorem trailingEscapes_concat (front : Text) {c : Char} (hc : c ≠ '\\') :
    trailingEscapes (front ++ [c]) = 0 := by
  simp [trailingEscapes, hc]

private theorem trailingEscapes_concat_escape (front : Text) :
    trailingEscapes (front ++ ['\\']) = trailingEscapes front + 1 := by
  simp [trailingEscapes]

/-- Pairs of backslashes stay pairs where two texts meet. -/
private theorem even_trailingEscapes_append {front rest : Text} (hfront : trailingEscapes front % 2 = 0)
    (hrest : trailingEscapes rest % 2 = 0) : trailingEscapes (front ++ rest) % 2 = 0 := by
  unfold trailingEscapes at hfront hrest ⊢
  rw [List.reverse_append, List.takeWhile_append]
  split
  · rename_i hall
    rw [hall] at hrest
    rw [List.length_append]
    omega
  · exact hrest

namespace Lexeme

/-- What a lexeme takes, a lone backslash apart, ends in a pair of backslashes if in any. -/
private theorem Takes.even {c : Char} {taken rest : Text} (h : Takes c taken rest) (hrest : rest ≠ []) :
    trailingEscapes (c :: taken) % 2 = 0 := by
  cases h with
  | loneEscape => exact absurd rfl hrest
  | escape escaped rest =>
    by_cases hescaped : escaped = '\\'
    · subst hescaped
      rfl
    · rw [show ['\\', escaped] = ['\\'] ++ [escaped] from rfl, trailingEscapes_concat _ hescaped]
  | openClass unclosed => rfl
  | closedClass rest closed => rw [← List.cons_append, trailingEscapes_concat _ (by decide)]
  | openGroup unbalanced => rfl
  | closedGroup balanced => rw [← List.cons_append, trailingEscapes_concat _ (by decide)]
  | plain rest escape openClass openGroup =>
    rw [show [c] = [] ++ [c] from rfl, trailingEscapes_concat _ escape]

/-- Whole lexemes with more behind them end in pairs of backslashes. -/
theorem Boundary.even {front rest : Text} (h : Boundary front rest) (hrest : rest ≠ []) :
    trailingEscapes front % 2 = 0 := by
  induction h with
  | start rest => rfl
  | past takes next ih =>
    exact even_trailingEscapes_append (takes.even (by simp [hrest])) (ih hrest)

/-- A lexeme that ends in `$` is one, or an escape of one. -/
private theorem Takes.of_dollar {c : Char} {taken rest : Text} (h : Takes c taken rest)
    (hlast : (c :: taken).getLast? = some '$') : (c = '$' ∧ taken = []) ∨ (c = '\\' ∧ taken = ['$']) := by
  cases h with
  | loneEscape | openClass unclosed | openGroup unbalanced => simp at hlast
  | closedClass rest closed | closedGroup balanced =>
    rw [← List.cons_append, List.getLast?_concat] at hlast
    simp at hlast
  | escape escaped rest =>
    cases hlast
    exact .inr ⟨rfl, rfl⟩
  | plain rest escape openClass openGroup =>
    cases hlast
    exact .inl ⟨rfl, rfl⟩

/-- A text that ends in an escaped `$` has it for its last lexeme. -/
private theorem scan_of_escaped {text : Text} (hescaped : trailingEscapes text % 2 = 1) (position : Nat) :
    ∃ before, scan position (text ++ ['$']) = before ++ [.atom (.char '$')] := by
  rcases List.eq_nil_or_concat' (scan position (text ++ ['$'])) with hnil | ⟨before, lexeme, hscan⟩
  · simpa using scan_eq_nil hnil
  · obtain ⟨front, c, taken, rest, hsplit, hboundary, hread, hrest⟩ := boundary_of_scan hscan
    cases scan_eq_nil hrest
    have heven := hboundary.even (by simp)
    rw [List.append_nil] at hsplit
    have hlast : (c :: taken).getLast? = some '$' := by
      have same := congrArg List.getLast? hsplit
      rw [List.getLast?_concat, List.getLast?_append_of_ne_nil front (List.cons_ne_nil c taken)] at same
      exact same.symm
    rcases (takes_of_read hread).of_dollar hlast with ⟨rfl, rfl⟩ | ⟨rfl, rfl⟩
    · obtain ⟨rfl, -⟩ := List.append_inj' hsplit rfl
      omega
    · obtain ⟨rfl, -⟩ := Prod.mk.inj hread
      exact ⟨before, hscan⟩

end Lexeme

namespace TokenKind

/-- An ordinary character at the end of the lexemes is that of the last token. -/
private theorem Assembled.getLast_char {before : List Lexeme} {c : Char} {kinds : List TokenKind}
    (h : Assembled (before ++ [.atom (.char c)]) kinds) :
    ∃ front text, kinds = front ++ [.literal (text ++ [c])] := by
  generalize hlexemes : before ++ [.atom (.char c)] = lexemes at h
  induction h generalizing before with
  | nil => simp at hlexemes
  | repeatedAtom atom suffix position next ih | repeatedGroup body suffix position next ih =>
    rcases before with _ | ⟨_, _ | ⟨_, before⟩⟩
    · simp at hlexemes
    · simp at hlexemes
    · obtain ⟨front, text, rfl⟩ := ih (List.cons.inj (List.cons.inj hlexemes).2).2
      exact ⟨_ :: front, text, rfl⟩
  | bareAtom atom bare next ih =>
    rcases before with _ | ⟨_, before⟩
    · cases hlexemes
      cases next
      exact ⟨[], [], rfl⟩
    · obtain ⟨front, text, rfl⟩ := ih (List.cons.inj hlexemes).2
      unfold join
      split
      · rename_i first more rest hatom hkinds
        rcases front with _ | ⟨_, front⟩
        · obtain ⟨hmore, rfl⟩ := List.cons.inj hkinds
          cases hmore
          exact ⟨[], first ++ text, by simp⟩
        · obtain ⟨-, rfl⟩ := List.cons.inj hkinds
          exact ⟨_ :: front, text, rfl⟩
      · exact ⟨_ :: front, text, rfl⟩
  | bareGroup body bare next ih =>
    rcases before with _ | ⟨_, before⟩
    · simp at hlexemes
    · obtain ⟨front, text, rfl⟩ := ih (List.cons.inj hlexemes).2
      exact ⟨_ :: front, text, rfl⟩

theorem Assembled.eq_nil_iff {lexemes : List Lexeme} {kinds : List TokenKind}
    (h : Assembled lexemes kinds) : kinds = [] ↔ lexemes = [] := by
  cases h with
  | bareAtom atom bare next =>
    unfold join
    split <;> simp
  | _ => simp

/-- Only the anchor of a pattern without any other token is a token. -/
theorem Assembled.ne_endAnchor {lexemes : List Lexeme} {kinds : List TokenKind}
    (h : Assembled lexemes kinds) : ∀ kind ∈ kinds, kind ≠ .endAnchor := by
  refine h.forall ?_ ?_ ?_ ?_
  · intro atom _
    cases atom <;> simp [ofAtom]
  · intro atom suffix _
    unfold ofRepeated
    split <;> simp
  · intro body suffix
    simp only [ofGroup]
    split <;> simp
  · simp

end TokenKind

namespace Pattern

private theorem endsAnchored_concat (text : Text) :
    endsAnchored (text ++ ['$']) = (trailingEscapes text % 2 == 0) := by
  simp [endsAnchored, trailingEscapes]

theorem endsAnchored_of_getLast? {text : Text} (h : text.getLast? ≠ some '$') :
    endsAnchored text = false := by
  simp [endsAnchored, h]

private theorem anchorLast_concat (front : List Token) (last : Token) :
    anchorLast (front ++ [last]) = front ++ [{ last with endAnchor := true }] := by
  induction front with
  | nil => rfl
  | cons token front ih =>
    rw [List.cons_append, anchorLast, ih]
    · rfl
    · simp

/-- A pattern whose text does not end anchored has no anchored token. -/
theorem parse_of_unanchored {source : Text} {pattern : Pattern} (h : parse source = .ok pattern)
    (hfree : endsAnchored (body source) = false) :
    ∃ kinds, TokenKind.Assembled (Lexeme.scan (offset source) (body source)) kinds ∧
      pattern.tokens = kinds.map fun kind => { kind } := by
  obtain ⟨kinds, hkinds, rfl⟩ := parse_eq_ok.mp h
  rw [scanned, if_neg (by simp [hfree])] at hkinds
  refine ⟨kinds, hkinds, ?_⟩
  rw [ofKinds, if_neg (by simp [hfree])]

/-- The `$` at the end of a pattern text is an anchor where the backslashes in front of it are even in
number. Then the last token carries the anchor and no other does; it is a token of its own only where
nothing stands in front of the `$`, and no lexeme in front of it is a lone backslash at the end. Where the
backslashes are odd in number, the last of them escapes the `$`: it is the last character of a literal, the
last token, and no token carries an anchor. Nor does any where the text ends otherwise. -/
theorem end_anchor_is_unescaped (source : Text) (pattern : Pattern)
    (h : parse source = .ok pattern) :
    (∀ text, body source = text ++ ['$'] → trailingEscapes text % 2 = 0 →
      (∃ front last, pattern.tokens = front ++ [last] ∧ last.endAnchor = true ∧
        (∀ token ∈ front, token.endAnchor = false) ∧
        (last.kind = .endAnchor ↔ text = []) ∧ (text = [] → front = [])) ∧
      scanned source = text ∧
      ∀ front, text = front ++ ['\\'] → ¬ Lexeme.Boundary front ['\\']) ∧
    (∀ text, body source = text ++ ['$'] → trailingEscapes text % 2 = 1 →
      (∀ token ∈ pattern.tokens, token.endAnchor = false) ∧
      ∃ front literal, pattern.tokens = front ++ [{ kind := .literal (literal ++ ['$']) }]) ∧
    ((body source).getLast? ≠ some '$' → ∀ token ∈ pattern.tokens, token.endAnchor = false) := by
  have free (kinds : List TokenKind) :
      ∀ token ∈ kinds.map fun kind => ({ kind } : Token), token.endAnchor = false := by
    simp
  refine ⟨?_, ?_, ?_⟩
  · intro text hbody heven
    have hends : endsAnchored (body source) = true := by
      simpa [hbody, endsAnchored_concat] using heven
    have hscanned : scanned source = text := by
      rw [scanned, if_pos hends, hbody, List.dropLast_concat]
    refine ⟨?_, hscanned, ?_⟩
    · obtain ⟨kinds, hkinds, rfl⟩ := parse_eq_ok.mp h
      rw [hscanned] at hkinds
      rw [ofKinds, if_pos hends]
      rcases List.eq_nil_or_concat' kinds with rfl | ⟨front, last, rfl⟩
      · have htext : text = [] := Lexeme.scan_eq_nil (hkinds.eq_nil_iff.mp rfl)
        exact ⟨[], _, rfl, rfl, free [], iff_of_true rfl htext, fun _ => rfl⟩
      · have htext : text ≠ [] := by
          rintro rfl
          simpa using hkinds.eq_nil_iff.mpr rfl
        have hlast := hkinds.ne_endAnchor last (by simp)
        refine ⟨front.map fun kind => { kind }, { kind := last, endAnchor := true }, ?_, rfl,
          free front, iff_of_false hlast htext, fun hnil => absurd hnil htext⟩
        rw [List.map_append]
        exact anchorLast_concat _ _
    · rintro front rfl hboundary
      have := hboundary.even (by simp)
      rw [trailingEscapes_concat_escape] at heven
      omega
  · intro text hbody hodd
    have hfree : endsAnchored (body source) = false := by
      simp [hbody, endsAnchored_concat, hodd]
    obtain ⟨kinds, hkinds, htokens⟩ := parse_of_unanchored h hfree
    rw [htokens]
    refine ⟨free kinds, ?_⟩
    obtain ⟨before, hscan⟩ := Lexeme.scan_of_escaped hodd (offset source)
    rw [hbody, hscan] at hkinds
    obtain ⟨front, literal, rfl⟩ := hkinds.getLast_char
    exact ⟨_, literal, List.map_append⟩
  · intro hlast
    obtain ⟨kinds, -, htokens⟩ := parse_of_unanchored h (endsAnchored_of_getLast? hlast)
    rw [htokens]
    exact free kinds

/-- In `^([)]\\$` the class leaves the group open, the two backslashes behind it are one character, and the
`$` is an anchor. In `[]\\\$` the third backslash escapes it. -/
theorem end_anchor_behind_backslashes :
    (∃ pattern, parse ['^', '(', '[', ')', ']', '\\', '\\', '$'] = .ok pattern ∧
      (∃ front last, pattern.tokens = front ++ [last] ∧ last.endAnchor = true ∧
        (∀ token ∈ front, token.endAnchor = false) ∧ last.kind ≠ .endAnchor) ∧
      ¬ Lexeme.Boundary ['(', '[', ')', ']', '\\'] ['\\']) ∧
    (∃ pattern, parse ['[', ']', '\\', '\\', '\\', '$'] = .ok pattern ∧
      (∀ token ∈ pattern.tokens, token.endAnchor = false) ∧
      ∃ front literal, pattern.tokens = front ++ [{ kind := .literal (literal ++ ['$']) }]) := by
  obtain ⟨anchored, hanchored⟩ :
    ∃ pattern, parse ['^', '(', '[', ')', ']', '\\', '\\', '$'] = .ok pattern := ⟨_, rfl⟩
  obtain ⟨escaped, hescaped⟩ :
    ∃ pattern, parse ['[', ']', '\\', '\\', '\\', '$'] = .ok pattern := ⟨_, rfl⟩
  have even := (end_anchor_is_unescaped _ anchored hanchored).1
    ['(', '[', ')', ']', '\\', '\\'] rfl rfl
  have odd := (end_anchor_is_unescaped _ escaped hescaped).2.1 ['[', ']', '\\', '\\', '\\'] rfl rfl
  obtain ⟨⟨front, last, htokens, hlast, hfront, hkind, -⟩, -, hboundary⟩ := even
  have hown : last.kind ≠ .endAnchor := fun heq => List.cons_ne_nil _ _ (hkind.mp heq)
  exact ⟨⟨anchored, hanchored, ⟨front, last, htokens, hlast, hfront, hown⟩, hboundary _ rfl⟩,
    escaped, hescaped, odd⟩

end Pattern

end LineSearch
