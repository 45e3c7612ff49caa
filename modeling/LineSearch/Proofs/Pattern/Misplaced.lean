import LineSearch.Proofs.Pattern.Cutting

/-! Why a pattern text does not compile. Main statement: an error points at the first suffix that has
nothing to repeat. All in front of it compiles on its own, and the last token there has its suffix
already. -/
namespace LineSearch

namespace CompileError

def suffix : CompileError → Suffix
  | .danglingQuantifier suffix _ => suffix
  | .unsupportedQuantifier suffix _ _ => suffix

def position : CompileError → Nat
  | .danglingQuantifier _ position => position
  | .unsupportedQuantifier _ position _ => position

end CompileError

namespace TokenKind

def isSuffixed : TokenKind → Bool
  | .wildcardPlus | .quantified .. | .group _ _ (some _) | .alternation _ (some _) => true
  | _ => false

private theorem isSuffixed_ofRepeated (atom : Atom) (suffix : Suffix) :
    (ofRepeated atom suffix).isSuffixed = true := by
  unfold ofRepeated
  split <;> rfl

private theorem isSuffixed_ofGroup (body : Text) (suffix : Suffix) :
    (ofGroup body (some suffix)).isSuffixed = true := by
  simp only [ofGroup]
  split <;> rfl

/-- What the error message calls a token that has its suffix already. -/
private theorem describe_of_isSuffixed {kind : TokenKind} (h : kind.isSuffixed = true) :
    kind.describe ∈ ["`.+`", "quantified atom", "group", "alternation"] := by
  cases kind <;> simp_all [isSuffixed, describe]

/-- A token joins at most the first of those behind it. -/
private theorem join_append (kind : TokenKind) (kinds : List TokenKind) {last : TokenKind}
    (h : last.isSuffixed = true) : ∃ front, kind.join (kinds ++ [last]) = front ++ [last] := by
  unfold join
  split
  · rename_i text more rest heq
    cases kinds with
    | nil =>
      obtain ⟨rfl, -⟩ := List.cons.inj heq
      cases h
    | cons first kinds =>
      obtain ⟨-, rfl⟩ := List.cons.inj heq
      exact ⟨_ :: kinds, rfl⟩
  · exact ⟨_ :: kinds, rfl⟩

private theorem join_ofGroup (body : Text) (suffix : Option Suffix) (kinds : List TokenKind) :
    (ofGroup body suffix).join kinds = ofGroup body suffix :: kinds := by
  simp only [ofGroup]
  split <;> rfl

/-- Lexemes with their tokens behind which no suffix can stand: none, or such as end in a suffix. -/
inductive Spent : List Lexeme → List TokenKind → Prop where
  | nil : Spent [] []
  | suffixed (front : List Lexeme) (suffix : Suffix) (position : Nat) (kinds : List TokenKind)
      {last : TokenKind} (carried : last.isSuffixed = true) :
      Spent (front ++ [.suffix suffix position]) (kinds ++ [last])

private theorem Spent.prepend_suffixed {front : List Lexeme} {kinds : List TokenKind}
    (h : Spent front kinds) (lexeme : Lexeme) (suffix : Suffix) (position : Nat) {kind : TokenKind}
    (hkind : kind.isSuffixed = true) :
    Spent (lexeme :: .suffix suffix position :: front) (kind :: kinds) := by
  cases h with
  | nil => exact .suffixed [lexeme] suffix position [] hkind
  | suffixed front other place kinds carried =>
    exact .suffixed (lexeme :: .suffix suffix position :: front) other place (kind :: kinds) carried

/-- Behind a lexeme without a suffix, the first misplaced suffix has other lexemes in front of it. -/
private theorem Spent.prepend_bare {rest front tail : List Lexeme} {kinds : List TokenKind}
    {suffix : Suffix}
    {position : Nat} (h : Spent front kinds) (hrest : rest = front ++ .suffix suffix position :: tail)
    (bare : ∀ suffix position tail, rest ≠ .suffix suffix position :: tail) (lexeme : Lexeme)
    (kind : TokenKind) :
    (∀ suffix position tail, front ≠ .suffix suffix position :: tail) ∧
      Spent (lexeme :: front) (kind.join kinds) ∧ (kind.join kinds).getLast? = kinds.getLast? ∧
      kinds ≠ [] := by
  cases h with
  | nil => exact absurd hrest (bare suffix position tail)
  | suffixed front other place kinds carried =>
    obtain ⟨joined, hjoined⟩ := kind.join_append kinds carried
    refine ⟨?_, ?_, ?_, by simp⟩
    · rintro first at_ later hfront
      rw [hfront] at hrest
      exact bare first at_ _ hrest
    · rw [hjoined]
      exact .suffixed (lexeme :: front) other place joined carried
    · simp [hjoined]

private theorem map_eq_error {ε α β : Type} {f : α → β} {x : Except ε α} {e : ε} :
    x.map f = .error e ↔ x = .error e := by
  cases x <;> simp [Except.map]

private theorem getLast?_cons_or (kind : TokenKind) (kinds : List TokenKind) (previous : Option TokenKind) :
    (kind :: kinds).getLast?.or previous = kinds.getLast?.or (some kind) := by
  cases kinds <;> simp [List.getLast?_cons]

/-- Where lexemes do not go together, those in front of the first misplaced suffix do. The token named
is the last of theirs, or the one before all of them. -/
theorem ofLexemes_eq_error {previous : Option TokenKind} {lexemes : List Lexeme} {e : CompileError}
    (h : ofLexemes previous lexemes = .error e) :
    ∃ front suffix position tail kinds, lexemes = front ++ .suffix suffix position :: tail ∧
      Assembled front kinds ∧ Spent front kinds ∧
      e = misplaced (kinds.getLast?.or previous) suffix position := by
  induction previous, lexemes using ofLexemes.induct with
  | case1 previous => cases h
  | case2 previous suffix position tail =>
    cases h
    exact ⟨[], suffix, position, tail, [], rfl, .nil, .nil, rfl⟩
  | case3 previous atom own place rest ih =>
    obtain ⟨front, suffix, position, tail, kinds, rfl, hassembled, hspent, rfl⟩ :=
      ih (map_eq_error.mp h)
    refine ⟨.atom atom :: .suffix own place :: front, suffix, position, tail,
      ofRepeated atom own :: kinds, rfl, .repeatedAtom atom own place hassembled, ?_, ?_⟩
    · exact hspent.prepend_suffixed _ own place (isSuffixed_ofRepeated atom own)
    · rw [getLast?_cons_or]
  | case4 previous body own place rest ih =>
    obtain ⟨front, suffix, position, tail, kinds, rfl, hassembled, hspent, rfl⟩ :=
      ih (map_eq_error.mp h)
    refine ⟨.group body :: .suffix own place :: front, suffix, position, tail,
      ofGroup body (some own) :: kinds, rfl, .repeatedGroup body own place hassembled, ?_, ?_⟩
    · exact hspent.prepend_suffixed _ own place (isSuffixed_ofGroup body own)
    · rw [getLast?_cons_or]
  | case5 previous atom rest bare ih =>
    rw [ofLexemes_atom bare] at h
    obtain ⟨front, suffix, position, tail, kinds, hrest, hassembled, hspent, rfl⟩ :=
      ih (map_eq_error.mp h)
    obtain ⟨hbare, hjoined, hlast, hne⟩ :=
      hspent.prepend_bare hrest bare (.atom atom) (ofAtom atom)
    refine ⟨.atom atom :: front, suffix, position, tail, (ofAtom atom).join kinds, ?_,
      .bareAtom atom hbare hassembled, hjoined, ?_⟩
    · rw [hrest, List.cons_append]
    · rw [hlast, List.getLast?_eq_some_getLast hne]
      rfl
  | case6 previous body rest bare ih =>
    rw [ofLexemes_group bare] at h
    obtain ⟨front, suffix, position, tail, kinds, hrest, hassembled, hspent, rfl⟩ :=
      ih (map_eq_error.mp h)
    obtain ⟨hbare, hjoined, hlast, hne⟩ :=
      hspent.prepend_bare hrest bare (.group body) (ofGroup body none)
    refine ⟨.group body :: front, suffix, position, tail, ofGroup body none :: kinds, ?_,
      .bareGroup body hbare hassembled, ?_, ?_⟩
    · rw [hrest, List.cons_append]
    · rwa [join_ofGroup] at hjoined
    · rw [getLast?_cons_or]

end TokenKind

theorem Lexeme.scan_eq_nil {position : Nat} {text : Text} (h : scan position text = []) : text = [] := by
  cases text with
  | nil => rfl
  | cons c rest => cases h

/-- A text behind which no suffix can stand is empty or ends in a suffix, and so never in an anchor. -/
theorem TokenKind.Spent.endsAnchored_eq_false {position : Nat} {text : Text} {kinds : List TokenKind}
    (h : Spent (Lexeme.scan position text) kinds) : Pattern.endsAnchored text = false := by
  generalize hscan : Lexeme.scan position text = lexemes at h
  cases h with
  | nil =>
    cases Lexeme.scan_eq_nil hscan
    rfl
  | suffixed before suffix place kinds carried =>
    obtain ⟨front, back, rfl, -, -, hback, -⟩ := Lexeme.scan_cut hscan
    cases Lexeme.scan_eq_nil hback
    cases suffix <;> simp [Pattern.endsAnchored, Suffix.toChar]

namespace Pattern
variable {source : Text}

theorem parse_eq_error {e : CompileError} : parse source = .error e ↔
    TokenKind.ofLexemes none (Lexeme.scan (offset source) (scanned source)) = .error e :=
  TokenKind.map_eq_error

/-- A start of the text that reaches beyond the `^` keeps it. -/
private theorem offset_take (source : Text) (n : Nat) :
    offset (source.take (offset source + n)) = offset source := by
  cases source with
  | nil => simp
  | cons c rest =>
    by_cases hc : c = '^'
    · subst hc
      have hoffset : offset ('^' :: rest) = 1 := rfl
      rw [hoffset, Nat.add_comm, List.take_succ_cons]
      rfl
    · have hoffset (rest : Text) : offset (c :: rest) = 0 := by simp [offset, hc]
      rw [hoffset, Nat.zero_add]
      cases n with
      | zero => rfl
      | succ n => rw [List.take_succ_cons, hoffset]

private theorem body_take (source : Text) (n : Nat) :
    body (source.take (offset source + n)) = (body source).take n := by
  rw [body, offset_take, List.drop_take, Nat.add_sub_cancel_left]
  rfl

private theorem scanned_prefix (source : Text) : scanned source <+: body source := by
  unfold scanned
  split
  · exact List.dropLast_prefix _
  · exact List.prefix_rfl

private theorem offset_cases (source : Text) :
    offset source = 0 ∨ offset source = 1 ∧ source.head? = some '^' := by
  unfold offset
  split
  · exact .inr ⟨rfl, by simp_all⟩
  · exact .inl rfl

/-- A text without an end anchor compiles to the tokens put together from it, none of them anchored. -/
private theorem parse_of_assembled {kinds : List TokenKind} (hfree : endsAnchored (body source) = false)
    (h : TokenKind.Assembled (Lexeme.scan (offset source) (body source)) kinds) :
    parse source = .ok
      { source
        tokens := kinds.map fun kind => { kind }
        startAnchored := source.head? == some '^' } := by
  refine parse_eq_ok.mpr ⟨kinds, ?_, ?_⟩
  · rwa [scanned, hfree, if_neg Bool.false_ne_true]
  · rw [ofKinds, hfree, if_neg Bool.false_ne_true]

/-- A text without anchors compiles to the tokens put together from its lexemes. -/
theorem parse_of_scan {lexemes : List Lexeme} {kinds : List TokenKind} (start : source.head? ≠ some '^')
    (stop : endsAnchored source = false) (hscan : Lexeme.scan 0 source = lexemes)
    (h : TokenKind.Assembled lexemes kinds) :
    parse source = .ok { source, tokens := kinds.map fun kind => { kind }, startAnchored := false } := by
  have hstart : (source.head? == some '^') = false := by simpa using start
  have hoffset : offset source = 0 := by simp [offset, start]
  have hbody : body source = source := by rw [body, hoffset, List.drop_zero]
  rw [← hscan] at h
  rw [parse_of_assembled (by rwa [hbody]) (by rwa [hbody, hoffset]), hstart]

/-- The text in front of the first misplaced suffix compiles, and the error names its last token. -/
theorem parse_take_of_error {e : CompileError} (h : parse source = .error e) :
    ∃ suffix n lexemes kinds, source[offset source + n]? = some suffix.toChar ∧
      TokenKind.Spent lexemes kinds ∧ (lexemes = [] → n = 0) ∧
      e = TokenKind.misplaced kinds.getLast? suffix (offset source + n) ∧
      ∃ pattern, parse (source.take (offset source + n)) = .ok pattern ∧
        pattern.tokens = kinds.map fun kind => { kind } := by
  obtain ⟨lexemes, suffix, position, tail, kinds, hlexemes, hassembled, hspent, he⟩ :=
    TokenKind.ofLexemes_eq_error (parse_eq_error.mp h)
  obtain ⟨front, back, hscanned, rfl, hfront, -, -⟩ := Lexeme.scan_cut hlexemes
  obtain ⟨more, hmore⟩ := scanned_prefix source
  rw [hscanned] at hmore
  have htake : body (source.take (offset source + front.length)) = front := by
    rw [body_take, ← hmore]
    simp
  have hchar : source[offset source + front.length]? = some suffix.toChar := by
    rw [← List.getElem?_drop, ← body, ← hmore]
    simp
  have hfree : endsAnchored (body (source.take (offset source + front.length))) = false := by
    rw [htake]
    rw [← hfront] at hspent
    exact hspent.endsAnchored_eq_false
  have hkinds : TokenKind.Assembled
      (Lexeme.scan (offset (source.take (offset source + front.length)))
        (body (source.take (offset source + front.length)))) kinds := by
    rwa [htake, offset_take, hfront]
  have hparse := parse_of_assembled hfree hkinds
  refine ⟨suffix, front.length, lexemes, kinds, hchar, hspent, ?_, by simpa using he, _, hparse, rfl⟩
  rintro rfl
  rw [Lexeme.scan_eq_nil hfront]
  rfl

/-- A pattern text that does not compile holds the misplaced suffix where the error says. All in front of
it compiles on its own. The suffix dangles exactly if that has no token, at the start of the text or
behind its `^`. Otherwise the error names the last token there, and that token has a suffix already. -/
theorem misplaced_suffix_is_first (source : Text) (error : CompileError)
    (h : parse source = .error error) :
    ∃ pattern, source[error.position]? = some error.suffix.toChar ∧
      parse (source.take error.position) = .ok pattern ∧
      (error = .danglingQuantifier error.suffix error.position ↔ pattern.tokens = []) ∧
      (pattern.tokens = [] →
        error.position = 0 ∨ error.position = 1 ∧ source.head? = some '^') ∧
      (pattern.tokens ≠ [] → ∃ token, pattern.tokens.getLast? = some token ∧
        error = .unsupportedQuantifier error.suffix error.position token.kind ∧
        token.kind.isSuffixed = true ∧
        token.kind.describe ∈ ["`.+`", "quantified atom", "group", "alternation"]) := by
  obtain ⟨suffix, n, lexemes, kinds, hchar, hspent, hfirst, rfl, pattern, hparse, htokens⟩ :=
    parse_take_of_error h
  cases hspent with
  | nil =>
    refine ⟨pattern, hchar, hparse, ?_, ?_, ?_⟩
    · exact iff_of_true rfl htokens
    · intro _
      cases hfirst rfl
      exact offset_cases source
    · exact fun hne => absurd htokens hne
  | @suffixed front own place kinds last carried =>
    have hlast : (kinds ++ [last]).getLast? = some last := List.getLast?_concat
    have hne : pattern.tokens ≠ [] := by simp [htokens]
    rw [hlast] at h ⊢
    refine ⟨pattern, hchar, hparse, ?_, fun hnil => absurd hnil hne, ?_⟩
    · exact iff_of_false (by rintro ⟨⟩) hne
    · intro _
      refine ⟨{ kind := last }, ?_, rfl, carried, TokenKind.describe_of_isSuffixed carried⟩
      simp [htokens]

/-- In `^([)]+?z$` the class keeps the group open, and the `?` finds the class repeated already. -/
theorem suffix_behind_closed_class :
    ∃ pattern token, parse ['^', '(', '[', ')', ']', '+'] = .ok pattern ∧
      pattern.tokens.getLast? = some token ∧
      parse ['^', '(', '[', ')', ']', '+', '?', 'z', '$'] =
        .error (.unsupportedQuantifier .zeroOrOne 6 token.kind) ∧
      token.kind.describe = "quantified atom" := by
  have herror : parse ['^', '(', '[', ')', ']', '+', '?', 'z', '$'] =
      .error (.unsupportedQuantifier .zeroOrOne 6 (.quantified (.set { members := [')'] }) .oneOrMore)) :=
    rfl
  obtain ⟨pattern, -, hparse, -, -, hlast⟩ := misplaced_suffix_is_first _ _ herror
  have hne : pattern.tokens ≠ [] := by
    rintro hnil
    cases hparse
    cases hnil
  obtain ⟨token, htoken, heq, -, -⟩ := hlast hne
  have hkind := (CompileError.unsupportedQuantifier.inj heq).2.2
  exact ⟨pattern, token, hparse, htoken, hkind ▸ herror, hkind ▸ rfl⟩

end Pattern

end LineSearch
