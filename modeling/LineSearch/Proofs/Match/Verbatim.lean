import LineSearch.Proofs.Match.Enumeration
import LineSearch.Proofs.Pattern.Misplaced
import LineSearch.Proofs.Pattern.RoundTrip

/-! Patterns of ordinary characters only. Main statement: such a pattern is found exactly in the lines that
contain its text, whether the text is escaped or has nothing to escape. -/
namespace LineSearch

/-- A text without any character that means something where it stands. -/
structure Verbatim (text : Text) : Prop where
  ordinary : ∀ c ∈ text, c ∉ ['\\', '[', '(', '.', '+', '?']
  start : text.head? ≠ some '^'
  stop : text.getLast? ≠ some '$'

namespace Lexeme

def ofChars (text : Text) : List Lexeme := text.map fun c => .atom (.char c)

private theorem scan_escape (position : Nat) (text : Text) :
    scan position (escape text) = ofChars text := by
  induction text generalizing position with
  | nil => rfl
  | cons c text ih =>
    obtain ⟨again, next, halike, hscan⟩ :=
      (Legible.char c : Legible (escape text) (.atom (.char c))).scan_print position
    cases halike
    exact hscan.trans (congrArg _ (ih next))

private theorem scan_ordinary {text : Text} (h : ∀ c ∈ text, c ∉ ['\\', '[', '(', '.', '+', '?'])
    (position : Nat) : scan position text = ofChars text := by
  induction text generalizing position with
  | nil => rfl
  | cons c text ih =>
    obtain ⟨hc, htext⟩ := List.forall_mem_cons.mp h
    rw [scan, scanFrom, read_ordinary hc]
    exact congrArg _ (ih htext (position + 1))

end Lexeme

def TokenKind.ofChars : Text → List TokenKind
  | [] => []
  | c :: text => [.literal (c :: text)]

private theorem TokenKind.assembled_ofChars (text : Text) :
    Assembled (Lexeme.ofChars text) (ofChars text) := by
  induction text with
  | nil => exact .nil
  | cons c text ih =>
    have hjoin : (ofAtom (.char c)).join (ofChars text) = ofChars (c :: text) := by
      cases text <;> rfl
    rw [← hjoin]
    refine .bareAtom (.char c) ?_ ih
    rintro suffix position tail hsuffix
    cases text <;> cases hsuffix

namespace Pattern

def ofChars (source text : Text) : Pattern where
  source := source
  tokens := (TokenKind.ofChars text).map fun kind => { kind }
  startAnchored := false

theorem parse_escape (text : Text) : parse (escape text) = .ok (ofChars (escape text) text) := by
  have hprint : escape text = (Lexeme.ofChars text).flatMap Lexeme.print := by
    rw [Lexeme.ofChars, List.flatMap_map]
    rfl
  refine parse_of_scan ?_ ?_ (Lexeme.scan_escape 0 text) (TokenKind.assembled_ofChars text)
  · cases text with
    | nil => simp [escape]
    | cons c text =>
      obtain ⟨first, front, hfront, hfirst⟩ := (Lexeme.atom (.char c)).print_eq_cons
      have hhead : escape (c :: text) = first :: (front ++ escape text) :=
        congrArg (· ++ escape text) hfront
      simpa [hhead] using hfirst
  · rw [hprint]
    exact (Settled.nil.append_flatMap_print (Lexeme.ofChars text)).2

theorem parse_of_verbatim {text : Text} (h : Verbatim text) :
    parse text = .ok (ofChars text text) :=
  parse_of_scan h.start (by simp [endsAnchored, h.stop]) (Lexeme.scan_ordinary h.ordinary 0)
    (TokenKind.assembled_ofChars text)

end Pattern

namespace Match
variable {chars : Line}

private theorem infix_iff_drop {sought text : Text} :
    sought <:+: text ↔ ∃ start ≤ text.length, sought <+: text.drop start := by
  constructor
  · rintro ⟨front, back, rfl⟩
    refine ⟨front.length, by simp, ?_⟩
    rw [List.append_assoc, List.drop_left]
    exact List.prefix_append _ _
  · rintro ⟨start, -, h⟩
    exact h.isInfix.trans (List.drop_suffix start text).isInfix

theorem successes_ofChars (f : Text → Nat → Option Nat) (sought : Text) (start : Nat) :
    successes chars f ((TokenKind.ofChars sought).map fun kind => { kind }) start =
      (occurrence chars sought start).toList := by
  cases sought with
  | nil => simp [TokenKind.ofChars, successes, occurrence]
  | cons c sought =>
    simp [TokenKind.ofChars, successes, ends, mayEnd]

theorem nestedBranches_ofChars (sought : Text) :
    nestedBranches ((TokenKind.ofChars sought).map fun kind => { kind }) = [] := by
  cases sought <;> rfl

private theorem need_ofChars (f : Text → Nat) (sought : Text) :
    need f ((TokenKind.ofChars sought).map fun kind => { kind }) = 1 := by
  cases sought <;> rfl

private theorem not_nested_ofChars {sought branch : Text} :
    ¬ Nested ((TokenKind.ofChars sought).map fun kind => { kind }) branch :=
  fun h => h.nestedBranches_ne_nil (nestedBranches_ofChars sought)

theorem isMatch_ofChars {engine : Engine} (he : engine.Reachable) (hlimit : 1 ≤ engine.recursionLimit)
    (text : Text) {source sought : Text} (h : Pattern.parse source = .ok (.ofChars source sought)) :
    ∃ found, (engine.isMatch text source).1 = .ok found ∧ (found = true ↔ sought <:+: text) := by
  have deep : need branchNeed (Pattern.ofChars source sought).tokens ≤ engine.recursionLimit := by
    rw [Pattern.ofChars, need_ofChars]
    exact hlimit
  obtain ⟨found, hfound, hiff⟩ :=
    (isMatch_outcome he text h).answers deep fun _ hnested => absurd hnested not_nested_ofChars
  have here (start : Nat) :
      successes text.toArray (branchEnd text.toArray) (Pattern.ofChars source sought).tokens start ≠ []
        ↔ sought <+: text.drop start := by
    rw [Pattern.ofChars, successes_ofChars, occurrence]
    split <;> simp_all
  have unanchored : (Pattern.ofChars source sought).startAnchored = false := rfl
  refine ⟨found, hfound, ?_⟩
  simp only [hiff, unanchored, here, infix_iff_drop, Bool.false_eq_true, false_implies, true_and]

/-- A text is found exactly in the lines that contain it, where the pattern is the text with each special
character escaped, or the text itself if it has nothing to escape. Such a pattern is one literal, or no
token at all for the empty text. -/
theorem ordinary_text_found_where_it_occurs (sought source : Text)
    (h : source = escape sought ∨ source = sought ∧ Verbatim sought) :
    Pattern.parse source =
      .ok {
        source
        tokens := if sought = [] then [] else [{ kind := .literal sought, endAnchor := false }]
        startAnchored := false } ∧
    ∀ (engine : Engine) (text : Text), engine.Reachable → 1 ≤ engine.recursionLimit →
      ∃ found, (engine.isMatch text source).1 = .ok found ∧ (found = true ↔ sought <:+: text) := by
  have hparse : Pattern.parse source = .ok (.ofChars source sought) := by
    rcases h with rfl | ⟨rfl, hverbatim⟩
    · exact Pattern.parse_escape sought
    · exact Pattern.parse_of_verbatim hverbatim
  refine ⟨?_, fun engine text he hlimit => isMatch_ofChars he hlimit text hparse⟩
  rw [hparse]
  cases sought <;> rfl

/-- The pattern `\\[\$` is the literal `\[$` and finds it. That `])|$x` is not found in `x])|$` tells that it
does not occur there. -/
theorem ordinary_text_found_at_end :
    Pattern.parse ['\\', '\\', '\\', '[', '\\', '$'] =
      .ok {
        source := ['\\', '\\', '\\', '[', '\\', '$']
        tokens := [{ kind := .literal ['\\', '[', '$'] }]
        startAnchored := false } ∧
    (Engine.isMatch { recursionLimit := 1 } ['a', '\\', '[', '$']
      ['\\', '\\', '\\', '[', '\\', '$']).1 = .ok true ∧
    ¬ [']', ')', '|', '$', 'x'] <:+: ['x', ']', ')', '|', '$'] := by
  obtain ⟨escaped, found⟩ := ordinary_text_found_where_it_occurs ['\\', '[', '$'] _ (.inl rfl)
  obtain ⟨-, verbatim⟩ := ordinary_text_found_where_it_occurs [']', ')', '|', '$', 'x'] _
    (.inr ⟨rfl, by simp, by decide, by decide⟩)
  refine ⟨escaped, ?_, ?_⟩
  · obtain ⟨answer, hanswer, hiff⟩ :=
      found { recursionLimit := 1 } ['a', '\\', '[', '$'] (.new 1) (by decide)
    have hoccurs : answer = true := hiff.mpr ⟨['a'], [], rfl⟩
    rw [← hoccurs]
    exact hanswer
  · obtain ⟨answer, hanswer, hiff⟩ :=
      verbatim { recursionLimit := 1 } ['x', ']', ')', '|', '$'] (.new 1) (by decide)
    cases hanswer
    exact fun hinfix => Bool.false_ne_true (hiff.mpr hinfix)

end Match

end LineSearch
