import LineSearch.Proofs.Pattern.Misplaced

/-! Atoms as they are written in a pattern, also between brackets: one lexeme, which no scan over brackets
looks into. -/
namespace LineSearch

namespace Atom

inductive Written : Atom → Text → Prop where
  | plain {c : Char} (ordinary : c ∉ ['\\', '[', '(', ')', '|', '.', '+', '?', '^', '$']) :
    Written (.char c) [c]
  | escaped {c : Char} (special : c ∈ ['\\', '[', '(', ')', '|', '.', '+', '?', '^', '$']) :
    Written (.char c) ['\\', c]
  | any : Written .any ['.']
  | digit : Written .digit ['\\', 'd']
  | word : Written .word ['\\', 'w']
  /-- A class: everything up to the first `]` belongs to it. -/
  | set {body : Text} (closed : ']' ∉ body) : Written (.set (.ofBody body)) ('[' :: body ++ [']'])

/-- Does the atom read as one lexeme, of which the scans over brackets see the first character only? -/
structure Solid (atom : Atom) (first : Char) (front : Text) : Prop where
  unmarked : first ∉ ['(', ')', '|', '^']
  shielded : ∀ rest, Bracket.shield first (front ++ rest) = front.length
  read : ∀ position rest, Lexeme.read position first (front ++ rest) = (.atom atom, front.length)

private theorem Written.solid {atom : Atom} {text : Text} (h : atom.Written text) :
    ∃ first front, text = first :: front ∧ Solid atom first front := by
  cases h with
  | @plain c ordinary =>
    simp only [List.mem_cons, List.not_mem_nil, or_false, not_or] at ordinary
    refine ⟨c, [], rfl, by simp [ordinary], fun rest => ?_, fun position rest => ?_⟩
    · simp [Bracket.shield, ordinary]
    · exact Lexeme.read_ordinary (by simp [ordinary]) position rest
  | @escaped c special =>
    refine ⟨'\\', [c], rfl, by decide, fun rest => rfl, fun position rest => ?_⟩
    have hd : c ≠ 'd' := by rintro rfl; exact absurd special (by decide)
    have hw : c ≠ 'w' := by rintro rfl; exact absurd special (by decide)
    simp [Lexeme.read]
  | any => exact ⟨'.', [], rfl, by decide, fun rest => rfl, fun position rest => rfl⟩
  | digit => exact ⟨'\\', ['d'], rfl, by decide, fun rest => rfl, fun position rest => rfl⟩
  | word => exact ⟨'\\', ['w'], rfl, by decide, fun rest => rfl, fun position rest => rfl⟩
  | @set body closed =>
    refine ⟨'[', body ++ [']'], rfl, by decide, fun rest => ?_, fun position rest => ?_⟩
    · simp [Bracket.shield, Bracket.classBody?_append closed]
    · simp [Lexeme.read, Bracket.classBody?_append closed]

theorem Written.endsAnchored_eq_false {atom : Atom} {text : Text} (h : atom.Written text) :
    Pattern.endsAnchored text = false := by
  cases h with
  | @plain c ordinary =>
    have hc : c ≠ '$' := by rintro rfl; exact ordinary (by decide)
    simp [Pattern.endsAnchored, hc]
  | @escaped c special => simp [Pattern.endsAnchored]
  | set closed =>
    rw [Pattern.endsAnchored, List.getLast?_concat]
    rfl
  | _ => rfl

end Atom

namespace Bracket

/-- What is shielded to its end is one branch. -/
private theorem branchesFrom_length (depth : Nat) (text : Text) :
    branchesFrom depth text.length text = [text] := by
  induction text with
  | nil => rfl
  | cons c text ih => simp [branchesFrom, ih]

end Bracket

namespace Atom.Solid
variable {atom : Atom} {first : Char} {front : Text} (h : Solid atom first front)
include h

/-- In brackets the atom is all of the group. -/
theorem groupBody? (rest : Text) :
    Bracket.groupBody? (first :: front ++ ')' :: rest) = some (first :: front) := by
  have hmarked := h.unmarked
  simp only [List.mem_cons, List.not_mem_nil, or_false, not_or] at hmarked
  have hbody : Bracket.bodyFrom 0 front.length (front ++ ')' :: rest) = some front := by
    simp [Bracket.bodyFrom_append, Bracket.bodyFrom]
  simp [Bracket.groupBody?, Bracket.bodyFrom, hmarked, h.shielded, hbody]

theorem branches : Bracket.branches (first :: front) = [first :: front] := by
  have hmarked := h.unmarked
  simp only [List.mem_cons, List.not_mem_nil, or_false, not_or] at hmarked
  have hshield : Bracket.shield first front = front.length := by simpa using h.shielded []
  simp [Bracket.branches, Bracket.branchesFrom, hmarked, hshield, Bracket.branchesFrom_length]

theorem scan (position : Nat) (rest : Text) :
    Lexeme.scan position (first :: front ++ rest) =
      .atom atom :: Lexeme.scan (position + 1 + front.length) rest := by
  rw [List.cons_append, Lexeme.scan, Lexeme.scanFrom, h.read, Lexeme.scanFrom_append]

/-- The lexemes of the atom in brackets, repeated. -/
theorem scan_grouped (position : Nat) : ∃ behind,
    Lexeme.scan position ('(' :: (first :: front) ++ [')', '+']) =
      [.group (first :: front), .suffix .oneOrMore behind] := by
  have hread : Lexeme.read position '(' (first :: front ++ [')', '+']) =
      (.group (first :: front), (first :: front).length + 1) := by
    simp only [Lexeme.read, h.groupBody?]
  have hrest := Lexeme.scanFrom_append (position + 1) (first :: front ++ [')']) ['+']
  rw [List.append_assoc, List.length_append] at hrest
  refine ⟨position + 1 + ((first :: front).length + 1), ?_⟩
  rw [List.cons_append, Lexeme.scan, Lexeme.scanFrom, hread]
  exact congrArg _ hrest

end Atom.Solid

namespace Pattern
variable {atom : Atom} {text : Text}

def ofKind (source : Text) (kind : TokenKind) : Pattern where
  source := source
  tokens := [{ kind }]
  startAnchored := false

private theorem head?_of_written (h : atom.Written text) (rest : Text) :
    (text ++ rest).head? ≠ some '^' := by
  obtain ⟨first, front, rfl, hsolid⟩ := h.solid
  have hfirst : first ≠ '^' := by rintro rfl; exact hsolid.unmarked (by decide)
  simpa using hfirst

theorem parse_of_written (h : atom.Written text) : parse text = .ok (ofKind text (.ofAtom atom)) := by
  have hhead : text.head? ≠ some '^' := by simpa using head?_of_written h []
  obtain ⟨first, front, rfl, hsolid⟩ := h.solid
  have hscan := hsolid.scan 0 []
  rw [List.append_nil] at hscan
  have hkinds : TokenKind.Assembled [.atom atom] [.ofAtom atom] := by
    have hjoin : (TokenKind.ofAtom atom).join [] = [.ofAtom atom] := by cases atom <;> rfl
    rw [← hjoin]
    exact .bareAtom atom (by rintro _ _ _ ⟨⟩) .nil
  exact parse_of_scan hhead h.endsAnchored_eq_false hscan hkinds

private theorem endsAnchored_repeated (text : Text) : endsAnchored (text ++ ['+']) = false := by
  simp [endsAnchored]

theorem parse_repeated (h : atom.Written text) :
    parse (text ++ ['+']) = .ok (ofKind (text ++ ['+']) (.ofRepeated atom .oneOrMore)) := by
  have hhead := head?_of_written h ['+']
  obtain ⟨first, front, rfl, hsolid⟩ := h.solid
  exact parse_of_scan hhead (endsAnchored_repeated _) (hsolid.scan 0 ['+'])
    (.repeatedAtom atom .oneOrMore _ .nil)

theorem parse_repeated_group (h : atom.Written text) :
    parse ('(' :: text ++ [')', '+']) =
      .ok (ofKind ('(' :: text ++ [')', '+']) (.group text [text] (some .oneOrMore))) := by
  obtain ⟨first, front, rfl, hsolid⟩ := h.solid
  obtain ⟨behind, hscan⟩ := hsolid.scan_grouped 0
  have hkind : TokenKind.ofGroup (first :: front) (some .oneOrMore) =
      .group (first :: front) [first :: front] (some .oneOrMore) := by
    simp [TokenKind.ofGroup, hsolid.branches]
  have hanchor : endsAnchored ('(' :: (first :: front) ++ [')', '+']) = false := by
    simp [endsAnchored, List.getLast?_cons]
  have hkinds : TokenKind.Assembled [.group (first :: front), .suffix .oneOrMore behind]
      [TokenKind.ofGroup (first :: front) (some .oneOrMore)] :=
    .repeatedGroup _ .oneOrMore behind .nil
  rw [hkind] at hkinds
  exact parse_of_scan (by simp) hanchor hscan hkinds

end Pattern

end LineSearch
