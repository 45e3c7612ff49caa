import Mathlib.Data.List.Forall2
import LineSearch.Pattern.Parser
import LineSearch.Proofs.Pattern.Brackets

/-! Lexemes written as text and read again, whatever is written behind them. -/
namespace LineSearch

theorem escapeChar_of_special {c : Char} (h : isSpecial c = true) : escapeChar c = ['\\', c] :=
  if_pos h

theorem escapeChar_of_plain {c : Char} (h : ¬ isSpecial c = true) : escapeChar c = [c] :=
  if_neg h

theorem ne_of_plain {c special : Char} (h : ¬ isSpecial c = true) (hs : isSpecial special = true) :
    c ≠ special := by
  rintro rfl
  exact h hs

namespace Bracket
variable {body tail other : Text}

/-- A shield that ends within `front` ends at the same place in front of another text, unless that text
closes a class which `front` leaves open. -/
theorem shield_retail (c : Char) {front rest other : Text} (hclosed : ']' ∈ other → ']' ∈ rest)
    (h : shield c (front ++ rest) ≤ front.length) :
    shield c (front ++ other) = shield c (front ++ rest) := by
  unfold shield at h ⊢
  split_ifs at h ⊢ with hescape hclass
  · rfl
  · by_cases hfront : ']' ∈ front
    · obtain ⟨inside, back, rfl, hinside⟩ := List.eq_append_cons_of_mem hfront
      simp only [List.append_assoc, List.cons_append, classBody?_append hinside]
    · by_cases hrest : ']' ∈ rest
      · obtain ⟨inside, back, rfl, hinside⟩ := List.eq_append_cons_of_mem hrest
        have hcut : ']' ∉ front ++ inside := by simp [hfront, hinside]
        rw [← List.append_assoc, classBody?_append hcut] at h
        simp only [List.length_append] at h
        omega
      · have hother : ']' ∉ other := fun hmem => hrest (hclosed hmem)
        rw [classBody?_eq_none.mpr (by simp [hfront, hother]),
          classBody?_eq_none.mpr (by simp [hfront, hrest])]
  · rfl

private theorem bodyFrom_retail {depth skip : Nat} (hclosed : ']' ∈ other → ']' ∈ tail)
    (h : bodyFrom depth skip (body ++ ')' :: tail) = some body) :
    bodyFrom depth skip (body ++ ')' :: other) = some body := by
  induction body generalizing depth skip with
  | nil =>
    cases skip with
    | succ skip => simp [bodyFrom] at h
    | zero =>
      cases depth with
      | zero => simp [bodyFrom]
      | succ outer => simp [bodyFrom] at h
  | cons c body ih =>
    have step {depth skip : Nat}
        (hm : (bodyFrom depth skip (body ++ ')' :: tail)).map (c :: ·) = some (c :: body)) :
        bodyFrom depth skip (body ++ ')' :: tail) = some body := by
      obtain ⟨inner, hi, heq⟩ := Option.map_eq_some_iff.mp hm
      rwa [List.tail_eq_of_cons_eq heq] at hi
    rw [List.cons_append] at h ⊢
    cases skip with
    | succ skip =>
      simp only [bodyFrom] at h ⊢
      rw [ih (step h), Option.map_some]
    | zero =>
      simp only [bodyFrom] at h ⊢
      split_ifs at h ⊢ with hclose hopen
      · cases depth with
        | zero => simp at h
        | succ outer =>
          simp only at h ⊢
          rw [ih (step h), Option.map_some]
      · rw [ih (step h), Option.map_some]
      · have hinner := step h
        have hbehind : ']' ∈ ')' :: other → ']' ∈ ')' :: tail := by simpa using hclosed
        rw [shield_retail c hbehind (skip_le_of_bodyFrom hinner), ih hinner, Option.map_some]

/-- A group closes at the same bracket in front of another text, unless that text closes a class
which the group leaves open. -/
theorem groupBody?_retail (hclosed : ']' ∈ other → ']' ∈ tail)
    (h : groupBody? (body ++ ')' :: tail) = some body) :
    groupBody? (body ++ ')' :: other) = some body :=
  bodyFrom_retail hclosed h

end Bracket

private theorem CharSet.print_ofBody (body : Text) :
    (CharSet.ofBody body).print = '[' :: body ++ [']'] := by
  unfold ofBody
  split <;> simp [print]

namespace Lexeme

def print : Lexeme → Text
  | .atom a => a.print
  | .group body => '(' :: body ++ [')']
  | .suffix s _ => [s.toChar]

/-- Lexemes that differ in the position of a suffix at most. -/
inductive Alike : Lexeme → Lexeme → Prop where
  | atom (a : Atom) : Alike (.atom a) (.atom a)
  | group (body : Text) : Alike (.group body) (.group body)
  | suffix (s : Suffix) (position other : Nat) : Alike (.suffix s position) (.suffix s other)

/-- Lexemes whose text is read as one lexeme again in front of `tail`. -/
inductive Legible (tail : Text) : Lexeme → Prop where
  | char (c : Char) : Legible tail (.atom (.char c))
  | any : Legible tail (.atom .any)
  | digit : Legible tail (.atom .digit)
  | word : Legible tail (.atom .word)
  | set {body : Text} (closed : ']' ∉ body) : Legible tail (.atom (.set (.ofBody body)))
  | group {body : Text} (balanced : Bracket.groupBody? (body ++ ')' :: tail) = some body) :
      Legible tail (.group body)
  | suffix (s : Suffix) (position : Nat) : Legible tail (.suffix s position)

/-- What has been read is legible in front of what is left. -/
theorem legible_read (position : Nat) (c : Char) (rest : Text) :
    Legible (rest.drop (read position c rest).2) (read position c rest).1 := by
  unfold read
  split
  · split <;> constructor
  · split
    · rename_i body hbody
      exact .set (Bracket.classBody?_eq_some hbody).1
    · constructor
  · split
    · rename_i body hbody
      obtain ⟨tail, rfl⟩ := Bracket.groupBody?_eq_append hbody
      refine .group ?_
      simpa using hbody
    · constructor
  all_goals constructor

private theorem Legible.retail {tail other : Text} {lexeme : Lexeme} (h : Legible tail lexeme)
    (hclosed : ']' ∈ other → ']' ∈ tail) : Legible other lexeme := by
  cases h with
  | group balanced => exact .group (Bracket.groupBody?_retail hclosed balanced)
  | set closed => exact .set closed
  | _ => constructor

private theorem read_escapeChar (position : Nat) (c : Char) (tail : Text) :
    ∃ first front, escapeChar c = first :: front ∧
      read position first (front ++ tail) = (.atom (.char c), front.length) := by
  by_cases h : isSpecial c = true
  · refine ⟨'\\', [c], escapeChar_of_special h, ?_⟩
    have hd : c ≠ 'd' := by rintro rfl; exact absurd h (by decide)
    have hw : c ≠ 'w' := by rintro rfl; exact absurd h (by decide)
    simp only [read, List.singleton_append, List.length_singleton]
  · refine ⟨c, [], escapeChar_of_plain h, ?_⟩
    simp only [isSpecial, List.contains_eq_mem, List.mem_cons, List.not_mem_nil, decide_eq_true_eq,
      or_false, not_or] at h
    simp [read, h]

/-- A legible lexeme is read from its text as it was, wherever that text stands. -/
private theorem Legible.read_print {tail : Text} {lexeme : Lexeme} (h : Legible tail lexeme)
    (position : Nat) : ∃ first front again, lexeme.print = first :: front ∧
      read position first (front ++ tail) = (again, front.length) ∧ Alike again lexeme := by
  cases h with
  | char c =>
    obtain ⟨first, front, hp, hr⟩ := read_escapeChar position c tail
    exact ⟨first, front, _, hp, hr, .atom _⟩
  | any => exact ⟨_, _, _, rfl, rfl, .atom _⟩
  | digit => exact ⟨_, _, _, rfl, rfl, .atom _⟩
  | word => exact ⟨_, _, _, rfl, rfl, .atom _⟩
  | @set body closed =>
    refine ⟨'[', body ++ [']'], _, CharSet.print_ofBody body, ?_, .atom _⟩
    simp [read, Bracket.classBody?_append closed]
  | @group body balanced =>
    refine ⟨'(', body ++ [')'], _, rfl, ?_, .group body⟩
    simp [read, balanced]
  | suffix s other => cases s <;> exact ⟨_, _, _, rfl, rfl, .suffix _ position other⟩

theorem read_ordinary {c : Char} (h : c ∉ ['\\', '[', '(', '.', '+', '?']) (position : Nat)
    (rest : Text) : read position c rest = (.atom (.char c), 0) := by
  simp only [List.mem_cons, List.not_mem_nil, or_false, not_or] at h
  simp [read, h]

theorem scanFrom_append (position : Nat) (front tail : Text) :
    scanFrom position front.length (front ++ tail) = scan (position + front.length) tail := by
  induction front generalizing position with
  | nil => rfl
  | cons c front ih =>
    simp only [List.length_cons, List.cons_append, scanFrom, ih]
    congr 1
    omega

theorem Legible.scan_print {tail : Text} {lexeme : Lexeme} (h : Legible tail lexeme)
    (position : Nat) : ∃ again next, Alike again lexeme ∧
      scan position (lexeme.print ++ tail) = again :: scan next tail := by
  obtain ⟨first, front, again, hp, hr, halike⟩ := h.read_print position
  refine ⟨again, position + 1 + front.length, halike, ?_⟩
  rw [hp, List.cons_append, scan, scanFrom, hr, scanFrom_append]

/-- Printing writes no `]` that was not read. -/
private theorem mem_of_mem_print_read {position : Nat} {c : Char} {rest : Text}
    (h : ']' ∈ (read position c rest).1.print) : ']' ∈ c :: rest := by
  have escaped {c : Char} (h : ']' ∈ (atom (.char c)).print) : ']' = c := by
    simp only [print, Atom.print, escapeChar] at h
    split at h <;> simpa using h
  unfold read at h
  split at h
  · split at h
    · cases escaped h
    · simp [print, Atom.print] at h
    · simp [print, Atom.print] at h
    · cases escaped h
      simp
  · split at h
    · rename_i body hbody
      obtain ⟨-, tail, rfl⟩ := Bracket.classBody?_eq_some hbody
      simp
    · cases escaped h
  · split at h
    · rename_i body hbody
      obtain ⟨tail, rfl⟩ := Bracket.groupBody?_eq_append hbody
      have hbody : ']' ∈ body := by simpa [print] using h
      exact List.mem_cons_of_mem '(' (List.mem_append_left _ hbody)
    · cases escaped h
  · simp [print, Atom.print] at h
  · simp [print, Suffix.toChar] at h
  · simp [print, Suffix.toChar] at h
  · cases escaped h
    simp

private theorem mem_of_mem_print_scanFrom {position skip : Nat} {text : Text}
    (h : ']' ∈ (scanFrom position skip text).flatMap print) : ']' ∈ text.drop skip := by
  induction text generalizing position skip with
  | nil => simp [scanFrom] at h
  | cons c rest ih =>
    cases skip with
    | succ skip => exact ih h
    | zero =>
      rw [scanFrom, List.flatMap_cons, List.mem_append] at h
      rcases h with h | h
      · exact mem_of_mem_print_read h
      · exact List.mem_cons_of_mem c (List.mem_of_mem_drop (ih h))

private theorem alike_read (position other : Nat) (c : Char) (rest : Text) :
    Alike (read position c rest).1 (read other c rest).1 ∧
      (read position c rest).2 = (read other c rest).2 := by
  unfold read
  split
  · exact ⟨by split <;> exact .atom _, rfl⟩
  · exact ⟨by split <;> exact .atom _, rfl⟩
  · refine ⟨?_, rfl⟩
    split
    · exact .group _
    · exact .atom _
  · exact ⟨.atom _, rfl⟩
  · exact ⟨.suffix _ _ _, rfl⟩
  · exact ⟨.suffix _ _ _, rfl⟩
  · exact ⟨.atom _, rfl⟩

/-- Where a text stands shows in the positions of its suffixes only. -/
theorem alike_scanFrom (position other skip : Nat) (text : Text) :
    List.Forall₂ Alike (scanFrom position skip text) (scanFrom other skip text) := by
  induction text generalizing position other skip with
  | nil => exact .nil
  | cons c rest ih =>
    cases skip with
    | succ skip => exact ih (position + 1) (other + 1) skip
    | zero =>
      obtain ⟨halike, hskip⟩ := alike_read position other c rest
      rw [scanFrom, scanFrom, hskip]
      exact .cons halike (ih (position + 1) (other + 1) _)

/-- The lexemes of a text, written one after the other, are the lexemes of what is written. -/
theorem alike_scan_print (position skip other : Nat) (text : Text) :
    List.Forall₂ Alike (scan other ((scanFrom position skip text).flatMap print))
      (scanFrom position skip text) := by
  induction text generalizing position skip other with
  | nil => exact .nil
  | cons c rest ih =>
    cases skip with
    | succ skip => exact ih (position + 1) skip other
    | zero =>
      rw [scanFrom, List.flatMap_cons]
      have hclosed : ']' ∈ (scanFrom (position + 1) (read position c rest).2 rest).flatMap print →
          ']' ∈ rest.drop (read position c rest).2 := mem_of_mem_print_scanFrom
      -- What follows is printed from the rest of the text, so it closes no class left open there.
      have legible := (legible_read position c rest).retail hclosed
      obtain ⟨again, next, halike, hscan⟩ := legible.scan_print other
      rw [hscan]
      exact .cons halike (ih (position + 1) (read position c rest).2 next)

end Lexeme

end LineSearch
