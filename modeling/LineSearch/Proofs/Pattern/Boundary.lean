import LineSearch.Proofs.Pattern.Cutting
import LineSearch.Proofs.Pattern.Exposure

/-! Where lexemes begin and end. Between two lexemes of a text the scans over brackets are outside of
escapes and classes too. -/
namespace LineSearch.Lexeme

inductive Takes : (c : Char) → (taken rest : Text) → Prop where
  | loneEscape : Takes '\\' [] []
  | escape (escaped : Char) (rest : Text) : Takes '\\' [escaped] rest
  | openClass {rest : Text} (unclosed : Bracket.classBody? rest = none) : Takes '[' [] rest
  | closedClass {body : Text} (rest : Text) (closed : ']' ∉ body) : Takes '[' (body ++ [']']) rest
  | openGroup {rest : Text} (unbalanced : Bracket.groupBody? rest = none) : Takes '(' [] rest
  | closedGroup {body rest : Text}
      (balanced : Bracket.groupBody? (body ++ ')' :: rest) = some body) : Takes '(' (body ++ [')']) rest
  | plain {c : Char} (rest : Text) (escape : c ≠ '\\') (openClass : c ≠ '[') (openGroup : c ≠ '(') :
      Takes c [] rest

theorem takes_of_read {position : Nat} {c : Char} {taken rest : Text} {lexeme : Lexeme}
    (h : read position c (taken ++ rest) = (lexeme, taken.length)) : Takes c taken rest := by
  by_cases hescape : c = '\\'
  · subst hescape
    rcases hmore : taken ++ rest with _ | ⟨escaped, more⟩
    · obtain ⟨rfl, rfl⟩ := List.append_eq_nil_iff.mp hmore
      exact .loneEscape
    · obtain ⟨found, hfound⟩ := read_escape escaped
      rw [hmore, hfound] at h
      obtain ⟨only, rfl⟩ := List.length_eq_one_iff.mp (Prod.mk.inj h).2.symm
      exact .escape only rest
  by_cases hclass : c = '['
  · subst hclass
    rcases hbody : Bracket.classBody? (taken ++ rest) with _ | body
    · simp only [read, hbody, Prod.mk.injEq] at h
      cases List.eq_nil_of_length_eq_zero h.2.symm
      exact .openClass hbody
    · simp only [read, hbody, Prod.mk.injEq] at h
      obtain ⟨hclosed, tail, hrest⟩ := Bracket.classBody?_eq_some hbody
      obtain ⟨rfl, rfl⟩ := eq_of_taken hrest h.2.symm
      exact .closedClass _ hclosed
  by_cases hgroup : c = '('
  · subst hgroup
    rcases hbody : Bracket.groupBody? (taken ++ rest) with _ | body
    · simp only [read, hbody, Prod.mk.injEq] at h
      cases List.eq_nil_of_length_eq_zero h.2.symm
      exact .openGroup hbody
    · simp only [read, hbody, Prod.mk.injEq] at h
      obtain ⟨tail, hrest⟩ := Bracket.groupBody?_eq_append hbody
      obtain ⟨rfl, rfl⟩ := eq_of_taken hrest h.2.symm
      exact .closedGroup (by simpa using hbody)
  · have hnone := (read_plain hescape hclass hgroup position (taken ++ rest) []).1
    rw [h] at hnone
    cases List.eq_nil_of_length_eq_zero hnone
    exact .plain rest hescape hclass hgroup

/-- A scan of `front ++ rest` has read whole lexemes when it comes to `rest`. -/
inductive Boundary : (front rest : Text) → Prop where
  | start (rest : Text) : Boundary [] rest
  | past {c : Char} {taken front rest : Text} (takes : Takes c taken (front ++ rest))
      (next : Boundary front rest) : Boundary (c :: taken ++ front) rest

/-- Every lexeme of a text starts at a boundary. -/
theorem boundary_of_scan {position : Nat} {text : Text} {before after : List Lexeme} {lexeme : Lexeme}
    (h : scan position text = before ++ lexeme :: after) :
    ∃ front c taken rest, text = front ++ (c :: taken ++ rest) ∧
      Boundary front (c :: taken ++ rest) ∧
      read (position + front.length) c (taken ++ rest) = (lexeme, taken.length) ∧
      scan (position + front.length + 1 + taken.length) rest = after := by
  induction before generalizing position text with
  | nil =>
    obtain ⟨c, taken, rest, rfl, hread, hlater⟩ := scan_eq_cons h
    exact ⟨[], c, taken, rest, rfl, .start _, hread, hlater⟩
  | cons first before ih =>
    obtain ⟨c, taken, rest, rfl, hread, hlater⟩ := scan_eq_cons h
    obtain ⟨front, next, more, behind, rfl, hboundary, hnext, hafter⟩ := ih hlater
    have hlength : position + (c :: taken ++ front).length =
        position + 1 + taken.length + front.length := by
      simp only [List.length_append, List.length_cons]
      omega
    refine ⟨c :: taken ++ front, next, more, behind, by simp, ?_, ?_, ?_⟩
    · exact .past (takes_of_read hread) hboundary
    · rwa [hlength]
    · rwa [hlength]

/-- Behind a lexeme, a lone backslash apart, nothing is shielded. -/
theorem Takes.exposed {c : Char} {taken rest : Text} (h : Takes c taken rest) (hrest : rest ≠ []) :
    Bracket.Exposed (c :: taken) rest := by
  cases h with
  | loneEscape => exact absurd rfl hrest
  | escape escaped rest => rfl
  | openClass unclosed => simp [Bracket.Exposed, Bracket.skipAfter, Bracket.shield, unclosed]
  | @closedClass body rest closed =>
    have hshield : Bracket.shield '[' (body ++ [']'] ++ rest) = (body ++ [']']).length := by
      simp [Bracket.shield, Bracket.classBody?_append closed]
    rw [Bracket.Exposed, Bracket.skipAfter, hshield]
    exact Bracket.skipAfter_length _ _
  | openGroup unbalanced => rfl
  | @closedGroup body rest balanced =>
    have inside : Bracket.skipAfter 0 body (')' :: rest) = 0 :=
      (Bracket.balanced_of_bodyFrom balanced).exposed
    have whole : Bracket.skipAfter 0 (body ++ [')']) rest = 0 := by
      rw [Bracket.skipAfter_append, List.singleton_append, inside]
      rfl
    exact whole
  | plain rest escape openClass openGroup =>
    simp [Bracket.Exposed, Bracket.skipAfter, Bracket.shield, escape, openClass]

/-- Between two lexemes the scans over brackets are outside of escapes and classes. -/
theorem Boundary.exposed {front rest : Text} (h : Boundary front rest) (hrest : rest ≠ []) :
    Bracket.Exposed front rest := by
  induction h with
  | start rest => rfl
  | past takes next ih =>
    have here := takes.exposed (List.append_ne_nil_of_right_ne_nil _ hrest)
    rw [Bracket.Exposed, Bracket.skipAfter_append, here]
    exact ih hrest

end LineSearch.Lexeme
