import LineSearch.Proofs.Pattern.Nesting
import LineSearch.Proofs.Pattern.Relexing

/-! A text cut off in front of a suffix. What stands before the cut is read as it was: no class or group
that closes behind the cut was open there, and none that was left open closes by the cut. -/
namespace LineSearch

namespace Bracket

/-- What a scan skips belongs to the body as it stands. -/
theorem bodyFrom_append (depth : Nat) (front rest : Text) :
    bodyFrom depth front.length (front ++ rest) = (bodyFrom depth 0 rest).map (front ++ ·) := by
  induction front with
  | nil => simp
  | cons c front ih =>
    rw [List.length_cons, List.cons_append, bodyFrom, ih, Option.map_map]
    rfl

/-- A scan passes through a group nested in the body, and goes on behind it. -/
private theorem bodyFrom_nested {inner skip : Nat} {body rest : Text}
    (h : bodyFrom inner skip (body ++ ')' :: rest) = some body) (depth : Nat) :
    bodyFrom (inner + 1 + depth) skip (body ++ ')' :: rest) =
      (bodyFrom depth 0 rest).map (body ++ ')' :: ·) := by
  induction body generalizing inner skip with
  | nil =>
    cases skip with
    | succ skip => simp [bodyFrom] at h
    | zero =>
      cases inner with
      | zero => simp [bodyFrom, Nat.add_comm 1 depth]
      | succ outer => simp [bodyFrom] at h
  | cons c body ih =>
    have step {inner skip : Nat}
        (hm : (bodyFrom inner skip (body ++ ')' :: rest)).map (c :: ·) = some (c :: body)) :
        bodyFrom inner skip (body ++ ')' :: rest) = some body := by
      obtain ⟨found, hf, heq⟩ := Option.map_eq_some_iff.mp hm
      rwa [List.tail_eq_of_cons_eq heq] at hf
    have prepend {inner skip : Nat}
        (hm : bodyFrom inner skip (body ++ ')' :: rest) = some body) :
        (bodyFrom (inner + 1 + depth) skip (body ++ ')' :: rest)).map (c :: ·) =
          (bodyFrom depth 0 rest).map (c :: body ++ ')' :: ·) := by
      rw [ih hm, Option.map_map]
      rfl
    rw [List.cons_append] at h ⊢
    cases skip with
    | succ skip =>
      simp only [bodyFrom] at h ⊢
      exact prepend (step h)
    | zero =>
      simp only [bodyFrom] at h ⊢
      split_ifs at h ⊢ with hclose hopen
      · cases inner with
        | zero => simp at h
        | succ outer =>
          simp only at h
          rw [show outer + 1 + 1 + depth = (outer + 1 + depth) + 1 by omega]
          exact prepend (step h)
      · rw [show inner + 1 + depth + 1 = (inner + 1) + 1 + depth by omega]
        exact prepend (step h)
      · exact prepend (step h)

def Steady (front back : Text) : Prop :=
  ∀ depth body, bodyFrom depth 0 front = some body → bodyFrom depth 0 (front ++ back) = some body

namespace Steady
variable {front back : Text}

theorem nil (back : Text) : Steady [] back := by
  intro depth body h
  cases h

private theorem prepend_plain (h : Steady front back) {c : Char} (hclass : c ≠ '[') (hescape : c ≠ '\\') :
    Steady (c :: front) back := by
  have hshield (rest : Text) : shield c rest = 0 := by simp [shield, hclass, hescape]
  intro depth body hbody
  have step {depth : Nat} (hm : (bodyFrom depth 0 front).map (c :: ·) = some body) :
      (bodyFrom depth 0 (front ++ back)).map (c :: ·) = some body := by
    obtain ⟨inner, hi, rfl⟩ := Option.map_eq_some_iff.mp hm
    rw [h depth inner hi]
    rfl
  simp only [List.cons_append, bodyFrom, hshield] at hbody ⊢
  split_ifs at hbody ⊢ with hclose hopen
  · cases depth with
    | zero => exact hbody
    | succ outer => exact step hbody
  · exact step hbody
  · exact step hbody

/-- A character and what it takes out of the scan. -/
private theorem prepend_shield (h : Steady front back) {c : Char} (taken : Text) (hclose : c ≠ ')')
    (hopen : c ≠ '(') (hshort : shield c (taken ++ front) = taken.length)
    (hlong : shield c (taken ++ (front ++ back)) = taken.length) :
    Steady (c :: taken ++ front) back := by
  intro depth body hbody
  simp only [List.cons_append, List.append_assoc, bodyFrom, if_neg hclose, if_neg hopen, hshort,
    hlong, bodyFrom_append] at hbody ⊢
  obtain ⟨found, hf, rfl⟩ := Option.map_eq_some_iff.mp hbody
  obtain ⟨inner, hi, rfl⟩ := Option.map_eq_some_iff.mp hf
  rw [h depth inner hi]
  rfl

/-- A group that closes in front of the cut. -/
private theorem prepend_group (h : Steady front back) {body : Text}
    (hshort : groupBody? (body ++ ')' :: front) = some body)
    (hlong : groupBody? (body ++ ')' :: (front ++ back)) = some body) :
    Steady ('(' :: body ++ ')' :: front) back := by
  intro depth outer houter
  have hopen (rest : Text) : bodyFrom depth 0 ('(' :: (body ++ ')' :: rest)) =
      (bodyFrom (0 + 1 + depth) 0 (body ++ ')' :: rest)).map ('(' :: ·) := by
    rw [Nat.zero_add, Nat.add_comm 1 depth]
    rfl
  simp only [List.cons_append, List.append_assoc] at houter ⊢
  rw [hopen, bodyFrom_nested hshort] at houter
  rw [hopen, bodyFrom_nested hlong]
  obtain ⟨found, hf, rfl⟩ := Option.map_eq_some_iff.mp houter
  obtain ⟨inner, hi, rfl⟩ := Option.map_eq_some_iff.mp hf
  rw [h depth inner hi]
  rfl

end Steady

end Bracket

namespace Lexeme

/-- The first lexeme of a text, with the characters it takes. -/
theorem scan_eq_cons {position : Nat} {text : Text} {lexeme : Lexeme} {later : List Lexeme}
    (h : scan position text = lexeme :: later) :
    ∃ c taken rest, text = c :: taken ++ rest ∧
      read position c (taken ++ rest) = (lexeme, taken.length) ∧
      scan (position + 1 + taken.length) rest = later := by
  cases text with
  | nil => cases h
  | cons c rest =>
    rcases hr : read position c rest with ⟨first, n⟩
    have hn : n ≤ rest.length := by
      have hw := (width_read position c rest).2
      rwa [hr] at hw
    rw [scan, scanFrom, hr] at h
    obtain ⟨rfl, hlater⟩ := List.cons.inj h
    have htaken : (rest.take n).length = n := by simp [hn]
    refine ⟨c, rest.take n, rest.drop n, ?_, ?_, ?_⟩
    · rw [List.cons_append, List.take_append_drop]
    · rw [List.take_append_drop, htaken, hr]
    · have happend := scanFrom_append (position + 1) (rest.take n) (rest.drop n)
      rw [List.take_append_drop, htaken] at happend
      rw [htaken, ← happend]
      exact hlater

/-- An escape takes the character behind it, and looks no further. -/
theorem read_escape (escaped : Char) :
    ∃ lexeme, ∀ position rest, read position '\\' (escaped :: rest) = (lexeme, 1) := by
  by_cases hdigit : escaped = 'd'
  · subst hdigit
    exact ⟨_, fun _ _ => rfl⟩
  · by_cases hword : escaped = 'w'
    · subst hword
      exact ⟨_, fun _ _ => rfl⟩
    · exact ⟨.atom (.char escaped), fun _ _ => by simp [read]⟩

/-- Only escapes and opening brackets look at what follows them. -/
theorem read_plain {c : Char} (hescape : c ≠ '\\') (hclass : c ≠ '[') (hgroup : c ≠ '(')
    (position : Nat) (rest other : Text) :
    (read position c rest).2 = 0 ∧ read position c other = read position c rest := by
  unfold read
  split <;> simp_all

theorem eq_of_taken {taken rest body tail : Text} {stop : Char}
    (hrest : taken ++ rest = body ++ stop :: tail) (hlength : taken.length = body.length + 1) :
    taken = body ++ [stop] ∧ rest = tail := by
  have hsplit : taken ++ rest = (body ++ [stop]) ++ tail := by simpa using hrest
  exact List.append_inj hsplit (by simpa using hlength)

section ReadCut
variable {position : Nat} {c : Char} {taken front back : Text} {lexeme : Lexeme}

private theorem read_cut_escape (hsteady : Bracket.Steady front back) (hback : back ≠ [])
    (h : read position '\\' (taken ++ (front ++ back)) = (lexeme, taken.length)) :
    read position '\\' (taken ++ front) = (lexeme, taken.length) ∧
      Bracket.Steady ('\\' :: taken ++ front) back := by
  obtain ⟨escaped, rest, hrest⟩ : ∃ escaped rest, taken ++ (front ++ back) = escaped :: rest := by
    apply List.exists_cons_of_ne_nil
    simp [hback]
  obtain ⟨found, hfound⟩ := read_escape escaped
  rw [hrest, hfound] at h
  obtain ⟨rfl, hlength⟩ := Prod.mk.inj h
  obtain ⟨only, rfl⟩ := List.length_eq_one_iff.mp hlength.symm
  cases (List.cons.inj hrest).1
  exact ⟨hfound position front, hsteady.prepend_shield [escaped] (by decide) (by decide) rfl rfl⟩

private theorem read_cut_class (hsteady : Bracket.Steady front back)
    (h : read position '[' (taken ++ (front ++ back)) = (lexeme, taken.length)) :
    read position '[' (taken ++ front) = (lexeme, taken.length) ∧
      Bracket.Steady ('[' :: taken ++ front) back := by
  rcases hbody : Bracket.classBody? (taken ++ (front ++ back)) with _ | body
  · simp only [read, hbody, Prod.mk.injEq] at h
    obtain ⟨rfl, hlength⟩ := h
    cases List.eq_nil_of_length_eq_zero hlength.symm
    have hopen : Bracket.classBody? front = none := by
      rw [Bracket.classBody?_eq_none] at hbody ⊢
      simp only [List.nil_append, List.mem_append, not_or] at hbody
      exact hbody.1
    rw [List.nil_append] at hbody
    refine ⟨by simp [read, hopen], ?_⟩
    exact hsteady.prepend_shield [] (by decide) (by decide) (by simp [Bracket.shield, hopen])
      (by simp [Bracket.shield, hbody])
  · simp only [read, hbody, Prod.mk.injEq] at h
    obtain ⟨rfl, hlength⟩ := h
    obtain ⟨hclosed, tail, hrest⟩ := Bracket.classBody?_eq_some hbody
    obtain ⟨rfl, rfl⟩ := eq_of_taken hrest hlength.symm
    have hread (rest : Text) : Bracket.classBody? ((body ++ [']']) ++ rest) = some body := by
      simpa using Bracket.classBody?_append hclosed rest
    refine ⟨by simp only [read, hread, hlength], ?_⟩
    apply hsteady.prepend_shield (body ++ [']']) (by decide) (by decide)
    · simp only [Bracket.shield, hread]
      simp
    · simp only [Bracket.shield, hread]
      simp

private theorem read_cut_group (hsteady : Bracket.Steady front back)
    (h : read position '(' (taken ++ (front ++ back)) = (lexeme, taken.length)) :
    read position '(' (taken ++ front) = (lexeme, taken.length) ∧
      Bracket.Steady ('(' :: taken ++ front) back := by
  rcases hbody : Bracket.groupBody? (taken ++ (front ++ back)) with _ | body
  · simp only [read, hbody, Prod.mk.injEq] at h
    obtain ⟨rfl, hlength⟩ := h
    cases List.eq_nil_of_length_eq_zero hlength.symm
    have hopen : Bracket.groupBody? front = none := by
      rcases hfront : Bracket.groupBody? front with _ | body
      · rfl
      · have hwhole := hsteady 0 body hfront
        rw [List.nil_append, Bracket.groupBody?, hwhole] at hbody
        cases hbody
    refine ⟨by simp [read, hopen], ?_⟩
    exact hsteady.prepend_plain (by decide) (by decide)
  · simp only [read, hbody, Prod.mk.injEq] at h
    obtain ⟨rfl, hlength⟩ := h
    obtain ⟨tail, hrest⟩ := Bracket.groupBody?_eq_append hbody
    obtain ⟨rfl, rfl⟩ := eq_of_taken hrest hlength.symm
    have hlong : Bracket.groupBody? (body ++ ')' :: (front ++ back)) = some body := by
      simpa using hbody
    have hshort : Bracket.groupBody? (body ++ ')' :: front) = some body :=
      Bracket.groupBody?_retail (List.mem_append_left back) hlong
    refine ⟨?_, by simpa using hsteady.prepend_group hshort hlong⟩
    simp [read, hshort]

/-- A lexeme that ends in front of the cut is read as it was, and what is steady behind it stays so. -/
private theorem read_cut (hsteady : Bracket.Steady front back) (hback : back ≠ [])
    (h : read position c (taken ++ (front ++ back)) = (lexeme, taken.length)) :
    read position c (taken ++ front) = (lexeme, taken.length) ∧
      Bracket.Steady (c :: taken ++ front) back := by
  by_cases hescape : c = '\\'
  · subst hescape
    exact read_cut_escape hsteady hback h
  by_cases hclass : c = '['
  · subst hclass
    exact read_cut_class hsteady h
  by_cases hgroup : c = '('
  · subst hgroup
    exact read_cut_group hsteady h
  · obtain ⟨hnone, hsame⟩ := read_plain hescape hclass hgroup position (taken ++ (front ++ back))
      (taken ++ front)
    rw [h] at hnone hsame
    cases List.eq_nil_of_length_eq_zero hnone
    exact ⟨hsame, hsteady.prepend_plain hclass hescape⟩

end ReadCut

/-- A suffix is read from its own character. -/
private theorem eq_of_read_suffix {position : Nat} {c : Char} {rest : Text} {s : Suffix} {k n : Nat}
    (h : read position c rest = (.suffix s k, n)) : c = s.toChar ∧ k = position ∧ n = 0 := by
  unfold read at h
  repeat' split at h
  all_goals simp_all
  all_goals (obtain ⟨⟨rfl, rfl⟩, rfl⟩ := h; simp [Suffix.toChar])

/-- A text that holds a suffix at some position, cut in front of it: the suffix stands at that position,
what comes before is read alone as it was, and so is what comes after. -/
theorem scan_cut {position : Nat} {text : Text} {before after : List Lexeme} {s : Suffix} {k : Nat}
    (h : scan position text = before ++ .suffix s k :: after) :
    ∃ front back, text = front ++ s.toChar :: back ∧ k = position + front.length ∧
      scan position front = before ∧ scan (k + 1) back = after ∧
      Bracket.Steady front (s.toChar :: back) := by
  induction before generalizing position text with
  | nil =>
    obtain ⟨c, taken, rest, rfl, hread, hlater⟩ := scan_eq_cons h
    obtain ⟨rfl, rfl, hlength⟩ := eq_of_read_suffix hread
    cases List.eq_nil_of_length_eq_zero hlength
    exact ⟨[], rest, rfl, rfl, rfl, hlater, .nil _⟩
  | cons lexeme before ih =>
    obtain ⟨c, taken, rest, rfl, hread, hlater⟩ := scan_eq_cons h
    obtain ⟨front, back, rfl, rfl, hbefore, hafter, hsteady⟩ := ih hlater
    obtain ⟨hcut, hsteady⟩ := read_cut hsteady (List.cons_ne_nil _ _) hread
    refine ⟨c :: taken ++ front, back, by simp, by simp; omega, ?_, hafter, hsteady⟩
    rw [List.cons_append, scan, scanFrom, hcut, scanFrom_append, hbefore]

end Lexeme

end LineSearch
