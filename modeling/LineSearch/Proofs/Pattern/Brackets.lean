import Mathlib.Tactic.Common
import LineSearch.Pattern.Lexeme

/-! What the bracket scanners return: classes and group bodies are pieces of the text in front of
their closing bracket, and branches joined by bars are the body they come from. -/
namespace LineSearch.Bracket

theorem classBody?_append {body : Text} (h : ']' ∉ body) (tail : Text) :
    classBody? (body ++ ']' :: tail) = some body := by
  have hne : ∀ c ∈ body, (c != ']') = true := by
    intro c hc
    simp only [bne_iff_ne, ne_eq]
    rintro rfl
    exact h hc
  simp [classBody?, List.takeWhile_append_of_pos hne]

theorem classBody?_eq_none {rest : Text} : classBody? rest = none ↔ ']' ∉ rest := by
  simp [classBody?]

/-- A class ends at the first `]`. -/
theorem classBody?_eq_some {rest body : Text} (h : classBody? rest = some body) :
    ']' ∉ body ∧ ∃ tail, rest = body ++ ']' :: tail := by
  have hmem : ']' ∈ rest := by
    by_contra hn
    rw [classBody?_eq_none.mpr hn] at h
    cases h
  obtain ⟨front, tail, rfl, hfront⟩ := List.eq_append_cons_of_mem hmem
  rw [classBody?_append hfront] at h
  cases h
  exact ⟨hfront, tail, rfl⟩

/-- What a scan is told to skip belongs to the body it finds. -/
theorem skip_le_of_bodyFrom {depth skip : Nat} {text body : Text}
    (h : bodyFrom depth skip text = some body) : skip ≤ body.length := by
  induction text generalizing depth skip body with
  | nil => simp [bodyFrom] at h
  | cons c rest ih =>
    cases skip with
    | zero => exact Nat.zero_le _
    | succ skip =>
      obtain ⟨inner, hi, rfl⟩ := Option.map_eq_some_iff.mp (by simpa only [bodyFrom] using h)
      have := ih hi
      simp only [List.length_cons]
      omega

theorem bodyFrom_eq_append {depth skip : Nat} {text body : Text}
    (h : bodyFrom depth skip text = some body) : ∃ tail, text = body ++ ')' :: tail := by
  induction text generalizing depth skip body with
  | nil => simp [bodyFrom] at h
  | cons c rest ih =>
    have step {depth skip : Nat} (hm : (bodyFrom depth skip rest).map (c :: ·) = some body) :
        ∃ tail, c :: rest = body ++ ')' :: tail := by
      obtain ⟨inner, hi, rfl⟩ := Option.map_eq_some_iff.mp hm
      obtain ⟨tail, rfl⟩ := ih hi
      exact ⟨tail, rfl⟩
    cases skip with
    | succ skip => exact step h
    | zero =>
      simp only [bodyFrom] at h
      split at h
      · cases depth with
        | zero => cases h; exact ⟨rest, by simp_all⟩
        | succ outer => exact step h
      · split at h <;> exact step h

/-- A group body stands in front of the bracket that closes it. -/
theorem groupBody?_eq_append {rest body : Text} (h : groupBody? rest = some body) :
    ∃ tail, rest = body ++ ')' :: tail :=
  bodyFrom_eq_append h

theorem branchesFrom_ne_nil (depth skip : Nat) (text : Text) : branchesFrom depth skip text ≠ [] := by
  induction text generalizing depth skip with
  | nil => simp [branchesFrom]
  | cons c rest ih =>
    cases skip with
    | succ skip => simpa [branchesFrom] using ih depth skip
    | zero =>
      simp only [branchesFrom]
      split_ifs <;> simp [ih]

def joined (pieces : List Text) : Text := (pieces.intersperse ['|']).flatten

private theorem joined_modifyHead (c : Char) {pieces : List Text} (h : pieces ≠ []) :
    joined (pieces.modifyHead (c :: ·)) = c :: joined pieces := by
  cases pieces with
  | nil => exact absurd rfl h
  | cons piece pieces => cases pieces <;> simp [joined, List.intersperse]

private theorem joined_nil_cons {pieces : List Text} (h : pieces ≠ []) :
    joined ([] :: pieces) = '|' :: joined pieces := by
  cases pieces with
  | nil => exact absurd rfl h
  | cons piece pieces => simp [joined, List.intersperse]

private theorem joined_branchesFrom (depth skip : Nat) (text : Text) :
    joined (branchesFrom depth skip text) = text := by
  induction text generalizing depth skip with
  | nil => simp [branchesFrom, joined]
  | cons c rest ih =>
    have step (depth skip : Nat) :
        joined ((branchesFrom depth skip rest).modifyHead (c :: ·)) = c :: rest := by
      rw [joined_modifyHead c (branchesFrom_ne_nil depth skip rest), ih]
    cases skip with
    | succ skip => exact step depth skip
    | zero =>
      simp only [branchesFrom]
      split_ifs with hbar
      · rw [joined_nil_cons (branchesFrom_ne_nil 0 0 rest), ih, hbar.1]
      all_goals exact step _ _

/-- Branches lose nothing of their body but the bars between them. -/
theorem joined_branches (body : Text) : joined (branches body) = body :=
  joined_branchesFrom 0 0 body

private theorem length_le_joined {piece : Text} {pieces : List Text} (h : piece ∈ pieces) :
    piece.length ≤ (joined pieces).length := by
  induction pieces with
  | nil => simp at h
  | cons first pieces ih =>
    cases pieces with
    | nil => simp_all [joined]
    | cons second pieces =>
      have hj : joined (first :: second :: pieces) = first ++ '|' :: joined (second :: pieces) := by
        simp [joined, List.intersperse]
      rw [hj, List.length_append, List.length_cons]
      rcases List.mem_cons.mp h with rfl | h
      · omega
      · have := ih h
        omega

theorem length_le_of_mem_branches {branch body : Text} (h : branch ∈ branches body) :
    branch.length ≤ body.length := by
  simpa only [joined_branches] using length_le_joined h

end LineSearch.Bracket
