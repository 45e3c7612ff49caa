import Mathlib.Tactic.ByContra
import LineSearch.Text

/-! Characters as bytes, read one at a time. The reader is within a character exactly while the bytes it
has read begin one without finishing it, and what it finishes is the character that was written. -/
namespace LineSearch.Utf8
open String (utf8EncodeChar)

theorem lead_cases (b : UInt8) :
    (b < 0x80 ∧ lead b = ([some (Char.ofNat b.toNat)], .start)) ∨ lead b = ([none], .start) ∨
      ∃ bits owed low high, lead b = ([], .inside bits owed low high) := by
  fun_cases lead b with
  | case1 h => exact .inl ⟨h, rfl⟩
  | case2 | case10 => exact .inr (.inl rfl)
  | _ => exact .inr (.inr ⟨_, _, _, _, rfl⟩)

/-- The first bytes that open a character of several, and what the second byte has to be: none of them
leaves room for an overlong form, a surrogate or a value above U+10FFFF. -/
private theorem lead_eq_inside {b low high : UInt8} {bits owed : Nat} :
    lead b = ([], .inside bits owed low high) ↔
      (owed = 1 ∧ 2 ≤ bits ∧ bits < 32 ∧ b.toNat = 0xC0 + bits ∧ low.toNat = 0x80 ∧ high.toNat = 0xBF) ∨
      (owed = 2 ∧ bits < 16 ∧ b.toNat = 0xE0 + bits ∧
        (bits = 0 → low.toNat = 0xA0) ∧ (bits ≠ 0 → low.toNat = 0x80) ∧
        (bits = 0xD → high.toNat = 0x9F) ∧ (bits ≠ 0xD → high.toNat = 0xBF)) ∨
      (owed = 3 ∧ bits < 5 ∧ b.toNat = 0xF0 + bits ∧
        (bits = 0 → low.toNat = 0x90) ∧ (bits ≠ 0 → low.toNat = 0x80) ∧
        (bits = 4 → high.toNat = 0x8F) ∧ (bits ≠ 4 → high.toNat = 0xBF)) := by
  fun_cases lead b
  all_goals
    simp only [Prod.mk.injEq, State.inside.injEq, true_and, reduceCtorEq, and_false, false_iff,
      List.cons_ne_nil, UInt8.lt_iff_toNat_lt, ← UInt8.toNat_inj, UInt8.reduceToNat] at *
  all_goals omega

section Step
variable {bits owed : Nat} {low high b : UInt8} {state next : State}

private theorem within_iff : (low ≤ b ∧ b ≤ high) ↔ low.toNat ≤ b.toNat ∧ b.toNat ≤ high.toNat := by
  rw [UInt8.le_iff_toNat_le, UInt8.le_iff_toNat_le]

def State.more (bits owed : Nat) (b : UInt8) : State :=
  .inside (bits * 64 + (b.toNat - 0x80)) (owed - 1) 0x80 0xBF

theorem step_more (within : low ≤ b ∧ b ≤ high) (due : 1 < owed) :
    step (.inside bits owed low high) b = ([], .more bits owed b) := by
  rw [step, if_pos within, if_neg (Nat.not_le.mpr due), State.more]

private theorem step_last (within : low ≤ b ∧ b ≤ high) (due : owed ≤ 1) :
    step (.inside bits owed low high) b =
      ([some (Char.ofNat (bits * 64 + (b.toNat - 0x80)))], .start) := by
  rw [step, if_pos within, if_pos due]

theorem step_broken (beyond : ¬(low ≤ b ∧ b ≤ high)) :
    step (.inside bits owed low high) b = (none :: (lead b).1, (lead b).2) := by
  rw [step, if_neg beyond]

private theorem step_eq_nil (h : step (.inside bits owed low high) b = ([], next)) :
    (low ≤ b ∧ b ≤ high) ∧ 1 < owed ∧ next = .more bits owed b := by
  by_cases within : low ≤ b ∧ b ≤ high
  · by_cases due : owed ≤ 1
    · rw [step_last within due] at h
      cases h
    · rw [step_more within (Nat.not_le.mp due)] at h
      exact ⟨within, Nat.not_le.mp due, (Prod.mk.inj h).2.symm⟩
  · rw [step_broken within] at h
    cases h

theorem pieces_cons (state : State) (b : UInt8) (rest : Bytes) :
    pieces state (b :: rest) = (step state b).1 ++ pieces (step state b).2 rest := by
  cases state <;> rfl

end Step

section Values
variable {p q r s : Nat} {x y z w : UInt8}

private theorem val_ofNat {v : Nat} (h : v < 0xD800 ∨ 0xDFFF < v ∧ v < 0x110000) :
    (Char.ofNat v).val.toNat = v := by
  rw [Char.ofNat, dif_pos h]
  rfl

private theorem encode_two (hp : 2 ≤ p ∧ p < 32) (hq : q < 64) (hx : x.toNat = 0xC0 + p)
    (hy : y.toNat = 0x80 + q) : utf8EncodeChar (Char.ofNat (p * 64 + q)) = [x, y] := by
  rw [utf8EncodeChar, val_ofNat (by omega), if_neg (by omega), if_pos (by omega)]
  simp only [List.cons.injEq, ← UInt8.toNat_inj, UInt8.toNat_ofNat', and_true]
  omega

private theorem encode_three (hp : p < 16) (hq : q < 64) (hr : r < 64) (long : p = 0 → 32 ≤ q)
    (valid : p = 0xD → q < 32) (hx : x.toNat = 0xE0 + p) (hy : y.toNat = 0x80 + q) (hz : z.toNat = 0x80 + r) :
    utf8EncodeChar (Char.ofNat ((p * 64 + q) * 64 + r)) = [x, y, z] := by
  rw [utf8EncodeChar, val_ofNat (by omega), if_neg (by omega), if_neg (by omega), if_pos (by omega)]
  simp only [List.cons.injEq, ← UInt8.toNat_inj, UInt8.toNat_ofNat', and_true]
  omega

private theorem encode_four (hp : p < 5) (hq : q < 64) (hr : r < 64) (hs : s < 64) (long : p = 0 → 16 ≤ q)
    (valid : p = 4 → q < 16) (hx : x.toNat = 0xF0 + p) (hy : y.toNat = 0x80 + q)
    (hz : z.toNat = 0x80 + r) (hw : w.toNat = 0x80 + s) :
    utf8EncodeChar (Char.ofNat (((p * 64 + q) * 64 + r) * 64 + s)) = [x, y, z, w] := by
  rw [utf8EncodeChar, val_ofNat (by omega), if_neg (by omega), if_neg (by omega), if_neg (by omega)]
  simp only [List.cons.injEq, ← UInt8.toNat_inj, UInt8.toNat_ofNat', and_true]
  omega

end Values

theorem encode_ascii {b : UInt8} (h : b < 0x80) : utf8EncodeChar (Char.ofNat b.toNat) = [b] := by
  have hb : b.toNat < 128 := UInt8.lt_iff_toNat_lt.mp h
  rw [utf8EncodeChar, val_ofNat (by omega)]
  simp only [if_pos (show b.toNat ≤ 127 by omega), UInt8.ofNat_toNat]

inductive Underway : Bytes → State → Prop where
  | opened {b low high : UInt8} {bits owed : Nat} (led : lead b = ([], .inside bits owed low high)) :
    Underway [b] (.inside bits owed low high)
  | continued {read : Bytes} {bits owed : Nat} {low high b : UInt8} {next : State}
    (before : Underway read (.inside bits owed low high))
    (silent : step (.inside bits owed low high) b = ([], next)) : Underway (read ++ [b]) next

namespace Underway
variable {read rest : Bytes} {state : State} {b low high : UInt8} {bits owed : Nat}

/-- Nothing comes of the bytes until the character is finished or broken off. -/
theorem pieces_append (h : Underway read state) (rest : Bytes) :
    pieces .start (read ++ rest) = pieces state rest := by
  induction h generalizing rest with
  | opened led => rw [List.singleton_append, pieces_cons, step, led, List.nil_append]
  | continued before silent ih =>
    rw [List.append_assoc, ih, List.singleton_append, pieces_cons, silent, List.nil_append]

theorem inside (h : Underway read state) : ∃ bits owed low high, state = .inside bits owed low high := by
  cases h with
  | opened led => exact ⟨_, _, _, _, rfl⟩
  | continued before silent => exact ⟨_, _, _, _, (step_eq_nil silent).2.2⟩

private theorem owed_le (h : Underway read state) :
    ∀ bits owed low high, state = .inside bits owed low high → owed ≤ 3 := by
  induction h with
  | opened led =>
    intro bits owed low high heq
    rw [heq] at led
    have := lead_eq_inside.mp led
    omega
  | continued before silent ih =>
    intro bits owed low high heq
    obtain ⟨-, -, hmore⟩ := step_eq_nil silent
    have hleft := (State.inside.inj (heq.symm.trans hmore)).2.1
    have := ih _ _ _ _ rfl
    omega

/-- The byte read last either opened the character or continued it. -/
private theorem inside_cases (h : Underway read (.inside bits owed low high)) :
    (∃ x, read = [x] ∧ lead x = ([], .inside bits owed low high)) ∨
      ∃ front x bits' owed' low' high', read = front ++ [x] ∧
        Underway front (.inside bits' owed' low' high') ∧ low'.toNat ≤ x.toNat ∧ x.toNat ≤ high'.toNat ∧
        1 < owed' ∧ bits = bits' * 64 + (x.toNat - 0x80) ∧ owed = owed' - 1 ∧
        low.toNat = 0x80 ∧ high.toNat = 0xBF := by
  cases h with
  | opened led => exact .inl ⟨_, rfl, led⟩
  | continued before silent =>
    obtain ⟨⟨ge, le⟩, due, heq⟩ := step_eq_nil silent
    obtain ⟨hbits, howed, rfl, rfl⟩ := State.inside.inj heq
    exact .inr ⟨_, _, _, _, _, _, rfl, before, UInt8.le_iff_toNat_le.mp ge, UInt8.le_iff_toNat_le.mp le,
      due, hbits, howed, rfl, rfl⟩

/-- No byte that continues a character is below 0x80, and some byte continues it. -/
theorem range (h : Underway read (.inside bits owed low high)) :
    0x80 ≤ low.toNat ∧ low.toNat ≤ high.toNat := by
  rcases h.inside_cases with ⟨x, -, led⟩ | ⟨front, x, _, _, _, _, -, -, -, -, -, -, -, hl, hh⟩
  · have := lead_eq_inside.mp led
    omega
  · omega

/-- The last byte finishes the character whose bytes have been read. -/
theorem finish (h : Underway read (.inside bits owed low high)) (within : low ≤ b ∧ b ≤ high)
    (last : owed ≤ 1) :
    utf8EncodeChar (Char.ofNat (bits * 64 + (b.toNat - 0x80))) = read ++ [b] := by
  obtain ⟨ge, le⟩ := within_iff.mp within
  rcases h.inside_cases with ⟨x, rfl, led⟩ |
    ⟨front, y, bits₁, owed₁, low₁, high₁, rfl, before, ge₁, le₁, due₁, hbits, howed, hlow, hhigh⟩
  · have hx := (lead_eq_inside.mp led).resolve_right (by omega)
    apply encode_two <;> omega
  rw [hbits]
  rcases before.inside_cases with ⟨x, rfl, led⟩ |
    ⟨front, z, bits₂, owed₂, low₂, high₂, rfl, before, ge₂, le₂, due₂, hbits₁, howed₁, hlow₁, hhigh₁⟩
  · have hx := ((lead_eq_inside.mp led).resolve_left (by omega)).resolve_right (by omega)
    apply encode_three <;> omega
  rw [hbits₁]
  rcases before.inside_cases with ⟨x, rfl, led⟩ |
    ⟨front, w, bits₃, owed₃, low₃, high₃, rfl, before, ge₃, le₃, due₃, hbits₂, howed₂, hlow₂, hhigh₂⟩
  · have hx := ((lead_eq_inside.mp led).resolve_left (by omega)).resolve_left (by omega)
    apply encode_four <;> omega
  · have := before.owed_le _ _ _ _ rfl
    omega

/-- Bytes that have been read can be gone on with to the end of a character. -/
theorem completable (h : Underway read (.inside bits owed low high)) :
    ∃ c more, utf8EncodeChar c = read ++ more ∧ more ≠ [] := by
  have within : low ≤ low ∧ low ≤ high := ⟨UInt8.le_refl low, UInt8.le_iff_toNat_le.mpr h.range.2⟩
  induction owed generalizing read bits low high with
  | zero => exact ⟨_, [low], h.finish within (Nat.zero_le 1), List.cons_ne_nil _ _⟩
  | succ left ih =>
    by_cases due : left + 1 ≤ 1
    · exact ⟨_, [low], h.finish within due, List.cons_ne_nil _ _⟩
    · have further : Underway (read ++ [low]) (.inside _ left 0x80 0xBF) :=
        h.continued (step_more within (Nat.not_le.mp due))
      obtain ⟨c, more, hc, -⟩ := ih further (by decide)
      refine ⟨c, low :: more, ?_, List.cons_ne_nil _ _⟩
      rw [hc, List.append_assoc, List.singleton_append]

end Underway

/-- The bytes that lead from a state within a character to its end, and the character. -/
inductive Completes (c : Char) : State → Bytes → Prop where
  | last {state : State} {b : UInt8} (done : step state b = ([some c], .start)) : Completes c state [b]
  | next {state next : State} {b : UInt8} {rest : Bytes} (silent : step state b = ([], next))
    (after : Completes c next rest) : Completes c state (b :: rest)

theorem Completes.pieces_append {c : Char} {state : State} {bytes : Bytes} (h : Completes c state bytes)
    (rest : Bytes) : pieces state (bytes ++ rest) = some c :: pieces .start rest := by
  induction h with
  | last done => rw [List.singleton_append, pieces_cons, done, List.singleton_append]
  | next silent after ih => rw [List.cons_append, pieces_cons, silent, List.nil_append, ih]

theorem Completes.within {c : Char} {b low high : UInt8} {bits owed : Nat} {rest : Bytes}
    (h : Completes c (.inside bits owed low high) (b :: rest)) : low ≤ b ∧ b ≤ high := by
  by_contra beyond
  cases h with
  | last done =>
    rw [step_broken beyond] at done
    cases done
  | next silent =>
    rw [step_broken beyond] at silent
    cases silent

/-- What completes a character can be read in two parts. -/
private theorem Underway.of_completes {c : Char} {read front more : Bytes} {state : State}
    (h : Underway read state) (completes : Completes c state (front ++ more)) (hne : more ≠ []) :
    ∃ next, Underway (read ++ front) next ∧ Completes c next more := by
  induction front generalizing read state with
  | nil =>
    rw [List.append_nil]
    exact ⟨state, h, completes⟩
  | cons b front ih =>
    rw [List.cons_append] at completes
    generalize hrest : front ++ more = rest at completes
    cases completes with
    | last done => exact absurd (List.append_eq_nil_iff.mp hrest).2 hne
    | next silent after =>
      obtain ⟨bits, owed, low, high, rfl⟩ := h.inside
      rw [List.append_cons]
      exact ih (h.continued silent) (hrest ▸ after)

private theorem exists_bound (p : Prop) [Decidable p] (x y : UInt8) :
    ∃ bound : UInt8, (p → bound.toNat = x.toNat) ∧ (¬p → bound.toNat = y.toNat) := by
  refine ⟨if p then x else y, ?_, ?_⟩
  · intro h
    rw [if_pos h]
  · intro h
    rw [if_neg h]

def Opens (c : Char) (bytes : Bytes) : Prop :=
  ∃ b bits owed low high rest, bytes = b :: rest ∧ lead b = ([], .inside bits owed low high) ∧
    Completes c (.inside bits owed low high) rest

def tail (n : Nat) : UInt8 := UInt8.ofNat (n % 64 + 0x80)

section Opens
variable {v : Nat}

private theorem toNat_tail (n : Nat) : (tail n).toNat = n % 64 + 0x80 := by
  rw [tail, UInt8.toNat_ofNat']
  omega

private theorem tail_within (n : Nat) : 0x80 ≤ tail n ∧ tail n ≤ 0xBF := by
  simp only [within_iff, toNat_tail, UInt8.reduceToNat]
  omega

private theorem step_tail {bits n : Nat} (h : bits * 64 + n % 64 = v) :
    step (.inside bits 1 0x80 0xBF) (tail n) = ([some (Char.ofNat v)], .start) := by
  rw [step_last (tail_within n) (Nat.le_refl 1), toNat_tail, Nat.add_sub_cancel, h]

private theorem opens_two (hv : 0x80 ≤ v) (hv' : v < 0x800) :
    Opens (Char.ofNat v) [UInt8.ofNat (v / 64 % 32 + 0xC0), tail v] := by
  refine ⟨_, v / 64, 1, 0x80, 0xBF, _, rfl, ?_, .last (step_tail (by omega))⟩
  refine lead_eq_inside.mpr (.inl ⟨rfl, by omega, by omega, ?_, rfl, rfl⟩)
  rw [UInt8.toNat_ofNat']
  omega

private theorem opens_three (hv : 0x800 ≤ v) (hv' : v < 0xD800 ∨ 0xDFFF < v ∧ v < 0x10000) :
    Opens (Char.ofNat v) [UInt8.ofNat (v / 4096 % 16 + 0xE0), tail (v / 64), tail v] := by
  obtain ⟨low, hl, hl'⟩ := exists_bound (v / 4096 = 0) 0xA0 0x80
  obtain ⟨high, hh, hh'⟩ := exists_bound (v / 4096 = 0xD) 0x9F 0xBF
  simp only [UInt8.reduceToNat] at hl hl' hh hh'
  have second : low ≤ tail (v / 64) ∧ tail (v / 64) ≤ high := by
    rw [within_iff, toNat_tail]
    omega
  have third : v / 4096 * 64 + ((tail (v / 64)).toNat - 0x80) = v / 64 := by
    rw [toNat_tail]
    omega
  refine ⟨_, v / 4096, 2, low, high, _, rfl, ?_, .next (step_more second (by decide)) (.last ?_)⟩
  · refine lead_eq_inside.mpr (.inr (.inl ⟨rfl, by omega, ?_, hl, hl', hh, hh'⟩))
    rw [UInt8.toNat_ofNat']
    omega
  · rw [State.more, third]
    exact step_tail (by omega)

private theorem opens_four (hv : 0x10000 ≤ v) (hv' : v < 0x110000) :
    Opens (Char.ofNat v)
      [UInt8.ofNat (v / 262144 % 8 + 0xF0), tail (v / 4096), tail (v / 64), tail v] := by
  obtain ⟨low, hl, hl'⟩ := exists_bound (v / 262144 = 0) 0x90 0x80
  obtain ⟨high, hh, hh'⟩ := exists_bound (v / 262144 = 4) 0x8F 0xBF
  simp only [UInt8.reduceToNat] at hl hl' hh hh'
  have second : low ≤ tail (v / 4096) ∧ tail (v / 4096) ≤ high := by
    rw [within_iff, toNat_tail]
    omega
  have fourth : (v / 262144 * 64 + ((tail (v / 4096)).toNat - 0x80)) * 64 +
      ((tail (v / 64)).toNat - 0x80) = v / 64 := by
    rw [toNat_tail, toNat_tail]
    omega
  refine ⟨_, v / 262144, 3, low, high, _, rfl, ?_, .next (step_more second (by decide))
    (.next (step_more (tail_within (v / 64)) (by decide)) (.last ?_))⟩
  · refine lead_eq_inside.mpr (.inr (.inr ⟨rfl, by omega, ?_, hl, hl', hh, hh'⟩))
    rw [UInt8.toNat_ofNat']
    omega
  · rw [State.more, fourth]
    exact step_tail (by omega)

end Opens

/-- A character is one byte below 0x80, or a byte that opens it and those that complete it. -/
theorem encode_cases (c : Char) :
    (∃ b, b < 0x80 ∧ utf8EncodeChar c = [b] ∧ c = Char.ofNat b.toNat) ∨ Opens c (utf8EncodeChar c) := by
  have valid : c.val.toNat < 0xD800 ∨ 0xDFFF < c.val.toNat ∧ c.val.toNat < 0x110000 := c.valid
  have hc : c = Char.ofNat c.val.toNat := (Char.ofNat_toNat c).symm
  unfold utf8EncodeChar
  generalize c.val.toNat = v at valid hc
  subst hc
  simp only
  split
  · refine .inl ⟨_, ?_, rfl, ?_⟩
    · simp only [UInt8.lt_iff_toNat_lt, UInt8.toNat_ofNat', UInt8.reduceToNat]
      omega
    · rw [UInt8.toNat_ofNat', Nat.mod_eq_of_lt (by omega)]
  split
  · exact .inr (opens_two (by omega) (by omega))
  split
  · exact .inr (opens_three (by omega) (by omega))
  · exact .inr (opens_four (by omega) (by omega))

/-- The bytes in front within a character are under way, and the others complete it. -/
theorem underway_of_encode {c : Char} {read more : Bytes} (h : utf8EncodeChar c = read ++ more)
    (hread : read ≠ []) (hmore : more ≠ []) : ∃ state, Underway read state ∧ Completes c state more := by
  obtain ⟨b, front, rfl⟩ := List.exists_cons_of_ne_nil hread
  rcases encode_cases c with ⟨b', -, he, -⟩ | ⟨b', bits, owed, low, high, rest, he, led, completes⟩
  · rw [he] at h
    exact absurd (List.append_eq_nil_iff.mp (List.cons.inj h).2.symm).2 hmore
  · rw [he] at h
    obtain ⟨rfl, rfl⟩ := List.cons.inj h
    exact (Underway.opened led).of_completes completes hmore

theorem pieces_encode (c : Char) (rest : Bytes) :
    pieces .start (utf8EncodeChar c ++ rest) = some c :: pieces .start rest := by
  rcases encode_cases c with ⟨b, hb, he, hc⟩ | ⟨b, bits, owed, low, high, more, he, led, completes⟩
  · rw [he, List.singleton_append, pieces_cons, step, lead, if_pos hb, ← hc, List.singleton_append]
  · rw [he, List.cons_append, ← List.singleton_append, (Underway.opened led).pieces_append,
      completes.pieces_append]

/-- A byte below 0x80 is part of no longer character. -/
theorem encode_of_mem_ascii {c : Char} {b : UInt8} (hb : b < 0x80) (h : b ∈ utf8EncodeChar c) :
    utf8EncodeChar c = [b] ∧ c = Char.ofNat b.toNat := by
  have hlt : b.toNat < 0x80 := UInt8.lt_iff_toNat_lt.mp hb
  obtain ⟨front, more, hsplit⟩ := List.append_of_mem h
  by_cases hfront : front = []
  · rw [hfront, List.nil_append] at hsplit
    rcases encode_cases c with ⟨b', -, he, hc⟩ | ⟨b', bits, owed, low, high, rest, he, led, -⟩
    · obtain ⟨rfl, rfl⟩ := List.cons.inj (he.symm.trans hsplit)
      exact ⟨he, hc⟩
    · obtain ⟨rfl, rfl⟩ := List.cons.inj (he.symm.trans hsplit)
      have := lead_eq_inside.mp led
      omega
  · obtain ⟨state, hread, completes⟩ := underway_of_encode hsplit hfront (List.cons_ne_nil _ _)
    obtain ⟨bits, owed, low, high, rfl⟩ := hread.inside
    have := hread.range.1
    have within := within_iff.mp completes.within
    omega

end LineSearch.Utf8
