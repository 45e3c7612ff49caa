import Mathlib.Data.Nat.Find
import LineSearch.Proofs.Text.Encoding

/-! The lossy rule of decoding, apart from the reader that follows it. Main statement: what is read is
what the rule says, for any bytes. A byte below 0x80 stands for itself wherever it is, so decoding starts
afresh behind it. -/
namespace LineSearch

namespace Utf8
open String (utf8EncodeChar)

def Begins (bytes : Bytes) : Prop := ∃ c more, utf8EncodeChar c = bytes ++ more ∧ more ≠ []

/-- No character stands in front, and of the bytes there `piece` is the longest run that begins one, or
the first byte where there is none. -/
structure Invalid (piece rest : Bytes) : Prop where
  ne_nil : piece ≠ []
  begins : Begins piece ∨ piece.length = 1
  longest : ∀ longer, longer <+: piece ++ rest → Begins longer → longer.length ≤ piece.length
  no_char : ∀ c, ¬utf8EncodeChar c <+: piece ++ rest

/-- The text that bytes are taken for: the characters that stand there, and a replacement for each
maximal invalid piece. -/
inductive Lossy : Bytes → Text → Prop where
  | nil : Lossy [] []
  | char (c : Char) {rest : Bytes} {text : Text} (after : Lossy rest text) :
    Lossy (utf8EncodeChar c ++ rest) (c :: text)
  | invalid {piece rest : Bytes} {text : Text} (broken : Invalid piece rest) (after : Lossy rest text) :
    Lossy (piece ++ rest) (replacement :: text)

variable {bytes piece rest front : Bytes} {text : Text} {b : UInt8}

private theorem Underway.begins {state : State} (h : Underway bytes state) : Begins bytes := by
  obtain ⟨bits, owed, low, high, rfl⟩ := h.inside
  exact h.completable

private theorem Begins.underway (h : Begins bytes) (hne : bytes ≠ []) : ∃ state, Underway bytes state := by
  obtain ⟨c, more, hc, hmore⟩ := h
  obtain ⟨state, hread, -⟩ := underway_of_encode hc hne hmore
  exact ⟨state, hread⟩

private theorem Invalid.pieces_eq (h : Invalid piece rest) :
    pieces .start (piece ++ rest) = none :: pieces .start rest := by
  by_cases hbegins : Begins piece
  · obtain ⟨state, hread⟩ := hbegins.underway h.ne_nil
    obtain ⟨bits, owed, low, high, rfl⟩ := hread.inside
    rw [hread.pieces_append]
    cases rest with
    | nil => rfl
    | cons b rest =>
      -- The next byte neither finishes a character nor makes the piece longer.
      have beyond : ¬(low ≤ b ∧ b ≤ high) := by
        intro within
        by_cases due : owed ≤ 1
        · have finished := hread.finish within due
          exact h.no_char _ ⟨rest, by rw [finished, ← List.append_cons]⟩
        · have further := (hread.continued (step_more within (Nat.not_le.mp due))).begins
          have := h.longest (piece ++ [b]) ⟨rest, by rw [← List.append_cons]⟩ further
          rw [List.length_append, List.length_singleton] at this
          omega
      rw [pieces_cons, step_broken beyond, pieces_cons]
      rfl
  · obtain ⟨b, rfl⟩ := List.length_eq_one_iff.mp (h.begins.resolve_left hbegins)
    rw [List.singleton_append, pieces_cons, step]
    rcases lead_cases b with ⟨hb, -⟩ | he | ⟨bits, owed, low, high, led⟩
    · exact absurd ⟨rest, by rw [encode_ascii hb]⟩ (h.no_char (Char.ofNat b.toNat))
    · rw [he]
      rfl
    · exact absurd (Underway.opened led).begins hbegins

/-- The reader follows the rule. -/
private theorem Lossy.eq_decodeLossy (h : Lossy bytes text) : text = decodeLossy bytes := by
  induction h with
  | nil => rfl
  | char c after ih => rw [decodeLossy, pieces_encode, ih]; rfl
  | invalid broken after ih => rw [decodeLossy, broken.pieces_eq, ih]; rfl

/-- Where no character stands there is an invalid piece. -/
private theorem exists_invalid (hne : bytes ≠ []) (h : ∀ c, ¬utf8EncodeChar c <+: bytes) :
    ∃ piece rest, bytes = piece ++ rest ∧ Invalid piece rest := by
  classical
  have hlen : 0 < bytes.length := List.length_pos_iff.mpr hne
  generalize hn : Nat.findGreatest (fun n => Begins (bytes.take n)) bytes.length = n
  have hle : n ≤ bytes.length := hn ▸ Nat.findGreatest_le bytes.length
  have hsplit : bytes.take (max n 1) ++ bytes.drop (max n 1) = bytes := List.take_append_drop _ _
  refine ⟨bytes.take (max n 1), bytes.drop (max n 1), hsplit.symm, ?_, ?_, ?_, ?_⟩
  · apply List.ne_nil_of_length_pos
    rw [List.length_take]
    omega
  · by_cases hzero : n = 0
    · refine .inr ?_
      rw [List.length_take]
      omega
    · rw [Nat.max_eq_left (by omega)]
      exact .inl (Nat.findGreatest_of_ne_zero hn hzero)
  · rw [hsplit]
    intro longer hprefix hbegins
    have hlonger : longer.length ≤ bytes.length := hprefix.length_le
    rw [List.prefix_iff_eq_take.mp hprefix] at hbegins
    have : longer.length ≤ n := hn ▸ Nat.le_findGreatest hlonger hbegins
    rw [List.length_take]
    omega
  · rwa [hsplit]

/-- The rule says of any bytes what they are taken for. -/
private theorem exists_lossy (bytes : Bytes) : ∃ text, Lossy bytes text := by
  induction hlen : bytes.length using Nat.strong_induction_on generalizing bytes with
  | _ length ih =>
    subst hlen
    by_cases hne : bytes = []
    · exact ⟨[], hne ▸ .nil⟩
    have shorter {taken rest : Bytes} (htaken : taken ≠ []) (h : bytes = taken ++ rest) :
        ∃ text, Lossy rest text := by
      refine ih rest.length ?_ rest rfl
      have := List.length_pos_iff.mpr htaken
      rw [h, List.length_append]
      omega
    by_cases hchar : ∃ c, utf8EncodeChar c <+: bytes
    · obtain ⟨c, rest, hc⟩ := hchar
      obtain ⟨text, after⟩ := shorter String.utf8EncodeChar_ne_nil hc.symm
      exact ⟨c :: text, hc ▸ .char c after⟩
    · obtain ⟨piece, rest, rfl, broken⟩ := exists_invalid hne (not_exists.mp hchar)
      obtain ⟨text, after⟩ := shorter broken.ne_nil rfl
      exact ⟨replacement :: text, .invalid broken after⟩

theorem lossy_iff : Lossy bytes text ↔ text = decodeLossy bytes := by
  refine ⟨Lossy.eq_decodeLossy, ?_⟩
  rintro rfl
  obtain ⟨text, h⟩ := exists_lossy bytes
  exact h.eq_decodeLossy ▸ h

private theorem lossy_decodeLossy (bytes : Bytes) : Lossy bytes (decodeLossy bytes) := lossy_iff.mpr rfl

/-- Text that was written as bytes is read back. -/
theorem decodeLossy_encode (text : Text) : decodeLossy (encode text) = text := by
  have h : Lossy (encode text) text := by
    induction text with
    | nil => exact .nil
    | cons c rest ih => exact .char c ih
  exact h.eq_decodeLossy.symm

theorem decodeLossy_eq_nil : decodeLossy bytes = [] ↔ bytes = [] := by
  refine ⟨fun h => ?_, fun h => h ▸ rfl⟩
  have hl := h ▸ lossy_decodeLossy bytes
  cases hl
  rfl

section Ascii

private theorem Begins.not_mem_ascii (h : Begins bytes) (hb : b < 0x80) : b ∉ bytes := by
  intro hmem
  obtain ⟨c, more, hc, hmore⟩ := h
  have halone := (encode_of_mem_ascii hb (hc ▸ List.mem_append_left more hmem)).1
  have hlen := congrArg List.length (hc.symm.trans halone)
  have := List.length_pos_of_mem hmem
  have := List.length_pos_iff.mpr hmore
  rw [List.length_append, List.length_singleton] at hlen
  omega

private theorem prefix_of_not_mem {front more : Bytes} (h : bytes <+: front ++ b :: more) (hb : b ∉ bytes) :
    bytes <+: front := by
  rcases List.prefix_or_prefix_of_prefix h (List.prefix_append front (b :: more)) with hfront | ⟨tail, rfl⟩
  · exact hfront
  · cases tail with
    | nil => exact (List.append_nil front).symm ▸ List.prefix_rfl
    | cons a tail =>
      obtain ⟨rfl, -⟩ := List.cons_prefix_cons.mp ((List.prefix_append_right_inj front).mp h)
      exact absurd (List.mem_append_right front List.mem_cons_self) hb

/-- A byte below 0x80 behind invalid bytes makes nothing of them. -/
private theorem Invalid.append_ascii (h : Invalid piece rest) (hb : b < 0x80) (more : Bytes) :
    Invalid piece (rest ++ b :: more) := by
  refine ⟨h.ne_nil, h.begins, ?_, ?_⟩
  · intro longer hprefix hbegins
    rw [← List.append_assoc] at hprefix
    exact h.longest longer (prefix_of_not_mem hprefix (hbegins.not_mem_ascii hb)) hbegins
  · intro c hprefix
    rw [← List.append_assoc] at hprefix
    by_cases hmem : b ∈ utf8EncodeChar c
    · obtain ⟨a, piece', rfl⟩ := List.exists_cons_of_ne_nil h.ne_nil
      rw [(encode_of_mem_ascii hb hmem).1] at hprefix
      refine h.no_char c ⟨piece' ++ rest, ?_⟩
      rw [(encode_of_mem_ascii hb hmem).1, (List.cons_prefix_cons.mp hprefix).1]
      rfl
    · exact h.no_char c (prefix_of_not_mem hprefix hmem)

private theorem Lossy.append_ascii {later : Text} (h : Lossy front text) (hb : b < 0x80)
    (after : Lossy rest later) : Lossy (front ++ b :: rest) (text ++ Char.ofNat b.toNat :: later) := by
  induction h with
  | nil =>
    have hchar := Lossy.char (Char.ofNat b.toNat) after
    rwa [encode_ascii hb] at hchar
  | char c _ ih =>
    rw [List.append_assoc]
    exact .char c ih
  | invalid broken _ ih =>
    rw [List.append_assoc]
    exact .invalid (broken.append_ascii hb rest) ih

/-- Whatever is unfinished in front of a byte below 0x80, decoding starts afresh behind it. -/
theorem decodeLossy_append_ascii (hb : b < 0x80) (front rest : Bytes) :
    decodeLossy (front ++ b :: rest) = decodeLossy front ++ Char.ofNat b.toNat :: decodeLossy rest :=
  ((lossy_decodeLossy front).append_ascii hb (lossy_decodeLossy rest)).eq_decodeLossy.symm

/-- A character below 0x80 comes of its byte alone. -/
theorem mem_of_mem_decodeLossy (hb : b < 0x80) (h : Char.ofNat b.toNat ∈ decodeLossy bytes) : b ∈ bytes := by
  have hl := lossy_decodeLossy bytes
  generalize decodeLossy bytes = text at h hl
  induction hl with
  | nil => cases h
  | char c after ih =>
    rcases List.mem_cons.mp h with rfl | h
    · rw [encode_ascii hb]
      exact List.mem_append_left _ List.mem_cons_self
    · exact List.mem_append_right _ (ih h)
  | invalid broken after ih =>
    rcases List.mem_cons.mp h with h | h
    · have halone : utf8EncodeChar replacement = [b] := h ▸ encode_ascii hb
      cases halone
    · exact List.mem_append_right _ (ih h)

end Ascii

/-! The order of texts by their bytes. -/

private theorem encode_injective {a b : Text} (h : encode a = encode b) : a = b := by
  rw [← decodeLossy_encode a, h, decodeLossy_encode]

theorem le_trans (a b c : Text) (hab : le a b = true) (hbc : le b c = true) : le a c = true := by
  simp only [le, decide_eq_true_eq] at hab hbc ⊢
  exact List.le_trans hab hbc

theorem le_total (a b : Text) : (le a b || le b a) = true := by
  simp only [le, Bool.or_eq_true, decide_eq_true_eq]
  exact List.le_total _ _

/-- Different texts have different bytes. -/
theorem lt_of_le_of_ne {a b : Text} (h : le a b = true) (hne : a ≠ b) : encode a < encode b := by
  simp only [le, decide_eq_true_eq] at h
  by_contra hlt
  exact hne (encode_injective (List.le_antisymm h (List.not_lt.mp hlt)))

end Utf8

end LineSearch
