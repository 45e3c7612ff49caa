import Mathlib.Data.List.Forall2
import LineSearch.Proofs.Text.Lossy

/-! Lines of bytes and lines of text. Main statement: cutting bytes into lines and decoding each gives what
decoding all of them and cutting the text gives, and a line feed alone ends a line as well as one behind a
carriage return. -/
namespace LineSearch

section Cut
variable {α : Type} {stop : α}

/-- The pieces of a list that is cut behind every `stop`. A list that ends in `stop`, and an empty one,
has no piece behind it. -/
inductive Cut (stop : α) : List α → List (List α) → Prop where
  | nil : Cut stop [] []
  | last {xs : List α} (ne_nil : xs ≠ []) (free : stop ∉ xs) : Cut stop xs [xs]
  | piece {front rest : List α} {pieces : List (List α)} (free : stop ∉ front)
    (after : Cut stop rest pieces) : Cut stop (front ++ stop :: rest) ((front ++ [stop]) :: pieces)

variable [DecidableEq α]

variable (stop) in
/-- Induction on the pieces that a list is cut into. -/
private theorem pieces_induction {P : List α → Prop} (last : ∀ xs, stop ∉ xs → P xs)
    (piece : ∀ front rest, stop ∉ front → P rest → P (front ++ stop :: rest)) (xs : List α) : P xs := by
  induction hlen : xs.length using Nat.strong_induction_on generalizing xs with
  | _ length ih =>
    subst hlen
    by_cases hmem : stop ∈ xs
    · obtain ⟨front, rest, rfl, free⟩ := List.eq_append_cons_of_mem hmem
      refine piece front rest free (ih rest.length ?_ rest rfl)
      rw [List.length_append, List.length_cons]
      omega
    · exact last xs hmem

private theorem cutAfter_cons_of_ne {a : α} (h : a ≠ stop) (rest : List α) :
    cutAfter stop (a :: rest) = (a :: (cutAfter stop rest).headD []) :: (cutAfter stop rest).tail := by
  rw [cutAfter, if_neg h]
  cases cutAfter stop rest <;> rfl

private theorem cutAfter_of_free {xs : List α} (hne : xs ≠ []) (free : stop ∉ xs) :
    cutAfter stop xs = [xs] := by
  induction xs with
  | nil => exact absurd rfl hne
  | cons a rest ih =>
    have hrest := List.not_mem_of_not_mem_cons free
    rw [cutAfter_cons_of_ne (List.ne_of_not_mem_cons free).symm]
    cases rest with
    | nil => rfl
    | cons b rest => rw [ih (List.cons_ne_nil b rest) hrest]; rfl

private theorem cutAfter_append_cons {front : List α} (free : stop ∉ front) (rest : List α) :
    cutAfter stop (front ++ stop :: rest) = (front ++ [stop]) :: cutAfter stop rest := by
  induction front with
  | nil => rw [List.nil_append, cutAfter, if_pos rfl, List.nil_append]
  | cons a front ih =>
    rw [List.cons_append, cutAfter_cons_of_ne (List.ne_of_not_mem_cons free).symm,
      ih (List.not_mem_of_not_mem_cons free)]
    rfl

private theorem cut_cutAfter (stop : α) (xs : List α) : Cut stop xs (cutAfter stop xs) := by
  induction xs using pieces_induction stop with
  | last xs free =>
    by_cases hne : xs = []
    · rw [hne]
      exact .nil
    · rw [cutAfter_of_free hne free]
      exact .last hne free
  | piece front rest free ih =>
    rw [cutAfter_append_cons free]
    exact .piece free ih

theorem cut_iff {xs : List α} {pieces : List (List α)} : Cut stop xs pieces ↔ pieces = cutAfter stop xs := by
  refine ⟨fun h => ?_, fun h => h ▸ cut_cutAfter stop xs⟩
  induction h with
  | nil => rfl
  | last ne_nil free => rw [cutAfter_of_free ne_nil free]
  | piece free after ih => rw [cutAfter_append_cons free, ih]

/-- What stands in front of a `stop` and what stands behind it are cut apart from each other. -/
theorem cutAfter_append (front rest : List α) :
    cutAfter stop (front ++ stop :: rest) = cutAfter stop (front ++ [stop]) ++ cutAfter stop rest := by
  induction front using pieces_induction stop with
  | last front free =>
    rw [cutAfter_append_cons free, cutAfter_append_cons free]
    rfl
  | piece first more free ih =>
    rw [List.append_assoc, List.cons_append, cutAfter_append_cons free, ih, List.append_assoc,
      List.cons_append, cutAfter_append_cons free, List.cons_append]

/-- The pieces of lines that are put together, each with a `stop` behind it, are these. -/
private theorem cutAfter_flatMap {lines : List (List α)} (free : ∀ line ∈ lines, stop ∉ line) :
    cutAfter stop (lines.flatMap fun line => line ++ [stop]) = lines.map fun line => line ++ [stop] := by
  induction lines with
  | nil => rfl
  | cons line rest ih =>
    obtain ⟨hline, hrest⟩ := List.forall_mem_cons.mp free
    rw [List.flatMap_cons, List.append_assoc, List.singleton_append, cutAfter_append_cons hline, ih hrest,
      List.map_cons]

end Cut

section DropEnd
variable {α : Type} [DecidableEq α] {last : α}

@[simp] theorem dropEnd_append (xs : List α) : dropEnd last (xs ++ [last]) = xs := by
  simp [dropEnd]

private theorem dropEnd_of_ne {xs : List α} (h : xs.getLast? ≠ some last) : dropEnd last xs = xs := if_neg h

end DropEnd

/-- The line that a piece of text holds: the piece without a line feed at its end, and without one carriage
return that is then at its end. -/
inductive Holds : Text → Text → Prop where
  | both (line : Text) : Holds (line ++ ['\r', '\n']) line
  | lineFeed {line : Text} (bare : line.getLast? ≠ some '\r') : Holds (line ++ ['\n']) line
  | carriageReturn (line : Text) : Holds (line ++ ['\r']) line
  | neither {line : Text} (bare : line.getLast? ≠ some '\r') (unended : line.getLast? ≠ some '\n') :
    Holds line line

def Text.unterminated (piece : Text) : Text := dropEnd '\r' (dropEnd '\n' piece)

theorem holds_iff {piece line : Text} : Holds piece line ↔ line = piece.unterminated := by
  constructor
  · intro h
    cases h with
    | both =>
      have hsplit : line ++ ['\r', '\n'] = (line ++ ['\r']) ++ ['\n'] := by rw [List.append_assoc]; rfl
      rw [Text.unterminated, hsplit, dropEnd_append, dropEnd_append]
    | lineFeed bare => rw [Text.unterminated, dropEnd_append, dropEnd_of_ne bare]
    | carriageReturn =>
      have bare : (line ++ ['\r']).getLast? ≠ some '\n' := by
        rw [List.getLast?_concat]
        decide
      rw [Text.unterminated, dropEnd_of_ne bare, dropEnd_append]
    | neither bare unended => rw [Text.unterminated, dropEnd_of_ne unended, dropEnd_of_ne bare]
  · rintro rfl
    by_cases hfeed : piece.getLast? = some '\n'
    · obtain ⟨front, rfl⟩ := List.getLast?_eq_some_iff.mp hfeed
      rw [Text.unterminated, dropEnd_append]
      by_cases hreturn : front.getLast? = some '\r'
      · obtain ⟨front, rfl⟩ := List.getLast?_eq_some_iff.mp hreturn
        rw [dropEnd_append, List.append_assoc]
        exact .both front
      · rw [dropEnd_of_ne hreturn]
        exact .lineFeed hreturn
    · rw [Text.unterminated, dropEnd_of_ne hfeed]
      by_cases hreturn : piece.getLast? = some '\r'
      · obtain ⟨front, rfl⟩ := List.getLast?_eq_some_iff.mp hreturn
        rw [dropEnd_append]
        exact .carriageReturn front
      · rw [dropEnd_of_ne hreturn]
        exact .neither hreturn hfeed

private theorem forall₂_holds_iff {pieces lines : List Text} :
    List.Forall₂ Holds pieces lines ↔ lines = pieces.map Text.unterminated := by
  have hholds : Holds = fun piece line => piece.unterminated = line :=
    funext₂ fun piece line => propext (holds_iff.trans eq_comm)
  rw [hholds, ← List.forall₂_map_left_iff (R := (· = ·)), List.forall₂_eq_eq_eq, eq_comm]

namespace Utf8
variable {b : UInt8} {bytes : Bytes}

/-- Text ends in a character below 0x80 only if its bytes end in it. -/
private theorem getLast?_of_decodeLossy (hb : b < 0x80)
    (h : (decodeLossy bytes).getLast? = some (Char.ofNat b.toNat)) : bytes.getLast? = some b := by
  induction bytes using pieces_induction b with
  | last bytes free => exact absurd (mem_of_mem_decodeLossy hb (List.mem_of_getLast? h)) free
  | piece front rest free ih =>
    rw [decodeLossy_append_ascii hb] at h
    cases rest with
    | nil => exact List.getLast?_concat
    | cons a rest =>
      have hne : decodeLossy (a :: rest) ≠ [] := decodeLossy_eq_nil.not.mpr (List.cons_ne_nil a rest)
      obtain ⟨c, text, htext⟩ := List.exists_cons_of_ne_nil hne
      rw [htext] at h ih
      rw [List.getLast?_append_cons, List.getLast?_cons_cons] at h ⊢
      exact ih h

private theorem decodeLossy_dropEnd (hb : b < 0x80) (bytes : Bytes) :
    decodeLossy (dropEnd b bytes) = dropEnd (Char.ofNat b.toNat) (decodeLossy bytes) := by
  by_cases h : bytes.getLast? = some b
  · obtain ⟨front, rfl⟩ := List.getLast?_eq_some_iff.mp h
    rw [dropEnd_append, decodeLossy_append_ascii hb]
    exact (dropEnd_append _).symm
  · rw [dropEnd_of_ne h, dropEnd_of_ne fun hlast => h (getLast?_of_decodeLossy hb hlast)]

theorem cutAfter_decodeLossy (hb : b < 0x80) (bytes : Bytes) :
    cutAfter (Char.ofNat b.toNat) (decodeLossy bytes) = (cutAfter b bytes).map decodeLossy := by
  have free {front : Bytes} (h : b ∉ front) : Char.ofNat b.toNat ∉ decodeLossy front :=
    fun hmem => h (mem_of_mem_decodeLossy hb hmem)
  induction bytes using pieces_induction b with
  | last bytes hfree =>
    by_cases hne : bytes = []
    · rw [hne]
      rfl
    · rw [cutAfter_of_free hne hfree, cutAfter_of_free (decodeLossy_eq_nil.not.mpr hne) (free hfree)]
      rfl
  | piece front rest hfree ih =>
    rw [decodeLossy_append_ascii hb, cutAfter_append_cons (free hfree), cutAfter_append_cons hfree, ih,
      List.map_cons, decodeLossy_append_ascii hb]
    rfl

/-- Bytes and their text have as many line breaks, and as many of every other character below 0x80. -/
private theorem count_decodeLossy (hb : b < 0x80) (bytes : Bytes) :
    (decodeLossy bytes).count (Char.ofNat b.toNat) = bytes.count b := by
  induction bytes using pieces_induction b with
  | last bytes free =>
    rw [List.count_eq_zero.mpr free, List.count_eq_zero.mpr fun hmem => free (mem_of_mem_decodeLossy hb hmem)]
  | piece front rest free ih =>
    rw [decodeLossy_append_ascii hb, List.count_append, List.count_append, List.count_cons_self,
      List.count_cons_self, ih, List.count_eq_zero.mpr free,
      List.count_eq_zero.mpr fun hmem => free (mem_of_mem_decodeLossy hb hmem)]

end Utf8

/-- Whether the end of a line is dropped before decoding or behind it is the same. -/
private theorem decodeLine_eq (raw : Bytes) : decodeLine raw = (Utf8.decodeLossy raw).unterminated := by
  rw [decodeLine, Utf8.decodeLossy_dropEnd (by decide), Utf8.decodeLossy_dropEnd (by decide)]
  rfl

theorem decodeLines_eq (bytes : Bytes) :
    decodeLines bytes = (cutAfter '\n' (Utf8.decodeLossy bytes)).map Text.unterminated := by
  have hcut := Utf8.cutAfter_decodeLossy (b := 10) (by decide) bytes
  rw [decodeLines, show '\n' = Char.ofNat (10 : UInt8).toNat from rfl, hcut, List.map_map]
  exact List.map_congr_left fun raw _ => decodeLine_eq raw

/-- A line break ends its line, whatever the bytes in front of it are. -/
theorem decodeLines_append (front rest : Bytes) :
    decodeLines (front ++ 10 :: rest) = decodeLines (front ++ [10]) ++ decodeLines rest := by
  rw [decodeLines, cutAfter_append, List.map_append]
  rfl

private theorem decodeLines_append_cons {front : Bytes} (free : 10 ∉ front) (rest : Bytes) :
    decodeLines (front ++ 10 :: rest) = decodeLine (front ++ [10]) :: decodeLines rest := by
  rw [decodeLines, cutAfter_append_cons free]
  rfl

private theorem not_mem_unterminated {piece : Text} (h : '\n' ∉ dropEnd '\n' piece) :
    '\n' ∉ piece.unterminated := by
  rw [Text.unterminated, dropEnd]
  split_ifs
  · exact fun hmem => h ((List.dropLast_sublist _).mem hmem)
  · exact h

theorem not_mem_of_mem_decodeLines {bytes : Bytes} {line : Text} (h : line ∈ decodeLines bytes) :
    '\n' ∉ line := by
  rw [decodeLines_eq] at h
  obtain ⟨piece, hpiece, rfl⟩ := List.mem_map.mp h
  apply not_mem_unterminated
  generalize Utf8.decodeLossy bytes = text at hpiece
  have hcut := cut_cutAfter '\n' text
  generalize cutAfter '\n' text = pieces at hpiece hcut
  induction hcut with
  | nil => cases hpiece
  | last ne_nil free =>
    rw [List.mem_singleton.mp hpiece, dropEnd_of_ne fun hlast => free (List.mem_of_getLast? hlast)]
    exact free
  | piece free after ih =>
    rcases List.mem_cons.mp hpiece with rfl | hpiece
    · rwa [dropEnd_append]
    · exact ih hpiece

/-- Lines that are written, each with a line feed, are read back, unless one ends in a carriage return. -/
theorem decodeLines_encode {lines : List Text} (free : ∀ line ∈ lines, '\n' ∉ line)
    (bare : ∀ line ∈ lines, line.getLast? ≠ some '\r') :
    decodeLines (Utf8.encode (lines.flatMap fun line => line ++ ['\n'])) = lines := by
  have hline (line : Text) (h : line ∈ lines) : (line ++ ['\n']).unterminated = line := by
    rw [Text.unterminated, dropEnd_append, dropEnd_of_ne (bare line h)]
  rw [decodeLines_eq, Utf8.decodeLossy_encode, cutAfter_flatMap free, List.map_map]
  exact (List.map_congr_left hline).trans (List.map_id' lines)

/-- The bytes with a carriage return put in front of each line feed that has none. `previous` is the byte
in front of all. -/
def withReturns : Option UInt8 → Bytes → Bytes
  | _, [] => []
  | previous, b :: rest =>
    if b = 10 ∧ previous ≠ some 13 then 13 :: b :: withReturns (some b) rest
    else b :: withReturns (some b) rest

private theorem withReturns_append {front : Bytes} (free : 10 ∉ front) (previous : Option UInt8)
    (rest : Bytes) :
    withReturns previous (front ++ rest) = front ++ withReturns (front.getLast?.or previous) rest := by
  induction front generalizing previous with
  | nil => rfl
  | cons b front ih =>
    have hne : ¬(b = 10 ∧ previous ≠ some 13) := fun h => List.ne_of_not_mem_cons free h.1.symm
    rw [List.cons_append, withReturns, if_neg hne, ih (List.not_mem_of_not_mem_cons free), List.cons_append,
      List.getLast?_cons]
    cases front.getLast? <;> rfl

/-- A line feed alone ends a line as well as one behind a carriage return. -/
private theorem decodeLines_withReturns (previous : Option UInt8) (bytes : Bytes) :
    decodeLines (withReturns previous bytes) = decodeLines bytes := by
  induction bytes using pieces_induction (10 : UInt8) generalizing previous with
  | last bytes free =>
    have hsame := withReturns_append free previous []
    rw [List.append_nil, withReturns, List.append_nil] at hsame
    rw [hsame]
  | piece front rest free ih =>
    rw [withReturns_append free, withReturns, decodeLines_append_cons free]
    split_ifs with h
    · have hbare : front.getLast? ≠ some 13 := fun hlast => h.2 (by rw [hlast]; rfl)
      have hfree : 10 ∉ front ++ [13] := by simpa using free
      have hline : decodeLine (front ++ [13] ++ [10]) = decodeLine (front ++ [10]) := by
        rw [decodeLine, decodeLine, dropEnd_append, dropEnd_append, dropEnd_append, dropEnd_of_ne hbare]
      rw [List.append_cons, decodeLines_append_cons hfree, hline, ih]
    · rw [decodeLines_append_cons free, ih]

/-- The lines of bytes are those of the text that the lossy rule takes all of them for, cut behind each
line feed. No line break is lost or made on the way. -/
theorem lines_follow_decoding (bytes : Bytes) :
    (∀ lines, lines = decodeLines bytes ↔
      ∃ text pieces, Utf8.Lossy bytes text ∧ Cut '\n' text pieces ∧ List.Forall₂ Holds pieces lines) ∧
    (∀ line ∈ decodeLines bytes, '\n' ∉ line) ∧
    (Utf8.decodeLossy bytes).count '\n' = bytes.count 10 ∧
    (∀ front rest, bytes = front ++ 10 :: rest →
      decodeLines bytes = decodeLines (front ++ [10]) ++ decodeLines rest) ∧
    decodeLines (withReturns none bytes) = decodeLines bytes := by
  refine ⟨fun lines => ?_, fun line => not_mem_of_mem_decodeLines,
    Utf8.count_decodeLossy (b := 10) (by decide) bytes, ?_, decodeLines_withReturns none bytes⟩
  · simp only [Utf8.lossy_iff, cut_iff, forall₂_holds_iff, exists_and_left, exists_eq_left, decodeLines_eq]
  · rintro front rest rfl
    exact decodeLines_append front rest

/-- A sequence that breaks off at the end of a line, and of two carriage returns the one that stays. -/
theorem lines_of_broken_bytes :
    decodeLines [0xE2, 0x82, 10, 97, 13, 13, 10, 0xFF] =
      [[Utf8.replacement], ['a', '\r'], [Utf8.replacement]] ∧
    decodeLines [0xE2, 0x82, 10, 97, 13, 13, 10, 0xFF] =
      decodeLines [0xE2, 0x82, 10] ++ decodeLines [97, 13, 13, 10, 0xFF] ∧
    decodeLines [0xE2, 0x82, 13, 10, 97, 13, 13, 10, 0xFF] =
      decodeLines [0xE2, 0x82, 10, 97, 13, 13, 10, 0xFF] := by
  obtain ⟨-, -, -, hbreak, hreturns⟩ := lines_follow_decoding [0xE2, 0x82, 10, 97, 13, 13, 10, 0xFF]
  exact ⟨by decide, hbreak [0xE2, 0x82] [97, 13, 13, 10, 0xFF] rfl, hreturns⟩

end LineSearch
