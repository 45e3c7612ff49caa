/-! Text as a sequence of Unicode scalar values, its bytes, and its lines. -/
namespace LineSearch

/-- Patterns, lines, paths and arguments. Positions in a text count characters, never bytes. -/
abbrev Text := List Char

def isBlank (c : Char) : Bool :=
  ('\t' ≤ c && c ≤ '\r') || ('\u2000' ≤ c && c ≤ '\u200A') ||
    [' ', '\u0085', '\u00A0', '\u1680', '\u2028', '\u2029', '\u202F', '\u205F', '\u3000'].contains c

def Text.trimRight (text : Text) : Text := (text.reverse.dropWhile isBlank).reverse

/-! UTF-8, read one byte at a time. Input that is not UTF-8 is reported piece by piece: one piece
for each longest run of bytes that starts a character but does not finish it, and one for each byte
that starts none. -/

abbrev Bytes := List UInt8

namespace Utf8

inductive State where
  | start
  /-- `owed` more bytes are due, the next one between `low` and `high`; `bits` is the scalar value
  so far. -/
  | inside (bits owed : Nat) (low high : UInt8)
  deriving DecidableEq, Repr

/-- The first byte of a character. Overlong forms, surrogates and values above U+10FFFF are ruled
out by the range of the second byte. -/
def lead (b : UInt8) : List (Option Char) × State :=
  if b < 0x80 then ([some (Char.ofNat b.toNat)], .start)
  else if b < 0xC2 then ([none], .start)
  else if b < 0xE0 then ([], .inside (b.toNat - 0xC0) 1 0x80 0xBF)
  else if b = 0xE0 then ([], .inside 0 2 0xA0 0xBF)
  else if b = 0xED then ([], .inside 0xD 2 0x80 0x9F)
  else if b < 0xF0 then ([], .inside (b.toNat - 0xE0) 2 0x80 0xBF)
  else if b = 0xF0 then ([], .inside 0 3 0x90 0xBF)
  else if b < 0xF4 then ([], .inside (b.toNat - 0xF0) 3 0x80 0xBF)
  else if b = 0xF4 then ([], .inside 4 3 0x80 0x8F)
  else ([none], .start)

/-- One byte: what it completes, `none` for an invalid piece, and the state after it. -/
def step : State → UInt8 → List (Option Char) × State
  | .start, b => lead b
  | .inside bits owed low high, b =>
    if low ≤ b ∧ b ≤ high then
      if owed ≤ 1 then ([some (Char.ofNat (bits * 64 + (b.toNat - 0x80)))], .start)
      else ([], .inside (bits * 64 + (b.toNat - 0x80)) (owed - 1) 0x80 0xBF)
    else (none :: (lead b).1, (lead b).2)

/-- The pieces read from a state on. A character cut off at the end is an invalid piece. -/
def pieces : State → Bytes → List (Option Char)
  | .start, [] => []
  | .inside .., [] => [none]
  | state, b :: rest => (step state b).1 ++ pieces (step state b).2 rest

def replacement : Char := '\uFFFD'

def decodeLossy (bytes : Bytes) : Text := (pieces .start bytes).map (·.getD replacement)

def decode? (bytes : Bytes) : Option Text := (pieces .start bytes).mapM id

def encode (text : Text) : Bytes := text.flatMap String.utf8EncodeChar

def le (a b : Text) : Bool := decide (encode a ≤ encode b)

end Utf8

/-! Lines: pieces that end in a line feed, without the line feed and a carriage return before it. -/

/-- Cuts a list after each occurrence of `stop`. The pieces are not empty and join to the list. -/
def cutAfter {α : Type} [DecidableEq α] (stop : α) : List α → List (List α)
  | [] => []
  | a :: rest =>
    if a = stop then [a] :: cutAfter stop rest
    else
      match cutAfter stop rest with
      | [] => [[a]]
      | piece :: pieces => (a :: piece) :: pieces

def dropEnd {α : Type} [DecidableEq α] (last : α) (xs : List α) : List α :=
  if xs.getLast? = some last then xs.dropLast else xs

def decodeLine (raw : Bytes) : Text := Utf8.decodeLossy (dropEnd 13 (dropEnd 10 raw))

/-- The lines of an input. Nothing after a final line feed is no line. -/
def decodeLines (bytes : Bytes) : List Text := (cutAfter 10 bytes).map decodeLine

end LineSearch
