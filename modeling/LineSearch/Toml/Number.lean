import LineSearch.Text

/-! Numbers of a configuration file, and the digits that write them. -/
namespace LineSearch.Toml

def digitValue? (c : Char) : Option Nat :=
  if c.isDigit then some (c.toNat - '0'.toNat)
  else if 'a' ≤ c ∧ c ≤ 'f' then some (c.toNat - 'a'.toNat + 10)
  else if 'A' ≤ c ∧ c ≤ 'F' then some (c.toNat - 'A'.toNat + 10)
  else none

def isDigitOf (base : Nat) (c : Char) : Bool := (digitValue? c).any (· < base)

def ofDigits (base : Nat) (digits : List Char) : Nat :=
  digits.foldl (fun n c => n * base + (digitValue? c).getD 0) 0

/-- Digits with single underscores between them, without the underscores. -/
def digits? (base : Nat) : Text → Option (List Char)
  | [] => none
  | [c] => if isDigitOf base c then some [c] else none
  | c :: '_' :: rest => if isDigitOf base c then (c :: ·) <$> digits? base rest else none
  | c :: rest => if isDigitOf base c then (c :: ·) <$> digits? base rest else none

def natural? (base : Nat) (text : Text) : Option Nat := (digits? base text).map (ofDigits base)

/-- Digits of a whole number in base ten. Only zero starts with a zero. -/
def wholeDigits? (text : Text) : Option (List Char) :=
  if text.length != 1 && text.head? == some '0' then none else digits? 10 text

def maxInteger : Int := 9223372036854775807

def decimal? (text : Text) : Option Int :=
  (wholeDigits? text).map fun digits => Int.ofNat (ofDigits 10 digits)

/-- Integers have 64 bits. There is one more below zero than above. -/
def integer? (text : Text) : Option Int := do
  let value : Int ← match text with
    | '0' :: 'x' :: rest => (natural? 16 rest).map Int.ofNat
    | '0' :: 'o' :: rest => (natural? 8 rest).map Int.ofNat
    | '0' :: 'b' :: rest => (natural? 2 rest).map Int.ofNat
    | '+' :: rest => decimal? rest
    | '-' :: rest => (decimal? rest).map fun n => -n
    | text => decimal? text
  if -maxInteger - 1 ≤ value ∧ value ≤ maxInteger then some value else none

/-- Splits a text at the first mark, which neither part keeps. Without one there is no second
part. -/
def splitAtMark (isMark : Char → Bool) : Text → Text × Option Text
  | [] => ([], none)
  | c :: rest =>
    if isMark c then ([], some rest)
    else
      let (front, back) := splitAtMark isMark rest
      (c :: front, back)

structure Decimal where
  /-- None of them is a zero in front, so zero has no digits. -/
  digits : List Char
  /-- The power of ten that the last digit counts. -/
  exponent : Int
  deriving Repr

namespace Decimal

def exponent? : Text → Option Int
  | '+' :: rest => (natural? 10 rest).map Int.ofNat
  | '-' :: rest => (natural? 10 rest).map fun n => -Int.ofNat n
  | text => (natural? 10 text).map Int.ofNat

def parse? (text : Text) : Option Decimal := do
  let (mantissa, exponent) := splitAtMark (fun c => c == 'e' || c == 'E') text
  let (whole, fraction) := splitAtMark (· == '.') mantissa
  if fraction.isNone && exponent.isNone then none
  else
    let whole ← wholeDigits? whole
    let fraction ← fraction.elim (some []) (digits? 10)
    let exponent ← exponent.elim (some 0) exponent?
    return {
      digits := (whole ++ fraction).dropWhile (· == '0')
      exponent := exponent - Int.ofNat fraction.length }

/-- The least number that rounds to infinity. It lies half a step above the largest float, and a tie
goes to the even neighbour, which would be the next power of two. -/
def leastInfinite : Nat := Nat.pow 2 1024 - Nat.pow 2 970

/-- The nearest float of 64 bits is infinity. The largest float has 309 digits before its point, so
only a number with as many has to be compared. -/
def isTooLarge (number : Decimal) : Bool :=
  let wholeLength := Int.ofNat number.digits.length + number.exponent
  !number.digits.isEmpty && (309 < wholeLength || (wholeLength == 309 &&
    leastInfinite * Nat.pow 10 (-number.exponent).toNat ≤
      ofDigits 10 number.digits * Nat.pow 10 number.exponent.toNat))

end Decimal

def dropSign : Text → Text
  | '+' :: rest => rest
  | '-' :: rest => rest
  | text => text

/-- A decimal number, infinity by name, or no number. A decimal number that is too large is refused,
but a negative one counts as infinity below zero, and one that is too small counts as zero. -/
def isFloat (text : Text) : Bool :=
  let unsigned := dropSign text
  unsigned == "inf".toList || unsigned == "nan".toList ||
    (Decimal.parse? unsigned).any fun number => text.head? == some '-' || !number.isTooLarge

end LineSearch.Toml
