import LineSearch.Toml.Quoted
import LineSearch.Toml.Value

/-! Values without parts. A reader answers what it read and the text after it; for dates and times that is
the text alone. -/
namespace LineSearch.Toml

def fixedDigits (count : Nat) (text : Text) : Option (Nat × Text) :=
  let digits := text.take count
  if digits.length == count && digits.all Char.isDigit then
    some (ofDigits 10 digits, text.drop count)
  else none

def twoDigits (least greatest : Nat) (text : Text) : Option (Nat × Text) := do
  let (n, rest) ← fixedDigits 2 text
  if least ≤ n ∧ n ≤ greatest then some (n, rest) else none

def dropMark (mark : Char) : Text → Option Text
  | c :: rest => if c == mark then some rest else none
  | [] => none

def isLeapYear (year : Nat) : Bool := year % 4 == 0 && (year % 100 != 0 || year % 400 == 0)

def daysIn (year month : Nat) : Nat :=
  if month == 2 then if isLeapYear year then 29 else 28
  else if [4, 6, 9, 11].contains month then 30
  else 31

def date (text : Text) : Option Text := do
  let (year, rest) ← fixedDigits 4 text
  let (month, rest) ← twoDigits 1 12 (← dropMark '-' rest)
  let (_, rest) ← twoDigits 1 (daysIn year month) (← dropMark '-' rest)
  return rest

def dropFraction (text : Text) : Text :=
  match text with
  | '.' :: c :: rest => if c.isDigit then rest.dropWhile Char.isDigit else text
  | _ => text

/-- Hour, minute and second. A leap second is a sixtieth one. -/
def time (text : Text) : Option Text := do
  let (_, rest) ← twoDigits 0 23 text
  let (_, rest) ← twoDigits 0 59 (← dropMark ':' rest)
  let (_, rest) ← twoDigits 0 60 (← dropMark ':' rest)
  return dropFraction rest

def offset : Text → Option Text
  | c :: rest =>
    if c == 'Z' || c == 'z' then some rest
    else if c == '+' || c == '-' then do
      let (_, rest) ← twoDigits 0 23 rest
      let (_, rest) ← twoDigits 0 59 (← dropMark ':' rest)
      return rest
    else none
  | [] => none

/-- A time after a date, where there is one. A time of day alone has no offset. -/
def timeOfDate (text : Text) : Option Text :=
  match text with
  | c :: rest =>
    if c == 'T' || c == 't' || c == ' ' then
      (time rest).map fun rest => (offset rest).getD rest
    else none
  | [] => none

def timestamp (text : Text) : Option Text :=
  match date text with
  | some rest => some ((timeOfDate rest).getD rest)
  | none => time text

def isWordChar (c : Char) : Bool := c.isAlphanum || ['_', '-', '+', '.'].contains c

def word (text : Text) : Option (Value × Text) := do
  let written := text.takeWhile isWordChar
  let rest := text.dropWhile isWordChar
  if written == "true".toList then return (.boolean true, rest)
  else if written == "false".toList then return (.boolean false, rest)
  else
    match integer? written with
    | some value => return (.integer value, rest)
    | none => if isFloat written then return (.float written, rest) else none

/-- A string, a date or time, a truth value or a number. No number begins like a date or time. -/
def scalar (text : Text) : Option (Value × Text) :=
  match text.head? with
  | some '"' | some '\x27' => (string text).map fun (text, rest) => (.string text, rest)
  | _ =>
    match timestamp text with
    | some rest => some (.timestamp (text.take (text.length - rest.length)), rest)
    | none => word text

end LineSearch.Toml
