import LineSearch.Toml.Number

/-! Strings in quotes and in apostrophes. A reader answers the text of the string, without escapes,
and the text after it. -/
namespace LineSearch.Toml

def isControl (c : Char) : Bool := (c < ' ' && c != '\t') || c == '\x7f'

def before (c : Char) : Option (Text × Text) → Option (Text × Text) :=
  Option.map fun (text, rest) => (c :: text, rest)

def scalar? (digits : List Char) : Option Char :=
  let value := ofDigits 16 digits
  if digits.all (isDigitOf 16) && value.isValidChar then some (Char.ofNat value) else none

def escaped? : Char → Option Char
  | 'b' => some '\x08'
  | 't' => some '\t'
  | 'n' => some '\n'
  | 'f' => some '\x0c'
  | 'r' => some '\r'
  | '"' => some '"'
  | '\\' => some '\\'
  | _ => none

def basicString : Text → Option (Text × Text)
  | '"' :: rest => some ([], rest)
  | '\\' :: 'u' :: a :: b :: c :: d :: rest => do
    before (← scalar? [a, b, c, d]) (basicString rest)
  | '\\' :: 'U' :: a :: b :: c :: d :: e :: f :: g :: h :: rest => do
    before (← scalar? [a, b, c, d, e, f, g, h]) (basicString rest)
  | '\\' :: c :: rest => do before (← escaped? c) (basicString rest)
  | c :: rest => if c == '\\' || isControl c then none else before c (basicString rest)
  | [] => none

def literalString : Text → Option (Text × Text)
  | '\x27' :: rest => some ([], rest)
  | c :: rest => if isControl c then none else before c (literalString rest)
  | [] => none

inductive LineMode where
  | content
  /-- After a backslash, which must be the last on its line. -/
  | escapedEnd
  /-- After the end of such a line, where blanks and line ends are skipped. -/
  | skipped
  deriving DecidableEq

/-- A basic string of several lines, after its opening quotes and a line end. Up to two quotes may
stand before the closing ones. -/
def basicLines : LineMode → Text → Option (Text × Text)
  | .escapedEnd, '\n' :: rest => basicLines .skipped rest
  | .escapedEnd, '\r' :: '\n' :: rest => basicLines .skipped rest
  | .escapedEnd, c :: rest => if c == ' ' || c == '\t' then basicLines .escapedEnd rest else none
  | .skipped, '\n' :: rest => basicLines .skipped rest
  | .skipped, '\r' :: '\n' :: rest => basicLines .skipped rest
  | .skipped, ' ' :: rest => basicLines .skipped rest
  | .skipped, '\t' :: rest => basicLines .skipped rest
  | _, '"' :: '"' :: '"' :: '"' :: '"' :: rest => some (['"', '"'], rest)
  | _, '"' :: '"' :: '"' :: '"' :: rest => some (['"'], rest)
  | _, '"' :: '"' :: '"' :: rest => some ([], rest)
  | _, '\\' :: 'u' :: a :: b :: c :: d :: rest => do
    before (← scalar? [a, b, c, d]) (basicLines .content rest)
  | _, '\\' :: 'U' :: a :: b :: c :: d :: e :: f :: g :: h :: rest => do
    before (← scalar? [a, b, c, d, e, f, g, h]) (basicLines .content rest)
  | _, '\\' :: c :: rest =>
    match escaped? c with
    | some c => before c (basicLines .content rest)
    | none => basicLines .escapedEnd (c :: rest)
  | _, '\r' :: '\n' :: rest => before '\n' (basicLines .content rest)
  | _, '\n' :: rest => before '\n' (basicLines .content rest)
  | _, c :: rest => if c == '\\' || isControl c then none else before c (basicLines .content rest)
  | _, [] => none

def literalLines : Text → Option (Text × Text)
  | '\x27' :: '\x27' :: '\x27' :: '\x27' :: '\x27' :: rest => some (['\x27', '\x27'], rest)
  | '\x27' :: '\x27' :: '\x27' :: '\x27' :: rest => some (['\x27'], rest)
  | '\x27' :: '\x27' :: '\x27' :: rest => some ([], rest)
  | '\r' :: '\n' :: rest => before '\n' (literalLines rest)
  | '\n' :: rest => before '\n' (literalLines rest)
  | c :: rest => if isControl c then none else before c (literalLines rest)
  | [] => none

/-- A line end right after the opening of a string of several lines is no part of it. -/
def dropLineEnd : Text → Text
  | '\n' :: rest => rest
  | '\r' :: '\n' :: rest => rest
  | text => text

def string : Text → Option (Text × Text)
  | '"' :: '"' :: '"' :: rest => basicLines .content (dropLineEnd rest)
  | '"' :: rest => basicString rest
  | '\x27' :: '\x27' :: '\x27' :: rest => literalLines (dropLineEnd rest)
  | '\x27' :: rest => literalString rest
  | _ => none

end LineSearch.Toml
