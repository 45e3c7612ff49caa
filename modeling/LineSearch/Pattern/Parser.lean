import LineSearch.Pattern.Lexeme

/-! Compiling a pattern text, and writing a compiled pattern as text. -/
namespace LineSearch

/-- Branches free of blanks, suffixes and round brackets are matched as plain text. -/
def isPlainAlternative (branch : Text) : Bool :=
  branch.all fun c => c != ' ' && c != '?' && c != '+' && c != '(' && c != ')'

namespace TokenKind

def ofAtom : Atom → TokenKind
  | .char c => .literal [c]
  | .any => .wildcard
  | .digit => .digit
  | .word => .word
  | .set s => .set s

def ofRepeated : Atom → Suffix → TokenKind
  | .any, .oneOrMore => .wildcardPlus
  | atom, suffix => .quantified atom suffix

/-- The token of a group. Two or more plain branches make it an alternation. -/
def ofGroup (body : Text) (suffix : Option Suffix) : TokenKind :=
  let branches := Bracket.branches body
  if branches.length > 1 && branches.all isPlainAlternative then .alternation branches suffix
  else .group body branches suffix

/-- Puts a token in front of others; two literals that meet become one. -/
def join : TokenKind → List TokenKind → List TokenKind
  | .literal text, .literal more :: rest => .literal (text ++ more) :: rest
  | kind, rest => kind :: rest

def misplaced (previous : Option TokenKind) (suffix : Suffix) (position : Nat) : CompileError :=
  match previous with
  | none => .danglingQuantifier suffix position
  | some kind => .unsupportedQuantifier suffix position kind

/-- Attaches each suffix to the atom or group right before it. `previous` is the token before the
first lexeme. -/
def ofLexemes (previous : Option TokenKind) : List Lexeme → Except CompileError (List TokenKind)
  | [] => .ok []
  | .suffix suffix position :: _ => .error (misplaced previous suffix position)
  | .atom atom :: .suffix suffix _ :: rest =>
    (ofLexemes (some (ofRepeated atom suffix)) rest).map (ofRepeated atom suffix :: ·)
  | .group body :: .suffix suffix _ :: rest =>
    (ofLexemes (some (ofGroup body (some suffix))) rest).map (ofGroup body (some suffix) :: ·)
  | .atom atom :: rest => (ofLexemes (some (ofAtom atom)) rest).map (ofAtom atom).join
  | .group body :: rest =>
    (ofLexemes (some (ofGroup body none)) rest).map (ofGroup body none :: ·)

end TokenKind

namespace Pattern

/-- Does the text end in a `$` that no backslash escapes? The backslashes before it escape one
another in pairs. -/
def endsAnchored (body : Text) : Bool :=
  body.getLast? == some '$' &&
    (body.dropLast.reverse.takeWhile (· == '\\')).length % 2 == 0

/-- Puts the end anchor on the last token, or makes it a token where there is none. -/
def anchorLast : List Token → List Token
  | [] => [{ kind := .endAnchor, endAnchor := true }]
  | [token] => [{ token with endAnchor := true }]
  | token :: rest => token :: anchorLast rest

def parse (source : Text) : Except CompileError Pattern :=
  let startAnchored := source.head? == some '^'
  let offset := if startAnchored then 1 else 0
  let body := source.drop offset
  let endAnchored := endsAnchored body
  let scanned := if endAnchored then body.dropLast else body
  (TokenKind.ofLexemes none (Lexeme.scan offset scanned)).map fun kinds =>
    let tokens := kinds.map fun kind => { kind }
    { source
      tokens := if endAnchored then anchorLast tokens else tokens
      startAnchored }

end Pattern

/-! Writing compiled patterns as text. -/

/-- Characters that mean something at the top level of a pattern, or at one of its ends. -/
def isSpecial (c : Char) : Bool := ['\\', '[', '(', '.', '+', '?', '^', '$'].contains c

def escapeChar (c : Char) : Text := if isSpecial c then ['\\', c] else [c]

def escape (text : Text) : Text := text.flatMap escapeChar

namespace CharSet

def print (set : CharSet) : Text :=
  '[' :: (if set.negated then ['^'] else []) ++ set.members ++ [']']

end CharSet

def Atom.print : Atom → Text
  | .char c => escapeChar c
  | .any => ['.']
  | .digit => ['\\', 'd']
  | .word => ['\\', 'w']
  | .set s => s.print

def Suffix.print (suffix : Option Suffix) : Text := (suffix.map toChar).toList

namespace TokenKind

/-- The end anchor is written with the token that carries it. -/
def print : TokenKind → Text
  | .literal text => escape text
  | .wildcard => ['.']
  | .wildcardPlus => ['.', '+']
  | .digit => ['\\', 'd']
  | .word => ['\\', 'w']
  | .set s => s.print
  | .group body _ suffix => '(' :: body ++ ')' :: Suffix.print suffix
  | .alternation alternatives suffix =>
    '(' :: (alternatives.intersperse ['|']).flatten ++ ')' :: Suffix.print suffix
  | .quantified atom suffix => atom.print ++ Suffix.print (some suffix)
  | .endAnchor => []

end TokenKind

def Token.print (token : Token) : Text :=
  token.kind.print ++ (if token.endAnchor then ['$'] else [])

namespace Pattern

def print (pattern : Pattern) : Text :=
  (if pattern.startAnchored then ['^'] else []) ++ pattern.tokens.flatMap Token.print

end Pattern

end LineSearch
