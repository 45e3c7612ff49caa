import LineSearch.Text

/-! Compiled patterns, a flat list of tokens and the two anchors, and why a text is none. -/
namespace LineSearch

/-- How often the thing before it occurs. A thing without a suffix occurs exactly once. -/
inductive Suffix where
  /-- `+` -/
  | oneOrMore
  /-- `?` -/
  | zeroOrOne
  deriving DecidableEq, Repr, Inhabited

namespace Suffix

def ofChar? : Char → Option Suffix
  | '+' => some .oneOrMore
  | '?' => some .zeroOrOne
  | _ => none

def toChar : Suffix → Char
  | .oneOrMore => '+'
  | .zeroOrOne => '?'

end Suffix

/-- An explicit set of characters. Members stand for themselves: no ranges, no escapes. -/
structure CharSet where
  members : Text
  negated : Bool := false
  deriving DecidableEq, Repr

namespace CharSet

/-- The set between two brackets. A leading `^` negates it and is no member. -/
def ofBody : Text → CharSet
  | '^' :: rest => { members := rest, negated := true }
  | body => { members := body }

def contains (set : CharSet) (c : Char) : Bool := set.members.contains c != set.negated

end CharSet

def isDigit (c : Char) : Bool := c.isDigit

def isWord (c : Char) : Bool := c.isAlphanum || c == '_'

inductive Atom where
  | char (c : Char)
  | any
  | digit
  | word
  | set (set : CharSet)
  deriving DecidableEq, Repr

def Atom.accepts : Atom → Char → Bool
  | .char expected, c => expected == c
  | .any, _ => true
  | .digit, c => isDigit c
  | .word, c => isWord c
  | .set s, c => s.contains c

inductive TokenKind where
  /-- Ordinary characters, one after the other. -/
  | literal (text : Text)
  /-- `.` -/
  | wildcard
  /-- `.+` -/
  | wildcardPlus
  /-- `\d` -/
  | digit
  /-- `\w` -/
  | word
  /-- `[...]` or `[^...]` -/
  | set (set : CharSet)
  /-- A group. Its branches are patterns of their own, compiled when matching reaches them. -/
  | group (body : Text) (branches : List Text) (suffix : Option Suffix)
  /-- A group whose branches are all plain text, matched literally. -/
  | alternation (alternatives : List Text) (suffix : Option Suffix)
  /-- One atom with its suffix. -/
  | quantified (atom : Atom) (suffix : Suffix)
  /-- A `$` with no token before it. -/
  | endAnchor
  deriving DecidableEq, Repr

def TokenKind.describe : TokenKind → String
  | .literal _ => "literal"
  | .wildcard => "wildcard"
  | .wildcardPlus => "`.+`"
  | .digit => "`\\d`"
  | .word => "`\\w`"
  | .set _ => "character class"
  | .group .. => "group"
  | .alternation .. => "alternation"
  | .quantified .. => "quantified atom"
  | .endAnchor => "end anchor"

/-- One unit of a pattern. With `endAnchor` its match has to reach the end of the text. -/
structure Token where
  kind : TokenKind
  endAnchor : Bool := false
  deriving DecidableEq, Repr

/-- A compiled pattern. A start-anchored one is tried at position 0 only. -/
structure Pattern where
  source : Text
  tokens : List Token
  startAnchored : Bool
  deriving DecidableEq, Repr

/-- A misplaced suffix is the only thing that a pattern can get wrong. Positions count the
characters of the pattern being compiled, a leading `^` included. -/
inductive CompileError where
  /-- No token stands before the suffix. -/
  | danglingQuantifier (suffix : Suffix) (position : Nat)
  /-- The token before the suffix cannot carry it. -/
  | unsupportedQuantifier (suffix : Suffix) (position : Nat) (target : TokenKind)
  deriving DecidableEq, Repr

namespace CompileError

private def located (suffix : Suffix) (position : Nat) : String :=
  "quantifier `" ++ String.singleton suffix.toChar ++ "` at position " ++ toString position

def message : CompileError → String
  | .danglingQuantifier s p => located s p ++ " has nothing to repeat"
  | .unsupportedQuantifier s p target => located s p ++ " cannot follow a " ++ target.describe

end CompileError

end LineSearch
