import LineSearch.Pattern.Basic

/-! The parts of a pattern text, before suffixes are attached to what they repeat: where classes and groups
end, and where a group body splits into branches. Escapes and classes shield what they contain: a bracket
or bar inside them has no meaning. -/
namespace LineSearch

namespace Bracket

/-- The text of a class, given what follows its `[`: all up to the first `]`, escapes included. -/
def classBody? (rest : Text) : Option Text :=
  if rest.contains ']' then some (rest.takeWhile (· != ']')) else none

/-- How many characters of `rest` the character before it takes out of the scan. A backslash
shields one; the `[` of a closed class shields the class with its `]`. -/
def shield (c : Char) (rest : Text) : Nat :=
  if c = '\\' then 1
  else if c = '[' then
    match classBody? rest with
    | some body => body.length + 1
    | none => 0
  else 0

/-- `depth` groups are open inside the body, and `skip` characters in front are shielded. -/
def bodyFrom : (depth skip : Nat) → Text → Option Text
  | _, _, [] => none
  | depth, skip + 1, c :: rest => (bodyFrom depth skip rest).map (c :: ·)
  | depth, 0, c :: rest =>
    if c = ')' then
      match depth with
      | 0 => some []
      | outer + 1 => (bodyFrom outer 0 rest).map (c :: ·)
    else if c = '(' then (bodyFrom (depth + 1) 0 rest).map (c :: ·)
    else (bodyFrom depth (shield c rest) rest).map (c :: ·)

/-- The body of a group, given what follows its `(`: all up to the `)` that balances it. -/
def groupBody? (rest : Text) : Option Text := bodyFrom 0 0 rest

def branchesFrom : (depth skip : Nat) → Text → List Text
  | _, _, [] => [[]]
  | depth, skip + 1, c :: rest => (branchesFrom depth skip rest).modifyHead (c :: ·)
  | depth, 0, c :: rest =>
    if c = '|' ∧ depth = 0 then [] :: branchesFrom 0 0 rest
    else if c = '(' then (branchesFrom (depth + 1) 0 rest).modifyHead (c :: ·)
    else if c = ')' then (branchesFrom (depth - 1) 0 rest).modifyHead (c :: ·)
    else (branchesFrom depth (shield c rest) rest).modifyHead (c :: ·)

/-- The branches of a group body: its pieces between the bars that no group, class or escape
contains. There is always at least one. -/
def branches (body : Text) : List Text := branchesFrom 0 0 body

end Bracket

inductive Lexeme where
  | atom (atom : Atom)
  /-- A balanced group, with the text between its brackets. -/
  | group (body : Text)
  | suffix (suffix : Suffix) (position : Nat)
  deriving DecidableEq, Repr

namespace Lexeme

/-- The lexeme that starts with `c`, and how many characters of `rest` belong to it. A lone
trailing backslash, a `[` without `]` and an unbalanced `(` stand for themselves. -/
def read (position : Nat) (c : Char) (rest : Text) : Lexeme × Nat :=
  match c with
  | '\\' =>
    match rest with
    | [] => (.atom (.char '\\'), 0)
    | 'd' :: _ => (.atom .digit, 1)
    | 'w' :: _ => (.atom .word, 1)
    | escaped :: _ => (.atom (.char escaped), 1)
  | '[' =>
    match Bracket.classBody? rest with
    | some body => (.atom (.set (.ofBody body)), body.length + 1)
    | none => (.atom (.char '['), 0)
  | '(' =>
    match Bracket.groupBody? rest with
    | some body => (.group body, body.length + 1)
    | none => (.atom (.char '('), 0)
  | '.' => (.atom .any, 0)
  | '+' => (.suffix .oneOrMore position, 0)
  | '?' => (.suffix .zeroOrOne position, 0)
  | c => (.atom (.char c), 0)

/-- `skip` characters in front belong to the lexeme before. -/
def scanFrom : (position skip : Nat) → Text → List Lexeme
  | _, _, [] => []
  | position, skip + 1, _ :: rest => scanFrom (position + 1) skip rest
  | position, 0, c :: rest =>
    (read position c rest).1 :: scanFrom (position + 1) (read position c rest).2 rest

def scan (position : Nat) (text : Text) : List Lexeme := scanFrom position 0 text

end Lexeme

end LineSearch
