import LineSearch.Pattern.Cache

/-! Matching a pattern against a text. -/
namespace LineSearch

inductive MatchError where
  | compile (error : CompileError)
  /-- `limit` nested attempts were under way when the next one was due. -/
  | depthExceeded (limit : Nat)
  | cursorOutOfRange (cursor length : Nat)
  deriving DecidableEq, Repr

def MatchError.message : MatchError → String
  | .compile e => e.message
  | .depthExceeded limit =>
    "pattern nests deeper than the recursion limit (" ++ toString limit ++ ")"
  | .cursorOutOfRange cursor length =>
    "cursor " ++ toString cursor ++ " outside input of length " ++ toString length

/-! Backtracking over the tokens of a pattern. A token commits to one end, offers a list of ends to be
tried in order, or ends the attempt; an offer looks no further than the stream its token stands in. -/

abbrev Matching := ExceptT MatchError OnDemand

namespace Matching

def request (source : Text) : Matching (Except CompileError Pattern) :=
  ExceptT.lift (OnDemand.request source)

def fresh {α : Type} (attempt : Matching α) : Except MatchError α := OnDemand.fresh attempt.run

end Matching

namespace Match

abbrev Line := Array Char

def literalEnd (chars : Line) : Text → Nat → Option Nat
  | [], cursor => some cursor
  | c :: rest, cursor =>
    if chars[cursor]? = some c then literalEnd chars rest (cursor + 1) else none

def atomEnd (chars : Line) (atom : Atom) (cursor : Nat) : Option Nat :=
  match chars[cursor]? with
  | some c => if atom.accepts c then some (cursor + 1) else none
  | none => none

def alternativeEnd (line : Line) (alternatives : List Text) (cursor : Nat) : Option Nat :=
  alternatives.findSome? fun text => literalEnd line text cursor

/-- The ends of one, two, three, … rounds from `cursor` on, longest first, in front of those
`reached` so far. The first round that fails or is empty is the last; an empty round counts only
where no other was. `fuel` bounds the number of rounds. -/
def roundsFrom (round : Nat → Matching (Option Nat)) :
    (fuel cursor : Nat) → (reached : List Nat) → Matching (List Nat)
  | 0, _, reached => pure reached
  | fuel + 1, cursor, reached => do
    match ← round cursor with
    | none => pure reached
    | some next =>
      if next = cursor then pure (if reached.isEmpty then [cursor] else reached)
      else roundsFrom round fuel next (next :: reached)

/-- The ends of a repetition that starts at the cursor. A round that is not the last consumes a
character, so there is one round more than characters left. -/
def rounds (line : Line) (round : Nat → Matching (Option Nat)) (cursor : Nat) :
    Matching (List Nat) :=
  roundsFrom round (line.size - cursor + 1) cursor []

abbrev Runner := List Token → Nat → Matching (Option Nat)

/-- The end of each branch that matches at the cursor, in order. A branch starting with `^` is
skipped elsewhere than at position 0. With `lenient` a branch that does not compile counts as one
that does not match. -/
def branchEnds (nested : Runner) (lenient : Bool) (cursor : Nat) : List Text → Matching (List Nat)
  | [] => pure []
  | branch :: rest => do
    match ← Matching.request branch with
    | .error e => if lenient then branchEnds nested lenient cursor rest else throw (.compile e)
    | .ok pattern =>
      if pattern.startAnchored && cursor != 0 then branchEnds nested lenient cursor rest
      else
        match ← nested pattern.tokens cursor with
        | some stop => return stop :: (← branchEnds nested lenient cursor rest)
        | none => branchEnds nested lenient cursor rest

/-- The ends that a group offers. Each round of a repeated group takes the first branch that
matches; an optional group offers its absence last. -/
def groupEnds (line : Line) (nested : Runner) (branches : List Text) (cursor : Nat) :
    Option Suffix → Matching (List Nat)
  | none => branchEnds nested false cursor branches
  | some .zeroOrOne => return (← branchEnds nested true cursor branches) ++ [cursor]
  | some .oneOrMore =>
    rounds line (fun start => return (← branchEnds nested false start branches).head?) cursor

inductive Offer where
  /-- The one end it can have, if it matches. -/
  | commit (stop : Option Nat)
  /-- Ends to be tried in order until the rest of the stream matches. -/
  | choose (stops : List Nat)
  /-- The end of the whole attempt, whatever stands behind the token. -/
  | finish (stop : Option Nat)
  deriving DecidableEq, Repr

/-- Repetitions and groups choose, and a token that is nothing but an end anchor finishes; everything
else commits, an optional atom or alternation to its occurrence where there is one. -/
def offer (line : Line) (nested : Runner) (cursor : Nat) : TokenKind → Matching Offer
  | .literal text => pure (.commit (literalEnd line text cursor))
  | .wildcard => pure (.commit (atomEnd line .any cursor))
  | .digit => pure (.commit (atomEnd line .digit cursor))
  | .word => pure (.commit (atomEnd line .word cursor))
  | .set s => pure (.commit (atomEnd line (.set s) cursor))
  | .quantified atom .zeroOrOne => pure (.commit (some ((atomEnd line atom cursor).getD cursor)))
  | .alternation texts none => pure (.commit (alternativeEnd line texts cursor))
  | .alternation texts (some .zeroOrOne) =>
    pure (.commit (some ((alternativeEnd line texts cursor).getD cursor)))
  | .endAnchor => pure (.finish (if cursor = line.size then some cursor else none))
  | .wildcardPlus => .choose <$> rounds line (fun start => pure (atomEnd line .any start)) cursor
  | .quantified atom .oneOrMore =>
    .choose <$> rounds line (fun start => pure (atomEnd line atom start)) cursor
  | .alternation texts (some .oneOrMore) =>
    .choose <$> rounds line (fun start => pure (alternativeEnd line texts start)) cursor
  | .group _ branches suffix => .choose <$> groupEnds line nested branches cursor suffix

def mayEnd (line : Line) (token : Token) (stop : Nat) : Bool :=
  !token.endAnchor || stop == line.size

def firstViable (line : Line) (nested : Runner) (token : Token) (rest : List Token) :
    List Nat → Matching (Option Nat)
  | [] => pure none
  | stop :: stops => do
    if mayEnd line token stop then
      match ← nested rest stop with
      | some finish => return some finish
      | none => firstViable line nested token rest stops
    else firstViable line nested token rest stops

/-- Matches a stream token by token; `nested` matches branches and the rest behind a choice. -/
def runTokens (line : Line) (nested : Runner) : Runner
  | [], cursor => pure (some cursor)
  | token :: rest, cursor => do
    match ← offer line nested cursor token.kind with
    | .commit (some stop) =>
      if mayEnd line token stop then runTokens line nested rest stop else pure none
    | .commit none => pure none
    | .choose stops => firstViable line nested token rest stops
    | .finish stop => pure stop

/-- Matches a stream with `budget` of the `limit` nested attempts left. -/
def runWithin (line : Line) (limit : Nat) : (budget : Nat) → Runner
  | 0 => fun _ _ => throw (.depthExceeded limit)
  | budget + 1 => fun tokens cursor =>
    if line.size < cursor then throw (.cursorOutOfRange cursor line.size)
    else runTokens line (runWithin line limit budget) tokens cursor

def run (line : Line) (limit : Nat) : Runner := runWithin line limit limit

def anyStart (line : Line) (limit : Nat) (tokens : List Token) : List Nat → Matching Bool
  | [] => pure false
  | start :: starts => do
    match ← run line limit tokens start with
    | some _ => return true
    | none => anyStart line limit tokens starts

/-- Does a compiled pattern match anywhere in the line? A start-anchored one is tried at position
0 only, any other at every position up to and including the end. -/
def find (line : Line) (limit : Nat) (pattern : Pattern) : Matching Bool :=
  anyStart line limit pattern.tokens
    (if pattern.startAnchored then [0] else List.range (line.size + 1))

end Match

def isMatch (limit : Nat) (text source : Text) : Matching Bool := do
  match ← Matching.request source with
  | .ok pattern => Match.find text.toArray limit pattern
  | .error e => throw (.compile e)

/-! An engine: a recursion limit and the patterns compiled so far. -/

def defaultRecursionLimit : Nat := 256

structure Engine where
  recursionLimit : Nat := defaultRecursionLimit
  cache : Cache := .empty

namespace Engine

/-- Runs a computation against the engine's cache, which keeps what was compiled on the way, also
when the computation ends in an error. -/
def run {α : Type} (engine : Engine) (computation : OnDemand α) : α × Engine :=
  ((computation.run engine.cache).1, { engine with cache := (computation.run engine.cache).2 })

def compile (engine : Engine) (source : Text) : Except CompileError Pattern × Engine :=
  engine.run (OnDemand.request source)

def isMatch (engine : Engine) (text source : Text) : Except MatchError Bool × Engine :=
  engine.run (LineSearch.isMatch engine.recursionLimit text source).run

def isMatchCompiled (engine : Engine) (text : Text) (pattern : Pattern) :
    Except MatchError Bool × Engine :=
  engine.run (Match.find text.toArray engine.recursionLimit pattern).run

def isCached (engine : Engine) (source : Text) : Bool := engine.cache.contains source

end Engine

end LineSearch
