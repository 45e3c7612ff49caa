import LineSearch.Match.Search
import LineSearch.Walk.Basic

/-! Searching lines and files, and what ends a search. -/
namespace LineSearch

inductive ExitStatus where
  /-- At least one line matched, or help was asked for and given. -/
  | success
  | noMatch
  /-- Usage, configuration, input or pattern are at fault. -/
  | error
  /-- The program is at fault. -/
  | internalError
  deriving DecidableEq, Repr

def ExitStatus.code : ExitStatus → Nat
  | .success => 0
  | .noMatch => 1
  | .error => 2
  | .internalError => 3

inductive Fault where
  | config (message : String) (path : Option Text)
  | argument (message : String)
  | io (path : Text) (cause : SystemError)
  /-- The pattern of the search does not compile. -/
  | compile (error : CompileError)
  /-- Matching a line came to no answer. -/
  | unmatched (error : MatchError)
  | walk (message : String)
  | internal (message : String)
  deriving DecidableEq, Repr

namespace Fault

def message : Fault → String
  | .config message _ => "config error: " ++ message
  | .argument message => "argument error: " ++ message
  | .io path cause => String.ofList path ++ ": " ++ cause.message
  | .compile e => "invalid pattern: " ++ e.message
  | .unmatched e => "match error: " ++ e.message
  | .walk message => "walk error: " ++ message
  | .internal message => "internal error: " ++ message

/-- Only what cannot happen on any input counts against the program itself. -/
def status : Fault → ExitStatus
  | .unmatched (.cursorOutOfRange ..) => .internalError
  | .internal _ => .internalError
  | _ => .error

end Fault

/-! Searching one stream of lines. -/

structure LineSource where
  lines : List Text
  failure : Option SystemError := none

def LineSource.ofBytes (bytes : Bytes) : LineSource := { lines := decodeLines bytes }

abbrev Sink (σ : Type) := Text → σ → Except Fault Unit × σ

def Sink.collect : Sink (List Text) := fun line kept => (.ok (), line :: kept)

namespace Search

/-- Hands the matching lines to the sink and counts them, `count` of them before. The first line
that has no answer, or whose delivery is refused, ends it. -/
def deliver {σ : Type} (accepts : Text → Matching Bool) (sink : Sink σ) (count : Nat) :
    List Text → σ → OnDemand (Except Fault Nat × σ)
  | [], state => pure (.ok count, state)
  | line :: rest, state => do
    match ← (accepts line).run with
    | .error e => return (.error (.unmatched e), state)
    | .ok false => deliver accepts sink count rest state
    | .ok true =>
      match sink line state with
      | (.ok (), state) => deliver accepts sink (count + 1) rest state
      | (.error fault, state) => return (.error fault, state)

end Search

structure Searcher where
  pattern : Pattern
  recursionLimit : Nat

namespace Searcher

def compile (recursionLimit : Nat) (source : Text) : OnDemand (Except Fault Searcher) := do
  match ← OnDemand.request source with
  | .ok pattern => return .ok { pattern, recursionLimit }
  | .error e => return .error (.compile e)

def accepts (searcher : Searcher) (line : Text) : Matching Bool :=
  Match.find line.toArray searcher.recursionLimit searcher.pattern

/-- Hands each matching line of a source to the sink, in order, and counts them. Lines delivered
before a failure stay delivered; `origin` names the source in errors. -/
def forEachMatch {σ : Type} (searcher : Searcher) (origin : Text) (source : LineSource)
    (sink : Sink σ) (state : σ) : OnDemand (Except Fault Nat × σ) := do
  match ← Search.deliver searcher.accepts sink 0 source.lines state with
  | (.ok count, state) =>
    match source.failure with
    | none => return (.ok count, state)
    | some cause => return (.error (.io origin cause), state)
  | failed => return failed

def matchingLines (searcher : Searcher) (origin : Text) (source : LineSource) :
    OnDemand (Except Fault (List Text)) := do
  match ← searcher.forEachMatch origin source Sink.collect [] with
  | (.ok _, kept) => return .ok kept.reverse
  | (.error fault, _) => return .error fault

end Searcher

/-! Searching files, one after the other. -/

structure FileOutcome where
  path : Text
  result : Except SystemError (List Text)

namespace FileOutcome

def matched (outcome : FileOutcome) : Bool :=
  match outcome.result with
  | .ok lines => !lines.isEmpty
  | .error _ => false

/-- A file that cannot be read is a matter of its own. Any other fault ends the whole search. -/
def ofResult (path : Text) : Except Fault (List Text) → Except Fault FileOutcome
  | .ok lines => .ok { path, result := .ok lines }
  | .error (.io _ cause) => .ok { path, result := .error cause }
  | .error fault => .error fault

/-- The outcomes of several files in their order, or the first fault that is no matter of one
file. -/
def ofResults : List (Text × Except Fault (List Text)) → Except Fault (List FileOutcome)
  | [] => .ok []
  | (path, result) :: rest => do return (← ofResult path result) :: (← ofResults rest)

end FileOutcome

def LineSource.ofContent : Except SystemError Content → LineSource
  | .ok content => { lines := decodeLines content.lineBytes, failure := content.failure }
  | .error cause => { lines := [], failure := some cause }

structure TreeOutcome where
  events : List WalkEvent
  outcomes : Except Fault (List FileOutcome)

namespace Searcher

def searchFile (searcher : Searcher) (here : Directory) (path : Text) :
    OnDemand (Except Fault (List Text)) :=
  searcher.matchingLines path (.ofContent (here.content path))

def searchEach (searcher : Searcher) (here : Directory) :
    List Text → OnDemand (List (Text × Except Fault (List Text)))
  | [] => pure []
  | path :: rest => do
    let result ← searcher.searchFile here path
    return (path, result) :: (← searchEach searcher here rest)

def searchPaths (searcher : Searcher) (here : Directory) (paths : List Text) :
    OnDemand (Except Fault (List FileOutcome)) := do
  return FileOutcome.ofResults (← searcher.searchEach here paths)

def searchTree (searcher : Searcher) (here : Directory) (options : WalkOptions) (root : Text) :
    OnDemand TreeOutcome := do
  let events := here.walk options root
  return { events, outcomes := ← searcher.searchPaths here ((WalkEvent.files events).map (·.path)) }

end Searcher

end LineSearch
