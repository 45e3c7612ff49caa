import LineSearch.Search

/-! Writing matches, with coloured file labels where they are wanted. -/
namespace LineSearch

inductive ColorMode where
  | auto
  | always
  | never
  deriving DecidableEq, Repr, Inhabited

inductive ColorChoice where
  | auto
  | always
  | never
  deriving DecidableEq, Repr

structure ColorEnvironment where
  noColor : Bool
  color : Bool
  continuousIntegration : Bool
  terminal : Bool

namespace ColorMode

def name : ColorMode → String
  | .auto => "auto"
  | .always => "always"
  | .never => "never"

def ofName? (name : Text) (ignoreCase : Bool) : Option ColorMode :=
  let name := if ignoreCase then name.map Char.toLower else name
  [auto, always, never].find? fun mode => mode.name.toList == name

/-- A colour is used only where someone asks for it or a terminal shows it. The wish for no colour
is stronger than the wish for colour. -/
def resolve (env : ColorEnvironment) : ColorMode → ColorChoice
  | .always => .always
  | .never => .never
  | .auto =>
    if env.noColor then .never
    else if env.color then .always
    else if !env.terminal || env.continuousIntegration then .never
    else .auto

end ColorMode

namespace Escape

def sequence (code : String) : Text := '\x1b' :: '[' :: code.toList ++ ['m']

def reset : Text := sequence "0"

def magenta : Text := reset ++ sequence "35"

def cyan : Text := reset ++ sequence "36"

end Escape

/-! Writing matches: a bare line for one source, the path and a colon before it for several. -/

structure RecordStyle where
  labelled : Bool
  colored : Bool

namespace RecordStyle

def label (style : RecordStyle) (origin : Text) : Text :=
  if !style.labelled then []
  else if style.colored then Escape.magenta ++ origin ++ Escape.cyan ++ ':' :: Escape.reset
  else origin ++ [':']

def record (style : RecordStyle) (origin line : Text) : Text :=
  style.label origin ++ line ++ ['\n']

end RecordStyle

structure Report where
  style : RecordStyle
  records : Array Text := #[]

namespace Report

def writeLine (report : Report) (origin line : Text) : Report :=
  { report with records := report.records.push (report.style.record origin line) }

def writeLines (report : Report) (origin : Text) (lines : List Text) : Report :=
  lines.foldl (fun report line => report.writeLine origin line) report

def writeOutcome (report : Report) (outcome : FileOutcome) : Report :=
  match outcome.result with
  | .ok lines => report.writeLines outcome.path lines
  | .error _ => report

def linesWritten (report : Report) : Nat := report.records.size

def output (report : Report) : Text := report.records.toList.flatten

end Report

end LineSearch
