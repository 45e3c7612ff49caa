import LineSearch.Arguments.Parser

/-! A whole run: from the command line, the environment and the files to the output, the messages
and the exit status. -/
namespace LineSearch

namespace Program

def name : String := "greplite"

def version : String := "0.1.0"

structure Invocation where
  /-- The command line without the program's name. -/
  arguments : List Text
  /-- The configuration file that the environment names. -/
  configPath : Option Text := none
  color : ColorEnvironment
  standardInput : Bytes
  /-- The failure that ends the reading of standard input early, if there is one. -/
  inputFailure : Option SystemError := none
  /-- The working directory. -/
  here : Directory

def Invocation.input (invocation : Invocation) : Content :=
  { bytes := invocation.standardInput, failure := invocation.inputFailure }

structure Outcome where
  status : ExitStatus
  output : Text
  /-- Lines on standard error. -/
  messages : List String

structure Progress where
  report : Report
  /-- What was said, the program's name left out. -/
  messages : List String := []

namespace Progress

def say (progress : Progress) (messages : List String) : Progress :=
  { progress with messages := progress.messages ++ messages }

def addOutcome (progress : Progress) (outcome : FileOutcome) : Progress :=
  match outcome.result with
  | .ok _ => { progress with report := progress.report.writeOutcome outcome }
  | .error cause => progress.say [(Fault.io outcome.path cause).message]

def addOutcomes (progress : Progress) (outcomes : List FileOutcome) : Progress :=
  outcomes.foldl addOutcome progress

end Progress

/-- Did any line match, or what ended the search early, and what was shown until then. -/
abbrev Search := OnDemand (Except Fault Bool × Progress)

def standardInputName : Text := "(standard input)".toList

def searchStream (searcher : Searcher) (origin : Text) (source : LineSource)
    (progress : Progress) : Search := do
  let write : Sink Report := fun line report => (.ok (), report.writeLine origin line)
  let (count, report) ← searcher.forEachMatch origin source write progress.report
  return (count.map (0 < ·), { progress with report })

/-- Searches several files, and writes once all have been searched. -/
def searchFiles (searcher : Searcher) (here : Directory) (paths : List Text)
    (progress : Progress) : Search := do
  match ← searcher.searchPaths here paths with
  | .error fault => return (.error fault, progress)
  | .ok outcomes => return (.ok (outcomes.any (·.matched)), progress.addOutcomes outcomes)

/-- Searches below one root after the other, and writes after each. -/
def searchTrees (searcher : Searcher) (here : Directory) (options : WalkOptions) :
    List Text → (matched : Bool) → Progress → Search
  | [], matched, progress => return (.ok matched, progress)
  | root :: rest, matched, progress => do
    let tree ← searcher.searchTree here options root
    let progress := progress.say (WalkEvent.messages tree.events)
    match tree.outcomes with
    | .error fault => return (.error fault, progress)
    | .ok outcomes =>
      searchTrees searcher here options rest (matched || outcomes.any (·.matched))
        (progress.addOutcomes outcomes)

def searchSource (searcher : Searcher) (invocation : Invocation) (options : WalkOptions)
    (progress : Progress) : Source → Search
  | .standardInput =>
    searchStream searcher standardInputName (.ofContent (.ok invocation.input)) progress
  | .file path => searchStream searcher path (.ofContent (invocation.here.content path)) progress
  | .files paths => searchFiles searcher invocation.here paths progress
  | .trees roots => searchTrees searcher invocation.here options roots false progress

def styleOf (invocation : Invocation) (arguments : Arguments) : RecordStyle :=
  { labelled := arguments.source.isLabelled
    colored := match arguments.color.resolve invocation.color with
      | .always => true
      | .never => false
      | .auto => invocation.color.terminal }

def search (invocation : Invocation) (arguments : Arguments) (settings : Settings) : Search := do
  let progress : Progress := { report := { style := styleOf invocation arguments } }
  match ← Searcher.compile settings.recursionLimit arguments.pattern with
  | .error fault => return (.error fault, progress)
  | .ok searcher => searchSource searcher invocation settings.walk progress arguments.source

def settingsOf (invocation : Invocation) (arguments : Arguments) :
    Except Fault Settings × List String :=
  match arguments.config with
  | none => (.ok (arguments.override {}), [])
  | some path =>
    let reading := Settings.load invocation.here path
    (reading.settings.map arguments.override, reading.unknownKeys.map (Settings.warning path))

def statusOf : Except Fault Bool → ExitStatus
  | .ok true => .success
  | .ok false => .noMatch
  | .error fault => fault.status

def finish (output : Text) (messages : List String) (result : Except Fault Bool) : Outcome :=
  let messages := match result with
    | .ok _ => messages
    | .error fault => messages ++ [fault.message]
  { status := statusOf result, output, messages := messages.map (name ++ ": " ++ ·) }

def runWith (invocation : Invocation) (arguments : Arguments) : Outcome :=
  match settingsOf invocation arguments with
  | (.error fault, warnings) => finish [] warnings (.error fault)
  | (.ok settings, warnings) =>
    let engine : Engine := { recursionLimit := settings.recursionLimit }
    let ((result, progress), _) := engine.run (search invocation arguments settings)
    finish progress.report.output (warnings ++ progress.messages) result

def usage : String := "Usage: " ++ name ++ " [OPTIONS] --extended-regexp <PATTERN> [PATH]..."

def help : String := String.intercalate "\n" [
  "Print lines that match an extended regular expression", "", usage, "",
  "  -E, --extended-regexp <PATTERN>  Pattern to search for",
  "  -r, --recursive                  Search directories, the working directory if none is given",
  "      --color <WHEN>               Color file labels: auto, always or never",
  "      --max-depth <N>              Go down at most this many directories with -r",
  "      --hidden                     Search hidden files and directories with -r",
  "      --git-ignore                 Obey .gitignore files with -r",
  "      --sequential                 Search files one at a time",
  "  -C, --config <CONFIG>            Configuration file",
  "  -h, --help                       Print help",
  "  -V, --version                    Print version", ""]

def refuse (refusal : Refusal) : Outcome :=
  let (output, messages) := match refusal with
    | .help => (help, [])
    | .version => (name ++ " " ++ version ++ "\n", [])
    | .error e => ("", ["error: " ++ e.message, usage])
  { status := refusal.status, output := output.toList, messages }

def run (invocation : Invocation) : Outcome :=
  match Arguments.parse invocation.configPath invocation.arguments with
  | .error refusal => refuse refusal
  | .ok arguments => runWith invocation arguments

end Program

end LineSearch
