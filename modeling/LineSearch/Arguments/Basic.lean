import LineSearch.Report
import LineSearch.Settings

/-! What the command line asks for. -/
namespace LineSearch

structure Arguments where
  pattern : Text
  paths : List Text
  recursive : Bool
  color : ColorMode
  maxDepth : Option Nat
  hidden : Bool
  gitIgnore : Bool
  sequential : Bool
  /-- The path of the configuration file. -/
  config : Option Text
  deriving DecidableEq, Repr

inductive Source where
  | standardInput
  | file (path : Text)
  | files (paths : List Text)
  /-- Every file below some roots. -/
  | trees (roots : List Text)
  deriving DecidableEq, Repr

def Source.isLabelled : Source → Bool
  | .standardInput | .file _ => false
  | .files _ | .trees _ => true

namespace Arguments

def source (arguments : Arguments) : Source :=
  if arguments.recursive then
    .trees (if arguments.paths.isEmpty then [['.']] else arguments.paths)
  else
    match arguments.paths with
    | [] => .standardInput
    | [path] => .file path
    | paths => .files paths

/-- The command line goes before the configuration file. A switch can only turn something on. -/
def override (arguments : Arguments) (settings : Settings) : Settings :=
  { settings with
    walk := { settings.walk with
      maxDepth := arguments.maxDepth.getD settings.walk.maxDepth
      hidden := settings.walk.hidden || arguments.hidden
      gitIgnore := settings.walk.gitIgnore || arguments.gitIgnore }
    parallel := settings.parallel && !arguments.sequential }

end Arguments

inductive ValueOption where
  | pattern
  | config
  | color
  | maxDepth
  deriving DecidableEq, Repr

inductive Switch where
  | recursive
  | hidden
  | gitIgnore
  | sequential
  deriving DecidableEq, Repr

inductive Flag where
  | value (option : ValueOption)
  | switch (switch : Switch)
  | help
  | version
  deriving DecidableEq, Repr

namespace Flag

def longNames : List (String × Flag) :=
  [("extended-regexp", .value .pattern), ("config", .value .config), ("color", .value .color),
    ("max-depth", .value .maxDepth), ("recursive", .switch .recursive),
    ("hidden", .switch .hidden), ("git-ignore", .switch .gitIgnore),
    ("sequential", .switch .sequential), ("help", .help), ("version", .version)]

def ofLong? (name : Text) : Option Flag :=
  (longNames.find? fun entry => entry.1.toList == name).map (·.2)

def ofShort? : Char → Option Flag
  | 'E' => some (.value .pattern)
  | 'C' => some (.value .config)
  | 'r' => some (.switch .recursive)
  | 'h' => some .help
  | 'V' => some .version
  | _ => none

def name (flag : Flag) : String :=
  "--" ++ ((longNames.find? (·.2 == flag)).map (·.1)).getD ""

end Flag

inductive UsageError where
  | unknownOption (written : Text)
  | missingValue (option : ValueOption)
  | unexpectedValue (flag : Flag)
  /-- Everything but paths is given at most once. -/
  | repeated (flag : Flag)
  | emptyPath
  | notAColor (value : Text)
  | notANumber (value : Text)
  | patternMissing
  deriving DecidableEq, Repr

def UsageError.message : UsageError → String
  | .unknownOption written => "unknown option " ++ String.ofList written
  | .missingValue option => (Flag.value option).name ++ " needs a value"
  | .unexpectedValue flag => flag.name ++ " takes no value"
  | .repeated flag => flag.name ++ " is given more than once"
  | .emptyPath => "a path is empty"
  | .notAColor value => String.ofList value ++ " is not one of auto, always and never"
  | .notANumber value => String.ofList value ++ " is not a number"
  | .patternMissing => (Flag.value .pattern).name ++ " is missing"

inductive Refusal where
  | error (error : UsageError)
  | help
  | version
  deriving DecidableEq, Repr

def Refusal.status : Refusal → ExitStatus
  | .error _ => .error
  | .help | .version => .success

end LineSearch
