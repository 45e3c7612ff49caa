import LineSearch.Arguments.Basic

/-! Reading the command line, one argument at a time. -/
namespace LineSearch.Arguments

structure Given where
  pattern : Option Text := none
  paths : List Text := []
  color : Option ColorMode := none
  maxDepth : Option Nat := none
  config : Option Text := none
  switches : List Switch := []

inductive Pending where
  | nothing
  /-- An option, and its value once it has been read. -/
  | option (option : ValueOption) (value : Option Text)
  /-- Paths in a row, the latest first. -/
  | paths (latestFirst : List Text)

structure State where
  given : Given := {}
  pending : Pending := .nothing

def maxNumber : Nat := 18446744073709551615

def number? (text : Text) : Option Nat :=
  let digits := match text with
    | '+' :: rest => rest
    | _ => text
  let value := digits.foldl (fun n c => n * 10 + (c.toNat - '0'.toNat)) 0
  if !digits.isEmpty && digits.all Char.isDigit && value ≤ maxNumber then some value else none

namespace Given

def isGiven (given : Given) : ValueOption → Bool
  | .pattern => given.pattern.isSome
  | .config => given.config.isSome
  | .color => given.color.isSome
  | .maxDepth => given.maxDepth.isSome

/-- Takes an option's value. That it was given before is found out first. -/
def setValue (given : Given) (option : ValueOption) (value : Text) : Except UsageError Given :=
  if given.isGiven option then .error (.repeated (.value option))
  else
    match option with
    | .pattern => .ok { given with pattern := some value }
    | .config => if value = [] then .error .emptyPath else .ok { given with config := some value }
    | .color =>
      match ColorMode.ofName? value false with
      | some mode => .ok { given with color := some mode }
      | none => .error (.notAColor value)
    | .maxDepth =>
      match number? value with
      | some depth => .ok { given with maxDepth := some depth }
      | none => .error (.notANumber value)

def turnOn (given : Given) (switch : Switch) : Except UsageError Given :=
  if given.switches.contains switch then .error (.repeated (.switch switch))
  else .ok { given with switches := switch :: given.switches }

def addPaths (given : Given) (paths : List Text) : Except UsageError Given :=
  if paths.contains [] then .error .emptyPath
  else .ok { given with paths := given.paths ++ paths }

end Given

namespace State

def settle (state : State) : Except UsageError Given :=
  match state.pending with
  | .nothing => .ok state.given
  | .option option none => .error (.missingValue option)
  | .option option (some value) => state.given.setValue option value
  | .paths latestFirst => state.given.addPaths latestFirst.reverse

def settled (state : State) : Except Refusal Given := state.settle.mapError .error

def takeFlag (state : State) : Flag → Option Text → Except Refusal State
  | .value option, some value => do
    return { given := ← ((← state.settled).setValue option value).mapError .error }
  | .value option, none => do
    return { given := ← state.settled, pending := .option option none }
  | .switch switch, none => do
    return { given := ← ((← state.settled).turnOn switch).mapError .error }
  | .help, none => do let _ ← state.settled; throw .help
  | .version, none => do let _ ← state.settled; throw .version
  | flag, some _ => throw (.error (.unexpectedValue flag))

def takePath (state : State) (path : Text) : Except Refusal State :=
  match state.pending with
  | .paths latestFirst => .ok { state with pending := .paths (path :: latestFirst) }
  | _ => do return { given := ← state.settled, pending := .paths [path] }

def takeLong (state : State) (written : Text) : Except Refusal State :=
  let name := written.takeWhile (· != '=')
  match Flag.ofLong? name with
  | none => throw (.error (.unknownOption ('-' :: '-' :: name)))
  | some flag => state.takeFlag flag (written.drop name.length).tail?

/-- Takes short options in one argument, written without the hyphen. The rest after an option with
a value is that value, also with an equals sign between them. -/
def takeShorts (state : State) : List Char → Except Refusal State
  | [] => .ok state
  | c :: rest =>
    match Flag.ofShort? c, rest with
    | none, _ => throw (.error (.unknownOption ['-', c]))
    | some (.value option), [] => state.takeFlag (.value option) none
    | some (.value option), '=' :: value => state.takeFlag (.value option) (some value)
    | some (.value option), value => state.takeFlag (.value option) (some value)
    | some flag, _ => do (← state.takeFlag flag none).takeShorts rest

def takePlain (state : State) (argument : Text) : Except Refusal State :=
  match state.pending with
  | .option option none => .ok { state with pending := .option option (some argument) }
  | _ => state.takePath argument

def take (state : State) (argument : Text) : Except Refusal State :=
  match argument with
  | '-' :: '-' :: written => state.takeLong written
  | '-' :: c :: rest => state.takeShorts (c :: rest)
  | _ => state.takePlain argument

def awaitsPattern (state : State) : Bool :=
  match state.pending with
  | .option .pattern none => true
  | _ => false

/-- Takes arguments in order. After a double hyphen all are paths. -/
def takeAll (state : State) : (onlyPaths : Bool) → List Text → Except Refusal State
  | _, [] => .ok state
  | true, argument :: rest => do (← state.takePath argument).takeAll true rest
  | false, argument :: rest =>
    if state.awaitsPattern then do (← state.takePlain argument).takeAll false rest
    else if argument = ['-', '-'] then state.takeAll true rest
    else do (← state.take argument).takeAll false rest

end State

def configPath (given : Given) (environment : Option Text) : Except UsageError (Option Text) :=
  match given.config, environment with
  | some path, _ => .ok (some path)
  | none, some [] => .error .emptyPath
  | none, path => .ok path

def ofGiven (given : Given) (environment : Option Text) : Except UsageError Arguments := do
  let config ← configPath given environment
  match given.pattern with
  | none => throw .patternMissing
  | some pattern => return {
      pattern, config, paths := given.paths, color := given.color.getD .auto
      maxDepth := given.maxDepth, recursive := given.switches.contains .recursive
      hidden := given.switches.contains .hidden, gitIgnore := given.switches.contains .gitIgnore
      sequential := given.switches.contains .sequential }

/-- Reads a command line without the program's name. `environment` names a configuration file for
when the command line does not. -/
def parse (environment : Option Text) (arguments : List Text) : Except Refusal Arguments := do
  let given ← (← ({} : State).takeAll false arguments).settled
  (ofGiven given environment).mapError .error

end LineSearch.Arguments
