import LineSearch.Program

/-! The command: reads what a run may look at, runs it, and shows what comes of it. -/
namespace LineSearch

/-- What has been read of the file system. A place is given by the names from the top. -/
structure Snapshot where
  top : Entries := []
  /-- Directories that have been read with all that is below them. -/
  walked : List (List Text) := []

namespace Snapshot

abbrev Reading := StateT Snapshot IO

def pathOf (place : List Text) : Text := '/' :: (place.intersperse ['/']).flatten

def entryAt (place : List Text) : IO.FS.DirEntry :=
  { root := "/", fileName := String.ofList (pathOf place).tail }

def attempt {α : Type} (action : IO α) : IO (Option α) := do
  try return some (← action) catch _ => return none

def add (change : Entries → Entries) : Reading Unit :=
  modify fun snapshot => { snapshot with top := change snapshot.top }

def causeOf : IO.Error → SystemError
  | .permissionDenied .. => .other "Permission denied (os error 13)"
  | .inappropriateType .. => .isADirectory
  | e => .other (toString e)

def readFile (place : List Text) : IO (Except SystemError Bytes) := do
  try return .ok (← IO.FS.readBinFile (entryAt place).path).toList
  catch e => return .error (causeOf e)

/-- A path that leads nowhere: no name holds a null character. -/
def nowhere : Text := ['/', '\x00']

/-- Reads what names lead to from a directory on. Links on the way are followed, a link at the end
only with `follow`. With `below`, directories are read with all that is below them, and it tells
whether links found there are followed. -/
partial def load (below : Option Bool) (follow : Bool) (directory : List Text) :
    List Text → Reading Unit
  | [] => do
    add (·.addDirectory (pathOf directory))
    if let some follow := below then
      unless (← get).walked.contains directory do
        modify fun snapshot => { snapshot with walked := directory :: snapshot.walked }
        for entry in (← attempt (entryAt directory).path.readDir).getD #[] do
          load below follow directory [entry.fileName.toList]
  | name :: rest => do
    if name = [] ∨ name = ['.'] then load below follow directory rest
    else if name = ['.', '.'] then load below follow directory.dropLast rest
    else
      let place := directory ++ [name]
      if let some metadata ← attempt (entryAt place).path.symlinkMetadata then
        match metadata.type with
        | .dir => load below follow place rest
        | .symlink =>
          match ← attempt (IO.FS.realPath (entryAt place).path) with
          | none => add (·.addLink (pathOf place) nowhere)
          | some real =>
            let target := real.toString.toList
            add (·.addLink (pathOf place) target)
            if follow ∨ rest ≠ [] then load below follow [] (Path.components target ++ rest)
        | _ =>
          let content ← readFile place
          add (·.addFile (pathOf place) content)

def directoryAt (snapshot : Snapshot) (place : List Text) : Directory :=
  match ({ entries := snapshot.top } : Directory).resolve (pathOf place) with
  | .ok (.directory directory) => directory
  | _ => { entries := [] }

end Snapshot

/-- Reads a stream to its end, or as far as it can be read. -/
partial def readAll (stream : IO.FS.Stream) (read : Bytes := []) : IO Content := do
  let chunk : Except SystemError ByteArray ←
    try pure (.ok (← stream.read 65536)) catch e => pure (.error (Snapshot.causeOf e))
  match chunk with
  | .error cause => return { bytes := read.reverse, failure := some cause }
  | .ok chunk =>
    if chunk.isEmpty then return { bytes := read.reverse }
    else readAll stream (chunk.toList.reverse ++ read)

def readInputs (invocation : Program.Invocation) (arguments : Arguments) :
    IO Program.Invocation := do
  let here := ((Path.components (← IO.currentDir).toString.toList).filter (!·.isEmpty))
  let load := fun (below : Option Bool) (paths : List Text) (snapshot : Snapshot) => do
    let reading := paths.forM fun path =>
      Snapshot.load below true (if Path.isAbsolute path then [] else here) (Path.components path)
    return (← reading.run snapshot).2
  let start := (← (Snapshot.load none true [] here).run {}).2
  let snapshot ← load none arguments.config.toList start
  let invocation := { invocation with here := snapshot.directoryAt here }
  match arguments.source with
  | .standardInput =>
    let input ← readAll (← IO.getStdin)
    return { invocation with standardInput := input.bytes, inputFailure := input.failure }
  | .file path => return { invocation with here := (← load none [path] snapshot).directoryAt here }
  | .files paths => return { invocation with here := (← load none paths snapshot).directoryAt here }
  | .trees roots =>
    let followLinks := match (Program.settingsOf invocation arguments).1 with
      | .ok settings => settings.walk.followLinks
      | .error _ => false
    let snapshot ← load (some followLinks) roots snapshot
    return { invocation with here := snapshot.directoryAt here }

def Program.Outcome.print (outcome : Program.Outcome) : IO UInt32 := do
  let output ← IO.getStdout
  output.putStr (String.ofList outcome.output)
  output.flush
  outcome.messages.forM IO.eprintln
  return outcome.status.code.toUInt32

end LineSearch

open LineSearch in
def main (arguments : List String) : IO UInt32 := do
  let isGiven := fun name => do return (← IO.getEnv name).isSome
  let invocation : Program.Invocation := {
    arguments := arguments.map String.toList
    configPath := (← IO.getEnv "GREPLITE_CONFIG").map String.toList
    color := {
      noColor := ← isGiven "NO_COLOR", color := ← isGiven "COLOR"
      continuousIntegration := ← isGiven "CI", terminal := ← (← IO.getStdout).isTty }
    standardInput := []
    here := { entries := [] } }
  match Arguments.parse invocation.configPath invocation.arguments with
  | .error _ => (Program.run invocation).print
  | .ok arguments => (Program.run (← readInputs invocation arguments)).print
