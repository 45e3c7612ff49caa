import LineSearch.Walk.Ignore

/-! Walking a directory tree: every regular file below a root, name by name. -/
namespace LineSearch

structure WalkOptions where
  /-- Entries of the root are at depth one. Nothing deeper than this is listed. -/
  maxDepth : Nat := 100
  /-- List names that start with a dot. -/
  hidden : Bool := false
  /-- Obey ignore files. -/
  gitIgnore : Bool := false
  followLinks : Bool := false
  deriving DecidableEq, Repr

inductive WalkEvent where
  | file (path : Text) (depth : Nat)
  | failure (path : Text) (cause : SystemError)
  /-- A link that leads back to a directory the walk is in. -/
  | loop (path : Text)
  deriving DecidableEq, Repr

structure Visit where
  /-- Its path, spelled on from the root's. -/
  path : Text
  directory : Directory
  /-- The names of this directory and of those the walk came through, innermost first. -/
  trail : List (List Text)
  /-- The ignore files in force, innermost first. -/
  levels : List IgnoreLevel

namespace Visit

def depth (visit : Visit) : Nat := visit.trail.length

def start (options : WalkOptions) (path : Text) (directory : Directory) : Visit :=
  { path, directory, trail := [directory.names]
    levels := if options.gitIgnore then [.ofDirectory path directory] else [] }

def enter (options : WalkOptions) (visit : Visit) (path : Text) (directory : Directory) : Visit :=
  let begun := start options path directory
  { begun with trail := begun.trail ++ visit.trail, levels := begun.levels ++ visit.levels }

/-- Is an entry listed? A rule for it decides, otherwise whether its name is hidden. -/
def admits (options : WalkOptions) (visit : Visit) (name path : Text) (isDirectory : Bool) : Bool :=
  match IgnoreLevel.decide? visit.levels path isDirectory with
  | some verdict => verdict == .kept
  | none => options.hidden || !Path.isHidden name

end Visit

namespace Walk

def inOrder (entries : Entries) : Entries := entries.mergeSort fun a b => Utf8.le a.1 b.1

/-- What comes of one entry, given what comes of a directory. A link that is followed and leads
nowhere, or back, shows before any rule is asked. -/
def ofEntry (options : WalkOptions) (ofDirectory : Visit → List WalkEvent) (visit : Visit)
    (name : Text) (node : Node) : List WalkEvent :=
  let path := Path.join visit.path name
  let file := if visit.admits options name path false then [.file path visit.depth] else []
  let directory := fun (inner : Directory) =>
    if visit.admits options name path true then ofDirectory (visit.enter options path inner) else []
  match node with
  | .file _ => file
  | .directory entries => directory (visit.directory.enter name entries)
  | .link _ =>
    if !options.followLinks then []
    else if Path.maxPathBytes < Path.size path then [.failure path .nameTooLong]
    else
      match visit.directory.follow Directory.maxLinks [name] with
      | .error cause => [.failure path cause]
      | .ok (.file _) => file
      | .ok (.directory inner) =>
        if visit.trail.contains inner.names then [.loop path] else directory inner

def ofDirectory (options : WalkOptions) : (levels : Nat) → Visit → List WalkEvent
  | 0, _ => []
  | levels + 1, visit =>
    if Path.maxPathBytes < Path.size visit.path then [.failure visit.path .nameTooLong]
    else
      (inOrder visit.directory.entries).flatMap fun entry =>
        ofEntry options (ofDirectory options levels) visit entry.1 entry.2

end Walk

/-- Walks from a root. A root is never left out, and a link as a root is always followed. The name
`-` stands for standard input, which holds no files. -/
def Directory.walk (here : Directory) (options : WalkOptions) (root : Text) : List WalkEvent :=
  if Path.isStandardInput root then []
  else
    match here.resolve root with
    | .error cause => [.failure root cause]
    | .ok (.file _) => [.file root 0]
    | .ok (.directory directory) =>
      Walk.ofDirectory options options.maxDepth (.start options root directory)

structure WalkedFile where
  path : Text
  depth : Nat
  deriving DecidableEq, Repr

structure WalkCounts where
  found : Nat
  loops : Nat
  errors : Nat
  deriving DecidableEq, Repr

namespace WalkEvent

def file? : WalkEvent → Option WalkedFile
  | .file path depth => some { path, depth }
  | _ => none

def isLoop : WalkEvent → Bool
  | .loop _ => true
  | _ => false

def message? : WalkEvent → Option String
  | .failure path cause =>
    some (String.ofList path ++ ": IO error for operation on " ++ String.ofList path ++ ": " ++
      cause.message)
  | _ => none

def files (events : List WalkEvent) : List WalkedFile := events.filterMap file?

def messages (events : List WalkEvent) : List String := events.filterMap message?

def counts (events : List WalkEvent) : WalkCounts :=
  { found := (files events).length
    loops := events.countP isLoop
    errors := (messages events).length }

end WalkEvent

end LineSearch
