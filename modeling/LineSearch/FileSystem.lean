import LineSearch.Text

/-! Files, directories and symbolic links, and the paths that lead to them. -/
namespace LineSearch

inductive SystemError where
  | notFound
  | notADirectory
  | isADirectory
  | nameTooLong
  /-- Following symbolic links comes to no end. -/
  | tooManyLinks
  | nulInName
  /-- Text was asked for, and the bytes are not UTF-8. -/
  | invalidUtf8
  /-- Any other reason, in words. -/
  | other (text : String)
  deriving DecidableEq, Repr

def SystemError.message : SystemError → String
  | .notFound => "No such file or directory (os error 2)"
  | .notADirectory => "Not a directory (os error 20)"
  | .isADirectory => "Is a directory (os error 21)"
  | .nameTooLong => "File name too long (os error 36)"
  | .tooManyLinks => "Too many levels of symbolic links (os error 40)"
  | .nulInName => "file name contained an unexpected NUL byte"
  | .invalidUtf8 => "stream did not contain valid UTF-8"
  | .other text => text

namespace Path

def components : Text → List Text
  | [] => [[]]
  | c :: rest =>
    if c = '/' then [] :: components rest
    else
      match components rest with
      | [] => [[c]]
      | name :: names => (c :: name) :: names

def isAbsolute (path : Text) : Bool := path.head? == some '/'

def join (directory name : Text) : Text :=
  if directory = [] ∨ directory.getLast? = some '/' then directory ++ name
  else directory ++ '/' :: name

/-- Is the path the name `-`, whatever slashes and dots follow it? It stands for standard input. -/
def isStandardInput (path : Text) : Bool :=
  match components path with
  | [] => false
  | name :: rest => name == ['-'] && rest.all fun more => more == [] || more == ['.']

def isHidden (name : Text) : Bool := name.head? == some '.'

def maxNameBytes : Nat := 255

def maxPathBytes : Nat := 4095

def size (path : Text) : Nat := (Utf8.encode path).length

end Path

structure Content where
  bytes : Bytes
  failure : Option SystemError := none

namespace Content

def whole (content : Content) : Except SystemError Bytes :=
  match content.failure with
  | none => .ok content.bytes
  | some cause => .error cause

/-- The bytes of the lines that are read to their end. A failure loses the line it comes in. -/
def lineBytes (content : Content) : Bytes :=
  match content.failure with
  | none => content.bytes
  | some _ => ((cutAfter 10 content.bytes).filter fun raw => raw.getLast? = some 10).flatten

end Content

inductive Node where
  /-- A file, with what opening it gives. -/
  | file (content : Except SystemError Content)
  | directory (entries : List (Text × Node))
  /-- A symbolic link, with the path it leads to. -/
  | link (target : Text)

/-- The names in a directory, each once, in no special order. -/
abbrev Entries := List (Text × Node)

namespace Entries

def get? (entries : Entries) (name : Text) : Option Node := entries.lookup name

def alter (name : Text) (change : Option Node → Node) : Entries → Entries
  | [] => [(name, change none)]
  | (other, node) :: rest =>
    if other = name then (other, change (some node)) :: rest
    else (other, node) :: alter name change rest

def below : Option Node → Entries
  | some (.directory entries) => entries
  | _ => []

/-- Changes what a chain of names leads to. The directories on the way are made where they are
missing. -/
def alterAt (change : Option Node → Node) : List Text → Entries → Entries
  | [], entries => entries
  | [name], entries => entries.alter name change
  | name :: rest, entries =>
    entries.alter name fun old => .directory (alterAt change rest (below old))

def place (path : Text) : List Text :=
  (Path.components path).filter fun name => !(name == [] || name == ['.'])

def addDirectory (entries : Entries) (path : Text) : Entries :=
  entries.alterAt (fun old => .directory (below old)) (place path)

def addFile (entries : Entries) (path : Text) (content : Except SystemError Bytes) : Entries :=
  entries.alterAt (fun _ => .file (content.map fun bytes => { bytes })) (place path)

def addLink (entries : Entries) (path target : Text) : Entries :=
  entries.alterAt (fun _ => .link target) (place path)

end Entries

/-- A directory in its place: its entries, and from it up to the top each directory's name with the
entries of the one above it. -/
structure Directory where
  entries : Entries
  above : List (Text × Entries) := []

namespace Directory

def enter (directory : Directory) (name : Text) (entries : Entries) : Directory :=
  { entries, above := (name, directory.entries) :: directory.above }

def parent (directory : Directory) : Directory :=
  match directory.above with
  | [] => directory
  | (_, entries) :: above => { entries, above }

def top (directory : Directory) : Directory :=
  { entries := (directory.above.getLast?.map (·.2)).getD directory.entries }

/-- The names from the top, innermost first. Two directories of one file system with the same names
are the same. -/
def names (directory : Directory) : List Text := directory.above.map (·.1)

end Directory

/-! Following a path, through symbolic links where there are some. -/

inductive Target where
  | file (content : Except SystemError Content)
  | directory (directory : Directory)

namespace Directory

def origin (directory : Directory) (path : Text) : Directory :=
  if Path.isAbsolute path then directory.top else directory

/-- Follows names from a directory on. A link is left to `onLink`, with the directory that holds it,
the link's target and the names after it. -/
def followWith (onLink : Directory → Text → List Text → Except SystemError Target) :
    Directory → List Text → Except SystemError Target
  | directory, [] => .ok (.directory directory)
  | directory, name :: rest =>
    if name = [] ∨ name = ['.'] then followWith onLink directory rest
    else if name = ['.', '.'] then followWith onLink directory.parent rest
    else if Path.maxNameBytes < Path.size name then .error .nameTooLong
    else
      match directory.entries.get? name with
      | none => .error .notFound
      | some (.directory entries) => followWith onLink (directory.enter name entries) rest
      | some (.file content) => if rest = [] then .ok (.file content) else .error .notADirectory
      | some (.link target) => onLink directory target rest

def follow : (links : Nat) → Directory → List Text → Except SystemError Target
  | 0 => followWith fun _ _ _ => .error .tooManyLinks
  | links + 1 => followWith fun directory target rest =>
    follow links (directory.origin target) (Path.components target ++ rest)

def maxLinks : Nat := 40

def resolve (directory : Directory) (path : Text) : Except SystemError Target :=
  if path.contains '\x00' then .error .nulInName
  else if path = [] then .error .notFound
  else if Path.maxPathBytes < Path.size path then .error .nameTooLong
  else follow maxLinks (directory.origin path) (Path.components path)

def content (directory : Directory) (path : Text) : Except SystemError Content := do
  match ← directory.resolve path with
  | .file content => content
  | .directory _ => throw .isADirectory

def read (directory : Directory) (path : Text) : Except SystemError Bytes := do
  (← directory.content path).whole

end Directory

end LineSearch
