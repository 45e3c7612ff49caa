import LineSearch.FileSystem
import LineSearch.Walk.Glob

/-! Ignore files: the entries that a directory asks to be left out of walks. -/
namespace LineSearch

inductive Verdict where
  | ignored
  /-- Not to be left out, whatever earlier rules say. -/
  | kept
  deriving DecidableEq, Repr

structure IgnoreRule where
  glob : Glob
  verdict : Verdict
  directoriesOnly : Bool

namespace IgnoreRule

/-- The form of the paths that a rule is for. A rule without a slash is for names at any level; one
that ends in `/**` is for what is inside a directory and not for the directory. -/
def globOf? (anchored : Bool) (body : Text) : Option Glob :=
  let body :=
    if anchored || body.contains '/' || body == ['*', '*'] then body else '*' :: '*' :: '/' :: body
  Glob.parse (if ['/', '*', '*'].isSuffixOf body then body ++ ['/', '*'] else body)

def ofBody? (verdict : Verdict) (anchored : Bool) (body : Text) : Option IgnoreRule :=
  let directoriesOnly := body.getLast? == some '/'
  let body := if directoriesOnly then dropEnd '\\' body.dropLast else body
  (globOf? anchored body).map ({ glob := ·, verdict, directoriesOnly })

/-- Blanks at the end do not count, unless the last one is escaped. -/
def trimLine (line : Text) : Text :=
  if ['\\', ' '].isSuffixOf line then line else line.trimRight

def ofLine? (line : Text) : Option IgnoreRule :=
  if line.head? = some '#' then none
  else
    match trimLine line with
    | [] => none
    | '\\' :: '!' :: rest => ofBody? .ignored false ('!' :: rest)
    | '\\' :: '#' :: rest => ofBody? .ignored false ('#' :: rest)
    | '!' :: '/' :: rest => ofBody? .kept true rest
    | '!' :: rest => ofBody? .kept false rest
    | '/' :: rest => ofBody? .ignored true rest
    | body => ofBody? .ignored false body

/-- The lines of an ignore file, up to the first that is not UTF-8. A byte order mark before the first
line does not count. -/
def linesOf (bytes : Bytes) : List Text :=
  let lines := (cutAfter 10 bytes).map fun raw => Utf8.decode? (dropEnd 13 (dropEnd 10 raw))
  let lines := (lines.takeWhile Option.isSome).filterMap id
  match lines with
  | [] => []
  | first :: rest => first.dropWhile (· == '\uFEFF') :: rest

def covers (rule : IgnoreRule) (path : Text) (isDirectory : Bool) : Bool :=
  (isDirectory || !rule.directoriesOnly) && rule.glob.accepts (Utf8.encode path)

/-- The last rule that is for an entry decides. -/
def decide? (rules : List IgnoreRule) (path : Text) (isDirectory : Bool) : Option Verdict :=
  (rules.reverse.find? fun rule => rule.covers path isDirectory).map (·.verdict)

end IgnoreRule

structure IgnoreLevel where
  /-- The directory's path, as the walk spells it. -/
  path : Text
  shared : List IgnoreRule
  personal : List IgnoreRule

namespace IgnoreLevel

/-- The lines of an ignore file in a directory with this path. One that cannot be opened holds none. -/
def linesIn (path : Text) (directory : Directory) (file : String) : List Text :=
  if Path.maxPathBytes < Path.size (Path.join path file.toList) then []
  else
    match directory.content file.toList with
    | .ok content => IgnoreRule.linesOf content.lineBytes
    | .error _ => []

def ofDirectory (path : Text) (directory : Directory) : IgnoreLevel where
  path
  shared := (linesIn path directory ".gitignore").filterMap IgnoreRule.ofLine?
  personal := (linesIn path directory ".git/info/exclude").filterMap IgnoreRule.ofLine?

def dropHere : Text → Text
  | '.' :: '/' :: rest => rest
  | path => path

def relativePath (level : IgnoreLevel) (path : Text) : Text :=
  let path := dropHere path
  let own := dropHere level.path
  if own == ['.'] || !path.contains '/' || !own.isPrefixOf path then path
  else
    match path.drop own.length with
    | '/' :: rest => rest
    | rest => rest

def decide? (levels : List IgnoreLevel) (path : Text) (isDirectory : Bool) : Option Verdict :=
  let decision := fun (rules : IgnoreLevel → List IgnoreRule) =>
    levels.findSome? fun level =>
      IgnoreRule.decide? (rules level) (level.relativePath path) isDirectory
  (decision shared).or (decision personal)

end IgnoreLevel

end LineSearch
