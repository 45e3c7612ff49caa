import LineSearch.Search
import LineSearch.Toml.Parser

/-! The configuration file. Keys that mean nothing are reported and otherwise ignored. -/
namespace LineSearch

structure Settings where
  recursionLimit : Nat := defaultRecursionLimit
  walk : WalkOptions := {}
  /-- Search several files at the same time. What is found does not depend on it. -/
  parallel : Bool := true
  deriving DecidableEq, Repr

inductive SettingsError where
  /-- The text is no configuration file. -/
  | malformed
  /-- The value under a key is not of the kind it should be. -/
  | wrongKind (key : String)
  deriving DecidableEq, Repr

def SettingsError.message : SettingsError → String
  | .malformed => "the text is malformed"
  | .wrongKind key => "the value of " ++ key ++ " is of the wrong kind"

namespace Settings

/-- The keys that mean something, section by section. Any other is reported. -/
def sections : List (String × List String) :=
  [("engine", ["max_recursion"]),
    ("walk", ["max_depth", "hidden", "git_ignore", "follow_links"]),
    ("search", ["parallel"])]

def keysOf? (name : Text) : Option (List Text) :=
  (sections.find? fun entry => entry.1.toList == name).map fun entry => entry.2.map String.toList

def unknownIn (name : Text) (value : Toml.Value) : List Text :=
  match keysOf? name with
  | none => [name]
  | some known =>
    match value with
    | .table fields =>
      ((fields.map (·.1)).filter (!known.contains ·)).map fun key => name ++ '.' :: key
    | _ => []

def unknownKeys (table : Toml.Table) : List Text :=
  ((table.flatMap fun entry => unknownIn entry.1 entry.2).mergeSort Utf8.le).eraseDups

/-- What a section gives for its keys, in their order. A section may also be an array, which gives
values for the first keys. -/
def fields (name : String) (keys : List String) (table : Toml.Table) :
    Except SettingsError (List (Option Toml.Value)) :=
  match table.lookup name.toList with
  | none => .ok (keys.map fun _ => none)
  | some (.table entries) => .ok (keys.map fun key => entries.lookup key.toList)
  | some (.array items) =>
    if items.length ≤ keys.length then
      .ok (items.map some ++ List.replicate (keys.length - items.length) none)
    else .error (.wrongKind name)
  | some _ => .error (.wrongKind name)

def size (key : String) (missing : Nat) : Option Toml.Value → Except SettingsError Nat
  | none => .ok missing
  | some (.integer value) => if 0 ≤ value then .ok value.toNat else .error (.wrongKind key)
  | some _ => .error (.wrongKind key)

def switch (key : String) (missing : Bool) : Option Toml.Value → Except SettingsError Bool
  | none => .ok missing
  | some (.boolean value) => .ok value
  | some _ => .error (.wrongKind key)

def recursionLimitOf (table : Toml.Table) : Except SettingsError Nat := do
  let values ← fields "engine" ["max_recursion"] table
  size "engine.max_recursion" ({} : Settings).recursionLimit values[0]?.join

def walkOf (table : Toml.Table) : Except SettingsError WalkOptions := do
  let values ← fields "walk" ["max_depth", "hidden", "git_ignore", "follow_links"] table
  let missing : WalkOptions := {}
  return {
    maxDepth := ← size "walk.max_depth" missing.maxDepth values[0]?.join
    hidden := ← switch "walk.hidden" missing.hidden values[1]?.join
    gitIgnore := ← switch "walk.git_ignore" missing.gitIgnore values[2]?.join
    followLinks := ← switch "walk.follow_links" missing.followLinks values[3]?.join }

def parallelOf (table : Toml.Table) : Except SettingsError Bool := do
  let values ← fields "search" ["parallel"] table
  switch "search.parallel" ({} : Settings).parallel values[0]?.join

/-- The settings in a table, as preset where the table says nothing. -/
def ofTable (table : Toml.Table) : Except SettingsError Settings := do
  return {
    recursionLimit := ← recursionLimitOf table
    walk := ← walkOf table
    parallel := ← parallelOf table }

structure Reading where
  unknownKeys : List Text
  settings : Except Fault Settings

/-- Reads the text of a configuration file. Unknown keys come to light before a value of the wrong
kind does. -/
def parse (path text : Text) : Reading :=
  let fault := fun (e : SettingsError) => Fault.config e.message (some path)
  match Toml.parse text with
  | none => { unknownKeys := [], settings := .error (fault .malformed) }
  | some table => { unknownKeys := unknownKeys table, settings := (ofTable table).mapError fault }

def load (here : Directory) (path : Text) : Reading :=
  let unreadable := fun cause : SystemError =>
    ({ unknownKeys := [], settings := .error (.io path cause) } : Reading)
  match here.read path with
  | .error cause => unreadable cause
  | .ok bytes =>
    match Utf8.decode? bytes with
    | none => unreadable .invalidUtf8
    | some text => parse path text

def warning (path key : Text) : String :=
  "warning: " ++ String.ofList path ++ ": unrecognized field \x60" ++ String.ofList key ++
    "\x60 (ignored)"

end Settings

end LineSearch
