import LineSearch.Text

/-! Values of a configuration file, and tables while a document is read. A table may be added to later,
depending on how it came about. -/
namespace LineSearch.Toml

inductive Value where
  | string (text : Text)
  | integer (value : Int)
  /-- A number with a fraction or an exponent, as it is written. -/
  | float (written : Text)
  | boolean (value : Bool)
  /-- A date, a time or both, as it is written. -/
  | timestamp (written : Text)
  | array (items : List Value)
  /-- Each key occurs once. -/
  | table (entries : List (Text × Value))
  deriving Repr

abbrev Table := List (Text × Value)

inductive TableOrigin where
  /-- By a header of its own. -/
  | header
  /-- On the way to the table of a header. -/
  | implied
  /-- By a key with dots. -/
  | dotted
  deriving DecidableEq

inductive Draft where
  /-- A value, which nothing is added to. -/
  | value (value : Value)
  | table (origin : TableOrigin) (entries : List (Text × Draft))
  /-- Tables under one repeated header, the latest first. -/
  | tables (latest : List (Text × Draft)) (earlier : List (List (Text × Draft)))

abbrev DraftTable := List (Text × Draft)

namespace Draft

def alter (key : Text) (change : Option Draft → Option Draft) : DraftTable → Option DraftTable
  | [] => do return [(key, ← change none)]
  | (other, draft) :: rest =>
    if other = key then do return (other, ← change (some draft)) :: rest
    else do return (other, draft) :: (← alter key change rest)

/-- Changes the table that a chain of keys leads to. Tables on the way are made as `origin` says
where they are missing. Dotted keys do not lead into a table with a header of its own. -/
def alterAt (origin : TableOrigin) (change : TableOrigin → DraftTable → Option DraftTable) :
    List Text → TableOrigin → DraftTable → Option DraftTable
  | [], here, entries => change here entries
  | key :: rest, _, entries => alter key (fun
    | none => (alterAt origin change rest origin []).map (.table origin)
    | some (.value _) => none
    | some (.tables latest earlier) =>
      (alterAt origin change rest .header latest).map (.tables · earlier)
    | some (.table here inner) =>
      if origin = .dotted ∧ here = .header then none
      else (alterAt origin change rest here inner).map (.table here)) entries

/-- Adds a key with a value. A key with dots needs a table that came about by dots, and a key
without them any other. -/
def insert (keys : List Text) (key : Text) (new : Value) (entries : DraftTable) :
    Option DraftTable :=
  alterAt .dotted (fun here inner =>
    if (here == .dotted) == keys.isEmpty then none
    else alter key (fun | none => some (.value new) | some _ => none) inner) keys .header entries

def openTable (keys : List Text) (key : Text) (entries : DraftTable) : Option DraftTable :=
  alterAt .implied (fun _ inner => alter key (fun
    | none => some (.table .header [])
    | some (.table .implied old) => some (.table .header old)
    | some _ => none) inner) keys .header entries

def openNext (keys : List Text) (key : Text) (entries : DraftTable) : Option DraftTable :=
  alterAt .implied (fun _ inner => alter key (fun
    | none => some (.tables [] [])
    | some (.tables latest earlier) => some (.tables [] (latest :: earlier))
    | some _ => none) inner) keys .header entries

def insertBelow (path : List Text) (keys : List Text) (key : Text) (new : Value)
    (entries : DraftTable) : Option DraftTable :=
  alterAt .implied (fun _ inner => insert keys key new inner) path .header entries

mutual

def toValue : Draft → Value
  | .value v => v
  | .table _ entries => .table (toTable entries)
  | .tables latest earlier => .array (toItems [.table (toTable latest)] earlier)

def toTable : List (Text × Draft) → Table
  | [] => []
  | (key, draft) :: rest => (key, toValue draft) :: toTable rest

def toItems (later : List Value) : List (List (Text × Draft)) → List Value
  | [] => later
  | entries :: earlier => toItems (.table (toTable entries) :: later) earlier

end

end Draft

end LineSearch.Toml
