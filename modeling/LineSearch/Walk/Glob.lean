import LineSearch.Text

/-! Patterns for file paths, matched byte by byte. `?` and `*` stay within one name, `**` between slashes
crosses whole directories, `[...]` is one byte of a class, slashes included, and `{...,...}` is one of
several patterns. A backslash takes away the special meaning of the character after it. -/
namespace LineSearch

inductive GlobItem where
  | byte (b : UInt8)
  /-- One byte, not a slash. -/
  | any
  /-- Bytes that are not slashes, in any number. -/
  | anyRun
  /-- `**` at the start: nothing, or a piece of the path that ends in a slash. -/
  | above
  /-- `**` between slashes, and both slashes: a piece of the path that starts and ends with one. -/
  | between
  /-- `**` behind a slash at the end, and the slash. -/
  | inside
  /-- One byte of a class. -/
  | oneOf (negated : Bool) (ranges : List (UInt8 × UInt8))
  /-- One of the branches, or nothing where there is none. -/
  | either (branches : List (List GlobItem))

abbrev Glob := List GlobItem

namespace Glob

def slash : UInt8 := 0x2F

def afterName (accept : Bytes → Bool) : Bytes → Bool
  | [] => accept []
  | b :: rest => accept (b :: rest) || (b != slash && afterName accept rest)

def afterSlash (accept : Bytes → Bool) : Bytes → Bool
  | [] => false
  | b :: rest => (b == slash && accept rest) || afterSlash accept rest

def anywhere (accept : Bytes → Bool) : Bytes → Bool
  | [] => accept []
  | b :: rest => accept (b :: rest) || anywhere accept rest

def afterByte (test : UInt8 → Bool) (accept : Bytes → Bool) : Bytes → Bool
  | [] => false
  | b :: rest => test b && accept rest

def inRanges (ranges : List (UInt8 × UInt8)) (b : UInt8) : Bool :=
  ranges.any fun range => range.1 ≤ b && b ≤ range.2

mutual

/-- Does `next` accept what is left behind some leading bytes of this form? -/
def acceptsItem : GlobItem → (next : Bytes → Bool) → Bytes → Bool
  | .byte expected, next => afterByte (· == expected) next
  | .any, next => afterByte (· != slash) next
  | .anyRun, next => afterName next
  | .above, next => fun path => next path || afterSlash next path
  | .between, next => afterByte (· == slash) fun path => next path || afterSlash next path
  | .inside, next => afterByte (· == slash) (anywhere next)
  | .oneOf negated ranges, next => afterByte (fun b => inRanges ranges b != negated) next
  | .either [], next => next
  | .either (branch :: branches), next => acceptsAny (branch :: branches) next

def acceptsAll : List GlobItem → (next : Bytes → Bool) → Bytes → Bool
  | [], next => next
  | item :: items, next => acceptsItem item (acceptsAll items next)

def acceptsAny : List (List GlobItem) → (next : Bytes → Bool) → Bytes → Bool
  | [], _ => fun _ => false
  | branch :: branches, next => fun path => acceptsAll branch next path || acceptsAny branches next path

end

/-- Is the whole path of this form? `**` alone is for every path. -/
def accepts : Glob → Bytes → Bool
  | [.above], _ => true
  | glob, path => acceptsAll glob List.isEmpty path

def isVoid : GlobItem → Bool
  | .either [] => true
  | _ => false

/-- The items of a class member or of a range of characters: a range runs from the last byte of its first
character to the first byte of its last one. -/
def bytesOf (range : Char × Char) : List (UInt8 × UInt8) :=
  let low := Utf8.encode [range.1]
  if range.1 = range.2 then low.map fun b => (b, b)
  else
    let high := Utf8.encode [range.2]
    low.dropLast.map (fun b => (b, b)) ++ [(low.getLastD 0, high.headD 0)] ++ high.tail.map fun b => (b, b)

structure Draft where
  /-- What stands in the innermost open branch, the last item first. -/
  items : List GlobItem := []
  /-- For each open alternation, innermost first: its finished branches, the last first, and what stands in
  front of it. -/
  opened : List (List (List GlobItem) × List GlobItem) := []
  previous : Option Char := none

namespace Draft

def add (draft : Draft) (item : GlobItem) (c : Char) : Draft :=
  { draft with items := item :: draft.items, previous := some c }

def addChar (draft : Draft) (c : Char) : Draft :=
  { draft with items := (Utf8.encode [c]).reverse.map .byte ++ draft.items, previous := some c }

/-- Does a `**` here stand in front of whole names, so that it may cross directories? -/
def beginsName (draft : Draft) : Bool :=
  match draft.previous with
  | some c => c == '/' || (!draft.opened.isEmpty && (c == ',' || c == '{'))
  | none => false

/-- Puts an item in the place of the slash before it. What crosses directories already, stays. -/
def cross (draft : Draft) (item : GlobItem) (c : Char) : Draft :=
  match draft.items with
  | .above :: _ | .inside :: _ => { draft with previous := some c }
  | items => { draft with items := item :: items.tail, previous := some c }

def addDouble (draft : Draft) (next : Option Char) : Draft :=
  let plain := draft.add .anyRun '*'
  let ends := next.all fun c => !draft.opened.isEmpty && (c == ',' || c == '\x7d')
  if draft.items.isEmpty then
    match next with
    | none => draft.add .above '*'
    | some '/' => draft.add .above '/'
    | some _ => plain
  else if next == some '/' then
    if draft.beginsName then draft.cross .between '/' else plain.addChar '/'
  else if draft.beginsName && ends then draft.cross .inside '*'
  else plain

def openBranches (draft : Draft) : Draft :=
  { items := [], opened := ([], draft.items) :: draft.opened, previous := some '{' }

/-- A comma outside of alternations stands for itself. -/
def nextBranch (draft : Draft) : Draft :=
  match draft.opened with
  | [] => draft.addChar ','
  | (branches, front) :: outer =>
    { items := [], opened := (draft.items.reverse :: branches, front) :: outer, previous := some ',' }

/-- Branches that stand for no text at all are left out. -/
def closeBranches? (draft : Draft) : Option Draft :=
  match draft.opened with
  | [] => none
  | (branches, front) :: outer =>
    let branches := (draft.items.reverse :: branches).reverse.filter fun branch => !branch.all isVoid
    some { items := .either branches :: front, opened := outer, previous := some '\x7d' }

def finish? (draft : Draft) : Option Glob :=
  if draft.opened.isEmpty then some draft.items.reverse else none

end Draft

def widen? (c : Char) : List (Char × Char) → Option (List (Char × Char))
  | [] => none
  | (low, _) :: ranges => if c < low then none else some ((low, c) :: ranges)

mutual

def readFrom (draft : Draft) : Text → Option Glob
  | [] => draft.finish?
  | ['\\'] => none
  | '\\' :: c :: rest => readFrom (draft.addChar c) rest
  | '?' :: rest => readFrom (draft.add .any '?') rest
  | '*' :: '*' :: '/' :: rest => readFrom (draft.addDouble (some '/')) rest
  | '*' :: '*' :: rest => readFrom (draft.addDouble rest.head?) rest
  | '*' :: rest => readFrom (draft.add .anyRun '*') rest
  | '[' :: '!' :: rest => readClass draft true [] false rest
  | '[' :: '^' :: rest => readClass draft true [] false rest
  | '[' :: rest => readClass draft false [] false rest
  | '{' :: rest => readFrom draft.openBranches rest
  | ',' :: rest => readFrom draft.nextBranch rest
  | '\x7d' :: rest =>
    match draft.closeBranches? with
    | some closed => readFrom closed rest
    | none => none
  | c :: rest => readFrom (draft.addChar c) rest

/-- Reads on in a class: `ranges` so far, the last first, and whether a `-` waits for the end of the last
one. A `]` or a `-` at the start stands for itself, and so does a `-` at the end. A class that does not
close is malformed, and so is a range that runs backwards. -/
def readClass (draft : Draft) (negated : Bool) (ranges : List (Char × Char)) (waits : Bool) :
    Text → Option Glob
  | [] => none
  | c :: rest =>
    if ranges.isEmpty then readClass draft negated [(c, c)] false rest
    else if c == ']' then
      let ranges := if waits then ('-', '-') :: ranges else ranges
      readFrom (draft.add (.oneOf negated (ranges.reverse.flatMap bytesOf)) ']') rest
    else if waits then
      match widen? c ranges with
      | some wider => readClass draft negated wider false rest
      | none => none
    else if c == '-' then readClass draft negated ranges true rest
    else readClass draft negated ((c, c) :: ranges) false rest

end

def parse (text : Text) : Option Glob := readFrom {} text

end Glob

end LineSearch
