import LineSearch.Toml.Scalar

/-! Reading a configuration file: tables, dotted keys, arrays, inline tables and comments. -/
namespace LineSearch.Toml

def isBlankChar (c : Char) : Bool := c == ' ' || c == '\t'

def dropBlanks (text : Text) : Text := text.dropWhile isBlankChar

def skipLayout : (inComment : Bool) → Text → Option Text
  | _, [] => some []
  | _, '\n' :: rest => skipLayout false rest
  | _, '\r' :: '\n' :: rest => skipLayout false rest
  | true, c :: rest => if isControl c then none else skipLayout true rest
  | false, '#' :: rest => skipLayout true rest
  | false, c :: rest => if isBlankChar c then skipLayout false rest else some (c :: rest)

def endLine (text : Text) : Option Text :=
  match dropBlanks text with
  | [] => some []
  | '#' :: rest => skipLayout true rest
  | '\n' :: rest => skipLayout false rest
  | '\r' :: '\n' :: rest => skipLayout false rest
  | _ => none

def isKeyChar (c : Char) : Bool := c.isAlphanum || c == '_' || c == '-'

def simpleKey : Text → Option (Text × Text)
  | '"' :: rest => basicString rest
  | '\x27' :: rest => literalString rest
  | text =>
    let key := text.takeWhile isKeyChar
    if key.isEmpty then none else some (key, text.dropWhile isKeyChar)

/-- Keys with dots between them, so many at most: all but the last, and the last. -/
def dottedKey : (room : Nat) → Text → Option ((List Text × Text) × Text)
  | 0, _ => none
  | room + 1, text => do
    let (key, rest) ← simpleKey (dropBlanks text)
    match dropBlanks rest with
    | '.' :: rest =>
      let ((keys, last), rest) ← dottedKey room rest
      return ((key :: keys, last), rest)
    | rest => return (([], key), rest)

/-- How deep values may stand in each other, and how many keys a dotted key may have. -/
def maxNesting : Nat := 79

mutual

def value : (fuel room : Nat) → Text → Option (Value × Text)
  | 0, _, _ => none
  | fuel + 1, room, text =>
    match text, room with
    | '[' :: _, 0 => none
    | '{' :: _, 0 => none
    | '[' :: rest, room + 1 => do
      let (items, rest) ← items fuel room (← skipLayout false rest)
      return (.array items, rest)
    | '{' :: rest, room + 1 =>
      match dropBlanks rest with
      | '}' :: rest => some (.table [], rest)
      | rest => do
        let (table, rest) ← fields fuel room [] rest
        return (.table (Draft.toTable table), rest)
    | text, _ => scalar text

/-- The items of an array up to its end. A comma may follow the last one. -/
def items : (fuel room : Nat) → Text → Option (List Value × Text)
  | 0, _, _ => none
  | fuel + 1, room, text =>
    match text with
    | ']' :: rest => some ([], rest)
    | text => do
      let (item, rest) ← value fuel room text
      match ← skipLayout false rest with
      | ',' :: rest =>
        let (items, rest) ← items fuel room (← skipLayout false rest)
        return (item :: items, rest)
      | ']' :: rest => return ([item], rest)
      | _ => none

def fields : (fuel room : Nat) → DraftTable → Text → Option (DraftTable × Text)
  | 0, _, _, _ => none
  | fuel + 1, room, table, text => do
    let ((keys, key), rest) ← dottedKey maxNesting text
    match rest with
    | '=' :: rest =>
      let (value, rest) ← value fuel room (dropBlanks rest)
      let table ← Draft.insert keys key value table
      match dropBlanks rest with
      | ',' :: rest => fields fuel room table rest
      | '}' :: rest => return (table, rest)
      | _ => none
    | _ => none

end

def expressions : (fuel : Nat) → (header : List Text) → DraftTable → Text → Option DraftTable
  | _, _, table, [] => some table
  | 0, _, _, _ => none
  | fuel + 1, header, table, text =>
    match text with
    | '[' :: '[' :: rest => do
      let ((keys, key), rest) ← dottedKey maxNesting rest
      match rest with
      | ']' :: ']' :: rest =>
        expressions fuel (keys ++ [key]) (← Draft.openNext keys key table) (← endLine rest)
      | _ => none
    | '[' :: rest => do
      let ((keys, key), rest) ← dottedKey maxNesting rest
      match rest with
      | ']' :: rest =>
        expressions fuel (keys ++ [key]) (← Draft.openTable keys key table) (← endLine rest)
      | _ => none
    | text => do
      let ((keys, key), rest) ← dottedKey maxNesting text
      match rest with
      | '=' :: rest =>
        let (value, rest) ← value rest.length maxNesting (dropBlanks rest)
        expressions fuel header (← Draft.insertBelow header keys key value table) (← endLine rest)
      | _ => none

def dropByteOrderMark : Text → Text
  | '\uFEFF' :: rest => rest
  | text => text

def parse (text : Text) : Option Table := do
  let text := dropByteOrderMark text
  let table ← expressions (text.length + 1) [] [] (← skipLayout false text)
  return Draft.toTable table

end LineSearch.Toml
