import CodeGraph.Toml.Quoted
import CodeGraph.Toml.Scalar
import CodeGraph.Toml.Table

/-!
# Reading TOML

`read?` gives the entries of a document. Arrays and tables between braces nest less than eighty
levels deep, and a dotted key has fewer than eighty parts.
-/

namespace CodeGraph.Toml

/-- The text after white space, newlines and comments. A malformed comment is left where it breaks
off: nothing can start there. -/
def skipLines (inComment : Bool) : List Char → List Char
  | [] => []
  | c :: rest =>
    if startsLine (c :: rest) then skipLines (inComment && c == '\r') rest
    else if inComment then (if isPlain c then skipLines true rest else c :: rest)
    else if isSpace c then skipLines false rest
    else if c = '#' then skipLines true rest
    else c :: rest

/-- The text after the white space of a line. -/
def skipSpace (cs : List Char) : List Char := cs.dropWhile isSpace

/-- Whether a line may end here. -/
def endsLine : List Char → Bool
  | [] => true
  | '#' :: _ => true
  | cs => startsLine cs

/-- Characters of keys without quotes. -/
def isKeyChar (c : Char) : Bool := c.isAlphanum || c == '-' || c == '_'

/-- One part of a key. -/
def readKeyPart : List Char → Option (String × List Char)
  | '"' :: rest => (readBasic false .text rest).map fun r => (String.ofList r.1, r.2)
  | '\'' :: rest => (readLiteral false rest).map fun r => (String.ofList r.1, r.2)
  | cs =>
    if (cs.takeWhile isKeyChar).isEmpty then none
    else some (String.ofList (cs.takeWhile isKeyChar), cs.dropWhile isKeyChar)

/-- A key of at most so many parts, and the text after the white space behind it. -/
def readKey : Nat → List Char → Option (List String × List Char)
  | 0, _ => none
  | more + 1, cs =>
    match readKeyPart (skipSpace cs) with
    | none => none
    | some (part, rest) =>
      match skipSpace rest with
      | '.' :: rest => (readKey more rest).map fun r => (part :: r.1, r.2)
      | rest => some ([part], rest)

/-- The most parts of a key, and the most levels of values. -/
def maxLevels : Nat := 79

mutual

/-- A value that nests at most `levels` deep. -/
def readValue (levels : Nat) : Nat → List Char → Option (Value × List Char)
  | 0, _ => none
  | fuel + 1, cs =>
    match cs with
    | '[' :: rest =>
      match levels with
      | 0 => none
      | levels + 1 =>
        match skipLines false rest with
        | ']' :: rest => some (.array [], rest)
        | rest => (readItems levels fuel rest).map fun r => (.array r.1, r.2)
    | '{' :: rest =>
      match levels with
      | 0 => none
      | levels + 1 =>
        match skipSpace rest with
        | '}' :: rest => some (.table .closed [], rest)
        | rest =>
          match readPairs levels fuel rest with
          | none => none
          | some (pairs, rest) =>
            (Table.ofPairs pairs).map fun entries => (.table .closed entries, rest)
    | '"' :: _ | '\'' :: _ => (readString cs).map fun r => (.string (String.ofList r.1), r.2)
    | cs =>
      let (word, rest) := takeWord cs
      (ofWord? word).map fun v => (v, rest)

/-- The items of an array up to its closing bracket; there is at least one. -/
def readItems (levels : Nat) : Nat → List Char → Option (List Value × List Char)
  | 0, _ => none
  | fuel + 1, cs =>
    match readValue levels fuel cs with
    | none => none
    | some (v, rest) =>
      match skipLines false rest with
      | ']' :: rest => some ([v], rest)
      | ',' :: rest =>
        match skipLines false rest with
        | ']' :: rest => some ([v], rest)
        | rest => (readItems levels fuel rest).map fun r => (v :: r.1, r.2)
      | _ => none

/-- The entries of a table up to its closing brace; there is at least one. -/
def readPairs (levels : Nat) : Nat → List Char → Option (List (List String × Value) × List Char)
  | 0, _ => none
  | fuel + 1, cs =>
    match readKey maxLevels cs with
    | some (path, '=' :: rest) =>
      match readValue levels fuel (skipSpace rest) with
      | none => none
      | some (v, rest) =>
        match skipSpace rest with
        | '}' :: rest => some ([(path, v)], rest)
        | ',' :: rest => (readPairs levels fuel rest).map fun r => ((path, v) :: r.1, r.2)
        | _ => none
    | _ => none

end

/-- A header, from its first bracket on. -/
def readHeader : List Char → Option (Statement × List Char)
  | '[' :: '[' :: rest =>
    match readKey maxLevels rest with
    | some (path, ']' :: ']' :: rest) => some (.header path true, rest)
    | _ => none
  | '[' :: rest =>
    match readKey maxLevels rest with
    | some (path, ']' :: rest) => some (.header path false, rest)
    | _ => none
  | _ => none

/-- A key with its value. -/
def readEntry (cs : List Char) : Option (Statement × List Char) :=
  match readKey maxLevels cs with
  | some (path, '=' :: rest) =>
    (readValue maxLevels (2 * rest.length + 2) (skipSpace rest)).map fun r =>
      (.entry path r.1, r.2)
  | _ => none

/-- One statement. -/
def readStatement (cs : List Char) : Option (Statement × List Char) :=
  match cs with
  | '[' :: _ => readHeader cs
  | _ => readEntry cs

/-- The statements of a text; every one has characters of its own, which bounds their number. -/
def readStatements : Nat → List Char → Option (List Statement)
  | 0, _ => none
  | fuel + 1, cs =>
    match skipLines false cs with
    | [] => some []
    | cs =>
      match readStatement cs with
      | none => none
      | some (s, rest) =>
        let rest := skipSpace rest
        if endsLine rest then (readStatements fuel rest).map (s :: ·) else none

/-- A text without a byte order mark at its start. -/
def skipMark : List Char → List Char
  | '\ufeff' :: rest => rest
  | cs => cs

/-- The entries of a document. -/
def read? (text : String) : Option Entries :=
  let cs := skipMark text.toList
  (readStatements (cs.length + 1) cs).bind entriesOf?

end CodeGraph.Toml
