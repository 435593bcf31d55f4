import CodeGraph.Text.Hex

/-!
# TOML strings

A string stands between double quotes, where a backslash escapes, or between single quotes, where
nothing does; three quotes on each side allow newlines. `quote` picks the plainest form that fits.
-/

namespace CodeGraph.Toml

/-- Characters that may stand for themselves on one line: all but control characters, and the tab. -/
def isPlain (c : Char) : Bool := c == '\t' || !(c.toNat < 32 || c.toNat == 127)

/-- Characters that only an escape can spell in any string. -/
def needsEscape (c : Char) : Bool := !isPlain c && c != '\n'

/-! ### Writing -/

/-- The most occurrences of a character in a row, after `before` of them. -/
def longestRun (q : Char) (before : Nat) : List Char → Nat
  | [] => before
  | c :: cs => if c = q then longestRun q (before + 1) cs else max before (longestRun q 0 cs)

/-- The forms of a string. -/
inductive Quoting where
  | basic | literal | basicLines | literalLines
deriving DecidableEq, Repr

/-- The plainest form for some characters: double quotes where nothing is escaped, then single
quotes, and escapes only where there is no way around them. -/
def Quoting.of (cs : List Char) : Quoting :=
  let clean := !cs.any needsEscape
  let oneLine := !cs.contains '\n'
  let hasBackslash := cs.contains '\\'
  if clean && oneLine && !hasBackslash && longestRun '"' 0 cs == 0 then .basic
  else if clean && oneLine && longestRun '\'' 0 cs == 0 then .literal
  else if clean && !hasBackslash && longestRun '"' 0 cs ≤ 2 then .basicLines
  else if clean && longestRun '\'' 0 cs ≤ 2 then .literalLines
  else if oneLine then .basic
  else .basicLines

/-- A character between double quotes, where it is no quote. -/
def escape (lines : Bool) (c : Char) : List Char :=
  if c = '\\' then ['\\', '\\']
  else if c = '\n' then (if lines then ['\n'] else ['\\', 'n'])
  else if c.toNat = 8 then ['\\', 'b']
  else if c.toNat = 9 then ['\\', 't']
  else if c.toNat = 12 then ['\\', 'f']
  else if c.toNat = 13 then ['\\', 'r']
  else if c.toNat < 32 ∨ c.toNat = 127 then
    ['\\', 'u', '0', '0', Text.upperHexDigit (c.toNat / 16), Text.upperHexDigit (c.toNat % 16)]
  else [c]

/-- Some characters between double quotes, after `run` quotes in a row. On one line every quote is
escaped, and over several lines every third. -/
def escapeAll (lines : Bool) (run : Nat) : List Char → List Char
  | [] => []
  | c :: cs =>
    if c = '"' then
      if lines && run < 2 then '"' :: escapeAll lines (run + 1) cs
      else '\\' :: '"' :: escapeAll lines 0 cs
    else escape lines c ++ escapeAll lines 0 cs

/-- The newline that may follow three opening quotes without being part of the string. -/
def openingBreak (cs : List Char) : List Char := if cs.contains '\n' then ['\n'] else []

/-- A string in its quotes. -/
def quote (cs : List Char) : List Char :=
  match Quoting.of cs with
  | .basic => '"' :: (escapeAll false 0 cs ++ ['"'])
  | .literal => '\'' :: (cs ++ ['\''])
  | .basicLines => '"' :: '"' :: '"' :: (openingBreak cs ++ escapeAll true 0 cs ++ ['"', '"', '"'])
  | .literalLines => '\'' :: '\'' :: '\'' :: (openingBreak cs ++ cs ++ ['\'', '\'', '\''])

/-! ### Reading -/

/-- The character of an escape of one letter. -/
def shortEscape? (c : Char) : Option Char :=
  if c = 'b' then some (Char.ofNat 8)
  else if c = 't' then some '\t'
  else if c = 'n' then some '\n'
  else if c = 'f' then some (Char.ofNat 12)
  else if c = 'r' then some '\r'
  else if c = '"' then some '"'
  else if c = '\\' then some '\\'
  else none

/-- The character of a number. -/
def scalar? (n : Nat) : Option Char := if n.isValidChar then some (Char.ofNat n) else none

/-- Whether a text starts with a newline. -/
def startsLine : List Char → Bool
  | '\n' :: _ => true
  | '\r' :: '\n' :: _ => true
  | _ => false

/-- Space within a line. -/
def isSpace (c : Char) : Bool := c == ' ' || c == '\t'

/-- The rest of a text after a quote that ends a string, and the quotes before it that still belong
to the string; none where the quote does not end it. -/
def close? (q : Char) (lines : Bool) (rest : List Char) : Option (List Char × List Char) :=
  if lines then
    match rest with
    | a :: b :: rest =>
      if a = q ∧ b = q then
        match rest with
        | c :: d :: tail =>
          if c = q then (if d = q then some ([q, q], tail) else some ([q], d :: tail))
          else some ([], rest)
        | [c] => if c = q then some ([q], []) else some ([], rest)
        | [] => some ([], [])
      else none
    | _ => none
  else some ([], rest)

/-- Put a character before what was read. -/
def push (c : Char) (r : Option (List Char × List Char)) : Option (List Char × List Char) :=
  r.map fun p => (c :: p.1, p.2)

/-- Where a reader stands between double quotes. -/
inductive Place where
  | text
  /-- After a backslash at the end of a line: all white space is passed over. -/
  | gap
  /-- Before the digits of an escape: how many there are after the next one, and the number so
  far. -/
  | digits (more value : Nat)
deriving DecidableEq, Repr

/-- The characters between double quotes, and the text behind them. -/
def readBasic (lines : Bool) : Place → List Char → Option (List Char × List Char)
  | _, [] => none
  | .digits more value, c :: rest =>
    match Text.hexValue? c with
    | none => none
    | some d =>
      match more with
      | 0 =>
        match scalar? (16 * value + d) with
        | none => none
        | some x => push x (readBasic lines .text rest)
      | more + 1 => readBasic lines (.digits more (16 * value + d)) rest
  | place, c :: rest =>
    if place = .gap ∧ (isSpace c ∨ startsLine (c :: rest)) then readBasic lines .gap rest
    else if c = '"' then
      match close? '"' lines rest with
      | some ending => some ending
      | none => push '"' (readBasic lines .text rest)
    else if c = '\\' then
      if lines ∧ startsLine (rest.dropWhile isSpace) then readBasic lines .gap rest
      else
        match rest with
        | [] => none
        | e :: rest =>
          if e = 'u' then readBasic lines (.digits 3 0) rest
          else if e = 'U' then readBasic lines (.digits 7 0) rest
          else
            match shortEscape? e with
            | none => none
            | some x => push x (readBasic lines .text rest)
    else if isPlain c ∨ (lines ∧ c = '\n') then push c (readBasic lines .text rest)
    else if lines ∧ startsLine (c :: rest) then readBasic lines .text rest
    else none

/-- The characters between single quotes, and the text behind them. -/
def readLiteral (lines : Bool) : List Char → Option (List Char × List Char)
  | [] => none
  | c :: rest =>
    if c = '\'' then
      match close? '\'' lines rest with
      | some ending => some ending
      | none => push '\'' (readLiteral lines rest)
    else if isPlain c ∨ (lines ∧ c = '\n') then push c (readLiteral lines rest)
    else if lines ∧ startsLine (c :: rest) then readLiteral lines rest
    else none

/-- A text without the newline it starts with. -/
def skipBreak : List Char → List Char
  | '\n' :: rest => rest
  | '\r' :: '\n' :: rest => rest
  | cs => cs

/-- A string in any of its forms. -/
def readString : List Char → Option (List Char × List Char)
  | '"' :: '"' :: '"' :: rest => readBasic true .text (skipBreak rest)
  | '"' :: rest => readBasic false .text rest
  | '\'' :: '\'' :: '\'' :: rest => readLiteral true (skipBreak rest)
  | '\'' :: rest => readLiteral false rest
  | _ => none

end CodeGraph.Toml
