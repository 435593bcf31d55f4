import CodeGraph.Json.Document
import CodeGraph.Text.Hex

/-!
# Reading JSON

The reader goes through a text once. Each function takes what is left of the text and gives back
what it read and what is left then; nothing is left where the text is malformed. Depth is bounded
by nothing but the length of the text.
-/

namespace CodeGraph.Json

/-- White space between the parts of a JSON text. -/
def isSpace (c : Char) : Bool := c == ' ' || c == '\n' || c == '\t' || c == '\r'

/-- A text from its first character on that is no white space. -/
def skipSpace (cs : List Char) : List Char := cs.dropWhile isSpace

/-- One unit of a string. -/
inductive TextUnit where
  | plain (c : Char)
  /-- A unit of UTF-16, written as four hexadecimal digits. -/
  | unit (n : Nat)
deriving DecidableEq, Repr

/-- The value of four hexadecimal digits. -/
def hexUnit? (a b c d : Char) : Option Nat :=
  match Text.hexValue? a, Text.hexValue? b, Text.hexValue? c, Text.hexValue? d with
  | some a, some b, some c, some d => some (((a * 16 + b) * 16 + c) * 16 + d)
  | _, _, _, _ => none

/-- The character of a short escape. -/
def shortEscape? (c : Char) : Option Char :=
  if c = '"' then some '"'
  else if c = '\\' then some '\\'
  else if c = '/' then some '/'
  else if c = 'b' then some (Char.ofNat 8)
  else if c = 'f' then some (Char.ofNat 12)
  else if c = 'n' then some '\n'
  else if c = 'r' then some '\r'
  else if c = 't' then some '\t'
  else none

/-- The units of a string up to its closing quote, and the text behind it. -/
def readUnits : List Char → Option (List TextUnit × List Char)
  | [] => none
  | '"' :: rest => some ([], rest)
  | '\\' :: 'u' :: a :: b :: c :: d :: rest =>
    match hexUnit? a b c d with
    | none => none
    | some n => (readUnits rest).map fun r => (.unit n :: r.1, r.2)
  | '\\' :: c :: rest =>
    match shortEscape? c with
    | none => none
    | some e => (readUnits rest).map fun r => (.plain e :: r.1, r.2)
  | c :: rest =>
    if c = '\\' ∨ c.toNat < 32 then none
    else (readUnits rest).map fun r => (.plain c :: r.1, r.2)

/-- Whether a unit of UTF-16 is the first half of a pair. -/
def isHighSurrogate (n : Nat) : Bool := 0xd800 ≤ n && n ≤ 0xdbff

/-- Whether a unit of UTF-16 is the second half of a pair. -/
def isLowSurrogate (n : Nat) : Bool := 0xdc00 ≤ n && n ≤ 0xdfff

/-- The characters of some units; none where a surrogate is alone. -/
def assemble : List TextUnit → Option (List Char)
  | [] => some []
  | .plain c :: us => (assemble us).map (c :: ·)
  | .unit high :: .unit low :: us =>
    if isHighSurrogate high then
      if isLowSurrogate low then
        (assemble us).map (Char.ofNat (0x10000 + (high - 0xd800) * 0x400 + (low - 0xdc00)) :: ·)
      else none
    else if isLowSurrogate high then none
    else (assemble (.unit low :: us)).map (Char.ofNat high :: ·)
  | .unit n :: us =>
    if isHighSurrogate n || isLowSurrogate n then none
    else (assemble us).map (Char.ofNat n :: ·)

/-- The value of a string. -/
def textOf (units : List TextUnit) : Option String := (assemble units).map String.ofList

/-- The digits at the front of a text. -/
def readDigits : List Char → List Nat × List Char
  | [] => ([], [])
  | c :: cs =>
    if c.isDigit then
      let (ds, rest) := readDigits cs
      ((c.toNat - 48) :: ds, rest)
    else ([], c :: cs)

/-- The digits before the point: a leading zero stands alone. -/
def readWhole (cs : List Char) : Option (List Nat × List Char) :=
  match readDigits cs with
  | ([], _) => none
  | (0 :: _ :: _, _) => none
  | (ds, rest) => some (ds, rest)

/-- The digits after the point, where there is one. -/
def readFraction : List Char → Option (Option (List Nat) × List Char)
  | '.' :: cs =>
    match readDigits cs with
    | ([], _) => none
    | (ds, rest) => some (some ds, rest)
  | cs => some (none, cs)

/-- The sign of an exponent. -/
def readSign : List Char → Bool × List Char
  | '+' :: cs => (false, cs)
  | '-' :: cs => (true, cs)
  | cs => (false, cs)

/-- The exponent, where there is one. -/
def readExponent : List Char → Option (Option (Bool × List Nat) × List Char)
  | c :: cs =>
    if c = 'e' ∨ c = 'E' then
      let (isBelow, cs) := readSign cs
      match readDigits cs with
      | ([], _) => none
      | (ds, rest) => some (some (isBelow, ds), rest)
    else some (none, c :: cs)
  | [] => some (none, [])

/-- A number after its sign. -/
def readNumber (negative : Bool) (cs : List Char) : Option (NumberLiteral × List Char) :=
  match readWhole cs with
  | none => none
  | some (whole, cs) =>
    match readFraction cs with
    | none => none
    | some (fraction, cs) =>
      match readExponent cs with
      | none => none
      | some (exponent, cs) => some (⟨negative, whole, fraction, exponent⟩, cs)

/-- What was read of a malformed text. -/
def broken : Document × Option (List Char) := (.malformed, none)

/-- A scalar, which does not start with a bracket or a brace. -/
def readScalar : List Char → Document × Option (List Char)
  | 'n' :: 'u' :: 'l' :: 'l' :: rest => (.null, some rest)
  | 't' :: 'r' :: 'u' :: 'e' :: rest => (.bool true, some rest)
  | 'f' :: 'a' :: 'l' :: 's' :: 'e' :: rest => (.bool false, some rest)
  | '"' :: rest =>
    match readUnits rest with
    | none => broken
    | some (units, rest) => (.string (textOf units), some rest)
  | '-' :: rest =>
    match readNumber true rest with
    | none => broken
    | some (n, rest) => (.number n, some rest)
  | cs =>
    match readNumber false cs with
    | none => broken
    | some (n, rest) => (.number n, some rest)

/-- The key of a member, and the text behind its colon where it has one. -/
def readKey (cs : List Char) : Option (Option String × Option (List Char)) :=
  match skipSpace cs with
  | '"' :: rest =>
    match readUnits rest with
    | none => none
    | some (units, rest) =>
      match skipSpace rest with
      | ':' :: rest => some (textOf units, some rest)
      | _ => some (textOf units, none)
  | _ => none

mutual

/-- A value, white space before it apart. -/
def readValue : Nat → List Char → Document × Option (List Char)
  | 0, _ => broken
  | fuel + 1, cs =>
    match skipSpace cs with
    | '[' :: rest =>
      match skipSpace rest with
      | ']' :: rest => (.array [], some rest)
      | rest =>
        let (items, rest) := readItems fuel rest
        (.array items, rest)
    | '{' :: rest =>
      match skipSpace rest with
      | '}' :: rest => (.object [], some rest)
      | rest =>
        let (members, rest) := readMembers fuel rest
        (.object members, rest)
    | rest => readScalar rest

/-- The items of an array up to its closing bracket; there is at least one. -/
def readItems : Nat → List Char → List Document × Option (List Char)
  | 0, _ => ([.malformed], none)
  | fuel + 1, cs =>
    match readValue fuel cs with
    | (d, none) => ([d], none)
    | (d, some rest) =>
      match skipSpace rest with
      | ',' :: rest =>
        let (ds, rest) := readItems fuel rest
        (d :: ds, rest)
      | ']' :: rest => ([d], some rest)
      | _ => ([d, .malformed], none)

/-- The members of an object up to its closing brace; there is at least one. -/
def readMembers : Nat → List Char → List (Option String × Document) × Option (List Char)
  | 0, _ => ([(some "", .malformed)], none)
  | fuel + 1, cs =>
    match readKey cs with
    | none => ([(some "", .malformed)], none)
    | some (key, none) => ([(key, .malformed)], none)
    | some (key, some rest) =>
      match readValue fuel rest with
      | (d, none) => ([(key, d)], none)
      | (d, some rest) =>
        match skipSpace rest with
        | ',' :: rest =>
          let (ms, rest) := readMembers fuel rest
          ((key, d) :: ms, rest)
        | '}' :: rest => ([(key, d)], some rest)
        | _ => ([(key, d), (some "", .malformed)], none)

end

/-- Read a text. Each value, item and member takes a character of its own, which bounds the number
of nested calls. -/
def readText (cs : List Char) : Document × Option (List Char) := readValue (2 * cs.length + 2) cs

/-- The document of a text that holds one value and nothing else. -/
def read? (text : String) : Option Document :=
  match readText text.toList with
  | (d, some rest) => if (skipSpace rest).isEmpty then some d else none
  | (_, none) => none

/-- The generic value of a text. -/
def parse? (text : String) : Option Json := (read? text).bind Document.value?

end CodeGraph.Json
