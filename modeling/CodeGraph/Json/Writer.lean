import CodeGraph.Json.Value
import CodeGraph.Text.Hex

/-!
# JSON text

A value is written on one line without spaces, or over many lines with two spaces for each level.
Quotes, backslashes and control characters are escaped, all else stands for itself. Each function
of this module writes a value before a text that follows it.
-/

namespace CodeGraph.Json

/-- One character of a string, escaped where it has to be. -/
def escape (c : Char) : List Char :=
  if c = '"' then ['\\', '"']
  else if c = '\\' then ['\\', '\\']
  else if c.toNat = 8 then ['\\', 'b']
  else if c.toNat = 9 then ['\\', 't']
  else if c.toNat = 10 then ['\\', 'n']
  else if c.toNat = 12 then ['\\', 'f']
  else if c.toNat = 13 then ['\\', 'r']
  else if c.toNat < 32 then
    ['\\', 'u', '0', '0', Text.hexDigit (c.toNat / 16), Text.hexDigit (c.toNat % 16)]
  else [c]

/-- A string in its quotes. -/
def quote (s : String) (rest : List Char) : List Char :=
  '"' :: (s.toList.flatMap escape ++ '"' :: rest)

/-- The text of a number. -/
def numberText : JsonNumber → List Char
  | .natural n => Nat.toDigits 10 n
  | .negative n => '-' :: Nat.toDigits 10 n
  | .double d => d.text

/-- How the parts of a value are set apart. -/
inductive Layout where
  | compact
  /-- Each part on a line of its own, indented by so many levels. -/
  | indented (level : Nat)
deriving DecidableEq, Repr

namespace Layout

/-- The layout of the parts of a value. -/
def inner : Layout → Layout
  | compact => compact
  | indented level => indented (level + 1)

/-- What stands before a part. -/
def lineBreak : Layout → List Char → List Char
  | compact, rest => rest
  | indented level, rest => '\n' :: (List.replicate (2 * level) ' ' ++ rest)

/-- What stands between the colon of a member and its value. -/
def gap : Layout → List Char → List Char
  | compact, rest => rest
  | indented _, rest => ' ' :: rest

end Layout

/-- The comma before all parts but the first. -/
def comma (first : Bool) (rest : List Char) : List Char := if first then rest else ',' :: rest

mutual

/-- A value before the rest of a text. -/
def write (l : Layout) : Json → List Char → List Char
  | .null, rest => 'n' :: 'u' :: 'l' :: 'l' :: rest
  | .bool true, rest => 't' :: 'r' :: 'u' :: 'e' :: rest
  | .bool false, rest => 'f' :: 'a' :: 'l' :: 's' :: 'e' :: rest
  | .number n, rest => numberText n ++ rest
  | .string s, rest => quote s rest
  | .array [], rest => '[' :: ']' :: rest
  | .array (x :: xs), rest => '[' :: writeItems l.inner true (x :: xs) (l.lineBreak (']' :: rest))
  | .object [], rest => '{' :: '}' :: rest
  | .object (m :: ms), rest =>
    '{' :: writeMembers l.inner true (m :: ms) (l.lineBreak ('}' :: rest))

/-- The items of an array before the rest of a text. -/
def writeItems (l : Layout) (first : Bool) : List Json → List Char → List Char
  | [], rest => rest
  | x :: xs, rest => comma first (l.lineBreak (write l x (writeItems l false xs rest)))

/-- The members of an object before the rest of a text. -/
def writeMembers (l : Layout) (first : Bool) : List (String × Json) → List Char → List Char
  | [], rest => rest
  | (key, x) :: ms, rest =>
    comma first
      (l.lineBreak (quote key (':' :: l.gap (write l x (writeMembers l false ms rest)))))

end

/-- The text of a value on one line. -/
def compact (j : Json) : String := String.ofList (j.write .compact [])

/-- The text of a value over many lines. -/
def pretty (j : Json) : String := String.ofList (j.write (.indented 0) [])

end CodeGraph.Json
