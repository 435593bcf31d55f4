import CodeGraph.Text.Blank
import CodeGraph.Text.Hex
import CodeGraph.Toml.Value

/-!
# TOML numbers, dates and booleans

A value without quotes or brackets is one word, which `ofWord?` reads: a boolean, an integer of
sixty-four bits, a floating-point number, a date, a time of day, or both of these.
-/

namespace CodeGraph.Toml

/-! ### Numbers -/

/-- Digits of a radix with single underscores between them, without the underscores. -/
def digits? (radix : Nat) (cs : List Char) : Option (List Nat) :=
  let groups := Text.splitOn '_' cs
  let values := groups.map fun g => g.map Text.hexValue?
  if values.all fun g => !g.isEmpty && g.all fun d => d.any (· < radix) then
    some (values.flatten.filterMap id)
  else none

/-- The number that digits of a radix spell. -/
def numberOf (radix : Nat) (ds : List Nat) : Nat := ds.foldl (fun n d => radix * n + d) 0

/-- Decimal digits that do not start with a needless zero. -/
def wholeDigits? (cs : List Char) : Option (List Nat) :=
  match cs, digits? 10 cs with
  | '0' :: _ :: _, _ => none
  | _, ds => ds

/-- A sign, and what follows it. -/
def sign : List Char → Bool × List Char
  | '-' :: cs => (true, cs)
  | '+' :: cs => (false, cs)
  | cs => (false, cs)

/-- The integer of a word, whatever its size. -/
def anyInteger? : List Char → Option Int
  | '0' :: 'x' :: cs => (digits? 16 cs).map fun ds => numberOf 16 ds
  | '0' :: 'o' :: cs => (digits? 8 cs).map fun ds => numberOf 8 ds
  | '0' :: 'b' :: cs => (digits? 2 cs).map fun ds => numberOf 2 ds
  | cs =>
    let (negative, cs) := sign cs
    (wholeDigits? cs).map fun ds => if negative then -(numberOf 10 ds : Int) else numberOf 10 ds

/-- Whether an integer has at most sixty-four bits. -/
def fits (n : Int) : Bool := Int64.minValue.toInt ≤ n && n ≤ Int64.maxValue.toInt

/-- The integer of a word. -/
def integer? (cs : List Char) : Option Int := (anyInteger? cs).filter fits

/-- The least number that rounds to infinity. -/
def overflow : Nat := (1 <<< 1024) - (1 <<< 970)

/-- Whether a number with so many digits after the point and an exponent is too large for a double. -/
def isTooLarge (digits : List Nat) (places : Nat) (exponent : Int) : Bool :=
  let n := numberOf 10 digits
  let e := exponent - places
  if n = 0 then false
  else if 400 < e then true
  else if 0 ≤ e then overflow ≤ n * Nat.pow 10 e.toNat
  else if digits.length ≤ e.natAbs then false
  else overflow * Nat.pow 10 e.natAbs ≤ n

/-- Digits and underscores. -/
def isDigitMark (c : Char) : Bool := c.isDigit || c == '_'

/-- The exponent at the end of a word; zero where there is none. -/
def exponent? : List Char → Option Int
  | [] => some 0
  | c :: cs =>
    if c = 'e' ∨ c = 'E' then
      let (negative, cs) := sign cs
      (digits? 10 cs).map fun ds => if negative then -(numberOf 10 ds : Int) else numberOf 10 ds
    else none

/-- Whether a word without its sign is a floating-point number. -/
def isUnsignedFloat (negative : Bool) (cs : List Char) : Bool :=
  if cs = ['i', 'n', 'f'] ∨ cs = ['n', 'a', 'n'] then true
  else
    match wholeDigits? (cs.takeWhile isDigitMark), cs.dropWhile isDigitMark with
    | none, _ => false
    | some _, [] => false
    | some whole, '.' :: rest =>
      match digits? 10 (rest.takeWhile isDigitMark), exponent? (rest.dropWhile isDigitMark) with
      | some fraction, some e => negative || !isTooLarge (whole ++ fraction) fraction.length e
      | _, _ => false
    | some whole, rest =>
      match exponent? rest with
      | some e => negative || !isTooLarge whole 0 e
      | none => false

/-- Whether a word is a floating-point number. -/
def isFloat (cs : List Char) : Bool :=
  let (negative, cs) := sign cs
  isUnsignedFloat negative cs

/-! ### Dates and times -/

/-- The number that some characters spell, where all of them are decimal digits. -/
def decimal? (cs : List Char) : Option Nat :=
  if cs.all Char.isDigit then (digits? 10 cs).map (numberOf 10) else none

/-- Whether two characters are a number within bounds. -/
def isBetween (low high : Nat) (a b : Char) : Bool :=
  match decimal? [a, b] with
  | some n => low ≤ n && n ≤ high
  | none => false

/-- The days of a month. -/
def daysOf (year month : Nat) : Nat :=
  if month = 2 then
    if year % 4 = 0 ∧ (year % 100 ≠ 0 ∨ year % 400 = 0) then 29 else 28
  else if month = 4 ∨ month = 6 ∨ month = 9 ∨ month = 11 then 30
  else 31

/-- What follows a date. -/
def afterDate? : List Char → Option (List Char)
  | y1 :: y2 :: y3 :: y4 :: '-' :: m1 :: m2 :: '-' :: d1 :: d2 :: rest =>
    match decimal? [y1, y2, y3, y4], decimal? [m1, m2], decimal? [d1, d2] with
    | some year, some month, some day =>
      if 1 ≤ month ∧ month ≤ 12 ∧ 1 ≤ day ∧ day ≤ daysOf year month then some rest else none
    | _, _, _ => none
  | _ => none

/-- What follows the fraction of a second, where there is one. -/
def afterFraction? : List Char → Option (List Char)
  | '.' :: rest =>
    if (rest.takeWhile Char.isDigit).isEmpty then none else some (rest.dropWhile Char.isDigit)
  | rest => some rest

/-- What follows a time of day. A minute may have sixty-one seconds. -/
def afterTime? : List Char → Option (List Char)
  | h1 :: h2 :: ':' :: m1 :: m2 :: ':' :: s1 :: s2 :: rest =>
    if isBetween 0 23 h1 h2 && isBetween 0 59 m1 m2 && isBetween 0 60 s1 s2 then
      afterFraction? rest
    else none
  | _ => none

/-- Whether a text is an offset from universal time, or empty. -/
def isOffset : List Char → Bool
  | [] => true
  | [c] => c == 'Z' || c == 'z'
  | [s, h1, h2, ':', m1, m2] =>
    (s == '+' || s == '-') && isBetween 0 23 h1 h2 && isBetween 0 59 m1 m2
  | _ => false

/-- Whether a word is a date, a time of day, or both. -/
def isTime (cs : List Char) : Bool :=
  match afterDate? cs with
  | some [] => true
  | some (c :: rest) =>
    (c == 'T' || c == 't' || c == ' ') && ((afterTime? rest).any isOffset)
  | none => (afterTime? cs).any (·.isEmpty)

/-! ### Words -/

/-- The value of a word. -/
def ofWord? (cs : List Char) : Option Value :=
  if cs = ['t', 'r', 'u', 'e'] then some (.boolean true)
  else if cs = ['f', 'a', 'l', 's', 'e'] then some (.boolean false)
  else if isTime cs then some (.time (String.ofList cs))
  else if isFloat cs then some (.float (String.ofList cs))
  else (integer? cs).map .integer

/-- Characters of words. -/
def isWordChar (c : Char) : Bool :=
  c.isAlphanum || c == '+' || c == '-' || c == '_' || c == '.' || c == ':'

/-- The word at the start of a text, and what follows it. A date goes on after one space, where a
digit follows. -/
def takeWord (cs : List Char) : List Char × List Char :=
  let word := cs.takeWhile isWordChar
  let rest := cs.dropWhile isWordChar
  match rest with
  | ' ' :: c :: tail =>
    if afterDate? word = some [] ∧ c.isDigit then
      (word ++ ' ' :: (c :: tail).takeWhile isWordChar, (c :: tail).dropWhile isWordChar)
    else (word, rest)
  | _ => (word, rest)

end CodeGraph.Toml
