import CodeGraph.Text.Blank
import CodeGraph.Text.WidthRanges

/-!
# Columns of a text

How many columns a terminal takes for a text. Most characters take one, and many of East Asia two;
marks, format characters and control characters take none. A text takes what its characters take one by
one, so what is drawn as one picture counts as its parts.
-/

namespace CodeGraph.Text

/-- The columns of a character. -/
def charWidth (c : Char) : Nat :=
  let n := c.toNat
  if n < 0x20 ∨ (0x7f ≤ n ∧ n < 0xa0) then 0
  else if liesIn zeroRanges n then 0
  else if liesIn wideRanges n then 2
  else 1

/-- The columns of a line. -/
def lineWidth (line : List Char) : Nat := line.foldl (fun columns c => columns + charWidth c) 0

/-- The columns of the longest line of a text. -/
def width (text : List Char) : Nat := ((splitOn '\n' text).map lineWidth).foldl max 0

end CodeGraph.Text
