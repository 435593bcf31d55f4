import CodeGraph.Text.Width

/-!
# Tables on a terminal

A table has two columns of texts under a header, in a frame with round corners. Each column is as wide
as its widest text, and a text of several lines makes its row higher.
-/

namespace CodeGraph.Terminal

/-- One row of a table. -/
structure TableRow where
  label : String
  value : String
deriving DecidableEq, Repr

/-- The header of every table. -/
def header : TableRow := ⟨"Item", "Value"⟩

/-- The columns of the widest of some texts. -/
def columnWidth (texts : List String) : Nat := (texts.map fun t => Text.width t.toList).foldl max 0

/-- A line of a text, filled up with spaces to the width of its column. -/
def fill (width : Nat) (line : List Char) : List Char :=
  line ++ List.replicate (width - Text.lineWidth line) ' '

/-- A horizontal line of the frame. -/
def rule (left middle right : Char) (labels values : Nat) : List Char :=
  left :: (List.replicate (labels + 2) '─' ++
    middle :: (List.replicate (values + 2) '─' ++ [right]))

/-- One line of a row. -/
def rowLine (labels values : Nat) (label value : List Char) : List Char :=
  '│' :: ' ' :: (fill labels label ++
    ' ' :: '│' :: ' ' :: (fill values value ++ [' ', '│']))

/-- The lines of a row. -/
def rowLines (labels values : Nat) (r : TableRow) : List (List Char) :=
  let left := Text.splitOn '\n' r.label.toList
  let right := Text.splitOn '\n' r.value.toList
  (List.range (max left.length right.length)).map fun i =>
    rowLine labels values (left[i]?.getD []) (right[i]?.getD [])

/-- The lines of a table. -/
def tableLines (rows : List TableRow) : List (List Char) :=
  let all := header :: rows
  let labels := columnWidth (all.map (·.label))
  let values := columnWidth (all.map (·.value))
  rule '╭' '┬' '╮' labels values :: rowLines labels values header ++
    rule '├' '┼' '┤' labels values :: rows.flatMap (rowLines labels values) ++
    [rule '╰' '┴' '╯' labels values]

/-- The text of a table; empty where there are no rows. -/
def table (rows : List TableRow) : String :=
  if rows.isEmpty then "" else "\n".intercalate ((tableLines rows).map String.ofList)

end CodeGraph.Terminal
