/-!
# TOML values

The values of a TOML document. A table remembers how it came about, for that decides what may still be
added to it.
-/

namespace CodeGraph.Toml

/-- How a table came about. -/
inductive TableStyle where
  /-- By a header of its own; the whole document is such a table. -/
  | headed
  /-- On the way to the table of a header. -/
  | passed
  /-- By a dotted key. -/
  | dotted
  /-- Between braces, complete. -/
  | closed
deriving DecidableEq, Repr

/-- A TOML value. -/
inductive Value where
  | string (s : String)
  | integer (n : Int)
  /-- A floating-point number as it is spelled. -/
  | float (spelling : String)
  | boolean (b : Bool)
  /-- A date, a time of day, or both, as it is spelled. -/
  | time (spelling : String)
  | array (items : List Value)
  | table (style : TableStyle) (entries : List (String × Value))
  /-- The tables of a header in double brackets. -/
  | tables (elements : List (List (String × Value)))

/-- The value of a key. -/
def lookup? (key : String) (entries : List (String × Value)) : Option Value :=
  (entries.find? (·.1 == key)).map (·.2)

/-- Put another value in the place of a key's. -/
def replace (key : String) (value : Value) (entries : List (String × Value)) :
    List (String × Value) :=
  entries.map fun e => if e.1 = key then (key, value) else e

end CodeGraph.Toml
