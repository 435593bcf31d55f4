/-!
# White space and the ends of a text

`isBlank` is the Unicode property White_Space, `stripEnds` removes a class of characters from both
ends of a text, and `trim` is `stripEnds` for white space.
-/

namespace CodeGraph.Text

/-- The Unicode property White_Space. -/
def isBlank (c : Char) : Bool :=
  let n := c.toNat
  (9 ≤ n && n ≤ 13) || n == 0x20 || n == 0x85 || n == 0xa0 || n == 0x1680 ||
    (0x2000 ≤ n && n ≤ 0x200a) || n == 0x2028 || n == 0x2029 || n == 0x202f || n == 0x205f ||
    n == 0x3000

/-- Drop the characters of a class from the front and the back. -/
def stripChars (p : Char → Bool) (cs : List Char) : List Char :=
  ((cs.dropWhile p).reverse.dropWhile p).reverse

/-- Drop the characters of a class from both ends of a text. -/
def stripEnds (p : Char → Bool) (s : String) : String :=
  String.ofList (stripChars p s.toList)

/-- Drop the white space around a text. -/
def trim (s : String) : String := stripEnds isBlank s

/-- Whether `needle` occurs somewhere in the characters of a text. -/
def occursIn (needle : List Char) : List Char → Bool
  | [] => needle.isEmpty
  | c :: cs => needle.isPrefixOf (c :: cs) || occursIn needle cs

/-- The part after the last separator, or everything where there is none. -/
def afterLast (sep : Char) (cs : List Char) : List Char :=
  (cs.reverse.takeWhile (· != sep)).reverse

/-- The maximal pieces between separators; there is always at least one. -/
def splitOn (sep : Char) : List Char → List (List Char)
  | [] => [[]]
  | c :: cs =>
    if c = sep then [] :: splitOn sep cs
    else
      match splitOn sep cs with
      | [] => [[c]]
      | piece :: pieces => (c :: piece) :: pieces

end CodeGraph.Text
