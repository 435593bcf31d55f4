import CodeGraph.Text.Hex

/-!
# Percent escapes

A percent sign with two hexadecimal digits behind it stands for one byte. A percent sign without them
stands for itself, so every text can be read.
-/

namespace CodeGraph.Text

/-- The bytes of a text, each escape read as one byte. -/
def percentBytes : List Char → List UInt8
  | '%' :: a :: b :: rest =>
    match hexValue? a, hexValue? b with
    | some x, some y => (16 * x + y).toUInt8 :: percentBytes rest
    | _, _ => 37 :: percentBytes (a :: b :: rest)
  | c :: rest => String.utf8EncodeChar c ++ percentBytes rest
  | [] => []

/-- The text of some bytes; none where they are not UTF-8. -/
def textOfBytes? (bytes : List UInt8) : Option String := String.fromUTF8? ⟨bytes.toArray⟩

/-- A text with its escapes read; none where that gives no UTF-8. -/
def percentText? (cs : List Char) : Option String := textOfBytes? (percentBytes cs)

end CodeGraph.Text
