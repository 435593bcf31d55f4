import CodeGraph.Span
import CodeGraph.Text.Utf8

/-!
# Textual edits

`textEdit old new` is the one replacement that turns `old` into `new`: all between their longest
common prefix and the longest common suffix of what is left. Equal texts need none.
-/

namespace CodeGraph

namespace Text

/-- The longest common prefix of two texts. -/
def commonPrefix : List Char → List Char → List Char
  | a :: as, b :: bs => if a = b then a :: commonPrefix as bs else []
  | _, _ => []

/-- The longest common suffix of two texts. -/
def commonSuffix (as bs : List Char) : List Char := (commonPrefix as.reverse bs.reverse).reverse

end Text

/-- The replacement of one range of a text by another. Offsets count bytes. -/
structure TextEdit where
  startByte : Nat
  oldEndByte : Nat
  newEndByte : Nat
  start : Point
  oldEnd : Point
  newEnd : Point
deriving DecidableEq, Repr

/-- The edit that turns `old` into `new`. -/
def textEdit (old new : String) : Option TextEdit :=
  if old = new then none
  else
    let shared := Text.commonPrefix old.toList new.toList
    let kept :=
      Text.sizeOf (Text.commonSuffix (old.toList.drop shared.length) (new.toList.drop shared.length))
    let startByte := Text.sizeOf shared
    let oldEnd := Text.sizeOf old.toList - kept
    let newEnd := Text.sizeOf new.toList - kept
    some
      ⟨startByte, oldEnd, newEnd, Point.ofOffset old.toUTF8 startByte,
        Point.ofOffset old.toUTF8 oldEnd, Point.ofOffset new.toUTF8 newEnd⟩

/-- The range of the new text that an edit wrote. -/
def TextEdit.written (e : TextEdit) : Span := ⟨e.startByte, e.newEndByte, e.start, e.newEnd⟩

end CodeGraph
