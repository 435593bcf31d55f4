/-!
# Texts as bytes

Offsets into a text count the bytes of its UTF-8 form. `encode` gives that form, `sizeOf` its length,
and `slice?` reads a byte range back as text.
-/

namespace CodeGraph.Text

/-- The bytes of a list of characters. -/
def encode (cs : List Char) : List UInt8 := cs.flatMap String.utf8EncodeChar

/-- The number of bytes of a list of characters. -/
def sizeOf : List Char → Nat
  | [] => 0
  | c :: cs => c.utf8Size + sizeOf cs

@[simp] theorem sizeOf_nil : sizeOf [] = 0 := rfl

@[simp] theorem sizeOf_cons (c : Char) (cs : List Char) :
    sizeOf (c :: cs) = c.utf8Size + sizeOf cs := rfl

theorem sizeOf_append (xs ys : List Char) : sizeOf (xs ++ ys) = sizeOf xs + sizeOf ys := by
  induction xs with
  | nil => simp
  | cons c xs ih => simp [ih, Nat.add_assoc]

theorem length_encode (cs : List Char) : (encode cs).length = sizeOf cs := by
  induction cs with
  | nil => rfl
  | cons c cs ih =>
    simp only [encode, List.flatMap_cons, List.length_append, sizeOf_cons]
    rw [← ih, String.length_utf8EncodeChar]
    rfl

/-- The bytes `[start, stop)` as text: none where the range does not lie in the source, runs
backwards, or does not hold well-formed UTF-8. -/
def slice? (source : ByteArray) (start stop : Nat) : Option String :=
  if start ≤ stop ∧ stop ≤ source.size then String.fromUTF8? (source.extract start stop) else none

end CodeGraph.Text
