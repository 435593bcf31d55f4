/-!
# Points and spans

A `Point` is a line and a column of a text, a `Span` a byte range with the points of its two ends.
Lines and columns count from zero, and columns count bytes. `Point.ofOffset text offset` is the point of
a byte offset: one line further for every newline before it, and the bytes since the last one.
-/

namespace CodeGraph

/-- A position in a text. -/
structure Point where
  line : Nat
  column : Nat
deriving DecidableEq, Repr, Inhabited

namespace Point

/-- The start of every text. -/
def origin : Point := ⟨0, 0⟩

/-- The point after one more byte. -/
def step (p : Point) (b : UInt8) : Point :=
  if b = 10 then ⟨p.line + 1, 0⟩ else ⟨p.line, p.column + 1⟩

/-- The point after some more bytes. -/
def advance (p : Point) (bs : List UInt8) : Point := bs.foldl step p

/-- The point of a byte offset. -/
def ofOffset (text : ByteArray) (offset : Nat) : Point :=
  origin.advance (text.data.toList.take offset)

@[simp] theorem advance_nil (p : Point) : p.advance [] = p := rfl

@[simp] theorem advance_cons (p : Point) (b : UInt8) (bs : List UInt8) :
    p.advance (b :: bs) = (p.step b).advance bs := rfl

theorem advance_append (p : Point) (xs ys : List UInt8) :
    p.advance (xs ++ ys) = (p.advance xs).advance ys := List.foldl_append

theorem line_step (p : Point) (b : UInt8) : (p.step b).line = p.line + if b = 10 then 1 else 0 := by
  unfold step
  split <;> rfl

theorem column_step (p : Point) (b : UInt8) :
    (p.step b).column = if b = 10 then 0 else p.column + 1 := by
  unfold step
  split <;> rfl

/-- There is a line further for every newline. -/
theorem line_advance (p : Point) (bs : List UInt8) :
    (p.advance bs).line = p.line + bs.count 10 := by
  induction bs generalizing p with
  | nil => rfl
  | cons b bs ih =>
    rw [advance_cons, ih, line_step, List.count_cons]
    by_cases hb : b = 10
    · rw [if_pos hb, if_pos (by simpa using hb)]
      omega
    · rw [if_neg hb, if_neg (by simpa using hb)]
      omega

/-- The column counts the bytes since the last newline. -/
theorem column_advance_reverse (bs : List UInt8) :
    (origin.advance bs.reverse).column = (bs.takeWhile (· ≠ 10)).length := by
  induction bs with
  | nil => rfl
  | cons b bs ih =>
    rw [List.reverse_cons, advance_append, advance_cons, advance_nil, column_step]
    by_cases hb : b = 10
    · rw [if_pos hb, List.takeWhile_cons_of_neg (by simpa using hb), List.length_nil]
    · rw [if_neg hb, List.takeWhile_cons_of_pos (by simpa using hb), List.length_cons, ih]

end Point

/-- A byte range `[startByte, endByte)` with the points of its ends. -/
structure Span where
  startByte : Nat
  endByte : Nat
  start : Point
  stop : Point
deriving DecidableEq, Repr, Inhabited

namespace Span

/-- The span of a byte range of a text. -/
def of (text : ByteArray) (startByte endByte : Nat) : Span :=
  ⟨startByte, endByte, Point.ofOffset text startByte, Point.ofOffset text endByte⟩

/-- No byte lies in the span. -/
def isEmpty (s : Span) : Bool := s.startByte == s.endByte

/-- A span meets the byte range `[start, stop)` when they share a byte. An empty span is a point,
and meets every range that contains or touches it. -/
def overlaps (s : Span) (start stop : Nat) : Bool :=
  if s.isEmpty then start ≤ s.startByte && s.startByte ≤ stop
  else !(stop ≤ s.startByte || start ≥ s.endByte)

end Span

end CodeGraph
