import CodeGraph.Tree.Node

/-!
# Changed ranges

`mergeRanges` puts ranges in order and joins those that overlap or touch. `Node.changedNodes` lists
the outermost nodes that meet a changed range.
-/

namespace CodeGraph

namespace Span

/-- Ranges are ordered by their start, and then by their end. -/
def precedes (a b : Span) : Bool :=
  a.startByte < b.startByte || (a.startByte == b.startByte && a.endByte ≤ b.endByte)

/-- A range drawn out to the end of another that ends later. -/
def extend (a b : Span) : Span :=
  if a.endByte < b.endByte then { a with endByte := b.endByte, stop := b.stop } else a

/-- Join a range with those that follow it in order, as far as they overlap or touch. -/
def joinFrom (last : Span) : List Span → List Span
  | [] => [last]
  | r :: rs =>
    if r.startByte ≤ last.endByte then joinFrom (last.extend r) rs
    else last :: joinFrom r rs

/-- Join ranges that are in order. -/
def join : List Span → List Span
  | [] => []
  | r :: rs => joinFrom r rs

end Span

/-- The union of some ranges, as ranges in order that do not touch. -/
def mergeRanges (ranges : List Span) : List Span := Span.join (ranges.mergeSort Span.precedes)

namespace Node

/-- Whether a node meets one of some ranges. -/
def meets (ranges : List Span) (n : Node) : Bool :=
  ranges.any (·.overlaps n.span.startByte n.span.endByte)

mutual

/-- The outermost nodes of a tree that meet a range, in pre-order. -/
def outermost (ranges : List Span) : Node → List Node
  | ⟨kind, span, text, children⟩ =>
    if meets ranges ⟨kind, span, text, children⟩ then [⟨kind, span, text, children⟩]
    else outermostAll ranges children

/-- The outermost nodes of a forest that meet a range, in pre-order. -/
def outermostAll (ranges : List Span) : List Node → List Node
  | [] => []
  | n :: ns => outermost ranges n ++ outermostAll ranges ns

end

/-- The outermost nodes that changed. The root spans the whole source, so it is listed only where
it meets a range and no other node does. -/
def changedNodes (root : Node) (ranges : List Span) : List Node :=
  match outermostAll ranges root.children with
  | [] => if meets ranges root then [root] else []
  | changed => changed

end Node

end CodeGraph
