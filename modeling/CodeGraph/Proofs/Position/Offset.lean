import CodeGraph.Proofs.Change.Minimal
import CodeGraph.Proofs.Position.Innermost

/-!
# Looking up an offset by its point

The points of a text come in the order of its offsets. So in a tree whose nodes tell the points of their offsets, to
ask whether a node holds the point of an offset is to ask whether the offset lies in its bytes, and a look-up by
position goes down as one by offset would. Main statement: `locate?_ofOffset`.
-/

namespace CodeGraph

namespace Node

/-- Every node of the tree lies in a text, and tells the points of its offsets there. -/
def PlacedIn (text : ByteArray) (root : Node) : Prop :=
  ∀ n ∈ root.walk, n.span = Span.of text n.span.startByte n.span.endByte ∧
    n.span.startByte ≤ text.size ∧ n.span.endByte ≤ text.size

instance (text : ByteArray) (root : Node) : Decidable (root.PlacedIn text) :=
  inferInstanceAs (Decidable (∀ n ∈ root.walk, _))

variable {text : ByteArray} {root : Node} {offset : Nat}

/-- A node of the tree holds the point of an offset exactly where the offset lies in its bytes. -/
theorem PlacedIn.covers_ofOffset (h : root.PlacedIn text) (hoffset : offset ≤ text.size) :
    ∀ n ∈ root.walk, n.covers (Point.ofOffset text offset) = n.coversBytes offset offset := by
  intro n hn
  obtain ⟨hspan, hstart, hstop⟩ := h n hn
  have hfrom : n.span.start = Point.ofOffset text n.span.startByte := congrArg Span.start hspan
  have hto : n.span.stop = Point.ofOffset text n.span.endByte := congrArg Span.stop hspan
  rw [Bool.eq_iff_iff, covers_iff, Holds, hfrom, hto, Point.ofOffset_le_ofOffset_iff hstart hoffset,
    Point.ofOffset_le_ofOffset_iff hoffset hstop, coversBytes, Bool.and_eq_true, decide_eq_true_eq,
    decide_eq_true_eq]

end Node

/-- **Points and offsets order a text alike.** The point of an offset tells its line and column, and a later offset
has a later point. So in a tree that lies in the text there is no node at the point of an offset exactly where the
offset lies outside of the root, and otherwise the node found is the one reached from the root by going down, each
time, to the last child in whose bytes the offset lies, their ends included. -/
theorem locate?_ofOffset (text : String) :
    (∀ i, (Point.ofOffset text.toUTF8 i).IsPlace text i) ∧
      (∀ i j, i < j → j ≤ text.utf8ByteSize → Point.ofOffset text.toUTF8 i < Point.ofOffset text.toUTF8 j) ∧
      ∀ root : Node, root.PlacedIn text.toUTF8 → ∀ offset, offset ≤ text.utf8ByteSize →
        (root.locate? (Point.ofOffset text.toUTF8 offset) = none ↔
          ¬(root.span.startByte ≤ offset ∧ offset ≤ root.span.endByte)) ∧
        (root.span.startByte ≤ offset → offset ≤ root.span.endByte →
          (∃ q, Place.Descends (·.coversBytes offset offset) ⟨root, []⟩ q) ∧
            ∀ q, Place.Descends (·.coversBytes offset offset) ⟨root, []⟩ q →
              root.locate? (Point.ofOffset text.toUTF8 offset) = some q.node) := by
  refine ⟨Point.isPlace_ofOffset text, fun i j hij hj => Point.ofOffset_lt_ofOffset hij hj, ?_⟩
  intro root hplaced offset hoffset
  have htest := hplaced.covers_ofOffset hoffset
  have hroot : root.Holds (Point.ofOffset text.toUTF8 offset) ↔
      root.span.startByte ≤ offset ∧ offset ≤ root.span.endByte := by
    rw [← Node.covers_iff, htest root root.mem_walk_self, Node.coversBytes, Bool.and_eq_true,
      decide_eq_true_eq, decide_eq_true_eq]
  refine ⟨by rw [Node.locate?_eq_none_iff, hroot], fun hstart hstop => ?_⟩
  have hplace : (⟨root, []⟩ : Place) ∈ root.places := root.mem_places_self
  obtain ⟨r, hdescends, hfound⟩ := Node.exists_descends_of_holds (hroot.mpr ⟨hstart, hstop⟩)
  have hbytes : Place.Descends (·.coversBytes offset offset) ⟨root, []⟩ r := hdescends.congr hplace htest
  refine ⟨⟨r, hbytes⟩, fun q hq => ?_⟩
  rw [hfound, hq.unique hbytes]

/-- The tree of `é` and `if:` on lines of their own with an empty line between them. -/
def spacedLines : Node :=
  let node (kind : String) (start stop : Nat) (children : List Node) : Node :=
    ⟨kind, Span.of "é\n\nif:\n".toUTF8 start stop, "", children⟩
  node "module" 0 8 [node "name" 0 2 [], node "statement" 4 7 [node "if" 4 6 [], node ":" 6 7 []]]

theorem locate?_ofOffset_spacedLines :
    spacedLines.PlacedIn "é\n\nif:\n".toUTF8 ∧
      Point.ofOffset "é\n\nif:\n".toUTF8 3 < Point.ofOffset "é\n\nif:\n".toUTF8 6 ∧
      Point.ofOffset "é\n\nif:\n".toUTF8 6 = ⟨2, 2⟩ ∧
      ∃ q, Place.Descends (·.coversBytes 6 6) ⟨spacedLines, []⟩ q ∧
        spacedLines.locate? ⟨2, 2⟩ = some q.node := by
  have hplaced : spacedLines.PlacedIn "é\n\nif:\n".toUTF8 := by decide
  have hpoint : Point.ofOffset "é\n\nif:\n".toUTF8 6 = ⟨2, 2⟩ := by decide
  obtain ⟨-, horder, hlocate⟩ := locate?_ofOffset "é\n\nif:\n"
  obtain ⟨-, hfound⟩ := hlocate spacedLines hplaced 6 (by decide)
  obtain ⟨⟨q, hq⟩, hall⟩ := hfound (by decide) (by decide)
  have hnode := hall q hq
  rw [hpoint] at hnode
  exact ⟨hplaced, horder 3 6 (by decide) (by decide), hpoint, q, hq, hnode⟩

end CodeGraph
