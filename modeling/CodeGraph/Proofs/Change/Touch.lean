import CodeGraph.Proofs.Change.Topmost
import CodeGraph.Proofs.Change.Union
import Mathlib.Data.List.Pairwise

/-!
# What merged ranges touch

A range with bytes meets a stretch of text where they share one, and merging keeps the bytes. An empty range, which is
a deletion, has none: it meets what it touches, and it is lost when it is joined to a range with bytes. That matters
only at the edge of a stretch. Where a deletion stands at an end of it and a range with bytes leads away from that end
on the outside, the two are joined into one range that the stretch no longer touches: the deletion is absorbed. Apart
from such deletions merging hides nothing. Main statement: `mergeRanges_touch`.
-/

namespace CodeGraph

namespace Span

variable {ranges : List Span} {start stop : Nat}

/-- An empty range at an end of a stretch of text from which another range, with bytes, leads away. -/
def Absorbed (ranges : List Span) (start stop : Nat) (r : Span) : Prop :=
  r.isEmpty = true ∧ ∃ t ∈ ranges, t.isEmpty = false ∧
    (r.startByte = start ∧ t.endByte = start ∨ r.startByte = stop ∧ t.startByte = stop)

instance (ranges : List Span) (start stop : Nat) (r : Span) : Decidable (r.Absorbed ranges start stop) :=
  inferInstanceAs (Decidable (_ ∧ _))

/-! ### Overlap of ranges with and without bytes -/

theorem isEmpty_iff {r : Span} : r.isEmpty = true ↔ r.startByte = r.endByte := by
  rw [isEmpty, beq_iff_eq]

theorem isEmpty_eq_false_of_hasByte {r : Span} {i : Nat} (h : r.HasByte i) : r.isEmpty = false := by
  refine Bool.eq_false_iff.mpr fun hempty => ?_
  have heq := isEmpty_iff.mp hempty
  unfold HasByte at h
  omega

theorem overlaps_of_isEmpty {r : Span} (h : r.isEmpty = true) :
    r.overlaps start stop = true ↔ start ≤ r.startByte ∧ r.startByte ≤ stop := by
  rw [overlaps, if_pos h, Bool.and_eq_true, decide_eq_true_eq, decide_eq_true_eq]

/-- A range with bytes meets a stretch of text exactly where one of its bytes lies there. -/
theorem overlaps_of_isEmpty_eq_false {r : Span} (hforward : r.Forward) (hbytes : r.isEmpty = false)
    (h : start < stop) : r.overlaps start stop = true ↔ ∃ i, r.HasByte i ∧ start ≤ i ∧ i < stop := by
  have hne : r.startByte ≠ r.endByte := fun heq => by
    rw [isEmpty_iff.mpr heq] at hbytes
    cases hbytes
  have hlt : r.startByte < r.endByte := Nat.lt_of_le_of_ne hforward hne
  rw [overlaps, hbytes, if_neg Bool.false_ne_true]
  simp only [Bool.not_eq_true', Bool.or_eq_false_iff, decide_eq_false_iff_not, HasByte]
  constructor
  · rintro ⟨hstart, hstop⟩
    exact ⟨max start r.startByte, by omega, by omega, by omega⟩
  · rintro ⟨i, hi, hstart, hstop⟩
    omega

/-- Of ranges that do not touch, two that reach each other are one. -/
theorem eq_of_separate {a b : Span} (h : Separate ranges) (ha : a ∈ ranges) (hb : b ∈ ranges)
    (hab : a.startByte ≤ b.endByte) (hba : b.startByte ≤ a.endByte) : a = b := by
  by_contra hne
  let apart (a b : Span) : Prop := a.endByte < b.startByte ∨ b.endByte < a.startByte
  have hsymm : Std.Symm apart := ⟨fun _ _ => Or.symm⟩
  have hapart : ranges.Pairwise apart := h.imp Or.inl
  rcases hapart.forall ha hb hne with hgap | hgap <;> omega

/-- A byte of a merged range is a byte of a given range that lies in it. -/
theorem exists_covered_of_hasByte {s : Span} (hs : s ∈ mergeRanges ranges) {i : Nat} (hi : s.HasByte i) :
    ∃ r ∈ ranges, r.HasByte i ∧ s.Covers r := by
  obtain ⟨r, hr, hri⟩ := (exists_hasByte_mergeRanges ranges i).mp ⟨s, hs, hi⟩
  obtain ⟨t, ht, hcovers⟩ := exists_covers_mergeRanges hr
  have hti := hcovers.hasByte hri
  obtain rfl : s = t := by
    unfold HasByte at hi hti
    exact eq_of_separate (separate_mergeRanges ranges) hs ht (by omega) (by omega)
  exact ⟨r, hr, hri, hcovers⟩

/-! ### Merging hides absorbed deletions alone -/

/-- What a merged range with bytes meets, a given range with bytes meets. -/
theorem exists_unabsorbed_of_hasByte (hforward : ∀ r ∈ ranges, r.Forward) (h : start < stop) {s : Span}
    (hs : s ∈ mergeRanges ranges) {i : Nat} (hi : s.HasByte i) (hstart : start ≤ i) (hstop : i < stop) :
    ∃ r ∈ ranges, r.overlaps start stop = true ∧ ¬r.Absorbed ranges start stop := by
  obtain ⟨r, hr, hri, -⟩ := exists_covered_of_hasByte hs hi
  have hbytes := isEmpty_eq_false_of_hasByte hri
  refine ⟨r, hr, ?_, fun habsorbed => ?_⟩
  · exact (overlaps_of_isEmpty_eq_false (hforward r hr) hbytes h).mpr ⟨i, hri, hstart, hstop⟩
  · rw [habsorbed.1] at hbytes
    cases hbytes

/-- What reaches a merged range that is empty is empty itself. -/
theorem isEmpty_of_reaches {s t : Span} (hs : s ∈ mergeRanges ranges) (hempty : s.isEmpty = true)
    (ht : t ∈ ranges) (hforward : t.Forward) (hleft : t.startByte ≤ s.startByte)
    (hright : s.startByte ≤ t.endByte) : t.isEmpty = true := by
  obtain ⟨m, hm, hcovers⟩ := exists_covers_mergeRanges ht
  have hse := isEmpty_iff.mp hempty
  unfold Covers at hcovers
  unfold Forward at hforward
  obtain rfl : s = m := eq_of_separate (separate_mergeRanges ranges) hs hm (by omega) (by omega)
  exact isEmpty_iff.mpr (by omega)

/-- What a merged range without bytes meets, a given range meets that no range with bytes reaches. -/
theorem exists_unabsorbed_of_isEmpty (hforward : ∀ r ∈ ranges, r.Forward) {s : Span}
    (hs : s ∈ mergeRanges ranges) (hempty : s.isEmpty = true) (hover : s.overlaps start stop = true) :
    ∃ r ∈ ranges, r.overlaps start stop = true ∧ ¬r.Absorbed ranges start stop := by
  rw [overlaps_of_isEmpty hempty] at hover
  obtain ⟨⟨r, hr, hplace, -⟩, -⟩ := ends_of_mem_mergeRanges hs
  have hrforward := hforward r hr
  unfold Forward at hrforward
  have hrempty : r.isEmpty = true :=
    isEmpty_of_reaches hs hempty hr (hforward r hr) (by omega) (by omega)
  refine ⟨r, hr, (overlaps_of_isEmpty hrempty).mpr (by omega), ?_⟩
  rintro ⟨-, t, ht, hbytes, hside⟩
  have htforward := hforward t ht
  unfold Forward at htforward
  have htempty : t.isEmpty = true :=
    isEmpty_of_reaches hs hempty ht (hforward t ht) (by omega) (by omega)
  rw [htempty] at hbytes
  cases hbytes

/-- The merged range around a deletion that is not absorbed still meets what the deletion meets. -/
theorem overlaps_of_covers_unabsorbed {r s : Span} (hs : s ∈ mergeRanges ranges) (hcovers : s.Covers r)
    (hempty : r.isEmpty = true) (hover : r.overlaps start stop = true)
    (hunabsorbed : ¬r.Absorbed ranges start stop) : s.overlaps start stop = true := by
  have hre := isEmpty_iff.mp hempty
  rw [overlaps_of_isEmpty hempty] at hover
  unfold Covers at hcovers
  by_cases hsempty : s.isEmpty = true
  · rw [overlaps_of_isEmpty hsempty]
    have hse := isEmpty_iff.mp hsempty
    omega
  have hsne : s.startByte ≠ s.endByte := fun heq => hsempty (isEmpty_iff.mpr heq)
  by_contra hmissed
  have houtside : stop ≤ s.startByte ∨ s.endByte ≤ start := by
    rw [overlaps, if_neg hsempty] at hmissed
    simp only [Bool.not_eq_true', Bool.or_eq_false_iff, decide_eq_false_iff_not] at hmissed
    omega
  refine hunabsorbed ⟨hempty, ?_⟩
  rcases houtside with hright | hleft
  · -- the merged range begins at the deletion, and with it a range with bytes
    have hfirst : s.HasByte s.startByte := ⟨Nat.le_refl _, by omega⟩
    obtain ⟨t, ht, hbyte, hst⟩ := exists_covered_of_hasByte hs hfirst
    unfold HasByte at hbyte
    unfold Covers at hst
    exact ⟨t, ht, isEmpty_eq_false_of_hasByte hbyte, Or.inr ⟨by omega, by omega⟩⟩
  · -- the merged range ends at the deletion, and with it a range with bytes
    have hlast : s.HasByte (s.endByte - 1) := ⟨by omega, by omega⟩
    obtain ⟨t, ht, hbyte, hst⟩ := exists_covered_of_hasByte hs hlast
    unfold HasByte at hbyte
    unfold Covers at hst
    exact ⟨t, ht, isEmpty_eq_false_of_hasByte hbyte, Or.inl ⟨by omega, by omega⟩⟩

theorem exists_overlaps_mergeRanges_iff (hforward : ∀ r ∈ ranges, r.Forward) (h : start < stop) :
    (∃ s ∈ mergeRanges ranges, s.overlaps start stop = true) ↔
      ∃ r ∈ ranges, r.overlaps start stop = true ∧ ¬r.Absorbed ranges start stop := by
  constructor
  · rintro ⟨s, hs, hover⟩
    by_cases hempty : s.isEmpty = true
    · exact exists_unabsorbed_of_isEmpty hforward hs hempty hover
    · have hsforward := forward_mergeRanges hforward s hs
      obtain ⟨i, hi, hstart, hstop⟩ :=
        (overlaps_of_isEmpty_eq_false hsforward (Bool.eq_false_iff.mpr hempty) h).mp hover
      exact exists_unabsorbed_of_hasByte hforward h hs hi hstart hstop
  · rintro ⟨r, hr, hover, hunabsorbed⟩
    obtain ⟨s, hs, hcovers⟩ := exists_covers_mergeRanges hr
    by_cases hempty : r.isEmpty = true
    · exact ⟨s, hs, overlaps_of_covers_unabsorbed hs hcovers hempty hover hunabsorbed⟩
    · obtain ⟨i, hi, hstart, hstop⟩ :=
        (overlaps_of_isEmpty_eq_false (hforward r hr) (Bool.eq_false_iff.mpr hempty) h).mp hover
      have hsi := hcovers.hasByte hi
      have hsforward := forward_mergeRanges hforward s hs
      exact ⟨s, hs, (overlaps_of_isEmpty_eq_false hsforward (isEmpty_eq_false_of_hasByte hsi) h).mpr
        ⟨i, hsi, hstart, hstop⟩⟩

end Span

/-! ### The changed nodes of a tree -/

namespace Node

variable {ranges : List Span}

/-- Whether a node is met by one of some ranges that is not absorbed at it. -/
def meetsUnabsorbed (ranges : List Span) (n : Node) : Bool :=
  ranges.any fun r => r.meets n && !decide (r.Absorbed ranges n.span.startByte n.span.endByte)

theorem meetsUnabsorbed_iff {n : Node} :
    meetsUnabsorbed ranges n = true ↔
      ∃ r ∈ ranges, r.overlaps n.span.startByte n.span.endByte = true ∧
        ¬r.Absorbed ranges n.span.startByte n.span.endByte := by
  rw [meetsUnabsorbed, List.any_eq_true]
  simp only [Bool.and_eq_true, Bool.not_eq_true', decide_eq_false_iff_not, Span.meets]

theorem meets_mergeRanges (hforward : ∀ r ∈ ranges, r.Forward) {n : Node}
    (hn : n.span.startByte < n.span.endByte) : meets (mergeRanges ranges) n = meetsUnabsorbed ranges n := by
  rw [Bool.eq_iff_iff, meetsUnabsorbed_iff, ← Span.exists_overlaps_mergeRanges_iff hforward hn, meets,
    List.any_eq_true]

theorem meetsUnabsorbed_eq_meets {n : Node}
    (h : ∀ r ∈ ranges, ¬r.Absorbed ranges n.span.startByte n.span.endByte) :
    meetsUnabsorbed ranges n = meets ranges n := by
  rw [Bool.eq_iff_iff, meetsUnabsorbed_iff, meets, List.any_eq_true]
  constructor
  · rintro ⟨r, hr, hover, -⟩
    exact ⟨r, hr, hover⟩
  · rintro ⟨r, hr, hover⟩
    exact ⟨r, hr, hover, h r hr⟩

end Node

/-- **What merging keeps of what ranges touch.** A stretch of text is met by a merged range exactly where it is met by
a given range that is not absorbed at it, so that merging makes no stretch met that was not. The nodes reported for
merged ranges are the topmost ones that a range meets without being absorbed: the same as for the given ranges where
none is. -/
theorem mergeRanges_touch {ranges : List Span} (hforward : ∀ r ∈ ranges, r.Forward) :
    (∀ start stop, start < stop →
      ((∃ s ∈ mergeRanges ranges, s.overlaps start stop = true) ↔
        ∃ r ∈ ranges, r.overlaps start stop = true ∧ ¬r.Absorbed ranges start stop)) ∧
      ∀ root : Node, (∀ n ∈ root.walk, n.span.startByte < n.span.endByte) →
        root.changedNodes (mergeRanges ranges) =
            (root.topmostOrRoot (Node.meetsUnabsorbed ranges)).map Place.node ∧
          ((∀ n ∈ root.walk, ∀ r ∈ ranges, ¬r.Absorbed ranges n.span.startByte n.span.endByte) →
            root.changedNodes (mergeRanges ranges) = root.changedNodes ranges) := by
  refine ⟨fun start stop h => Span.exists_overlaps_mergeRanges_iff hforward h, fun root hbytes => ?_⟩
  have hmerged : root.changedNodes (mergeRanges ranges) =
      (root.topmostOrRoot (Node.meetsUnabsorbed ranges)).map Place.node := by
    rw [Node.changedNodes_eq_topmostOrRoot,
      Node.topmostOrRoot_congr fun n hn => Node.meets_mergeRanges hforward (hbytes n hn)]
  refine ⟨hmerged, fun hunabsorbed => ?_⟩
  rw [hmerged, Node.changedNodes_eq_topmostOrRoot,
    Node.topmostOrRoot_congr fun n hn => Node.meetsUnabsorbed_eq_meets (hunabsorbed n hn)]

/-! ### A deletion that is absorbed -/

/-- Two statements on one line. -/
def twoCalls : String := "const f = (a) => (a) => a; f(a);\n"

/-- What is left of them after ` f(` was taken out. -/
def clippedCalls : String := "const f = (a) => (a) => a;a);\n"

/-- The first of the two statements. -/
def keptDeclaration : Node :=
  .around "lexical_declaration" 0 26
    [.token "const" 0 "const", .token "variable_declarator" 6 "f = (a) => (a) => a", .token ";" 25 ";"]

def twoCallsTree : Node :=
  ⟨"program", ⟨0, 33, ⟨0, 0⟩, ⟨1, 0⟩⟩, twoCalls,
    [keptDeclaration,
      .around "expression_statement" 27 32 [.token "call_expression" 27 "f(a)", .token ";" 31 ";"]]⟩

def clippedCallsTree : Node :=
  ⟨"program", ⟨0, 30, ⟨0, 0⟩, ⟨1, 0⟩⟩, clippedCalls,
    [keptDeclaration,
      .around "expression_statement" 26 29
        [.token "identifier" 26 "a", .token "ERROR" 27 ")", .token ";" 28 ";"]]⟩

/-- The place of the deletion. -/
def clippedRange : Span := ⟨26, 26, ⟨0, 26⟩, ⟨0, 26⟩⟩

/-- What the parser reports beside it. -/
def reparsedRange : Span := ⟨26, 28, ⟨0, 26⟩, ⟨0, 28⟩⟩

theorem mergeRanges_touch_clippedCalls :
    (∀ r ∈ [reparsedRange, clippedRange], r.Forward) ∧
      (¬∃ s ∈ mergeRanges [reparsedRange, clippedRange], s.overlaps 0 26 = true) ∧
      (∀ n ∈ clippedCallsTree.walk, n.span.startByte < n.span.endByte) ∧
      (clippedCallsTree.changedNodes (mergeRanges [reparsedRange, clippedRange])).map Node.kind =
        ["expression_statement"] ∧
      clippedCallsTree.changedNodes (mergeRanges [literalRange, clippedRange]) =
        clippedCallsTree.changedNodes [literalRange, clippedRange] := by
  have hforward : ∀ r ∈ [reparsedRange, clippedRange], r.Forward := by decide
  have hapart : ∀ r ∈ [literalRange, clippedRange], r.Forward := by decide
  have hbytes : ∀ n ∈ clippedCallsTree.walk, n.span.startByte < n.span.endByte := by decide
  obtain ⟨htouch, htree⟩ := mergeRanges_touch hforward
  obtain ⟨-, hkept⟩ := (mergeRanges_touch hapart).2 clippedCallsTree hbytes
  refine ⟨hforward, ?_, hbytes, ?_, hkept (by decide)⟩
  · rw [htouch 0 26 (by decide)]
    decide
  · rw [(htree clippedCallsTree hbytes).1]
    decide

/-- A parser that reports the same ranges between any two parses. -/
def reportingParser (ranges : List Span) : Parser := ⟨fun _ _ _ => none, fun _ _ => ranges⟩

/-- The result of a parse that gave a tree. -/
def TreeResult.ofTree (source : String) (tree : Node) : TreeResult :=
  ⟨.javaScript, tree, some ⟨.javaScript, default, false, source, 0⟩, none⟩

/-- Merging can hide what a deletion touches: a stretch that ends at it, where a range with bytes begins. So the
statement in front of a deletion is not reported when the two texts are compared and the parser reports a range that
begins there. -/
theorem merging_hides_deletion :
    ((∀ r ∈ [reparsedRange, clippedRange], r.Forward) ∧
      (∃ r ∈ [reparsedRange, clippedRange], r.overlaps 0 26 = true) ∧
      ¬∃ s ∈ mergeRanges [reparsedRange, clippedRange], s.overlaps 0 26 = true) ∧
    (textEdit twoCalls clippedCalls).map TextEdit.written = some clippedRange ∧
      ∃ d, diffResults (reportingParser [reparsedRange]) (.ofTree twoCalls twoCallsTree)
          (.ofTree clippedCalls clippedCallsTree) = .ok d ∧
        keptDeclaration ∈ d.newTree.children ∧ clippedRange.meets keptDeclaration = true ∧
        keptDeclaration.kind ∉ d.changedNodes.map Node.kind := by
  have hmerged : mergeRanges [reparsedRange, clippedRange] = [reparsedRange] := by
    rw [mergeRanges_pair]
    decide
  have hedit : (textEdit twoCalls clippedCalls).map TextEdit.written = some clippedRange := by decide
  have hranges : changedRanges [reparsedRange] twoCalls clippedCalls = [reparsedRange] := by
    rw [changedRanges_of_written hedit]
    exact hmerged
  refine ⟨⟨by decide, by decide, by rw [hmerged]; decide⟩, hedit, _, rfl, List.mem_cons_self, by decide, ?_⟩
  show keptDeclaration.kind ∉
    (clippedCallsTree.changedNodes (changedRanges [reparsedRange] twoCalls clippedCalls)).map Node.kind
  rw [hranges]
  decide

end CodeGraph
