import CodeGraph.Proofs.Change.Ranges
import CodeGraph.Proofs.Tree.Places

/-!
# Which changed ranges are reported

In a tree whose children lie within their parents, a range that meets a node meets all nodes above it. So the
outermost changed nodes are the changed children of the root, and the root stands in for them only where there
are none. A range that falls between the children of the root is then reported, by the root, only where no other
range meets a child; beside one that does it is lost.
-/

namespace CodeGraph

namespace Span

/-- Whether a range meets a node. -/
def meets (r : Span) (n : Node) : Bool := r.overlaps n.span.startByte n.span.endByte

/-- A range that meets a part of a stretch of text meets the whole of it. -/
theorem overlaps_mono {r : Span} {start stop start' stop' : Nat} (h : r.overlaps start stop = true)
    (hstart : start' ≤ start) (hstop : stop ≤ stop') : r.overlaps start' stop' = true := by
  unfold overlaps at h ⊢
  by_cases hempty : r.isEmpty = true
  · rw [if_pos hempty] at h ⊢
    simp only [Bool.and_eq_true, decide_eq_true_eq] at h ⊢
    omega
  · rw [if_neg hempty] at h ⊢
    simp only [Bool.not_eq_true', Bool.or_eq_false_iff, decide_eq_false_iff_not] at h ⊢
    omega

end Span

namespace Node

/-- Every node of the tree lies within its parent. -/
def Nested (root : Node) : Prop :=
  ∀ n ∈ root.walk, ∀ c ∈ n.children, n.coversBytes c.span.startByte c.span.endByte = true

instance (root : Node) : Decidable root.Nested :=
  inferInstanceAs (Decidable (∀ n ∈ root.walk, ∀ c ∈ n.children, _))

variable {ranges : List Span}

theorem meets_eq_any (n : Node) : meets ranges n = ranges.any (·.meets n) := rfl

theorem Nested.child {root c : Node} (h : root.Nested) (hc : c ∈ root.children) : c.Nested := by
  intro n hn
  exact h n (mem_walk_of_mem_children hc hn)

theorem Nested.meets_of_child {root c : Node} (h : root.Nested) (hc : c ∈ root.children) {r : Span}
    (hr : r.meets c = true) : r.meets root = true := by
  have hcovers := h root root.mem_walk_self c hc
  simp only [coversBytes, Bool.and_eq_true, decide_eq_true_eq] at hcovers
  exact Span.overlaps_mono hr hcovers.1 hcovers.2

theorem Nested.not_meets_child {root c : Node} (h : root.Nested) (hc : c ∈ root.children)
    (hroot : meets ranges root = false) : meets ranges c = false := by
  rw [meets_eq_any, List.any_eq_false] at hroot ⊢
  intro r hr hmeets
  exact hroot r hr (h.meets_of_child hc hmeets)

mutual

/-- Below a node that no range meets there is nothing to list. -/
theorem outermost_eq_nil :
    ∀ n : Node, n.Nested → meets ranges n = false → outermost ranges n = []
  | ⟨kind, span, text, children⟩, hnested, hmeets => by
    rw [outermost, if_neg (by rw [hmeets]; exact Bool.false_ne_true)]
    refine outermostAll_eq_nil children ?_
    intro c hc
    exact ⟨hnested.child hc, hnested.not_meets_child hc hmeets⟩

theorem outermostAll_eq_nil :
    ∀ ns : List Node, (∀ c ∈ ns, c.Nested ∧ meets ranges c = false) → outermostAll ranges ns = []
  | [], _ => rfl
  | n :: ns, h => by
    obtain ⟨hnested, hmeets⟩ := h n List.mem_cons_self
    rw [outermostAll, outermost_eq_nil n hnested hmeets,
      outermostAll_eq_nil ns fun c hc => h c (List.mem_cons_of_mem _ hc)]
    rfl

end

theorem outermost_of_nested {n : Node} (hnested : n.Nested) :
    outermost ranges n = if meets ranges n then [n] else [] := by
  by_cases hmeets : meets ranges n = true
  · cases n
    rw [outermost, if_pos hmeets, if_pos hmeets]
  · rw [if_neg hmeets]
    exact outermost_eq_nil n hnested (Bool.eq_false_iff.mpr hmeets)

/-- Where nodes lie within their parents, the outermost nodes of a forest that meet a range are its trees that
do. -/
theorem outermostAll_of_nested {ns : List Node} (hnested : ∀ n ∈ ns, n.Nested) :
    outermostAll ranges ns = ns.filter (meets ranges) := by
  induction ns with
  | nil => rfl
  | cons n ns ih =>
    rw [outermostAll, outermost_of_nested (hnested n List.mem_cons_self),
      ih fun c hc => hnested c (List.mem_cons_of_mem _ hc)]
    by_cases hmeets : meets ranges n = true
    · rw [if_pos hmeets, List.filter_cons_of_pos hmeets]
      rfl
    · rw [if_neg hmeets, List.filter_cons_of_neg hmeets]
      rfl

theorem mem_changedNodes_of_nested {root n : Node} (hnested : root.Nested) :
    n ∈ root.changedNodes ranges ↔
      (n ∈ root.children ∧ meets ranges n = true) ∨
        (n = root ∧ meets ranges root = true ∧ ∀ c ∈ root.children, meets ranges c = false) := by
  rw [changedNodes, outermostAll_of_nested fun c hc => hnested.child hc]
  split
  · next hnone =>
    have hnone' : ∀ c ∈ root.children, meets ranges c = false := fun c hc =>
      Bool.eq_false_iff.mpr (List.filter_eq_nil_iff.mp hnone c hc)
    constructor
    · intro hn
      split at hn
      · next hroot => exact Or.inr ⟨List.mem_singleton.mp hn, hroot, hnone'⟩
      · exact absurd hn List.not_mem_nil
    · rintro (⟨hn, hmeets⟩ | ⟨rfl, hroot, -⟩)
      · exact absurd hmeets (Bool.eq_false_iff.mp (hnone' n hn))
      · rw [if_pos hroot]
        exact List.mem_singleton_self n
  · next hsome =>
    rw [List.mem_filter]
    constructor
    · exact Or.inl
    · rintro (hn | ⟨-, -, hnone⟩)
      · exact hn
      · refine absurd ?_ hsome
        exact List.filter_eq_nil_iff.mpr fun c hc => Bool.eq_false_iff.mp (hnone c hc)

/-- Where nodes lie within their parents, a range that meets the root is met by a reported node exactly where it
meets a child of the root, or no range of the list does. -/
theorem exists_changedNode_iff {root : Node} (hnested : root.Nested) {r : Span} (hr : r ∈ ranges)
    (hroot : r.meets root = true) :
    (∃ n ∈ root.changedNodes ranges, r.meets n = true) ↔
      (∃ c ∈ root.children, r.meets c = true) ∨
        ∀ s ∈ ranges, ∀ c ∈ root.children, s.meets c = false := by
  have hmeets : ∀ {n : Node}, r.meets n = true → meets ranges n = true := fun h =>
    List.any_eq_true.mpr ⟨r, hr, h⟩
  constructor
  · rintro ⟨n, hn, hrn⟩
    rcases (mem_changedNodes_of_nested hnested).mp hn with ⟨hchild, -⟩ | ⟨-, -, hnone⟩
    · exact Or.inl ⟨n, hchild, hrn⟩
    · right
      intro s hs c hc
      exact Bool.eq_false_iff.mpr (List.any_eq_false.mp (hnone c hc) s hs)
  · rintro (⟨c, hc, hrc⟩ | hnone)
    · exact ⟨c, (mem_changedNodes_of_nested hnested).mpr (Or.inl ⟨hc, hmeets hrc⟩), hrc⟩
    · refine ⟨root, (mem_changedNodes_of_nested hnested).mpr (Or.inr ⟨rfl, hmeets hroot, ?_⟩), hroot⟩
      intro c hc
      refine List.any_eq_false.mpr fun s hs => ?_
      exact Bool.eq_false_iff.mp (hnone s hs c hc)

end Node

/-- **Which changed ranges are reported.** In a tree whose nodes lie within their parents, a range that meets
the root is met by a reported node exactly where it meets a child of the root, or where no range of the list
meets any: beside a range that does, one that falls between the children is lost. The same holds of every
comparison that finds these ranges in this tree. -/
theorem changedRange_reported_iff {root : Node} {ranges : List Span} (hnested : root.Nested) {r : Span}
    (hr : r ∈ ranges) (hroot : r.meets root = true) :
    ((∃ n ∈ root.changedNodes ranges, r.meets n = true) ↔
      (∃ c ∈ root.children, r.meets c = true) ∨
        ∀ s ∈ ranges, ∀ c ∈ root.children, s.meets c = false) ∧
    ∀ (parser : Parser) (old new : TreeResult) (d : TreeDiff), diffResults parser old new = .ok d →
      d.newTree = root → d.changedRanges = ranges →
      ((∃ n ∈ d.changedNodes, r.meets n = true) ↔
        (∃ c ∈ root.children, r.meets c = true) ∨
          ∀ s ∈ ranges, ∀ c ∈ root.children, s.meets c = false) := by
  have hreported := Node.exists_changedNode_iff hnested hr hroot
  refine ⟨hreported, ?_⟩
  intro parser old new d hd htree hranges
  obtain ⟨_, _, -, -, -, hnodes, hnew⟩ := diffResults_eq_ok hd
  rw [hnodes, ← hnew, htree, hranges]
  exact hreported

/-- The tree of two assignments on lines of their own; the line break between them is in neither. -/
def twoAssignments : Node :=
  let leaf (kind : String) (line column start : Nat) (text : String) : Node :=
    ⟨kind, ⟨start, start + text.length, ⟨line, column⟩, ⟨line, column + text.length⟩⟩, text, []⟩
  let assignment (line start : Nat) (name value : String) : Node :=
    ⟨"expression_statement", ⟨start, start + 5, ⟨line, 0⟩, ⟨line, 5⟩⟩, name ++ " = " ++ value,
      [⟨"assignment", ⟨start, start + 5, ⟨line, 0⟩, ⟨line, 5⟩⟩, name ++ " = " ++ value,
        [leaf "identifier" line 0 start name, leaf "=" line 2 (start + 2) "=",
          leaf "integer" line 4 (start + 4) value]⟩]⟩
  ⟨"module", ⟨0, 12, ⟨0, 0⟩, ⟨2, 0⟩⟩, "a = 1\nb = 2\n", [assignment 0 0 "a" "1", assignment 1 6 "b" "2"]⟩

/-- The line break between the assignments. -/
def lineBreakRange : Span := ⟨5, 6, ⟨0, 5⟩, ⟨1, 0⟩⟩

/-- The literal of the second assignment. -/
def literalRange : Span := ⟨10, 11, ⟨1, 4⟩, ⟨1, 5⟩⟩

theorem changedRange_reported_twoAssignments :
    twoAssignments.Nested ∧ lineBreakRange.meets twoAssignments = true ∧
      (∃ n ∈ twoAssignments.changedNodes [lineBreakRange], lineBreakRange.meets n = true) ∧
      ¬∃ n ∈ twoAssignments.changedNodes [lineBreakRange, literalRange],
        lineBreakRange.meets n = true := by
  have hnested : twoAssignments.Nested := by decide
  have hmeets : lineBreakRange.meets twoAssignments = true := by decide
  have halone : lineBreakRange ∈ [lineBreakRange] := List.mem_cons_self
  have hbeside : lineBreakRange ∈ [lineBreakRange, literalRange] := List.mem_cons_self
  refine ⟨hnested, hmeets, ?_, ?_⟩
  · obtain ⟨hreported, -⟩ := changedRange_reported_iff hnested halone hmeets
    exact hreported.mpr (Or.inr (by decide))
  · obtain ⟨hreported, -⟩ := changedRange_reported_iff hnested hbeside hmeets
    intro h
    rcases hreported.mp h with hchild | hnone
    · exact absurd hchild (by decide)
    · exact absurd hnone (by decide)

/-- Not every changed range is reported, although the ranges are in order and apart and the tree is nested:
neither of some given ranges, nor of those that a comparison finds. The comparison is of `a = 1;b = 2` with the
same on two lines, where the parser reports the second literal. -/
theorem not_every_changedRange_reported :
    (twoAssignments.Nested ∧ Span.Separate [lineBreakRange, literalRange] ∧
      lineBreakRange.meets twoAssignments = true ∧
      ¬∃ n ∈ twoAssignments.changedNodes [lineBreakRange, literalRange],
        lineBreakRange.meets n = true) ∧
    ∃ (parser : Parser) (old new : TreeResult) (d : TreeDiff), diffResults parser old new = .ok d ∧
      d.newTree.Nested ∧ ∃ r ∈ d.changedRanges, r.meets d.newTree = true ∧
        ¬∃ n ∈ d.changedNodes, r.meets n = true := by
  refine ⟨⟨by decide, by decide, by decide, by decide⟩, ?_⟩
  let parser : Parser := ⟨fun _ _ _ => none, fun _ _ => [literalRange]⟩
  let parse (source : String) : Parse := ⟨.python, default, false, source, 0⟩
  let result (source : String) : TreeResult := ⟨.python, twoAssignments, some (parse source), none⟩
  have hranges : changedRanges [literalRange] "a = 1;b = 2\n" "a = 1\nb = 2\n" =
      [lineBreakRange, literalRange] := by
    have hedit : (textEdit "a = 1;b = 2\n" "a = 1\nb = 2\n").map TextEdit.written = some lineBreakRange := by
      decide
    rw [changedRanges_of_written hedit, List.singleton_append, mergeRanges_pair]
    decide
  refine ⟨parser, result "a = 1;b = 2\n", result "a = 1\nb = 2\n", _, rfl, ?_, lineBreakRange, ?_, ?_, ?_⟩
  · show twoAssignments.Nested
    decide
  · show lineBreakRange ∈ changedRanges [literalRange] "a = 1;b = 2\n" "a = 1\nb = 2\n"
    rw [hranges]
    decide
  · decide
  · show ¬∃ n ∈ twoAssignments.changedNodes
      (changedRanges [literalRange] "a = 1;b = 2\n" "a = 1\nb = 2\n"), lineBreakRange.meets n = true
    rw [hranges]
    decide

end CodeGraph
