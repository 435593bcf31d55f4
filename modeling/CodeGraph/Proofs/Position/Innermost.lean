import Mathlib.Data.List.Chain
import CodeGraph.Locate
import CodeGraph.Proofs.Position.Order
import CodeGraph.Proofs.Tree.Places

/-!
# The innermost node at a point

A point is looked up by going down from the root, each time into the last child that holds it. Where nodes lie within
their parents and siblings follow one another, this choice never misses: a node that holds the point before its end
lies in no other child, as every later sibling starts behind the point or at it. Main statement: `locate?_innermost`.
-/

namespace CodeGraph

namespace Node

/-- A point lies in a node, the ends of the node included. -/
def Holds (n : Node) (p : Point) : Prop := n.span.start ≤ p ∧ p ≤ n.span.stop

/-- A point lies in a node and in front of its end. -/
def HoldsBefore (n : Node) (p : Point) : Prop := n.span.start ≤ p ∧ p < n.span.stop

instance (n : Node) (p : Point) : Decidable (n.Holds p) := inferInstanceAs (Decidable (_ ∧ _))

instance (n : Node) (p : Point) : Decidable (n.HoldsBefore p) := inferInstanceAs (Decidable (_ ∧ _))

theorem HoldsBefore.holds {n : Node} {p : Point} (h : n.HoldsBefore p) : n.Holds p := ⟨h.1, le_of_lt h.2⟩

/-- The tests on lines and columns are a comparison of points. -/
theorem covers_iff {n : Node} {p : Point} : n.covers p = true ↔ n.Holds p := by
  rw [Holds, Point.le_iff, Point.le_iff, covers]
  simp only [Bool.and_eq_true, Bool.not_eq_true', Bool.and_eq_false_imp, decide_eq_true_eq,
    decide_eq_false_iff_not, beq_iff_eq]
  omega

theorem covers_eq_false_iff {n : Node} {p : Point} : n.covers p = false ↔ ¬n.Holds p := by
  rw [← covers_iff, Bool.not_eq_true]

/-! ### Going down -/

/-- The last child that a test holds of. -/
def lastChild? (P : Node → Bool) (n : Node) : Option Node := n.children.reverse.find? P

variable {P Q : Node → Bool} {n c : Node}

theorem lastChild?_eq_some_iff :
    n.lastChild? P = some c ↔
      ∃ before after, n.children = before ++ c :: after ∧ P c = true ∧ ∀ d ∈ after, P d = false := by
  rw [lastChild?, List.find?_eq_some_iff_append]
  constructor
  · rintro ⟨hc, after, before, hsplit, hafter⟩
    refine ⟨before.reverse, after.reverse, ?_, hc, fun d hd => ?_⟩
    · have hreverse := congrArg List.reverse hsplit
      rw [List.reverse_reverse] at hreverse
      rw [hreverse]
      simp
    · simpa using hafter d (List.mem_reverse.mp hd)
  · rintro ⟨before, after, hsplit, hc, hafter⟩
    refine ⟨hc, after.reverse, before.reverse, ?_, fun d hd => ?_⟩
    · rw [hsplit]
      simp
    · simpa using hafter d (List.mem_reverse.mp hd)

theorem lastChild?_eq_none_iff : n.lastChild? P = none ↔ ∀ d ∈ n.children, P d = false := by
  rw [lastChild?, List.find?_eq_none]
  simp only [List.mem_reverse, Bool.not_eq_true]

theorem mem_children_of_lastChild? (h : n.lastChild? P = some c) : c ∈ n.children :=
  List.mem_reverse.mp (List.mem_of_find?_eq_some h)

theorem lastChild?_congr (h : ∀ d ∈ n.children, P d = Q d) : n.lastChild? P = n.lastChild? Q := by
  rw [lastChild?, lastChild?, ← List.head?_filter, ← List.head?_filter,
    List.filter_congr fun d hd => h d (List.mem_reverse.mp hd)]

end Node

/-- Going down from a place, each time to the last child that a test holds of, until it holds of none. -/
inductive Place.Descends (P : Node → Bool) : Place → Place → Prop where
  | stay {q : Place} (h : q.node.lastChild? P = none) : Descends P q q
  | enter {q r : Place} {c : Node} (h : q.node.lastChild? P = some c) (hrest : Descends P ⟨c, q.path⟩ r) :
    Descends P q r

namespace Place.Descends

variable {P Q : Node → Bool} {root : Node} {q r : Place}

/-- It ends at one place only. -/
theorem unique {s : Place} (hr : Descends P q r) (hs : Descends P q s) : r = s := by
  induction hr with
  | stay h =>
    cases hs with
    | stay _ => rfl
    | enter h' _ => exact absurd (h'.symm.trans h) (by simp)
  | enter h _ ih =>
    cases hs with
    | stay h' => exact absurd (h.symm.trans h') (by simp)
    | enter h' hrest' =>
      obtain rfl := Option.some.inj (h.symm.trans h')
      exact ih hrest'

theorem mem_places (h : Descends P q r) (hq : q ∈ root.places) : r ∈ root.places := by
  induction h with
  | stay _ => exact hq
  | enter h _ ih => exact ih (Node.mem_places_child hq (Node.mem_children_of_lastChild? h))

theorem path_suffix (h : Descends P q r) : q.path <:+ r.path := by
  induction h with
  | stay _ => exact List.suffix_rfl
  | enter _ _ ih => exact (List.suffix_cons _ _).trans ih

theorem test (h : Descends P q r) (hq : P q.node = true) : P r.node = true := by
  induction h with
  | stay _ => exact hq
  | enter h _ ih =>
    obtain ⟨_, _, -, hc, -⟩ := Node.lastChild?_eq_some_iff.mp h
    exact ih hc

theorem lastChild?_eq_none (h : Descends P q r) : r.node.lastChild? P = none := by
  induction h with
  | stay h => exact h
  | enter _ _ ih => exact ih

/-- Each step of the way leads from a node to its last child of which the test holds. -/
theorem lastChild?_of_suffix (h : Descends P q r) {c a : Node} {rest : List Node}
    (hsuffix : (c :: a :: rest) <:+ r.path) : (c :: a :: rest) <:+ q.path ∨ a.lastChild? P = some c := by
  induction h with
  | stay _ => exact Or.inl hsuffix
  | enter h _ ih =>
    rcases ih hsuffix with hpath | hlast
    · rcases List.suffix_cons_iff.mp hpath with heq | hpath
      · obtain ⟨rfl, htail⟩ := List.cons_eq_cons.mp heq
        obtain ⟨rfl, -⟩ := List.cons_eq_cons.mp htail
        exact Or.inr h
      · exact Or.inl hpath
    · exact Or.inr hlast

theorem congr (h : Descends P q r) (hq : q ∈ root.places) (hPQ : ∀ n ∈ root.walk, P n = Q n) :
    Descends Q q r := by
  induction h with
  | @stay q h =>
    have hnode : q.node ∈ root.walk := Node.mem_walk_iff.mpr ⟨q.above, hq⟩
    exact .stay ((Node.lastChild?_congr fun d hd => hPQ d (Node.mem_walk_child hnode hd)) ▸ h)
  | @enter q r c h _ ih =>
    have hnode : q.node ∈ root.walk := Node.mem_walk_iff.mpr ⟨q.above, hq⟩
    have hc := Node.mem_children_of_lastChild? h
    refine .enter ((Node.lastChild?_congr fun d hd => hPQ d (Node.mem_walk_child hnode hd)) ▸ h) ?_
    exact ih (Node.mem_places_child hq hc)

end Place.Descends

namespace Node

variable {p : Point} {root : Node}

theorem innermostAmong?_eq (ns : List Node) :
    innermostAmong? p ns = (ns.reverse.find? (·.covers p)).map (innermost p) := by
  induction ns with
  | nil => rfl
  | cons n ns ih =>
    rw [innermostAmong?, ih, List.reverse_cons, List.find?_append]
    cases ns.reverse.find? (·.covers p) with
    | some c => rfl
    | none =>
      by_cases hcovers : n.covers p = true
      · simp [hcovers]
      · simp [hcovers]

/-- One step of the search. -/
theorem innermost_eq (n : Node) :
    n.innermost p = match n.lastChild? (·.covers p) with
      | some c => c.innermost p
      | none => n := by
  cases n with
  | mk kind span text children =>
    rw [innermost, innermostAmong?_eq, lastChild?]
    cases children.reverse.find? (·.covers p) <;> rfl

mutual

/-- The search goes down to the node that it finds. -/
theorem exists_descends_innermost (p : Point) :
    ∀ (n : Node) (above : List Node),
      ∃ r, Place.Descends (·.covers p) ⟨n, above⟩ r ∧ n.innermost p = r.node
  | ⟨kind, span, text, children⟩, above => by
    have hchildren := exists_descends_innermost_of_mem p children
    rw [innermost_eq]
    cases hlast : lastChild? (·.covers p) ⟨kind, span, text, children⟩ with
    | none => exact ⟨_, .stay hlast, rfl⟩
    | some c =>
      obtain ⟨r, hdescends, hr⟩ :=
        hchildren c (mem_children_of_lastChild? hlast) (⟨kind, span, text, children⟩ :: above)
      exact ⟨r, .enter hlast hdescends, hr⟩

theorem exists_descends_innermost_of_mem (p : Point) :
    ∀ (ns : List Node), ∀ c ∈ ns, ∀ above : List Node,
      ∃ r, Place.Descends (·.covers p) ⟨c, above⟩ r ∧ c.innermost p = r.node
  | [], _, hc, _ => absurd hc List.not_mem_nil
  | n :: ns, c, hc, above => by
    rcases List.mem_cons.mp hc with heq | hc
    · exact heq ▸ exists_descends_innermost p n above
    · exact exists_descends_innermost_of_mem p ns c hc above

end

theorem locate?_eq_none_iff : root.locate? p = none ↔ ¬root.Holds p := by
  rw [locate?, ← covers_eq_false_iff]
  by_cases hcovers : root.covers p = true
  · rw [if_pos hcovers, hcovers]
    simp
  · rw [if_neg hcovers]
    exact iff_of_true rfl (Bool.eq_false_iff.mpr hcovers)

theorem exists_descends_of_holds (h : root.Holds p) :
    ∃ r, Place.Descends (·.covers p) ⟨root, []⟩ r ∧ root.locate? p = some r.node := by
  obtain ⟨r, hdescends, hr⟩ := exists_descends_innermost p root []
  refine ⟨r, hdescends, ?_⟩
  rw [locate?, if_pos (covers_iff.mpr h), hr]

/-! ### Trees in reading order -/

/-- No node stops before it starts, every node lies within its parent, and each child stops where the next one starts
at the latest. -/
structure InReadingOrder (root : Node) : Prop where
  forward : ∀ n ∈ root.walk, n.span.start ≤ n.span.stop
  within : ∀ n ∈ root.walk, ∀ c ∈ n.children, n.span.start ≤ c.span.start ∧ c.span.stop ≤ n.span.stop
  apart : ∀ n ∈ root.walk, n.children.IsChain fun c d => c.span.stop ≤ d.span.start

theorem InReadingOrder.child (h : root.InReadingOrder) {c : Node} (hc : c ∈ root.children) :
    c.InReadingOrder where
  forward n hn := h.forward n (mem_walk_of_mem_children hc hn)
  within n hn := h.within n (mem_walk_of_mem_children hc hn)
  apart n hn := h.apart n (mem_walk_of_mem_children hc hn)

/-- Each child stops where any later one starts at the latest. -/
theorem InReadingOrder.pairwise (h : root.InReadingOrder) :
    root.children.Pairwise fun c d => c.span.stop ≤ d.span.start := by
  let apart (c d : Node) : Prop := c.span.stop ≤ d.span.start ∧ d.span.start ≤ d.span.stop
  have htrans : IsTrans Node apart :=
    ⟨fun _ _ _ hab hbc => ⟨(hab.1.trans hab.2).trans hbc.1, hbc.2⟩⟩
  have hchain : root.children.IsChain apart := by
    refine (h.apart root root.mem_walk_self).imp_of_mem_imp fun c d _ hd hcd => ⟨hcd, ?_⟩
    exact h.forward d (mem_walk_child root.mem_walk_self hd)
  exact (List.isChain_iff_pairwise.mp hchain).imp And.left

mutual

/-- Every node of a tree lies within its root. -/
theorem InReadingOrder.span_within {m : Node} :
    ∀ n : Node, n.InReadingOrder → m ∈ n.walk → n.span.start ≤ m.span.start ∧ m.span.stop ≤ n.span.stop
  | ⟨kind, span, text, children⟩, h, hm => by
    rw [walk] at hm
    rcases List.mem_cons.mp hm with rfl | hm
    · exact ⟨le_refl _, le_refl _⟩
    · obtain ⟨c, hc, hstart, hstop⟩ := InReadingOrder.span_within_of_mem children (fun c hc => h.child hc) hm
      obtain ⟨hstart', hstop'⟩ := h.within _ (mem_walk_self _) c hc
      exact ⟨hstart'.trans hstart, hstop.trans hstop'⟩

theorem InReadingOrder.span_within_of_mem {m : Node} :
    ∀ ns : List Node, (∀ c ∈ ns, c.InReadingOrder) → m ∈ walkAll ns →
      ∃ c ∈ ns, c.span.start ≤ m.span.start ∧ m.span.stop ≤ c.span.stop
  | [], _, hm => absurd hm List.not_mem_nil
  | n :: ns, h, hm => by
    rw [walkAll, List.mem_append] at hm
    rcases hm with hm | hm
    · exact ⟨n, List.mem_cons_self, InReadingOrder.span_within n (h n List.mem_cons_self) hm⟩
    · obtain ⟨c, hc, hwithin⟩ :=
        InReadingOrder.span_within_of_mem ns (fun c hc => h c (List.mem_cons_of_mem _ hc)) hm
      exact ⟨c, List.mem_cons_of_mem _ hc, hwithin⟩

end

theorem InReadingOrder.holdsBefore_of_mem_walk {n m : Node} (h : n.InReadingOrder) (hm : m ∈ n.walk)
    (hp : m.HoldsBefore p) : n.HoldsBefore p := by
  obtain ⟨hstart, hstop⟩ := InReadingOrder.span_within n h hm
  exact ⟨hstart.trans hp.1, lt_of_lt_of_le hp.2 hstop⟩

/-- A child that holds a point before its end is the last child that holds it. -/
theorem InReadingOrder.lastChild?_of_holdsBefore {n d : Node} (h : n.InReadingOrder) (hd : d ∈ n.children)
    (hp : d.HoldsBefore p) : n.lastChild? (·.covers p) = some d := by
  cases hlast : n.lastChild? (·.covers p) with
  | none => exact absurd hp.holds (covers_eq_false_iff.mp (lastChild?_eq_none_iff.mp hlast d hd))
  | some c =>
    obtain ⟨before, after, hsplit, hc, hafter⟩ := lastChild?_eq_some_iff.mp hlast
    have hpairs := h.pairwise
    rw [hsplit] at hd hpairs
    rcases List.mem_append.mp hd with hd | hd
    · -- an earlier child would stop in front of the point
      have hgap : d.span.stop ≤ c.span.start := (List.pairwise_append.mp hpairs).2.2 d hd c List.mem_cons_self
      have hstart : c.span.start ≤ p := (covers_iff.mp hc).1
      exact absurd (hgap.trans hstart) (not_le_of_gt hp.2)
    · rcases List.mem_cons.mp hd with rfl | hd
      · rfl
      · exact absurd hp.holds (covers_eq_false_iff.mp (hafter d hd))

end Node

/-- Going down to a point passes or reaches every place that holds it before its end. -/
theorem Place.Descends.path_suffix_of_holdsBefore {p : Point} {q r m : Place}
    (h : Place.Descends (·.covers p) q r) (horder : q.node.InReadingOrder)
    (hm : m ∈ q.node.placesUnder q.above) (hp : m.node.HoldsBefore p) : m.path <:+ r.path := by
  have hchild : ∀ {q : Place}, q.node.InReadingOrder → m ∈ q.node.placesUnder q.above →
      m = q ∨ ∃ d ∈ q.node.children, m ∈ d.placesUnder q.path ∧ q.node.lastChild? (·.covers p) = some d := by
    intro q horder hm
    rw [Node.placesUnder_eq, List.mem_cons, Node.placesUnderAll_eq_flatMap, List.mem_flatMap] at hm
    rcases hm with rfl | ⟨d, hd, hm⟩
    · exact Or.inl rfl
    · have hpd := (horder.child hd).holdsBefore_of_mem_walk (Node.mem_walk_of_mem_placesUnder hm) hp
      exact Or.inr ⟨d, hd, hm, horder.lastChild?_of_holdsBefore hd hpd⟩
  induction h with
  | stay hnone =>
    rcases hchild horder hm with rfl | ⟨d, -, -, hlast⟩
    · exact List.suffix_rfl
    · rw [hnone] at hlast
      cases hlast
  | enter hc hrest ih =>
    rcases hchild horder hm with rfl | ⟨d, hd, hmd, hlast⟩
    · exact (Place.Descends.enter hc hrest).path_suffix
    · obtain rfl := Option.some.inj (hc.symm.trans hlast)
      exact ih (horder.child hd) hmd

/-- **A look-up by position finds the innermost node.** In a tree in reading order there is none exactly where the
root does not hold the point. Otherwise the node found holds the point and none of its children does, it lies at or
below every place that holds the point before its end, and the way to it leads from each node to its last child that
holds the point. -/
theorem locate?_innermost {root : Node} (horder : root.InReadingOrder) (p : Point) :
    (root.locate? p = none ↔ ¬root.Holds p) ∧
      (root.Holds p → ∃ q ∈ root.places, root.locate? p = some q.node ∧ q.node.Holds p ∧
        (∀ c ∈ q.node.children, ¬c.Holds p) ∧
        (∀ m ∈ root.places, m.node.HoldsBefore p → m.path <:+ q.path) ∧
        ∀ c a rest, (c :: a :: rest) <:+ q.path →
          ∃ before after, a.children = before ++ c :: after ∧ c.Holds p ∧ ∀ d ∈ after, ¬d.Holds p) := by
  refine ⟨Node.locate?_eq_none_iff, fun hroot => ?_⟩
  obtain ⟨q, hdescends, hfound⟩ := Node.exists_descends_of_holds hroot
  refine ⟨q, hdescends.mem_places root.mem_places_self, hfound, ?_, ?_, ?_, ?_⟩
  · exact Node.covers_iff.mp (hdescends.test (Node.covers_iff.mpr hroot))
  · intro c hc
    exact Node.covers_eq_false_iff.mp (Node.lastChild?_eq_none_iff.mp hdescends.lastChild?_eq_none c hc)
  · intro m hm hp
    exact hdescends.path_suffix_of_holdsBefore horder hm hp
  · intro c a rest hsuffix
    rcases hdescends.lastChild?_of_suffix hsuffix with hpath | hlast
    · -- the way to the root has one node only
      have hlength := hpath.length_le
      simp [Place.path] at hlength
    · obtain ⟨before, after, hsplit, hc, hafter⟩ := Node.lastChild?_eq_some_iff.mp hlast
      exact ⟨before, after, hsplit, Node.covers_iff.mp hc, fun d hd =>
        Node.covers_eq_false_iff.mp (hafter d hd)⟩

/-- A statement of two lines, with an empty node where its block begins. -/
def emptyNodeTree : Node :=
  let node (kind : String) (start stop : Point) (children : List Node) : Node :=
    ⟨kind, ⟨0, 0, start, stop⟩, "", children⟩
  node "program" ⟨0, 0⟩ ⟨2, 0⟩
    [node "statement" ⟨0, 0⟩ ⟨1, 3⟩
      [node "identifier" ⟨0, 0⟩ ⟨0, 1⟩ [],
        node "block" ⟨0, 1⟩ ⟨1, 3⟩ [node "missing" ⟨0, 1⟩ ⟨0, 1⟩ [], node "call" ⟨1, 2⟩ ⟨1, 3⟩ []]]]

theorem locate?_innermost_emptyNodeTree :
    emptyNodeTree.InReadingOrder ∧ emptyNodeTree.Holds ⟨0, 1⟩ ∧
      (emptyNodeTree.locate? ⟨0, 1⟩).map Node.kind = some "missing" ∧
      emptyNodeTree.locate? ⟨2, 1⟩ = none ∧
      ∃ q ∈ emptyNodeTree.places, emptyNodeTree.locate? ⟨0, 1⟩ = some q.node ∧
        ∀ m ∈ emptyNodeTree.places, m.node.HoldsBefore ⟨0, 1⟩ → m.path <:+ q.path := by
  have horder : emptyNodeTree.InReadingOrder := ⟨by decide, by decide, by decide⟩
  have hholds : emptyNodeTree.Holds ⟨0, 1⟩ := by decide
  obtain ⟨-, hfound⟩ := locate?_innermost horder ⟨0, 1⟩
  obtain ⟨houtside, -⟩ := locate?_innermost horder ⟨2, 1⟩
  obtain ⟨q, hq, hlocate, -, -, hall, -⟩ := hfound hholds
  exact ⟨horder, hholds, by decide, houtside.mpr (by decide), q, hq, hlocate, hall⟩

end CodeGraph
