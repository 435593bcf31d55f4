import CodeGraph.Proofs.Change.Outermost
import Mathlib.Data.List.Infix
import Mathlib.Logic.ExistsUnique

/-!
# The topmost changed places

The search for changed nodes stops at each node that a range meets and goes on below every other one. So it lists a
place exactly where a range meets the node there and meets no node on the way to it, the root left aside. Two such
places never lie one above the other, and from each place below the root that a range meets, one of them is met on
the way up. Main statement: `changedNodes_exact`.
-/

namespace CodeGraph

/-- A place below the root whose node has a property that no node between it and the root has. -/
def Place.Topmost (P : Node → Bool) (p : Place) : Prop :=
  p.above ≠ [] ∧ P p.node = true ∧ ∀ a ∈ p.above.dropLast, P a = false

theorem Place.eq_of_path_eq {p q : Place} (h : p.path = q.path) : p = q := by
  obtain ⟨hnode, habove⟩ := List.cons_eq_cons.mp h
  cases p
  cases q
  exact congrArg₂ Place.mk hnode habove

instance (P : Node → Bool) (p : Place) : Decidable (p.Topmost P) :=
  inferInstanceAs (Decidable (_ ∧ _ ∧ _))

namespace Node

variable {P Q : Node → Bool} {ranges : List Span} {root : Node}

/-- The topmost places of a tree with a property, in pre-order. -/
def topmost (P : Node → Bool) (root : Node) : List Place := root.places.filter (·.Topmost P)

/-- The topmost places with a property and, where there are none, the root if it has the property. -/
def topmostOrRoot (P : Node → Bool) (root : Node) : List Place :=
  if root.topmost P = [] then if P root = true then [⟨root, []⟩] else [] else root.topmost P

theorem topmostOrRoot_of_ne_nil (h : root.topmost P ≠ []) : root.topmostOrRoot P = root.topmost P := if_neg h

theorem eq_root_of_topmost_eq_nil (h : root.topmost P = []) {p : Place} (hp : p ∈ root.topmostOrRoot P) :
    p = ⟨root, []⟩ := by
  rw [topmostOrRoot, if_pos h] at hp
  split at hp
  · exact List.mem_singleton.mp hp
  · exact absurd hp List.not_mem_nil

theorem mem_topmost {p : Place} : p ∈ root.topmost P ↔ p ∈ root.places ∧ p.Topmost P := by
  rw [topmost, List.mem_filter, decide_eq_true_eq]

/-- Which places are topmost goes by the nodes of the tree alone. -/
theorem topmost_congr (h : ∀ n ∈ root.walk, P n = Q n) : root.topmost P = root.topmost Q := by
  refine List.filter_congr fun p hp => decide_eq_decide.mpr ?_
  have hpath : ∀ n ∈ p.path, P n = Q n := fun n hn =>
    h n ((path_reverse_sublist_walk hp).mem (List.mem_reverse.mpr hn))
  have habove : ∀ a ∈ p.above.dropLast, P a = Q a := fun a ha =>
    hpath a (List.mem_cons_of_mem _ (List.mem_of_mem_dropLast ha))
  have hfree : (∀ a ∈ p.above.dropLast, P a = false) ↔ ∀ a ∈ p.above.dropLast, Q a = false :=
    forall₂_congr fun a ha => by rw [habove a ha]
  rw [Place.Topmost, Place.Topmost, hpath p.node List.mem_cons_self, hfree]

theorem topmostOrRoot_congr (h : ∀ n ∈ root.walk, P n = Q n) :
    root.topmostOrRoot P = root.topmostOrRoot Q := by
  rw [topmostOrRoot, topmostOrRoot, topmost_congr h, h root root.mem_walk_self]

/-! ### One tree below others -/

/-- Below a node with the property, the root left aside, no place is topmost. -/
theorem filter_topmost_eq_nil {above : List Node} {a : Node} (ha : a ∈ above.dropLast) (hP : P a = true)
    (ns : List Node) : (placesUnderAll above ns).filter (·.Topmost P) = [] := by
  refine List.filter_eq_nil_iff.mpr fun p hp htopmost => ?_
  obtain ⟨-, -, hfree⟩ := of_decide_eq_true htopmost
  obtain ⟨way, hway⟩ := above_suffix_of_mem_placesUnderAll ns hp
  have hmem : a ∈ p.above.dropLast := by
    have hne : above ≠ [] := List.ne_nil_of_mem (List.mem_of_mem_dropLast ha)
    rw [← hway, List.dropLast_append_of_ne_nil hne]
    exact List.mem_append_right _ ha
  rw [hfree a hmem] at hP
  exact Bool.false_ne_true hP

mutual

/-- Where no node above has been listed, the search below a node lists its topmost places. -/
theorem map_node_filter_topmost {above : List Node} (hne : above ≠ [])
    (hfree : ∀ a ∈ above.dropLast, meets ranges a = false) :
    ∀ n : Node, ((n.placesUnder above).filter (·.Topmost (meets ranges))).map Place.node =
      outermost ranges n
  | ⟨kind, span, text, children⟩ => by
    rw [placesUnder, outermost]
    have hdrop := List.dropLast_cons_of_ne_nil (x := (⟨kind, span, text, children⟩ : Node)) hne
    by_cases hmeets : meets ranges ⟨kind, span, text, children⟩ = true
    · have htopmost : (⟨⟨kind, span, text, children⟩, above⟩ : Place).Topmost (meets ranges) :=
        ⟨hne, hmeets, hfree⟩
      have hbelow : (⟨kind, span, text, children⟩ : Node) ∈
          ((⟨kind, span, text, children⟩ : Node) :: above).dropLast := by
        rw [hdrop]
        exact List.mem_cons_self
      rw [if_pos hmeets, List.filter_cons_of_pos (by simpa using htopmost),
        filter_topmost_eq_nil hbelow hmeets children]
      rfl
    · have hnot : ¬(⟨⟨kind, span, text, children⟩, above⟩ : Place).Topmost (meets ranges) :=
        fun h => hmeets h.2.1
      have hfree' : ∀ a ∈ ((⟨kind, span, text, children⟩ : Node) :: above).dropLast,
          meets ranges a = false := by
        rw [hdrop]
        exact List.forall_mem_cons.mpr ⟨Bool.eq_false_iff.mpr hmeets, hfree⟩
      rw [if_neg hmeets, List.filter_cons_of_neg (by simpa using hnot)]
      exact map_node_filter_topmostAll (List.cons_ne_nil _ _) hfree' children

theorem map_node_filter_topmostAll {above : List Node} (hne : above ≠ [])
    (hfree : ∀ a ∈ above.dropLast, meets ranges a = false) :
    ∀ ns : List Node, ((placesUnderAll above ns).filter (·.Topmost (meets ranges))).map Place.node =
      outermostAll ranges ns
  | [] => rfl
  | n :: ns => by
    rw [placesUnderAll, List.filter_append, List.map_append, map_node_filter_topmost hne hfree n,
      map_node_filter_topmostAll hne hfree ns, outermostAll]

end

/-- The search below the root lists the topmost places that a range meets. -/
theorem map_node_topmost (root : Node) :
    (root.topmost (meets ranges)).map Place.node = outermostAll ranges root.children := by
  have hnot : ¬(⟨root, []⟩ : Place).Topmost (meets ranges) := fun h => h.1 rfl
  rw [topmost, places, placesUnder_eq, List.filter_cons_of_neg (by simpa using hnot)]
  exact map_node_filter_topmostAll (List.cons_ne_nil _ _) (fun a ha => absurd ha List.not_mem_nil) _

theorem changedNodes_eq_topmostOrRoot (root : Node) :
    root.changedNodes ranges = (root.topmostOrRoot (meets ranges)).map Place.node := by
  have hsearch : (root.topmost (meets ranges)).map Place.node = outermostAll ranges root.children :=
    map_node_topmost root
  rw [changedNodes, topmostOrRoot]
  by_cases hnone : root.topmost (meets ranges) = []
  · rw [if_pos hnone]
    rw [hnone] at hsearch
    rw [← hsearch]
    show (if meets ranges root = true then [root] else []) = _
    split <;> rfl
  · rw [if_neg hnone, ← hsearch]
    split
    · next hnil => exact absurd (List.map_eq_nil_iff.mp hnil) hnone
    · rfl

/-! ### One above the other -/

/-- No topmost place lies above another. -/
theorem eq_of_path_suffix {p q : Place} (hp : p ∈ root.topmost P) (hq : q ∈ root.topmost P)
    (h : p.path <:+ q.path) : p = q := by
  obtain ⟨-, hne, hP, -⟩ := mem_topmost.mp hp
  obtain ⟨-, -, -, hfree⟩ := mem_topmost.mp hq
  rcases List.suffix_cons_iff.mp h with heq | ⟨way, hway⟩
  · exact Place.eq_of_path_eq heq
  · -- else the node of the first would stand between the second and the root
    have hmem : p.node ∈ q.above.dropLast := by
      rw [← hway, Place.path, List.dropLast_append_of_ne_nil (List.cons_ne_nil _ _),
        List.dropLast_cons_of_ne_nil hne]
      exact List.mem_append_right _ List.mem_cons_self
    rw [hfree _ hmem] at hP
    exact absurd hP Bool.false_ne_true

/-- On a way up that passes a node with the property before its end, one such node has none above it but the
end. -/
theorem exists_topmost_suffix {path : List Node} (h : ∃ a ∈ path.dropLast, P a = true) :
    ∃ m rest, (m :: rest) <:+ path ∧ (⟨m, rest⟩ : Place).Topmost P := by
  induction path with
  | nil => exact absurd h (by simp)
  | cons n path ih =>
    by_cases hhigher : ∃ a ∈ path.dropLast, P a = true
    · obtain ⟨m, rest, hsuffix, htopmost⟩ := ih hhigher
      exact ⟨m, rest, hsuffix.trans (List.suffix_cons n path), htopmost⟩
    · obtain ⟨a, ha, hPa⟩ := h
      have hne : path ≠ [] := by
        rintro rfl
        exact absurd ha List.not_mem_nil
      have hn : P n = true := by
        rw [List.dropLast_cons_of_ne_nil hne] at ha
        rcases List.mem_cons.mp ha with rfl | ha
        · exact hPa
        · exact absurd ⟨a, ha, hPa⟩ hhigher
      refine ⟨n, path, List.suffix_rfl, hne, hn, fun b hb => Bool.eq_false_iff.mpr fun hPb => ?_⟩
      exact hhigher ⟨b, hb, hPb⟩

/-- From a place below the root with the property, exactly one topmost place is found on the way up. -/
theorem existsUnique_topmost {q : Place} (hq : q ∈ root.places) (hne : q.above ≠ []) (hP : P q.node = true) :
    ∃! p, p ∈ root.topmost P ∧ p.path <:+ q.path := by
  have hbelow : ∃ a ∈ q.path.dropLast, P a = true := by
    refine ⟨q.node, ?_, hP⟩
    rw [Place.path, List.dropLast_cons_of_ne_nil hne]
    exact List.mem_cons_self
  obtain ⟨m, rest, hsuffix, htopmost⟩ := exists_topmost_suffix hbelow
  have hmem : ⟨m, rest⟩ ∈ root.topmost P := mem_topmost.mpr ⟨mem_places_of_suffix hq hsuffix, htopmost⟩
  refine ⟨⟨m, rest⟩, ⟨hmem, hsuffix⟩, ?_⟩
  rintro p ⟨hp, hpath⟩
  rcases List.suffix_or_suffix_of_suffix hpath hsuffix with h | h
  · exact eq_of_path_suffix hp hmem h
  · exact (eq_of_path_suffix hmem hp h).symm

/-! ### A search with a stack of its own -/

/-- The search with a stack of its own: the node on top is listed, or gives way to its children. -/
def sweep (ranges : List Span) : List Node → List Node
  | [] => []
  | n :: stack =>
    if meets ranges n then n :: sweep ranges stack else sweep ranges (n.children ++ stack)
termination_by stack => countAll stack
decreasing_by
  all_goals simp only [countAll, countAll_append, count_eq]
  all_goals omega

theorem outermostAll_append (ms ns : List Node) :
    outermostAll ranges (ms ++ ns) = outermostAll ranges ms ++ outermostAll ranges ns := by
  induction ms with
  | nil => rfl
  | cons m ms ih => rw [List.cons_append, outermostAll, ih, outermostAll, List.append_assoc]

/-- What the search has listed when the stack is empty are the outermost nodes of the forest on it. -/
theorem sweep_eq_outermostAll (stack : List Node) : sweep ranges stack = outermostAll ranges stack := by
  fun_induction sweep ranges stack with
  | case1 => rfl
  | case2 n stack hmeets ih =>
    cases n
    rw [ih, outermostAll, outermost, if_pos hmeets]
    rfl
  | case3 n stack hmeets ih =>
    cases n
    rw [ih, outermostAll_append, outermostAll, outermost, if_neg hmeets]

end Node

/-- **The changed nodes are the topmost changed places.** The nodes reported are, in pre-order, those of the places
below the root that a range meets where it meets no node between them and the root, or the root alone where there
are none and it is met. No reported place lies above another, and from each place below the root that a range meets
exactly one is found on the way up. In a tree whose nodes lie within their parents they are the children of the
root that are met. A search with a stack of its own finds the same. -/
theorem changedNodes_exact (root : Node) (ranges : List Span) :
    root.changedNodes ranges = (root.topmostOrRoot (Node.meets ranges)).map Place.node ∧
      (∀ p ∈ root.topmostOrRoot (Node.meets ranges), ∀ q ∈ root.topmostOrRoot (Node.meets ranges),
        p.path <:+ q.path → p = q) ∧
      (∀ q ∈ root.places, q.above ≠ [] → Node.meets ranges q.node = true →
        ∃! p, p ∈ root.topmostOrRoot (Node.meets ranges) ∧ p.path <:+ q.path) ∧
      (root.Nested →
        (root.topmost (Node.meets ranges)).map Place.node = root.children.filter (Node.meets ranges)) ∧
      (root.topmost (Node.meets ranges)).map Place.node = Node.sweep ranges root.children := by
  refine ⟨Node.changedNodes_eq_topmostOrRoot root, ?_, ?_, fun hnested => ?_, ?_⟩
  · intro p hp q hq hpath
    by_cases hnone : root.topmost (Node.meets ranges) = []
    · rw [Node.eq_root_of_topmost_eq_nil hnone hp, Node.eq_root_of_topmost_eq_nil hnone hq]
    · rw [Node.topmostOrRoot_of_ne_nil hnone] at hp hq
      exact Node.eq_of_path_suffix hp hq hpath
  · intro q hq hne hmeets
    obtain ⟨p, hp, hunique⟩ := Node.existsUnique_topmost hq hne hmeets
    rw [Node.topmostOrRoot_of_ne_nil (List.ne_nil_of_mem hp.1)]
    exact ⟨p, hp, hunique⟩
  · rw [Node.map_node_topmost, Node.outermostAll_of_nested fun c hc => hnested.child hc]
  · rw [Node.map_node_topmost, Node.sweep_eq_outermostAll]

/-- A tree in which a string lies outside of the statement that holds it. -/
def strayString : Node :=
  .around "program" 0 10
    [.around "statement" 0 4 [.around "string" 20 24 [.token "fragment" 21 "ab"]],
      .around "statement" 5 9 [.token "identifier" 5 "x"]]

/-- The place inside of that string. -/
def strayFragment : Place :=
  ⟨.token "fragment" 21 "ab",
    [.around "string" 20 24 [.token "fragment" 21 "ab"],
      .around "statement" 0 4 [.around "string" 20 24 [.token "fragment" 21 "ab"]], strayString]⟩

/-- A change in the string, and a deletion in front of the second statement. -/
def strayRanges : List Span := [⟨21, 22, ⟨0, 21⟩, ⟨0, 22⟩⟩, ⟨5, 5, ⟨0, 5⟩, ⟨0, 5⟩⟩]

theorem changedNodes_exact_strayString :
    (strayString.changedNodes strayRanges).map Node.kind = ["string", "statement"] ∧
      (∃! p, p ∈ strayString.topmostOrRoot (Node.meets strayRanges) ∧ p.path <:+ strayFragment.path) ∧
      twoAssignments.Nested ∧
      (twoAssignments.topmost (Node.meets [literalRange])).map Place.node =
        twoAssignments.children.filter (Node.meets [literalRange]) := by
  obtain ⟨hreported, -, hone, -, -⟩ := changedNodes_exact strayString strayRanges
  obtain ⟨-, -, -, hchildren, -⟩ := changedNodes_exact twoAssignments [literalRange]
  have hnested : twoAssignments.Nested := by decide
  have hplace : strayFragment ∈ strayString.places := List.mem_of_getElem? (i := 3) rfl
  refine ⟨?_, hone strayFragment hplace (by decide) (by decide), hnested, hchildren hnested⟩
  rw [hreported]
  decide

end CodeGraph
