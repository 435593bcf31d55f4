import CodeGraph.Proofs.Graph.Lookup
import CodeGraph.Proofs.Tree.Places
import Mathlib.Data.List.Nodup

/-!
# A tree and its containment

The `contains` edges of a tree lead from each node to its children. Where every node has a name of its own, those
that leave a node list its children in their order, and so the tree can be grown again, level by level, from the
list of its nodes and these edges alone. Main statement: `extract_lossless`.
-/

namespace CodeGraph

namespace Node

mutual

theorem mem_containment_iff {e : Edge} :
    ∀ n : Node, e ∈ n.containment ↔ ∃ m ∈ n.walk, ∃ c ∈ m.children, e = ⟨m.id, c.id, .contains⟩
  | ⟨kind, span, text, children⟩ => by
    rw [containment, mem_containmentAll_iff, walk, List.exists_mem_cons_iff]
    rfl

theorem mem_containmentAll_iff {e : Edge} {parent : NodeId} :
    ∀ ns : List Node, e ∈ containmentAll parent ns ↔
      (∃ c ∈ ns, e = ⟨parent, c.id, .contains⟩) ∨
        ∃ m ∈ walkAll ns, ∃ c ∈ m.children, e = ⟨m.id, c.id, .contains⟩
  | [] => by simp [containmentAll, walkAll]
  | n :: ns => by
    rw [containmentAll, List.cons_append, List.mem_cons, List.mem_append, mem_containment_iff n,
      mem_containmentAll_iff ns, walkAll, List.exists_mem_cons_iff]
    simp only [List.mem_append, or_and_right, exists_or]
    rw [← or_assoc, or_or_or_comm]

end

theorem kind_of_mem_containment {root : Node} {e : Edge} (he : e ∈ root.containment) :
    e.kind = .contains := by
  obtain ⟨n, -, c, -, rfl⟩ := (mem_containment_iff root).mp he
  rfl

mutual

/-- Every node but the root is contained in one, once. -/
theorem map_target_containment :
    ∀ n : Node, n.containment.map (·.target) = n.walk.tail.map Node.id
  | ⟨kind, span, text, children⟩ => by
    rw [containment, map_target_containmentAll, walk, List.tail_cons]

theorem map_target_containmentAll {parent : NodeId} :
    ∀ ns : List Node, (containmentAll parent ns).map (·.target) = (walkAll ns).map Node.id
  | [] => rfl
  | n :: ns => by
    have hn : n.walk.map Node.id = n.id :: n.containment.map (·.target) := by
      rw [map_target_containment n, walk_eq]
      rfl
    rw [containmentAll, List.cons_append, List.map_cons, List.map_append,
      map_target_containmentAll ns, walkAll, List.map_append, hn, List.cons_append]

end

theorem length_containment (n : Node) : n.containment.length + 1 = n.walk.length := by
  have hlength := congrArg List.length (map_target_containment n)
  rw [List.length_map, List.length_map] at hlength
  rw [hlength, walk_eq, List.tail_cons, List.length_cons]

/-! ### The edges that leave a node -/

theorem filter_source_containment_of_not_mem {id : NodeId} {n : Node}
    (h : id ∉ n.walk.map Node.id) : n.containment.filter (·.source = id) = [] := by
  refine List.filter_eq_nil_iff.mpr fun e he => ?_
  obtain ⟨m, hm, c, -, rfl⟩ := (mem_containment_iff n).mp he
  intro hid
  exact h (List.mem_map.mpr ⟨m, hm, of_decide_eq_true hid⟩)

theorem filter_source_containmentAll_of_not_mem {id parent : NodeId} {ns : List Node}
    (hparent : parent ≠ id) (h : id ∉ (walkAll ns).map Node.id) :
    (containmentAll parent ns).filter (·.source = id) = [] := by
  refine List.filter_eq_nil_iff.mpr fun e he hid => ?_
  rcases (mem_containmentAll_iff ns).mp he with ⟨c, -, rfl⟩ | ⟨m, hm, c, -, rfl⟩
  · exact hparent (of_decide_eq_true hid)
  · exact h (List.mem_map.mpr ⟨m, hm, of_decide_eq_true hid⟩)

theorem filter_source_containmentAll_self {parent : NodeId} :
    ∀ ns : List Node, parent ∉ (walkAll ns).map Node.id →
      (containmentAll parent ns).filter (·.source = parent) =
        ns.map fun c => ⟨parent, c.id, .contains⟩
  | [], _ => rfl
  | n :: ns, h => by
    rw [walkAll, List.map_append, List.mem_append, not_or] at h
    rw [containmentAll, List.cons_append, List.filter_cons_of_pos (by simp), List.filter_append,
      filter_source_containment_of_not_mem h.1, filter_source_containmentAll_self ns h.2,
      List.nil_append, List.map_cons]

mutual

/-- The edges that leave a node lead to its children, in their order. -/
theorem filter_source_containment {n : Node} :
    ∀ root : Node, (root.walk.map Node.id).Nodup → n ∈ root.walk →
      root.containment.filter (·.source = n.id) =
        n.children.map fun c => ⟨n.id, c.id, .contains⟩
  | ⟨kind, span, text, children⟩, hids, hn => by
    rw [walk, List.map_cons, List.nodup_cons] at hids
    rw [containment]
    rw [walk] at hn
    rcases List.mem_cons.mp hn with rfl | hn
    · exact filter_source_containmentAll_self children hids.1
    · refine filter_source_containmentAll children hids.2 (fun hid => hids.1 ?_) hn
      exact List.mem_map.mpr ⟨n, hn, hid.symm⟩

theorem filter_source_containmentAll {n : Node} {parent : NodeId} :
    ∀ ns : List Node, ((walkAll ns).map Node.id).Nodup → parent ≠ n.id → n ∈ walkAll ns →
      (containmentAll parent ns).filter (·.source = n.id) =
        n.children.map fun c => ⟨n.id, c.id, .contains⟩
  | [], _, _, hn => absurd hn List.not_mem_nil
  | m :: ns, hids, hparent, hn => by
    rw [walkAll, List.map_append] at hids
    obtain ⟨hm, hns, hdisjoint⟩ := List.nodup_append.mp hids
    rw [walkAll, List.mem_append] at hn
    rw [containmentAll, List.cons_append, List.filter_cons_of_neg (by simpa using hparent),
      List.filter_append]
    rcases hn with hn | hn
    · have hother : n.id ∉ (walkAll ns).map Node.id := fun h =>
        hdisjoint _ (List.mem_map_of_mem hn) _ h rfl
      rw [filter_source_containmentAll_of_not_mem hparent hother, List.append_nil]
      exact filter_source_containment m hm hn
    · have hother : n.id ∉ m.walk.map Node.id := fun h =>
        hdisjoint _ h _ (List.mem_map_of_mem hn) rfl
      rw [filter_source_containment_of_not_mem hother, List.nil_append]
      exact filter_source_containmentAll ns hns hparent hn

end

/-- A node with a name of its own is found by it. -/
theorem find?_id {root n : Node} (hids : (root.walk.map Node.id).Nodup) (hn : n ∈ root.walk) :
    root.find? n.id = some n :=
  (Keyed.find?_key_eq_some_iff hids).mpr ⟨hn, rfl⟩

/-! ### Levels -/

theorem depth_le_depthAll {c : Node} {ns : List Node} (hc : c ∈ ns) : c.depth ≤ depthAll ns := by
  induction ns with
  | nil => exact absurd hc List.not_mem_nil
  | cons n ns ih =>
    rw [depthAll]
    rcases List.mem_cons.mp hc with rfl | hc
    · exact Nat.le_max_left _ _
    · exact Nat.le_trans (ih hc) (Nat.le_max_right _ _)

theorem eq_nil_of_depthAll_eq_zero {ns : List Node} (h : depthAll ns = 0) : ns = [] := by
  cases ns with
  | nil => rfl
  | cons n ns =>
    have hn := depth_le_depthAll (List.mem_cons_self : n ∈ n :: ns)
    rw [depth_eq] at hn
    omega

mutual

theorem depth_le_length_walk : ∀ n : Node, n.depth ≤ n.walk.length
  | ⟨kind, span, text, children⟩ => by
    rw [depth, walk, List.length_cons]
    exact Nat.succ_le_succ (depthAll_le_length_walkAll children)

theorem depthAll_le_length_walkAll : ∀ ns : List Node, depthAll ns ≤ (walkAll ns).length
  | [] => Nat.le_refl _
  | n :: ns => by
    have hn := depth_le_length_walk n
    have hns := depthAll_le_length_walkAll ns
    rw [depthAll, walkAll, List.length_append]
    omega

end

end Node

/-! ### Growing a tree again -/

section Rebuild

variable (nodes : List GraphNode) (edges : List Edge)

/-- The nodes that a node contains, in the order of the edges to them. -/
def containedIn (id : NodeId) : List GraphNode :=
  (edges.filter (·.source = id)).filterMap fun e => nodes.find? (·.id = e.target)

/-- The tree at a node with so many levels below it. -/
def regrow : Nat → GraphNode → Node
  | 0, n => ⟨n.kind, n.span, n.text, []⟩
  | levels + 1, n =>
    ⟨n.kind, n.span, n.text, (containedIn nodes edges n.id).map (regrow levels)⟩

/-- The tree of some nodes, the root first, and the edges between them. It has no more levels than nodes. -/
def rebuild? : Option Node := nodes.head?.map (regrow nodes edges nodes.length)

end Rebuild

variable {root : Node}

theorem containedIn_extract (hids : (root.walk.map Node.id).Nodup) {n : Node} (hn : n ∈ root.walk) :
    containedIn (extract root).nodes (extract root).edges n.id = n.children.map GraphNode.of := by
  have hedges : (extract root).edges.filter (·.source = n.id) =
      n.children.map fun c => ⟨n.id, c.id, .contains⟩ := Node.filter_source_containment root hids hn
  rw [containedIn, hedges, List.filterMap_map, ← List.filterMap_eq_map]
  refine List.filterMap_congr fun c hc => ?_
  show (extract root).nodes.find? (·.id = c.id) = some (GraphNode.of c)
  rw [find?_nodes_extract, Node.find?_id hids (Node.mem_walk_child hn hc)]
  rfl

theorem regrow_extract (hids : (root.walk.map Node.id).Nodup) (levels : Nat) {n : Node}
    (hn : n ∈ root.walk) (hlevels : n.depth ≤ levels + 1) :
    regrow (extract root).nodes (extract root).edges levels (GraphNode.of n) = n := by
  rw [Node.depth_eq] at hlevels
  induction levels generalizing n with
  | zero =>
    obtain ⟨kind, span, text, children⟩ := n
    have hzero : Node.depthAll children = 0 := Nat.le_zero.mp (Nat.le_of_succ_le_succ hlevels)
    obtain rfl := Node.eq_nil_of_depthAll_eq_zero hzero
    rfl
  | succ levels ih =>
    have hchildren : ∀ c ∈ n.children,
        regrow (extract root).nodes (extract root).edges levels (GraphNode.of c) = c := by
      intro c hc
      have hdepth := Node.depth_le_depthAll hc
      rw [Node.depth_eq] at hdepth
      exact ih (Node.mem_walk_child hn hc) (by omega)
    have hcontained : (containedIn (extract root).nodes (extract root).edges n.id).map
        (regrow (extract root).nodes (extract root).edges levels) = n.children := by
      rw [containedIn_extract hids hn, List.map_map]
      exact (List.map_congr_left hchildren).trans (List.map_id _)
    rw [regrow]
    show Node.mk n.kind n.span n.text ((containedIn _ _ n.id).map _) = n
    rw [hcontained]
    cases n
    rfl

/-- The nodes of a tree and its `contains` edges are enough to grow the tree again. -/
theorem rebuild?_extract (hids : (root.walk.map Node.id).Nodup) :
    rebuild? (extract root).nodes (extract root).edges = some root := by
  have hhead : (extract root).nodes.head? = some (GraphNode.of root) := by
    show (root.walk.map GraphNode.of).head? = _
    rw [Node.walk_eq]
    rfl
  have hlevels : root.depth ≤ (extract root).nodes.length + 1 := by
    show root.depth ≤ (root.walk.map GraphNode.of).length + 1
    rw [List.length_map]
    exact Nat.le_succ_of_le (Node.depth_le_length_walk root)
  rw [rebuild?, hhead, Option.map_some, regrow_extract hids _ root.mem_walk_self hlevels]

/-- **Extraction loses nothing.** A tree whose nodes have names of their own is grown again from its nodes and its
`contains` edges, and no other tree has the same: in shape, order or any field. -/
theorem extract_lossless (hids : (root.walk.map Node.id).Nodup) :
    rebuild? (extract root).nodes (extract root).edges = some root ∧
      ∀ other : Node, (extract other).nodes = (extract root).nodes →
        (extract other).edges = (extract root).edges → other = root := by
  refine ⟨rebuild?_extract hids, fun other hnodes hedges => ?_⟩
  have hnames : other.walk.map Node.id = root.walk.map Node.id := by
    have hmap := congrArg (List.map GraphNode.id) hnodes
    simpa [extract, Function.comp_def, GraphNode.of] using hmap
  have hother := rebuild?_extract (hnames ▸ hids)
  rw [hnodes, hedges, rebuild?_extract hids] at hother
  exact (Option.some.inj hother).symm

open Node (token around)

/-- The Python source `f(1)`, with two nodes of one range. -/
def callOfOne : Node :=
  around "module" 0 4
    [around "expression_statement" 0 4
      [around "call" 0 4
        [token "identifier" 0 "f",
          around "argument_list" 1 4
            [token "(" 1 "(", token "integer" 2 "1", token ")" 3 ")"]]]]

/-- The nodes of `callOfOne`, from the root on. -/
def callNodes : List GraphNode := (extract callOfOne).nodes

/-- The tree at the first of these nodes, grown from the edges between their names. -/
def regrownCall : Node :=
  regrow callNodes
    [⟨⟨"module_0_4"⟩, ⟨"expression_statement_0_4"⟩, .contains⟩,
      ⟨⟨"expression_statement_0_4"⟩, ⟨"call_0_4"⟩, .contains⟩,
      ⟨⟨"call_0_4"⟩, ⟨"identifier_0_1"⟩, .contains⟩,
      ⟨⟨"call_0_4"⟩, ⟨"argument_list_1_4"⟩, .contains⟩,
      ⟨⟨"argument_list_1_4"⟩, ⟨"(_1_2"⟩, .contains⟩,
      ⟨⟨"argument_list_1_4"⟩, ⟨"integer_2_3"⟩, .contains⟩,
      ⟨⟨"argument_list_1_4"⟩, ⟨")_3_4"⟩, .contains⟩] 8 (GraphNode.of callOfOne)

theorem extract_lossless_regrownCall :
    (callOfOne.walk.map Node.id).Nodup ∧ (extract regrownCall).nodes = (extract callOfOne).nodes ∧
      (extract regrownCall).edges = (extract callOfOne).edges ∧ regrownCall = callOfOne := by
  have hids : (callOfOne.walk.map Node.id).Nodup := by decide
  have hnodes : (extract regrownCall).nodes = (extract callOfOne).nodes := by decide
  have hedges : (extract regrownCall).edges = (extract callOfOne).edges := by decide
  exact ⟨hids, hnodes, hedges, (extract_lossless hids).2 regrownCall hnodes hedges⟩

end CodeGraph
