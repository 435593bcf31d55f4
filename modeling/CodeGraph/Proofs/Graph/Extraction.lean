import CodeGraph.Proofs.Graph.Containment
import CodeGraph.Proofs.Tree.Worklist

/-!
# What extraction lists

Extraction takes the nodes of a tree in pre-order, an edge to each of them but the root from the node above it, which
comes earlier, and for each name the first position at which it occurs. So a name means the same node in the graph
as in the tree, also where nodes share it. A walk with a stack of its own, on which each node waits with the name of
its parent, collects the same. Main statement: `extract_agrees_tree`.
-/

namespace CodeGraph

/-! ### Parents come first -/

/-- In a list of places below some nodes, the place right above each of them comes earlier, unless they are those
nodes. -/
def ParentsFirst (above : List Node) (ps : List Place) : Prop :=
  ∀ (i : Nat) (p : Place), ps[i]? = some p →
    p.above = above ∨ ∃ j < i, ∃ q : Place, ps[j]? = some q ∧ p.above = q.path

theorem ParentsFirst.append {above : List Node} {ps qs : List Place} (hp : ParentsFirst above ps)
    (hq : ParentsFirst above qs) : ParentsFirst above (ps ++ qs) := by
  intro i p hi
  rcases Nat.lt_or_ge i ps.length with hlt | hge
  · rw [List.getElem?_append_left hlt] at hi
    refine (hp i p hi).imp_right ?_
    rintro ⟨j, hj, q, hjq, habove⟩
    exact ⟨j, hj, q, by rw [List.getElem?_append_left (Nat.lt_trans hj hlt), hjq], habove⟩
  · rw [List.getElem?_append_right hge] at hi
    refine (hq (i - ps.length) p hi).imp_right ?_
    rintro ⟨j, hj, q, hjq, habove⟩
    refine ⟨j + ps.length, by omega, q, ?_, habove⟩
    rw [List.getElem?_append_right (by omega), Nat.add_sub_cancel, hjq]

namespace Node

/-- A child has its parent in front, and whatever lies deeper has its own within the list. -/
theorem exists_parent_cons {above : List Node} {n : Node} {ps : List Place}
    (h : ParentsFirst (n :: above) ps) {i : Nat} {p : Place} (hp : ps[i]? = some p) :
    ∃ j ≤ i, ∃ q, ((⟨n, above⟩ : Place) :: ps)[j]? = some q ∧ p.above = q.path := by
  rcases h i p hp with habove | ⟨j, hj, q, hq, habove⟩
  · exact ⟨0, Nat.zero_le i, ⟨n, above⟩, rfl, habove⟩
  · exact ⟨j + 1, hj, q, hq, habove⟩

mutual

theorem parentsFirst_placesUnder (above : List Node) :
    ∀ n : Node, ParentsFirst above (n.placesUnder above)
  | ⟨kind, span, text, children⟩ => by
    rw [placesUnder]
    intro i p hp
    cases i with
    | zero => exact .inl (Option.some.inj hp ▸ rfl)
    | succ i =>
      obtain ⟨j, hj, hq⟩ := exists_parent_cons (parentsFirst_placesUnderAll _ children) hp
      exact .inr ⟨j, Nat.lt_succ_of_le hj, hq⟩

theorem parentsFirst_placesUnderAll (above : List Node) :
    ∀ ns : List Node, ParentsFirst above (placesUnderAll above ns)
  | [] => by
    intro i p hp
    cases hp
  | n :: ns => by
    rw [placesUnderAll]
    exact (parentsFirst_placesUnder above n).append (parentsFirst_placesUnderAll above ns)

end

theorem places_eq_cons (root : Node) :
    root.places = ⟨root, []⟩ :: placesUnderAll [root] root.children := placesUnder_eq [] root

/-- In pre-order every place but that of the root comes after the place right above it. -/
theorem exists_parent_before {root : Node} {i : Nat} {p : Place} (hp : root.places[i + 1]? = some p) :
    ∃ j ≤ i, ∃ q, root.places[j]? = some q ∧ p.above = q.path := by
  rw [places_eq_cons] at hp ⊢
  exact exists_parent_cons (parentsFirst_placesUnderAll _ _) hp

end Node

/-! ### Edges place by place -/

/-- The edge to a place from the node right above it. -/
def Place.containment? (p : Place) : Option Edge :=
  p.parent?.map fun parent => ⟨parent.id, p.node.id, .contains⟩

namespace Node

mutual

theorem map_some_containment (above : List Node) :
    ∀ n : Node, n.containment.map some =
      (placesUnderAll (n :: above) n.children).map Place.containment?
  | ⟨kind, span, text, children⟩ => by
    rw [containment]
    exact map_some_containmentAll ⟨kind, span, text, children⟩ above children

theorem map_some_containmentAll (n : Node) (above : List Node) :
    ∀ ns : List Node, (containmentAll n.id ns).map some =
      (placesUnderAll (n :: above) ns).map Place.containment?
  | [] => rfl
  | c :: ns => by
    rw [containmentAll, List.cons_append, List.map_cons, List.map_append, map_some_containment (n :: above) c,
      map_some_containmentAll n above ns, placesUnderAll, List.map_append, placesUnder_eq, List.map_cons]
    rfl

end

theorem containment_eq_filterMap (root : Node) :
    root.containment = root.places.filterMap Place.containment? := by
  have hsome := congrArg (List.filterMap fun e => e) (map_some_containment [] root)
  rw [List.filterMap_map, List.filterMap_map] at hsome
  rw [places_eq_cons, List.filterMap_cons_none rfl]
  exact List.filterMap_some.symm.trans hsome

theorem getElem?_containment {root : Node} {i : Nat} {p q : Place} (hp : root.places[i + 1]? = some p)
    (habove : p.above = q.path) :
    root.containment[i]? = some ⟨q.node.id, p.node.id, .contains⟩ := by
  have hedges := congrArg (·[i]?) (map_some_containment [] root)
  rw [places_eq_cons, List.getElem?_cons_succ] at hp
  simp only [List.getElem?_map, hp, Option.map_some, Place.containment?, Place.parent?, habove,
    Place.path, List.head?_cons] at hedges
  obtain ⟨e, he, heq⟩ := Option.map_eq_some_iff.mp hedges
  rw [he, heq]

end Node

/-! ### First positions -/

namespace NodeIndex

variable {a b : NodeIndex}

theorem nodup_names (a : NodeIndex) : (a.entries.map (·.1)).Nodup := by
  refine List.Nodup.of_map NodeId.text ?_
  rw [List.map_map]
  exact Keyed.nodup_keys_of_increasing _ a.increasing

theorem mem_entries_iff {id : NodeId} {i : Nat} : (id, i) ∈ a.entries ↔ a.get? id = some i := by
  rw [get?, Option.map_eq_some_iff]
  simp only [Keyed.find?_key_eq_some_iff a.nodup_names]
  constructor
  · intro hmem
    exact ⟨(id, i), ⟨hmem, rfl⟩, rfl⟩
  · rintro ⟨e, ⟨hmem, rfl⟩, rfl⟩
    exact hmem

/-- An index is known by its answers. -/
theorem ext_get? (h : ∀ id, a.get? id = b.get? id) : a = b := by
  have hmem : ∀ e : NodeId × Nat, e ∈ a.entries ↔ e ∈ b.entries := by
    rintro ⟨id, i⟩
    rw [mem_entries_iff, mem_entries_iff, h]
  have hperm : a.entries.Perm b.entries :=
    (List.perm_ext_iff_of_nodup a.nodup_names.of_map b.nodup_names.of_map).mpr hmem
  have hentries := Keyed.byKey_of_perm _ b.increasing hperm
  rw [Keyed.byKey_of_increasing _ a.increasing] at hentries
  exact ext hentries

end NodeIndex

variable {root : Node}

theorem mem_index_extract_iff {id : NodeId} {i : Nat} :
    (id, i) ∈ (extract root).index.entries ↔
      ((extract root).nodes.map GraphNode.id)[i]? = some id ∧
        ∀ j < i, ((extract root).nodes.map GraphNode.id)[j]? ≠ some id := by
  have hfirst : (extract root).index.get? id =
      ((extract root).nodes.map GraphNode.id).findIdx? (· = id) := by
    rw [get?_index_extract, List.findIdx?_map]
    rfl
  rw [NodeIndex.mem_entries_iff, hfirst, List.findIdx?_eq_some_iff_getElem]
  constructor
  · rintro ⟨hi, hid, hbefore⟩
    refine ⟨List.getElem?_eq_some_iff.mpr ⟨hi, of_decide_eq_true hid⟩, fun j hj hjid => ?_⟩
    obtain ⟨hlt, hjid⟩ := List.getElem?_eq_some_iff.mp hjid
    exact hbefore j hj (decide_eq_true hjid)
  · rintro ⟨hid, hbefore⟩
    obtain ⟨hi, hid⟩ := List.getElem?_eq_some_iff.mp hid
    refine ⟨hi, decide_eq_true hid, fun j hj hjid => hbefore j hj ?_⟩
    exact List.getElem?_eq_some_iff.mpr ⟨Nat.lt_trans hj hi, of_decide_eq_true hjid⟩

/-- The names in the index are those of the nodes. -/
theorem mem_names_index_extract_iff {id : NodeId} :
    id ∈ (extract root).index.entries.map (·.1) ↔ id ∈ (extract root).nodes.map GraphNode.id := by
  constructor
  · intro hmem
    obtain ⟨e, he, rfl⟩ := List.mem_map.mp hmem
    exact List.mem_of_getElem? (mem_index_extract_iff.mp he).1
  · intro hmem
    obtain ⟨g, hg, rfl⟩ := List.mem_map.mp hmem
    obtain ⟨n, hn, rfl⟩ := List.mem_map.mp hg
    obtain ⟨i, hi⟩ := Option.isSome_iff_exists.mp (isSome_get?_index_extract hn)
    exact List.mem_map.mpr ⟨(n.id, i), NodeIndex.mem_entries_iff.mpr hi, rfl⟩

/-! ### A walk that collects -/

/-- What a walk has collected: nodes, edges, and the first position of each name. -/
structure Harvest where
  nodes : List GraphNode
  edges : List Edge
  index : Writes NodeId Nat

namespace Harvest

/-- The harvest with one more node, which was handed the name of its parent. A name that is known keeps its
position. -/
def visit (h : Harvest) (t : Task (Option NodeId)) : Harvest where
  nodes := h.nodes ++ [GraphNode.of t.node]
  edges := h.edges ++ (t.given.map fun parent => ⟨parent, t.node.id, .contains⟩).toList
  index := if h.index.contains t.node.id then h.index else h.index.put t.node.id h.nodes.length

/-- The extraction of a tree with so much collected. -/
def extraction (h : Harvest) (root : NodeId) : Extraction :=
  ⟨h.nodes, h.edges, root, NodeIndex.ofList h.index.entries⟩

/-- A node hands its name down. -/
def handName (_ : Option NodeId) (n : Node) : Option NodeId := some n.id

variable (h : Harvest) (ts : List (Task (Option NodeId)))

theorem nodes_foldl : (ts.foldl visit h).nodes = h.nodes ++ ts.map fun t => GraphNode.of t.node := by
  induction ts generalizing h with
  | nil => rw [List.foldl_nil, List.map_nil, List.append_nil]
  | cons t ts ih => rw [List.foldl_cons, ih, visit, List.append_assoc, List.map_cons, List.singleton_append]

theorem edges_foldl : (ts.foldl visit h).edges =
    h.edges ++ ts.filterMap fun t => t.given.map fun parent => ⟨parent, t.node.id, .contains⟩ := by
  induction ts generalizing h with
  | nil => rw [List.foldl_nil, List.filterMap_nil, List.append_nil]
  | cons t ts ih =>
    rw [List.foldl_cons, ih, visit, List.append_assoc, List.filterMap_cons]
    cases t.given <;> rfl

theorem get?_index_visit (t : Task (Option NodeId)) (id : NodeId) :
    (h.visit t).index.get? id =
      (h.index.get? id).or (if t.node.id = id then some h.nodes.length else none) := by
  have hindex : (h.visit t).index =
      if (h.index.get? t.node.id).isSome then h.index else h.index.put t.node.id h.nodes.length := rfl
  rw [hindex]
  by_cases hid : t.node.id = id
  · rw [if_pos hid, hid]
    cases hget : h.index.get? id with
    | none => rw [Option.isSome_none, if_neg Bool.false_ne_true, Writes.get?_put_self, Option.none_or]
    | some i => rw [Option.isSome_some, if_pos rfl, hget, Option.some_or]
  · rw [if_neg hid, Option.or_none]
    split
    · rfl
    · exact Writes.get?_put_of_ne _ _ hid

/-- A name has the position that it had, or else the first one at which it is collected. -/
theorem get?_index_foldl (id : NodeId) : (ts.foldl visit h).index.get? id =
    (h.index.get? id).or ((ts.findIdx? (·.node.id = id)).map (h.nodes.length + ·)) := by
  induction ts generalizing h with
  | nil => rw [List.foldl_nil, List.findIdx?_nil, Option.map_none, Option.or_none]
  | cons t ts ih =>
    have hlength : (h.visit t).nodes.length = h.nodes.length + 1 := List.length_append
    rw [List.foldl_cons, ih, get?_index_visit, Option.or_assoc, List.findIdx?_cons, hlength]
    by_cases hid : t.node.id = id
    · rw [if_pos hid, Option.some_or, if_pos (decide_eq_true hid)]
      rfl
    · rw [if_neg hid, Option.none_or, if_neg (by simpa using hid), Option.map_map]
      congr 2
      funext i
      exact Nat.add_right_comm _ _ _

theorem get?_index_foldl_start (id : NodeId) : (ts.foldl visit ⟨[], [], ∅⟩).index.get? id =
    (ts.map fun t => GraphNode.of t.node).findIdx? (·.id = id) := by
  have hempty : (∅ : Writes NodeId Nat).get? id = none := rfl
  rw [get?_index_foldl, hempty, Option.none_or, List.length_nil, List.findIdx?_map]
  simp only [Nat.zero_add, Option.map_id']
  rfl

end Harvest

/-- Extraction by a walk with a stack of its own. -/
def extractByWalk (root : Node) : Extraction :=
  (Task.walk Harvest.visit Harvest.handName ⟨[], [], ∅⟩ [⟨root, none⟩]).extraction root.id

theorem given_handName (p : Place) : p.given Harvest.handName none = p.parent?.map Node.id := by
  obtain ⟨node, above⟩ := p
  cases above <;> rfl

theorem NodeIndex.get?_ofList_writes (index : Writes NodeId Nat) (id : NodeId) :
    (NodeIndex.ofList index.entries).get? id = index.get? id := by
  rw [get?_ofList, Writes.get?]
  induction index.entries with
  | nil => rfl
  | cons e es ih =>
    obtain ⟨key, position⟩ := e
    by_cases hkey : key = id
    · rw [List.find?_cons_of_pos (by simpa using hkey), Writes.newest?, if_pos hkey, Option.map_some]
    · rw [List.find?_cons_of_neg (by simpa using hkey), Writes.newest?, if_neg hkey, ih]

theorem extractByWalk_eq (root : Node) : extractByWalk root = extract root := by
  let ts := root.places.map (Place.task Harvest.handName none)
  have hwalk : Task.walk Harvest.visit Harvest.handName ⟨[], [], ∅⟩ [⟨root, none⟩] =
      ts.foldl Harvest.visit ⟨[], [], ∅⟩ := Task.walk_root _ _ _ _ root
  have hnodes : ts.map (fun t => GraphNode.of t.node) = (extract root).nodes := by
    show _ = root.walk.map GraphNode.of
    rw [← Node.map_node_places, List.map_map, List.map_map]
    rfl
  have hedges : (ts.filterMap fun t => t.given.map fun parent => (⟨parent, t.node.id, .contains⟩ : Edge)) =
      (extract root).edges := by
    show _ = root.containment
    rw [Node.containment_eq_filterMap, List.filterMap_map]
    refine List.filterMap_congr fun p _ => ?_
    show (p.given Harvest.handName none).map _ = _
    rw [given_handName, Option.map_map]
    rfl
  have hindex : NodeIndex.ofList (ts.foldl Harvest.visit ⟨[], [], ∅⟩).index.entries =
      (extract root).index := by
    refine NodeIndex.ext_get? fun id => ?_
    rw [NodeIndex.get?_ofList_writes, Harvest.get?_index_foldl_start, get?_index_extract, hnodes]
  rw [extractByWalk, hwalk, Harvest.extraction, Harvest.nodes_foldl, Harvest.edges_foldl, hnodes, hedges,
    hindex, List.nil_append, List.nil_append]
  rfl

/-- The nodes of a tree in pre-order, listed by a walk with a stack of its own. -/
def Node.walkByStack (root : Node) : List Node :=
  Task.walk (fun ns t => ns ++ [t.node]) (fun _ _ => ()) [] [⟨root, ()⟩]

theorem Node.walkByStack_eq (root : Node) : root.walkByStack = root.walk := by
  have hfold : ∀ (ts : List (Task Unit)) (ns : List Node),
      ts.foldl (fun ns t => ns ++ [t.node]) ns = ns ++ ts.map Task.node := by
    intro ts
    induction ts with
    | nil => simp
    | cons t ts ih => simp [ih]
  rw [walkByStack, Task.walk_root, hfold, List.nil_append, List.map_map, ← map_node_places]
  rfl

/-! ### The whole extraction -/

/-- An extraction lists a tree: its nodes and the edges between them in pre-order, and where each name is first. -/
structure Extraction.ListsTree (e : Extraction) (root : Node) : Prop where
  nodes : e.nodes = root.walk.map GraphNode.of
  length_nodes : e.nodes.length = root.count
  length_edges : e.edges.length + 1 = e.nodes.length
  /-- The edge number `i` leads to the node number `i + 1` from the node right above it, which is listed before. -/
  edge : ∀ (i : Nat) (p : Place), root.places[i + 1]? = some p →
    e.nodes[i + 1]? = some (GraphNode.of p.node) ∧ ∃ j ≤ i, ∃ q, root.places[j]? = some q ∧
      p.above = q.path ∧ e.nodes[j]? = some (GraphNode.of q.node) ∧
      e.edges[i]? = some ⟨q.node.id, p.node.id, .contains⟩
  names : ∀ id, id ∈ e.index.entries.map (·.1) ↔ id ∈ e.nodes.map GraphNode.id
  first : ∀ id i, (id, i) ∈ e.index.entries ↔
    (e.nodes.map GraphNode.id)[i]? = some id ∧ ∀ j < i, (e.nodes.map GraphNode.id)[j]? ≠ some id

theorem getElem?_nodes_extract {i : Nat} {p : Place} (hp : root.places[i]? = some p) :
    (extract root).nodes[i]? = some (GraphNode.of p.node) := by
  show (root.walk.map GraphNode.of)[i]? = _
  rw [← Node.map_node_places, List.getElem?_map, List.getElem?_map, hp]
  rfl

theorem listsTree_extract (root : Node) : (extract root).ListsTree root where
  nodes := rfl
  length_nodes := by
    show (root.walk.map GraphNode.of).length = _
    rw [List.length_map, Node.length_walk]
  length_edges := by
    show root.containment.length + 1 = (root.walk.map GraphNode.of).length
    rw [List.length_map, Node.length_containment]
  edge i p hp := by
    obtain ⟨j, hj, q, hq, habove⟩ := Node.exists_parent_before hp
    exact ⟨getElem?_nodes_extract hp, j, hj, q, hq, habove, getElem?_nodes_extract hq,
      Node.getElem?_containment hp habove⟩
  names _ := mem_names_index_extract_iff
  first _ _ := mem_index_extract_iff

/-- **Extraction lists the tree, and a name means in the graph what it means in the tree.** This holds of every tree,
also where nodes share a name: the graph and the tree then both know the first node of the name. Walks with a stack
of their own list the same nodes and extract the same. -/
theorem extract_agrees_tree (root : Node) :
    (extract root).ListsTree root ∧
      (∀ (language : Language) (rules : ScopingRules) (id : NodeId),
        (SemanticGraph.build root language rules).node? id = (root.find? id).map GraphNode.of ∧
          ((SemanticGraph.build root language rules).node? id = none ↔ root.find? id = none)) ∧
      root.walkByStack = root.walk ∧ extractByWalk root = extract root := by
  refine ⟨listsTree_extract root, fun language rules id => ?_, root.walkByStack_eq, extractByWalk_eq root⟩
  have hnode : (SemanticGraph.build root language rules).node? id = (root.find? id).map GraphNode.of :=
    SemanticGraph.node?_build language rules id
  exact ⟨hnode, by rw [hnode, Option.map_eq_none_iff]⟩

/-- The first of two nodes of one name, one right inside the other, is the one that is known. -/
example : (⟨"expr_0_3"⟩, 1) ∈
    (extract (.around "module" 0 3 [.around "expr" 0 3 [.around "expr" 0 3 []]])).index.entries :=
  ((listsTree_extract _).first _ _).mpr ⟨rfl, by decide⟩

end CodeGraph
