import CodeGraph.Graph.Basic
import CodeGraph.Proofs.KeyOrder

/-!
# The nodes of a graph by name

The index of a graph has the first position of each name, so looking a name up in the graph is looking it up in
the tree.
-/

namespace CodeGraph

/-- An index has the position that comes first with a name. -/
theorem NodeIndex.get?_ofList (entries : List (NodeId × Nat)) (id : NodeId) :
    (NodeIndex.ofList entries).get? id = (entries.find? (·.1 = id)).map (·.2) := by
  have hkey : ∀ p : NodeId × Nat, decide (p.1 = id) = decide (p.1.text = id.text) := by
    rintro ⟨⟨text⟩, position⟩
    rw [decide_eq_decide, ← NodeId.mk.injEq]
  have hbyKey := Keyed.find?_byKey (fun p : NodeId × Nat => p.1.text) id.text entries
  simp only [NodeIndex.get?, NodeIndex.ofList, hkey, hbyKey]

variable {root : Node}

theorem Node.exists_find?_id {n : Node} (hn : n ∈ root.walk) :
    ∃ m, root.find? n.id = some m ∧ m ∈ root.walk ∧ m.id = n.id := Keyed.exists_find?_key Node.id hn

theorem get?_index_extract (id : NodeId) :
    (extract root).index.get? id = (extract root).nodes.findIdx? (·.id = id) := by
  have hindex : (extract root).index = NodeIndex.ofList
      ((extract root).nodes.zipIdx.map fun p => (p.1.id, p.2)) := rfl
  rw [hindex, NodeIndex.get?_ofList, List.find?_map, Option.map_map,
    List.findIdx?_eq_fst_find?_zipIdx]
  rfl

theorem find?_nodes_extract (id : NodeId) :
    (extract root).nodes.find? (·.id = id) = (root.find? id).map GraphNode.of := by
  show (root.walk.map GraphNode.of).find? _ = _
  rw [List.find?_map]
  rfl

/-- The first node of a name in a graph is the record of the first node of the name in the tree. -/
theorem SemanticGraph.node?_build (language : Language) (rules : ScopingRules) (id : NodeId) :
    (SemanticGraph.build root language rules).node? id = (root.find? id).map GraphNode.of := by
  have hnode : (SemanticGraph.build root language rules).node? id =
      ((extract root).index.get? id).bind fun i => (extract root).nodes[i]? := rfl
  rw [hnode, get?_index_extract, ← List.find?_eq_bind_findIdx?_getElem?, find?_nodes_extract]

/-- The names in the index are those of the nodes of the tree. -/
theorem isSome_get?_index_extract {n : Node} (hn : n ∈ root.walk) :
    ((extract root).index.get? n.id).isSome := by
  rw [get?_index_extract, List.findIdx?_isSome, List.any_eq_true]
  exact ⟨GraphNode.of n, List.mem_map_of_mem hn, decide_eq_true rfl⟩

theorem SemanticGraph.exists_node?_build (language : Language) (rules : ScopingRules) {n : Node}
    (hn : n ∈ root.walk) :
    ∃ g, (SemanticGraph.build root language rules).node? n.id = some g ∧ g.id = n.id := by
  obtain ⟨m, hm, -, hid⟩ := Node.exists_find?_id hn
  exact ⟨GraphNode.of m, by rw [node?_build, hm, Option.map_some], hid⟩

end CodeGraph
