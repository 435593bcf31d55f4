import CodeGraph.Proofs.Graph.Edges
import CodeGraph.Proofs.Scope.RecastRules

/-!
# Graphs of recast trees

The graph of a recast tree is the graph of the tree, recast. So the edges do not depend on how names are spelled, as
long as different ones stay different; and text put before a source moves its graph as a whole, with no other change
than that of the names of nodes. Main statements: `edges_rename`, `build_shift`.
-/

namespace CodeGraph

namespace Recast

variable (ρ : Recast)

/-- What becomes of a node of a graph. -/
def graphNode (n : GraphNode) : GraphNode := ⟨ρ.id n.id, n.kind, ρ.text n.text, ρ.span n.span⟩

theorem of_node (n : Node) : GraphNode.of (ρ.node n) = ρ.graphNode (GraphNode.of n) := by
  rw [GraphNode.of, id_node, kind_node, text_node, span_node]
  rfl

theorem nodes_extract_node (root : Node) :
    (extract (ρ.node root)).nodes = (extract root).nodes.map ρ.graphNode := by
  show (ρ.node root).walk.map GraphNode.of = (root.walk.map GraphNode.of).map ρ.graphNode
  rw [walk_node, List.map_map, List.map_map]
  exact List.map_congr_left fun n _ => ρ.of_node n

/-- A name is found where it was. -/
theorem get?_index_node (root : Node) (id : NodeId) :
    (extract (ρ.node root)).index.get? (ρ.id id) = (extract root).index.get? id := by
  have hname : ((fun n : GraphNode => decide (n.id = ρ.id id)) ∘ ρ.graphNode) =
      fun n => decide (n.id = id) := by
    funext n
    exact decide_eq_decide.mpr ρ.id_injective.eq_iff
  rw [get?_index_extract, get?_index_extract, nodes_extract_node, List.findIdx?_map, hname]

mutual

theorem containment_node : ∀ n : Node, (ρ.node n).containment = n.containment.map ρ.edge
  | ⟨kind, s, t, children⟩ => by
    rw [ρ.node_mk, Node.containment, ρ.id_of, containmentAll_map_node _ children, Node.containment]

theorem containmentAll_map_node (parent : NodeId) : ∀ ns : List Node,
    Node.containmentAll (ρ.id parent) (ns.map ρ.node) = (Node.containmentAll parent ns).map ρ.edge
  | [] => rfl
  | n :: ns => by
    rw [List.map_cons, Node.containmentAll, id_node, containment_node n,
      containmentAll_map_node parent ns, Node.containmentAll, List.map_append, List.map_cons]
    rfl

end

variable {ρ} {rules : ScopingRules}

/-- The edges of the graph of a recast tree are those of the graph of the tree, recast. -/
theorem edges_build_node (h : ρ.Fits rules) (root : Node) (language : Language) :
    (SemanticGraph.build (ρ.node root) language rules).edges =
      (SemanticGraph.build root language rules).edges.map ρ.edge := by
  show (ρ.node root).containment ++ (rules.resolve (ρ.node root)).edges =
    (root.containment ++ (rules.resolve root).edges).map ρ.edge
  rw [containment_node, resolve_node h, List.map_append]

theorem map_edge_ofTexts {f : String → String} (hf : Function.Injective f) (edges : List Edge) :
    edges.map (ofTexts hf).edge = edges := List.map_id edges

end Recast

/-! ### Other names -/

namespace ScopingRules

variable {rules : ScopingRules}

/-- **Names matter only in that they are the same or not.** Whatever injective function replaces the texts of a
tree, the edges are the same in the same order, those of resolution as those of the graph. -/
theorem edges_rename (hrules : rules = Python.rules ∨ rules = EcmaScript.rules)
    {f : String → String} (hf : Function.Injective f) (root : Node) (language : Language) :
    (rules.resolve (root.rename f)).edges = (rules.resolve root).edges ∧
      (SemanticGraph.build (root.rename f) language rules).edges =
        (SemanticGraph.build root language rules).edges := by
  have hfits : (Recast.ofTexts hf).Fits rules := by
    rcases hrules with rfl | rfl
    · exact Python.fits _
    · exact EcmaScript.fits _
  rw [← Recast.node_ofTexts hf]
  constructor
  · rw [Recast.resolve_node hfits, Recast.map_edge_ofTexts]
  · rw [Recast.edges_build_node hfits, Recast.map_edge_ofTexts]

/-- A prefix on every text of `edgesOfAllKinds` makes other names and leaves its edges of all kinds. -/
theorem edges_rename_prefixed :
    Function.Injective ("my_" ++ ·) ∧
      (edgesOfAllKinds.rename ("my_" ++ ·)).walk.map Node.text ≠ edgesOfAllKinds.walk.map Node.text ∧
      (Python.rules.resolve (edgesOfAllKinds.rename ("my_" ++ ·))).edges = edgesBeyondContainment ∧
      (SemanticGraph.build (edgesOfAllKinds.rename ("my_" ++ ·)) .python Python.rules).edges =
        edgesOfAllKinds.containment ++ edgesBeyondContainment := by
  have hprefixed : Function.Injective ("my_" ++ ·) := fun s t h => by
    have hlist := congrArg String.toList h
    rw [String.toList_append, String.toList_append, List.append_cancel_left_eq] at hlist
    exact String.toList_inj.mp hlist
  obtain ⟨hresolve, hbuild⟩ := edges_rename (.inl rfl) hprefixed edgesOfAllKinds .python
  exact ⟨hprefixed, by decide, hresolve.trans (by decide), hbuild.trans (by decide)⟩

end ScopingRules

/-! ### Other places -/

/-- A node of a graph some bytes further on, under the name it has there. -/
def GraphNode.shift (k : Nat) (n : GraphNode) : GraphNode :=
  ⟨NodeId.of n.kind (n.span.shift k).startByte (n.span.shift k).endByte, n.kind, n.text,
    n.span.shift k⟩

/-- Names of nodes of a tree before and after it is moved. -/
def NodeId.MovedTo (root : Node) (k : Nat) (id moved : NodeId) : Prop :=
  ∃ n ∈ root.walk, id = n.id ∧ moved = (n.shift k).id

/-- Edges of a tree before and after it is moved: of one kind, and between the same nodes. -/
structure Edge.MovedTo (root : Node) (k : Nat) (e moved : Edge) : Prop where
  kind_eq : moved.kind = e.kind
  source : NodeId.MovedTo root k e.source moved.source
  target : NodeId.MovedTo root k e.target moved.target

/-- What is meant by the graph of a moved tree being the image of the graph of the tree. Names may be shared; then
they are shared by the same nodes. -/
structure SemanticGraph.MovedTo (root : Node) (k : Nat) (graph moved : SemanticGraph) : Prop where
  language_eq : moved.language = graph.language
  nodes_eq : moved.nodes = graph.nodes.map (GraphNode.shift k)
  edges : List.Forall₂ (Edge.MovedTo root k) graph.edges moved.edges
  rootId : NodeId.MovedTo root k graph.root moved.root
  index_eq : ∀ n ∈ root.walk, moved.index.get? (n.shift k).id = graph.index.get? n.id
  shared : ∀ m ∈ root.walk, ∀ n ∈ root.walk, (m.shift k).id = (n.shift k).id ↔ m.id = n.id

namespace Recast

/-- An edge between nodes becomes the edge between them where they are moved to. -/
theorem edge_ofShift (k : Nat) (m n : Node) (kind : EdgeKind) :
    (ofShift k).edge ⟨m.id, n.id, kind⟩ = ⟨(m.shift k).id, (n.shift k).id, kind⟩ := by
  rw [edge, id_ofShift, id_shift, id_shift]

theorem graphNode_shift (k : Nat) (n : Node) :
    (ofShift k).graphNode (GraphNode.of n) = (GraphNode.of n).shift k := by
  rw [← of_node, GraphNode.of, id_node, kind_node, text_node, span_node, Node.id, ← id_of]
  rfl

theorem nodes_extract_shift (k : Nat) (root : Node) :
    (extract (root.shift k)).nodes = (extract root).nodes.map (GraphNode.shift k) := by
  rw [← node_ofShift, nodes_extract_node]
  show (root.walk.map GraphNode.of).map _ = (root.walk.map GraphNode.of).map _
  rw [List.map_map, List.map_map]
  exact List.map_congr_left fun n _ => graphNode_shift k n

end Recast

namespace ScopingRules

variable {rules : ScopingRules} {root : Node}

theorem grounded_of_mem_build (hrules : rules ∈ builtIn) {language : Language} {e : Edge}
    (he : e ∈ (SemanticGraph.build root language rules).edges) : rules.Grounded root e := by
  rcases List.mem_append.mp he with he | he
  · exact grounded_of_mem_containment he
  · exact grounded_of_mem_resolve hrules he

theorem Grounded.movedTo {e : Edge} (h : rules.Grounded root e) (k : Nat) :
    e.MovedTo root k ((Recast.ofShift k).edge e) := by
  obtain ⟨source, target, kind⟩ := e
  obtain ⟨⟨s, hs, rfl⟩, t, ht, rfl⟩ := h.endpoints
  rw [Recast.edge_ofShift]
  exact ⟨rfl, ⟨s, hs, rfl, rfl⟩, t, ht, rfl, rfl⟩

/-- **Text before a source moves its graph as a whole.** Whatever the tree, also where nodes share names: every node
and every edge has its image at its position, and no names fall together or apart. -/
theorem build_shift (hrules : rules ∈ builtIn) (root : Node) (language : Language) (k : Nat) :
    (SemanticGraph.build root language rules).MovedTo root k
      (SemanticGraph.build (root.shift k) language rules) := by
  have hfits : (Recast.ofShift k).Fits rules := fits_of_mem_builtIn hrules fun _ => rfl
  have hedges : (SemanticGraph.build (root.shift k) language rules).edges =
      (SemanticGraph.build root language rules).edges.map (Recast.ofShift k).edge :=
    Recast.edges_build_node hfits root language
  exact
    { language_eq := rfl
      nodes_eq := Recast.nodes_extract_shift k root
      edges := by
        rw [hedges, List.forall₂_map_right_iff, List.forall₂_same]
        exact fun e he => (grounded_of_mem_build hrules he).movedTo k
      rootId := ⟨root, root.mem_walk_self, rfl, rfl⟩
      index_eq := fun n _ => by
        rw [Recast.id_shift, ← Recast.id_ofShift]
        exact (Recast.ofShift k).get?_index_node root n.id
      shared := fun m _ n _ => by
        rw [Recast.id_shift, Recast.id_shift, (NodeId.shift_injective k).eq_iff] }

/-- A comment of 89 bytes before `edgesOfAllKinds` gives some of its names more digits than they had. -/
theorem build_shift_allKinds :
    Python.rules ∈ builtIn ∧
      (SemanticGraph.build edgesOfAllKinds .python Python.rules).MovedTo edgesOfAllKinds 89
        (SemanticGraph.build (edgesOfAllKinds.shift 89) .python Python.rules) ∧
      (Python.rules.resolve (edgesOfAllKinds.shift 89)).edges =
        [⟨⟨"if_statement_112_121"⟩, ⟨"block_120_121"⟩, .controlFlow⟩,
          ⟨⟨"identifier_109_110"⟩, ⟨"identifier_105_106"⟩, .references⟩,
          ⟨⟨"identifier_115_116"⟩, ⟨"function_definition_99_110"⟩, .calls⟩,
          ⟨⟨"identifier_115_116"⟩, ⟨"dotted_name_96_97"⟩, .callsImport⟩] := by
  have hrules : Python.rules ∈ builtIn := List.mem_cons_self
  exact ⟨hrules, build_shift hrules edgesOfAllKinds .python 89, by decide⟩

end ScopingRules

end CodeGraph
