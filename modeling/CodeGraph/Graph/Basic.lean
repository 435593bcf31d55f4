import CodeGraph.Graph.Index
import CodeGraph.Language
import CodeGraph.Scope.Resolution

/-!
# Semantic graphs

A graph lists the nodes of a syntax tree in pre-order and the edges between them: one `contains`
edge for each node but the root, and then the edges that name resolution finds.
-/

namespace CodeGraph

/-- A node of a graph. -/
structure GraphNode where
  id : NodeId
  kind : String
  text : String
  span : Span
deriving DecidableEq, Repr

/-- The record of a syntax node. -/
def GraphNode.of (n : Node) : GraphNode := ⟨n.id, n.kind, n.text, n.span⟩

namespace Node

mutual

/-- The `contains` edges of a tree, one for each node but the root, in pre-order. -/
def containment : Node → List Edge
  | ⟨kind, span, _, children⟩ =>
    containmentAll (NodeId.of kind span.startByte span.endByte) children

/-- The `contains` edges at and below the children of a node. -/
def containmentAll (parent : NodeId) : List Node → List Edge
  | [] => []
  | n :: ns => ⟨parent, n.id, .contains⟩ :: containment n ++ containmentAll parent ns

end

end Node

/-- The structure of a tree as nodes and edges. -/
structure Extraction where
  nodes : List GraphNode
  edges : List Edge
  root : NodeId
  /-- The position of the first node of each name. -/
  index : NodeIndex

/-- The structure of a tree. -/
def extract (root : Node) : Extraction :=
  let nodes := root.walk.map GraphNode.of
  ⟨nodes, root.containment, root.id, NodeIndex.ofList (nodes.zipIdx.map fun p => (p.1.id, p.2))⟩

/-- The nodes of one parse of a source, and all that is known of how they relate. -/
structure SemanticGraph where
  language : Language
  nodes : List GraphNode
  edges : List Edge
  root : NodeId
  index : NodeIndex

namespace SemanticGraph

/-- The graph of a tree under some scoping rules. -/
def build (root : Node) (language : Language) (rules : ScopingRules) : SemanticGraph :=
  let base := extract root
  ⟨language, base.nodes, base.edges ++ (rules.resolve root).edges, base.root, base.index⟩

/-- The first node of a name. -/
def node? (g : SemanticGraph) (id : NodeId) : Option GraphNode :=
  (g.index.get? id).bind fun i => g.nodes[i]?

/-- The edges of a kind. -/
def edgesOfKind (g : SemanticGraph) (kind : EdgeKind) : List Edge := g.edges.filter (·.kind = kind)

/-- The edges that leave a node. -/
def edgesFrom (g : SemanticGraph) (id : NodeId) : List Edge := g.edges.filter (·.source = id)

/-- The edges that reach a node. -/
def edgesTo (g : SemanticGraph) (id : NodeId) : List Edge := g.edges.filter (·.target = id)

/-- Whether some edge says more than containment. -/
def hasSemanticEdges (g : SemanticGraph) : Bool := g.edges.any (·.kind.isSemantic)

end SemanticGraph

/-- The sizes of a graph. -/
structure GraphStats where
  nodes : Nat
  edges : Nat
  /-- The kinds of edges that occur, in the order of their names. -/
  edgesByKind : List (EdgeKind × Nat)
deriving DecidableEq, Repr

namespace SemanticGraph

/-- The number of edges of a kind, where there are any. -/
def kindCount? (g : SemanticGraph) (kind : EdgeKind) : Option (EdgeKind × Nat) :=
  match (g.edgesOfKind kind).length with
  | 0 => none
  | n => some (kind, n)

/-- The sizes of a graph. -/
def stats (g : SemanticGraph) : GraphStats :=
  ⟨g.nodes.length, g.edges.length, EdgeKind.byName.filterMap g.kindCount?⟩

end SemanticGraph

/-- The sizes of a graph, one to a line. -/
def GraphStats.text (s : GraphStats) : String :=
  "Semantic Graph Statistics:\n  Nodes: " ++ s.nodes.repr ++ "\n  Edges: " ++ s.edges.repr ++ "\n" ++
    String.join (s.edgesByKind.map fun p => "    " ++ p.1.name ++ ": " ++ p.2.repr ++ "\n")

end CodeGraph
