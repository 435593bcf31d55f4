import CodeGraph.Format.Tree
import CodeGraph.Graph.Basic

/-!
# The JSON of graphs

Nodes, edges and whole graphs are records; the index is an object with the names as its keys.
-/

namespace CodeGraph

namespace EdgeKind

/-- A kind of edge is written as its name. -/
def codec : Codec EdgeKind where
  encode k := .string k.name
  decode := Document.name? ofName?

end EdgeKind

namespace Edge

/-- An edge is a record of its ends and its kind. -/
def codec : Codec Edge where
  encode e :=
    .object [("source", .string e.source.text), ("target", .string e.target.text),
      ("type", .string e.kind.name)]
  decode d :=
    match d.slots? ["source", "target", "type"] with
    | some [source, target, kind] => do
      let source ← source.required NodeId.codec.decode
      let target ← target.required NodeId.codec.decode
      let kind ← kind.required EdgeKind.codec.decode
      return ⟨source, target, kind⟩
    | _ => none

end Edge

namespace GraphNode

/-- A node of a graph is a record. -/
def codec : Codec GraphNode where
  encode n :=
    .object (("id", .string n.id.text) :: ("type", .string n.kind) :: ("text", .string n.text) ::
      n.span.nodeMembers)
  decode d :=
    match d.slots?
        ["id", "type", "text", "byte_start", "byte_end", "start_line", "start_col", "end_line",
          "end_col"] with
    | some [id, kind, text, a, b, c, d, e, f] => do
      let id ← id.required NodeId.codec.decode
      let kind ← kind.required Document.text?
      let text ← text.required Document.text?
      let span ← Span.ofSlots? a b c d e f
      return ⟨id, kind, text, span⟩
    | _ => none

end GraphNode

namespace NodeIndex

/-- The entries that the members of an object give. -/
def entriesOf? : List (Option String × Document) → Option (List (NodeId × Nat))
  | [] => some []
  | (key, d) :: ms =>
    match key, d.count?, entriesOf? ms with
    | some k, some n, some rest => some ((⟨k⟩, n) :: rest)
    | _, _, _ => none

/-- An index is an object; of members with one key the last counts. -/
def codec : Codec NodeIndex where
  encode index := .object (index.entries.map fun e => (e.1.text, .nat e.2))
  decode
    | .object members => (entriesOf? members).map ofWrites
    | _ => none

end NodeIndex

namespace SemanticGraph

/-- A graph is a record. -/
def codec : Codec SemanticGraph where
  encode g :=
    .object [("language", .string g.language.name),
      ("nodes", .array (g.nodes.map GraphNode.codec.encode)),
      ("edges", .array (g.edges.map Edge.codec.encode)), ("root", .string g.root.text),
      ("index", NodeIndex.codec.encode g.index)]
  decode d :=
    match d.slots? ["language", "nodes", "edges", "root", "index"] with
    | some [language, nodes, edges, root, index] => do
      let language ← language.required Language.codec.decode
      let nodes ← nodes.required (Document.list? GraphNode.codec.decode)
      let edges ← edges.required (Document.list? Edge.codec.decode)
      let root ← root.required NodeId.codec.decode
      let index ← index.required NodeIndex.codec.decode
      return ⟨language, nodes, edges, root, index⟩
    | _ => none

end SemanticGraph

end CodeGraph
