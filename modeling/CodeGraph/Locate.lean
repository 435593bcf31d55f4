import CodeGraph.Language
import CodeGraph.Tree.Node

/-!
# Nodes by position and by name

`Node.locate?` finds the innermost node at a line and column. Both ends of a node count as inside,
and where two siblings meet the later one wins. `LocateResult` and `NodeLookup` are the answers to
look-ups by position and by name.
-/

namespace CodeGraph

namespace Node

/-- Whether a point lies in a node. The column counts on the first and the last line alone. -/
def covers (n : Node) (p : Point) : Bool :=
  n.span.start.line ≤ p.line && p.line ≤ n.span.stop.line &&
    !(p.line == n.span.start.line && p.column < n.span.start.column) &&
    !(p.line == n.span.stop.line && p.column > n.span.stop.column)

mutual

/-- The innermost node at a point of a node. -/
def innermost (p : Point) : Node → Node
  | ⟨kind, span, text, children⟩ =>
    (innermostAmong? p children).getD ⟨kind, span, text, children⟩

/-- The innermost node in the last of some siblings that covers a point. -/
def innermostAmong? (p : Point) : List Node → Option Node
  | [] => none
  | n :: ns =>
    match innermostAmong? p ns with
    | some found => some found
    | none => if n.covers p then some (innermost p n) else none

end

/-- The innermost node at a point. -/
def locate? (root : Node) (p : Point) : Option Node :=
  if root.covers p then some (root.innermost p) else none

end Node

/-- The answer to a look-up by position. -/
inductive LocateResult where
  | found (node : Node) (language : Language)
  | notFound (line column : Nat) (message : String)

namespace LocateResult

/-- Look a position up in a tree. -/
def of (root : Node) (language : Language) (p : Point) : LocateResult :=
  match root.locate? p with
  | some node => found node language
  | none =>
    notFound p.line p.column
      ("No node found at line " ++ p.line.repr ++ ", column " ++ p.column.repr)

/-- The node that was found. -/
def node? : LocateResult → Option Node
  | found node _ => some node
  | notFound _ _ _ => none

end LocateResult

/-- The answer to a look-up by name. -/
inductive NodeLookup where
  | found (node : Node) (language : Language)
  | notFound (id : NodeId) (message : String)

namespace NodeLookup

/-- Look a name up in a tree. -/
def of (root : Node) (language : Language) (id : NodeId) : NodeLookup :=
  match root.find? id with
  | some node => found node language
  | none => notFound id ("No node with id " ++ id.text)

/-- The node that was found. -/
def node? : NodeLookup → Option Node
  | found node _ => some node
  | notFound _ _ => none

end NodeLookup

end CodeGraph
