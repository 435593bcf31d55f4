import CodeGraph.Span
import CodeGraph.Tree.NodeId

/-!
# Syntax trees

A `Node` holds its kind, span, the exact text it covers and its children in source order. `walk`
lists a tree in pre-order, and the look-ups of this module take the first match in that order.
-/

namespace CodeGraph

/-- One element of a syntax tree. -/
structure Node where
  kind : String
  span : Span
  text : String
  children : List Node

instance : Inhabited Node := ⟨⟨"", default, "", []⟩⟩

namespace Node

/-- The name of a node. -/
def id (n : Node) : NodeId := NodeId.of n.kind n.span.startByte n.span.endByte

mutual

/-- The nodes of a tree in pre-order: a parent before its children, children in source order. -/
def walk : Node → List Node
  | ⟨kind, span, text, children⟩ => ⟨kind, span, text, children⟩ :: walkAll children

/-- The nodes of a forest in pre-order. -/
def walkAll : List Node → List Node
  | [] => []
  | n :: ns => n.walk ++ walkAll ns

end

mutual

/-- The number of nodes of a tree. -/
def count : Node → Nat
  | ⟨_, _, _, children⟩ => countAll children + 1

/-- The number of nodes of a forest. -/
def countAll : List Node → Nat
  | [] => 0
  | n :: ns => n.count + countAll ns

end

mutual

/-- The number of levels of a tree; a leaf has one. -/
def depth : Node → Nat
  | ⟨_, _, _, children⟩ => depthAll children + 1

/-- The number of levels of the deepest tree of a forest. -/
def depthAll : List Node → Nat
  | [] => 0
  | n :: ns => max n.depth (depthAll ns)

end

/-- The first node with a name. -/
def find? (n : Node) (id : NodeId) : Option Node := n.walk.find? (·.id = id)

/-- The first child of a kind. -/
def childOfKind? (n : Node) (kind : String) : Option Node := n.children.find? (·.kind == kind)

/-- The first child of one of some kinds. -/
def childOfKinds? (n : Node) (kinds : List String) : Option Node :=
  n.children.find? (kinds.contains ·.kind)

/-- The position of the first child of a kind. -/
def positionOf? (n : Node) (kind : String) : Option Nat := n.children.findIdx? (·.kind == kind)

/-- Whether the byte range `[start, stop)` lies within the node. -/
def coversBytes (n : Node) (start stop : Nat) : Bool :=
  n.span.startByte ≤ start && stop ≤ n.span.endByte

/-- Whether a node stands where the first child of `parent` stands, and is of its kind. -/
def isFirstChild (parent n : Node) : Bool :=
  match parent.children with
  | [] => false
  | first :: _ => first.span.startByte == n.span.startByte && first.kind == n.kind

theorem walk_eq (n : Node) : n.walk = n :: walkAll n.children := by
  cases n; rfl

theorem walkAll_eq_flatMap (ns : List Node) : walkAll ns = ns.flatMap walk := by
  induction ns with
  | nil => rfl
  | cons n ns ih => simp [walkAll, ih]

theorem count_eq (n : Node) : n.count = countAll n.children + 1 := by
  cases n; rfl

theorem countAll_append (ms ns : List Node) : countAll (ms ++ ns) = countAll ms + countAll ns := by
  induction ms with
  | nil => simp [countAll]
  | cons m ms ih => simp only [List.cons_append, countAll, ih, Nat.add_assoc]

theorem depth_eq (n : Node) : n.depth = depthAll n.children + 1 := by
  cases n; rfl

end Node

end CodeGraph
