import CodeGraph.Fault
import CodeGraph.Text.Utf8
import CodeGraph.Tree.Node

/-!
# Trees as the parser gives them

A `RawNode` has spans but no text. `RawNode.normalize` reads each node's text from the source and
bounds the number of levels. It keeps the nodes it is in on a stack of its own, so that no tree is
too deep for the host. A turn enters the next child of the innermost node or, where none is left,
reads the node's own text and gives its tree to the node around it.
-/

namespace CodeGraph

/-- One element of a tree as the parser gives it. -/
structure RawNode where
  kind : String
  span : Span
  children : List RawNode

instance : Inhabited RawNode := ⟨⟨"", default, []⟩⟩

namespace RawNode

mutual

/-- The number of nodes of a tree. -/
def count : RawNode → Nat
  | ⟨_, _, children⟩ => countAll children + 1

/-- The number of nodes of a forest. -/
def countAll : List RawNode → Nat
  | [] => 0
  | n :: ns => n.count + countAll ns

end

theorem count_eq (n : RawNode) : n.count = countAll n.children + 1 := by
  cases n; rfl

/-- A node that was entered and not yet left. -/
structure Frame where
  node : RawNode
  /-- The children that are still to be entered. -/
  pending : List RawNode
  /-- The trees of the children that were left. -/
  finished : Array Node

namespace Frame

/-- The frame of a node that is entered. -/
def enter (n : RawNode) : Frame := ⟨n, n.children, #[]⟩

/-- The frame with the tree of one more child. -/
def attach (f : Frame) (tree : Node) : Frame := { f with finished := f.finished.push tree }

/-- The tree of a node that is left. -/
def record (source : ByteArray) (f : Frame) : Except Fault Node :=
  match Text.slice? source f.node.span.startByte f.node.span.endByte with
  | none => .error (.badText f.node.span.startByte f.node.span.endByte)
  | some text => .ok ⟨f.node.kind, f.node.span, text, f.finished.toList⟩

end Frame

/-- What a turn leads to. -/
inductive Turn where
  /-- To a stack from which the walk goes on, innermost frame first. -/
  | next (stack : List Frame)
  /-- To the end of the walk. -/
  | stop (result : Except Fault Node)

/-- One turn of the walk. A child is let in where the stack has fewer frames than the limit. -/
def turn (source : ByteArray) (limit : Nat) : List Frame → Turn
  | [] => .stop (.error (.noTree .empty))
  | frame :: below =>
    match frame.pending with
    | child :: pending =>
      if limit ≤ below.length + 1 then .stop (.error (.treeTooDeep limit))
      else .next (.enter child :: { frame with pending := pending } :: below)
    | [] =>
      match frame.record source, below with
      | .error fault, _ => .stop (.error fault)
      | .ok tree, [] => .stop (.ok tree)
      | .ok tree, parent :: below => .next (parent.attach tree :: below)

/-- The number of turns that a stack takes at most: one to enter each node and one to leave it. -/
def turnsLeft : List Frame → Nat
  | [] => 0
  | frame :: below => 2 * countAll frame.pending + 1 + turnsLeft below

theorem turnsLeft_turn {source : ByteArray} {limit : Nat} {stack next : List Frame}
    (h : turn source limit stack = .next next) : turnsLeft next < turnsLeft stack := by
  unfold turn at h
  split at h
  · cases h
  split at h
  · next frame below child pending hpending =>
    split at h
    · cases h
    · obtain rfl := Turn.next.inj h
      simp only [turnsLeft, hpending, Frame.enter, countAll, count_eq]
      omega
  · next frame below hpending =>
    split at h
    · cases h
    · cases h
    · obtain rfl := Turn.next.inj h
      simp only [turnsLeft, hpending, Frame.attach]
      omega

/-- The walk from a stack on. -/
@[semireducible]
def run (source : ByteArray) (limit : Nat) (stack : List Frame) : Except Fault Node :=
  match _hturn : turn source limit stack with
  | .stop result => result
  | .next stack => run source limit stack
termination_by turnsLeft stack
decreasing_by exact turnsLeft_turn _hturn

/-- The syntax tree of a parse. A node `d` levels below the root needs `d` to be less than the
limit; the root is always let in. -/
def normalize (root : RawNode) (source : ByteArray) (limit : Nat) : Except Fault Node :=
  run source limit [.enter root]

end RawNode

end CodeGraph
