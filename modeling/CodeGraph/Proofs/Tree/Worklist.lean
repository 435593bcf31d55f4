import CodeGraph.Proofs.Tree.Places

/-!
# Walks with a stack of their own

A walk can keep the nodes that are still to be visited on a stack, each with what the node above has handed down to
it. A turn takes the top off the stack, visits it, and puts its children in its place. So it visits the places of
the tree in pre-order, and what a place is given has been passed along on the way down to it.
-/

namespace CodeGraph

/-- A node to be visited, with what the node above has handed down to it. -/
structure Task (β : Type) where
  node : Node
  given : β

section Walk

variable {σ β : Type}

/-- What is given to a place where the root is given `start`. -/
def Place.given (hand : β → Node → β) (start : β) (p : Place) : β :=
  p.above.foldr (fun n given => hand given n) start

/-- The task of a place. -/
def Place.task (hand : β → Node → β) (start : β) (p : Place) : Task β := ⟨p.node, p.given hand start⟩

namespace Task

/-- The tasks of the children of a node that is visited. -/
def below (hand : β → Node → β) (t : Task β) : List (Task β) :=
  t.node.children.map fun c => ⟨c, hand t.given t.node⟩

/-- What a walk makes of `s` until its stack is empty. -/
def walk (visit : σ → Task β → σ) (hand : β → Node → β) (s : σ) : List (Task β) → σ
  | [] => s
  | t :: stack => walk visit hand (visit s t) (t.below hand ++ stack)
termination_by stack => Node.countAll (stack.map Task.node)
decreasing_by
  have hbelow : (t.below hand).map Task.node = t.node.children := by
    rw [below, List.map_map]
    exact List.map_id _
  rw [List.map_append, hbelow, List.map_cons, Node.countAll, Node.countAll_append, Node.count_eq]
  omega

variable (visit : σ → Task β → σ) (hand : β → Node → β) (start : β)

mutual

/-- When the stack below a node is reached, the places of its tree have been visited in pre-order. -/
theorem walk_placesUnder (above : List Node) (s : σ) (stack : List (Task β)) :
    ∀ n : Node, walk visit hand s (Place.task hand start ⟨n, above⟩ :: stack) =
      walk visit hand (((n.placesUnder above).map (Place.task hand start)).foldl visit s) stack
  | ⟨kind, span, text, children⟩ => by
    rw [walk, Node.placesUnder, List.map_cons, List.foldl_cons]
    exact walk_placesUnderAll ⟨kind, span, text, children⟩ above _ stack children

theorem walk_placesUnderAll (n : Node) (above : List Node) (s : σ) (stack : List (Task β)) :
    ∀ ns : List Node, walk visit hand s
        (ns.map (fun c => ⟨c, hand (Place.given hand start ⟨n, above⟩) n⟩) ++ stack) =
      walk visit hand
        (((Node.placesUnderAll (n :: above) ns).map (Place.task hand start)).foldl visit s) stack
  | [] => rfl
  | c :: ns => by
    rw [List.map_cons, List.cons_append, Node.placesUnderAll, List.map_append, List.foldl_append,
      ← walk_placesUnderAll n above _ stack ns]
    exact walk_placesUnder (n :: above) s _ c

end

/-- **A walk with a stack of its own goes through the places in pre-order.** -/
theorem walk_root (s : σ) (root : Node) :
    walk visit hand s [⟨root, start⟩] =
      (root.places.map (Place.task hand start)).foldl visit s := by
  have hplaces := walk_placesUnder visit hand start [] s [] root
  rwa [walk] at hplaces

end Task

end Walk

end CodeGraph
