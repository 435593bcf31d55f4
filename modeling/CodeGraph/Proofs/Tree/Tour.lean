import CodeGraph.Proofs.Tree.Places

/-!
# Tours of a tree

A recursion over a tree crosses the border of every node twice: on the way into it, and on the way out when all below it
is done. `Node.tour` lists these crossings in their order. Between two of them the recursion is inside some nodes, and
each crossing starts inside the nodes where the one before it has ended (`Crossing.Connects`). So what holds at the
start, and is kept by each crossing, holds all along the tour.
-/

namespace CodeGraph

/-- One crossing of the border of a node, at one of its places. -/
inductive Crossing where
  | enter (p : Place)
  | leave (p : Place)

namespace Crossing

/-- Where the border is crossed. -/
def place : Crossing → Place
  | enter p => p
  | leave p => p

/-- The nodes that a recursion is inside of before a crossing, innermost first. -/
def before : Crossing → List Node
  | enter p => p.above
  | leave p => p.path

/-- The nodes that a recursion is inside of after a crossing, innermost first. -/
def after : Crossing → List Node
  | enter p => p.path
  | leave p => p.above

/-- Whether some crossings lead from inside some nodes to inside others, each from where the one before it has ended. -/
def Connects (start : List Node) : List Crossing → List Node → Prop
  | [], stop => start = stop
  | x :: xs, stop => x.before = start ∧ Connects x.after xs stop

variable {start middle stop : List Node} {xs later : List Crossing} {x : Crossing}

theorem connects_append :
    Connects start (xs ++ later) stop ↔
      ∃ middle, Connects start xs middle ∧ Connects middle later stop := by
  induction xs generalizing start with
  | nil => simp [Connects]
  | cons x xs ih => simp [Connects, ih, and_assoc]

theorem Connects.append (h : Connects start xs middle) (hlater : Connects middle later stop) :
    Connects start (xs ++ later) stop :=
  connects_append.mpr ⟨middle, h, hlater⟩

/-- What comes before a crossing leads to where it starts. -/
theorem Connects.to_before (h : Connects start (xs ++ x :: later) stop) :
    Connects start xs x.before := by
  obtain ⟨middle, hxs, hx, -⟩ := connects_append.mp h
  rwa [hx]

end Crossing

namespace Node

mutual

/-- The crossings in a tree that hangs below some nodes. -/
def tourUnder (above : List Node) : Node → List Crossing
  | ⟨kind, span, text, children⟩ =>
    .enter ⟨⟨kind, span, text, children⟩, above⟩ ::
      (tourUnderAll (⟨kind, span, text, children⟩ :: above) children ++
        [.leave ⟨⟨kind, span, text, children⟩, above⟩])

/-- The crossings in a forest that hangs below some nodes. -/
def tourUnderAll (above : List Node) : List Node → List Crossing
  | [] => []
  | n :: ns => tourUnder above n ++ tourUnderAll above ns

end

/-- The crossings in a tree. -/
def tour (root : Node) : List Crossing := root.tourUnder []

mutual

/-- A tour ends where it has started. -/
theorem connects_tourUnder (above : List Node) :
    ∀ n : Node, Crossing.Connects above (n.tourUnder above) above
  | ⟨kind, span, text, children⟩ => by
    rw [tourUnder]
    refine ⟨rfl, ?_⟩
    have hchildren := connects_tourUnderAll (⟨kind, span, text, children⟩ :: above) children
    exact hchildren.append ⟨rfl, rfl⟩

theorem connects_tourUnderAll (above : List Node) :
    ∀ ns : List Node, Crossing.Connects above (tourUnderAll above ns) above
  | [] => rfl
  | n :: ns => by
    rw [tourUnderAll]
    exact (connects_tourUnder above n).append (connects_tourUnderAll above ns)

end

theorem connects_tour (root : Node) : Crossing.Connects [] root.tour [] := connects_tourUnder [] root

mutual

/-- The border of a node is crossed at each of its places, in both directions. -/
theorem mem_tourUnder_iff (above : List Node) {x : Crossing} :
    ∀ n : Node, x ∈ n.tourUnder above ↔ x.place ∈ n.placesUnder above
  | ⟨kind, span, text, children⟩ => by
    have hchildren := mem_tourUnderAll_iff (⟨kind, span, text, children⟩ :: above) (x := x) children
    rw [tourUnder, placesUnder, List.mem_cons, List.mem_append, List.mem_singleton, List.mem_cons,
      hchildren]
    cases x with
    | enter p => simp [Crossing.place]
    | leave p => simp [Crossing.place, or_comm]

theorem mem_tourUnderAll_iff (above : List Node) {x : Crossing} :
    ∀ ns : List Node, x ∈ tourUnderAll above ns ↔ x.place ∈ placesUnderAll above ns
  | [] => by simp [tourUnderAll, placesUnderAll]
  | n :: ns => by
    rw [tourUnderAll, placesUnderAll, List.mem_append, List.mem_append, mem_tourUnder_iff above n,
      mem_tourUnderAll_iff above ns]

end

theorem mem_tour_iff {root : Node} {x : Crossing} : x ∈ root.tour ↔ x.place ∈ root.places :=
  mem_tourUnder_iff [] root

end Node

end CodeGraph
