import CodeGraph.Tree.Raw

/-!
# The walk as a recursion

`RawNode.normalize` keeps its way through a tree on a stack. Seen from outside it makes the visits of a recursive
walk, which enters a node, goes through its children, and reads the node's own text last. The first visit that fails
decides; where none does, the walk ends with the tree whose nodes have their texts. Main statement:
`normalize_eq_outcome`.
-/

namespace CodeGraph.RawNode

/-- What a recursive walk does at a node. -/
inductive Visit where
  /-- To enter it, so many levels below the root. -/
  | enter (level : Nat)
  /-- To read its text. -/
  | read (start stop : Nat)
deriving DecidableEq, Repr

mutual

/-- The visits of a tree that hangs so many levels below the root. -/
def visits (level : Nat) : RawNode → List Visit
  | ⟨_, span, children⟩ =>
    .enter level :: visitsAll (level + 1) children ++ [.read span.startByte span.endByte]

/-- The visits of a forest that hangs so many levels below the root. -/
def visitsAll (level : Nat) : List RawNode → List Visit
  | [] => []
  | n :: ns => visits level n ++ visitsAll level ns

end

theorem visits_eq (level : Nat) (n : RawNode) :
    visits level n = .enter level ::
      (visitsAll (level + 1) n.children ++ [.read n.span.startByte n.span.endByte]) := by
  cases n; rfl

mutual

/-- The tree with the text of every node; a node that has none is left without. -/
def withText (source : ByteArray) : RawNode → Node
  | ⟨kind, span, children⟩ =>
    ⟨kind, span, (Text.slice? source span.startByte span.endByte).getD "",
      withTextAll source children⟩

/-- The trees with the text of every node. -/
def withTextAll (source : ByteArray) : List RawNode → List Node
  | [] => []
  | n :: ns => withText source n :: withTextAll source ns

end

variable (source : ByteArray) (limit : Nat)

/-- The fault of a visit: a node below the root is not let in at the limit, and what is no text is not read. -/
def Visit.fault? : Visit → Option Fault
  | .enter level => if 0 < level ∧ limit ≤ level then some (.treeTooDeep limit) else none
  | .read start stop =>
    if (Text.slice? source start stop).isSome then none else some (.badText start stop)

/-- The fault of the first visit that fails. -/
def firstFault? (vs : List Visit) : Option Fault := vs.findSome? (Visit.fault? source limit)

/-- What comes of some visits and the walk after them. -/
def outcome (vs : List Visit) (after : Except Fault Node) : Except Fault Node :=
  match firstFault? source limit vs with
  | some fault => .error fault
  | none => after

variable {source limit}

@[simp] theorem outcome_nil (after : Except Fault Node) : outcome source limit [] after = after :=
  rfl

theorem outcome_append (us vs : List Visit) (after : Except Fault Node) :
    outcome source limit (us ++ vs) after = outcome source limit us (outcome source limit vs after) := by
  rw [outcome, firstFault?, List.findSome?_append]
  cases h : us.findSome? (Visit.fault? source limit) with
  | none => rw [outcome, firstFault?, h]; rfl
  | some fault => rw [outcome, firstFault?, h]; rfl

theorem outcome_cons (v : Visit) (vs : List Visit) (after : Except Fault Node) :
    outcome source limit (v :: vs) after = outcome source limit [v] (outcome source limit vs after) :=
  outcome_append [v] vs after

/-! ### Turns -/

/-- What comes of a tree that is finished above some frames. -/
def leave (source : ByteArray) (limit : Nat) (tree : Node) : List Frame → Except Fault Node
  | [] => .ok tree
  | parent :: below => run source limit (parent.attach tree :: below)

theorem run_of_pending_cons {frame : Frame} {child : RawNode} {pending : List RawNode}
    (below : List Frame) (h : frame.pending = child :: pending) :
    run source limit (frame :: below) =
      outcome source limit [.enter (below.length + 1)]
        (run source limit (.enter child :: { frame with pending := pending } :: below)) := by
  by_cases hlimit : limit ≤ below.length + 1
  · have hturn : turn source limit (frame :: below) = .stop (.error (.treeTooDeep limit)) := by
      simp [turn, h, hlimit]
    rw [run, hturn]
    simp [outcome, firstFault?, Visit.fault?, hlimit]
  · have hturn : turn source limit (frame :: below) =
        .next (.enter child :: { frame with pending := pending } :: below) := by
      simp [turn, h, hlimit]
    rw [run, hturn]
    simp [outcome, firstFault?, Visit.fault?, hlimit]

theorem run_of_pending_nil {frame : Frame} (below : List Frame) (h : frame.pending = []) :
    run source limit (frame :: below) =
      outcome source limit [.read frame.node.span.startByte frame.node.span.endByte]
        (leave source limit
          ⟨frame.node.kind, frame.node.span,
            (Text.slice? source frame.node.span.startByte frame.node.span.endByte).getD "",
            frame.finished.toList⟩ below) := by
  cases htext : Text.slice? source frame.node.span.startByte frame.node.span.endByte with
  | none =>
    have hturn : turn source limit (frame :: below) =
        .stop (.error (.badText frame.node.span.startByte frame.node.span.endByte)) := by
      simp [turn, h, Frame.record, htext]
    rw [run, hturn]
    simp [outcome, firstFault?, Visit.fault?, htext]
  | some text =>
    cases below with
    | nil =>
      have hturn : turn source limit [frame] =
          .stop (.ok ⟨frame.node.kind, frame.node.span, text, frame.finished.toList⟩) := by
        simp [turn, h, Frame.record, htext]
      rw [run, hturn]
      simp [outcome, firstFault?, Visit.fault?, htext, leave]
    | cons parent below =>
      have hturn : turn source limit (frame :: parent :: below) =
          .next (parent.attach
            ⟨frame.node.kind, frame.node.span, text, frame.finished.toList⟩ :: below) := by
        simp [turn, h, Frame.record, htext]
      rw [run, hturn]
      simp [outcome, firstFault?, Visit.fault?, htext, leave]

/-! ### From stack to recursion -/

mutual

/-- A node that is entered is visited with all below it, and then left with its tree. -/
theorem run_enter : ∀ (n : RawNode) (below : List Frame),
    run source limit (.enter n :: below) =
      outcome source limit
        (visitsAll (below.length + 1) n.children ++ [.read n.span.startByte n.span.endByte])
        (leave source limit (n.withText source) below)
  | ⟨kind, span, children⟩, below => by
    rw [outcome_append, run_pending children below rfl, run_of_pending_nil below rfl]
    simp [Frame.enter, withText]

/-- The children still to be entered are visited with all below them, and their trees are added to the others. -/
theorem run_pending : ∀ (ns : List RawNode) (below : List Frame) {frame : Frame},
    frame.pending = ns → run source limit (frame :: below) =
      outcome source limit (visitsAll (below.length + 1) ns)
        (run source limit
          (⟨frame.node, [], frame.finished ++ (withTextAll source ns).toArray⟩ :: below))
  | [], below, ⟨_, _, _⟩, rfl => by simp [visitsAll, withTextAll]
  | n :: ns, below, ⟨node, _, finished⟩, rfl =>
    let level := below.length + 1
    let left : Frame := (⟨node, ns, finished⟩ : Frame).attach (n.withText source)
    calc run source limit (⟨node, n :: ns, finished⟩ :: below)
      _ = outcome source limit [.enter level]
            (run source limit (.enter n :: ⟨node, ns, finished⟩ :: below)) :=
          run_of_pending_cons below rfl
      _ = outcome source limit (visits level n) (run source limit (left :: below)) := by
          rw [run_enter n, visits_eq, outcome_cons (.enter level) (_ ++ _)]
          rfl
      _ = outcome source limit (visits level n) (outcome source limit (visitsAll level ns) _) := by
          rw [run_pending ns below (show left.pending = ns from rfl)]
      _ = _ := by
          rw [visitsAll, outcome_append]
          simp [level, Frame.attach, withTextAll]

end

/-- **The walk visits what a recursive one visits.** -/
theorem normalize_eq_outcome (root : RawNode) :
    root.normalize source limit =
      outcome source limit (root.visits 0) (.ok (root.withText source)) := by
  -- the root is let in, whatever the limit
  have hroot : ∀ after, outcome source limit [.enter 0] after = after := fun _ => rfl
  rw [normalize, run_enter, visits_eq, outcome_cons (.enter 0), hroot]
  rfl

end CodeGraph.RawNode
