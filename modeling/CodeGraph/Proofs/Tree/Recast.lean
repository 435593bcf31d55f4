import CodeGraph.Proofs.Tree.Identity
import CodeGraph.Tree.Node

/-!
# Trees with other texts and spans

A tree is recast where its nodes get other texts and spans and keep their kinds and their order. A `Recast` does so
without making one of what is two: neither texts nor names of nodes, and neither the places where nodes begin.
Renaming by an injective function is one, and moving everything by some bytes is another.
-/

namespace CodeGraph

/-- The span of the same text some bytes further on. -/
def Span.shift (k : Nat) (s : Span) : Span :=
  { s with startByte := s.startByte + k, endByte := s.endByte + k }

namespace Node

mutual

/-- A tree with other texts and spans. -/
def recast (text : String → String) (span : Span → Span) : Node → Node
  | ⟨kind, s, t, children⟩ => ⟨kind, span s, text t, recastAll text span children⟩

/-- Trees with other texts and spans. -/
def recastAll (text : String → String) (span : Span → Span) : List Node → List Node
  | [] => []
  | n :: ns => recast text span n :: recastAll text span ns

end

/-- A tree in which every text is replaced. -/
def rename (f : String → String) (n : Node) : Node := n.recast f fun s => s

/-- A tree in which every node lies some bytes further on. -/
def shift (k : Nat) (n : Node) : Node := n.recast (fun t => t) (Span.shift k)

theorem recastAll_eq_map (text : String → String) (span : Span → Span) (ns : List Node) :
    recastAll text span ns = ns.map (recast text span) := by
  induction ns with
  | nil => rfl
  | cons n ns ih => rw [recastAll, ih, List.map_cons]

end Node

/-- Other texts and spans for the nodes of trees, with what becomes of the names of nodes. What differs stays
different, and a node that ends before another begins still does so. -/
structure Recast where
  text : String → String
  span : Span → Span
  id : NodeId → NodeId
  text_injective : Function.Injective text
  id_injective : Function.Injective id
  id_of : ∀ (kind : String) (s : Span),
    NodeId.of kind (span s).startByte (span s).endByte = id (NodeId.of kind s.startByte s.endByte)
  start_eq_iff : ∀ s t : Span, (span s).startByte = (span t).startByte ↔ s.startByte = t.startByte
  end_le_iff : ∀ s t : Span, (span s).endByte ≤ (span t).startByte ↔ s.endByte ≤ t.startByte

namespace Recast

/-- Every text is replaced. -/
def ofTexts {f : String → String} (hf : Function.Injective f) : Recast where
  text := f
  span s := s
  id i := i
  text_injective := hf
  id_injective _ _ h := h
  id_of _ _ := rfl
  start_eq_iff _ _ := Iff.rfl
  end_le_iff _ _ := Iff.rfl

/-- Every node lies some bytes further on. -/
def ofShift (k : Nat) : Recast where
  text t := t
  span := Span.shift k
  id := NodeId.shift k
  text_injective _ _ h := h
  id_injective := NodeId.shift_injective k
  id_of _ _ := (NodeId.shift_of k _ _ _).symm
  start_eq_iff _ _ := Nat.add_right_cancel_iff
  end_le_iff _ _ := Nat.add_le_add_iff_right

@[simp] theorem id_ofShift (k : Nat) : (ofShift k).id = NodeId.shift k := by
  rw [ofShift]

variable (ρ : Recast)

/-- The tree at a node, recast. -/
def node (n : Node) : Node := n.recast ρ.text ρ.span

@[simp] theorem node_mk (kind : String) (s : Span) (t : String) (children : List Node) :
    ρ.node ⟨kind, s, t, children⟩ = ⟨kind, ρ.span s, ρ.text t, children.map ρ.node⟩ := by
  rw [node, Node.recast, Node.recastAll_eq_map]
  rfl

@[simp] theorem kind_node (n : Node) : (ρ.node n).kind = n.kind := by
  cases n
  rw [node_mk]

@[simp] theorem text_node (n : Node) : (ρ.node n).text = ρ.text n.text := by
  cases n
  rw [node_mk]

@[simp] theorem span_node (n : Node) : (ρ.node n).span = ρ.span n.span := by
  cases n
  rw [node_mk]

@[simp] theorem children_node (n : Node) : (ρ.node n).children = n.children.map ρ.node := by
  cases n
  rw [node_mk]

@[simp] theorem id_node (n : Node) : (ρ.node n).id = ρ.id n.id := by
  rw [Node.id, kind_node, span_node, ρ.id_of, Node.id]

theorem node_ofTexts {f : String → String} (hf : Function.Injective f) (n : Node) :
    (ofTexts hf).node n = n.rename f := rfl

theorem node_ofShift (k : Nat) (n : Node) : (ofShift k).node n = n.shift k := rfl

/-- A moved node has its name moved. -/
theorem id_shift (k : Nat) (n : Node) : (n.shift k).id = n.id.shift k := by
  rw [← node_ofShift, id_node, id_ofShift]

mutual

/-- The nodes of a recast tree are those of the tree, recast. -/
theorem walk_node : ∀ n : Node, (ρ.node n).walk = n.walk.map ρ.node
  | ⟨kind, s, t, children⟩ => by
    rw [node_mk, Node.walk, walkAll_map_node children, Node.walk, List.map_cons, node_mk]

theorem walkAll_map_node : ∀ ns : List Node,
    Node.walkAll (ns.map ρ.node) = (Node.walkAll ns).map ρ.node
  | [] => rfl
  | n :: ns => by
    rw [List.map_cons, Node.walkAll, walk_node n, walkAll_map_node ns, Node.walkAll, List.map_append]

end

/-! ### Looking for children -/

/-- What is asked of kinds alone has the same answers. -/
theorem comp_kind (p : String → Bool) : (fun n : Node => p n.kind) ∘ ρ.node = fun n => p n.kind := by
  funext n
  exact congrArg p (ρ.kind_node n)

theorem find?_map_node (p : String → Bool) (ns : List Node) :
    (ns.map ρ.node).find? (fun n => p n.kind) = (ns.find? fun n => p n.kind).map ρ.node := by
  rw [List.find?_map, comp_kind]

theorem filter_map_node (p : String → Bool) (ns : List Node) :
    (ns.map ρ.node).filter (fun n => p n.kind) = (ns.filter fun n => p n.kind).map ρ.node := by
  rw [List.filter_map, comp_kind]

theorem takeWhile_map_node (p : String → Bool) (ns : List Node) :
    (ns.map ρ.node).takeWhile (fun n => p n.kind) = (ns.takeWhile fun n => p n.kind).map ρ.node := by
  rw [List.takeWhile_map, comp_kind]

theorem dropWhile_map_node (p : String → Bool) (ns : List Node) :
    (ns.map ρ.node).dropWhile (fun n => p n.kind) = (ns.dropWhile fun n => p n.kind).map ρ.node := by
  rw [List.dropWhile_map, comp_kind]

@[simp] theorem childOfKind?_node (n : Node) (kind : String) :
    (ρ.node n).childOfKind? kind = (n.childOfKind? kind).map ρ.node := by
  rw [Node.childOfKind?, children_node]
  exact ρ.find?_map_node (· == kind) n.children

@[simp] theorem childOfKinds?_node (n : Node) (kinds : List String) :
    (ρ.node n).childOfKinds? kinds = (n.childOfKinds? kinds).map ρ.node := by
  rw [Node.childOfKinds?, children_node]
  exact ρ.find?_map_node kinds.contains n.children

theorem start_beq_node (m n : Node) :
    ((ρ.node m).span.startByte == (ρ.node n).span.startByte) =
      (m.span.startByte == n.span.startByte) := by
  rw [Bool.eq_iff_iff, beq_iff_eq, beq_iff_eq, span_node, span_node, ρ.start_eq_iff]

theorem isFirstChild_node (parent n : Node) :
    (ρ.node parent).isFirstChild (ρ.node n) = parent.isFirstChild n := by
  rw [Node.isFirstChild, children_node, Node.isFirstChild]
  cases parent.children with
  | nil => rfl
  | cons first rest => simp only [List.map_cons, start_beq_node, kind_node]

end Recast

end CodeGraph
