import CodeGraph.Proofs.Scope.History
import CodeGraph.Proofs.Tree.Tour
import CodeGraph.Proofs.Tree.Worklist
import CodeGraph.Scope.Resolution
import Mathlib.Data.List.Basic

/-!
# The two passes place by place

Resolution carries the current scope down the tree as an argument. Here every place has its scopes by
itself, from the way down to it, and both passes are lists over the places: `declare` binds variables and
enters scopes in pre-order, and `links` emits the edges of each place in pre-order.
-/

namespace CodeGraph

/-- The variables that a definition binds: the parameters of a function, or variables proper. -/
def Definition.variables : Definition → List Binding
  | .function _ params => params
  | .binds bindings => bindings
  | .classLike _ => []
  | .imports _ => []

namespace ScopingRules

variable (rules : ScopingRules)

/-- Whether a node opens a scope. -/
def opensScope (n : Node) : Bool := rules.introducesScope n.kind

/-- The variables that a node binds, in the order of its definition. -/
def variablesOf (n : Node) : List Binding := ((rules.definition n).map Definition.variables).getD []

/-- The scopes around the end of a way down, innermost first; the global scope comes last. -/
def scopesOn (path : List Node) : List Scope :=
  (path.filter rules.opensScope).map (fun n => Scope.node n.id) ++ [.global]

/-- The innermost of the scopes around the end of a way down. -/
def innermost (path : List Node) : Scope := (rules.scopesOn path).headD .global

@[simp] theorem innermost_nil : rules.innermost [] = .global := rfl

theorem innermost_cons (n : Node) (above : List Node) :
    rules.innermost (n :: above) = rules.scopeIn (rules.innermost above) n := by
  by_cases hn : rules.introducesScope n.kind = true
  · simp [innermost, scopesOn, scopeIn, opensScope, hn]
  · simp [innermost, scopesOn, scopeIn, opensScope, hn]

variable {rules} {n : Node}

theorem innermost_cons_of_opens (h : rules.opensScope n = true) (above : List Node) :
    rules.innermost (n :: above) = .node n.id := by
  rw [innermost_cons]
  exact if_pos h

theorem innermost_cons_of_not_opens (h : ¬ rules.opensScope n = true) (above : List Node) :
    rules.innermost (n :: above) = rules.innermost above := by
  rw [innermost_cons]
  exact if_neg h

theorem scopesOn_cons_of_opens (h : rules.opensScope n = true) (above : List Node) :
    rules.scopesOn (n :: above) = .node n.id :: rules.scopesOn above := by
  rw [scopesOn, List.filter_cons_of_pos h]
  rfl

theorem scopesOn_cons_of_not_opens (h : ¬ rules.opensScope n = true) (above : List Node) :
    rules.scopesOn (n :: above) = rules.scopesOn above := by
  rw [scopesOn, List.filter_cons_of_neg h]
  rfl

variable (rules)

/-! ### Definitions -/

/-- The writes of the variables that are bound at a place. -/
def boundAt (p : Place) : List ((Scope × String) × NodeId) :=
  (rules.variablesOf p.node).map fun b => ((rules.innermost p.path, b.name), b.node.id)

/-- The write of the scope that is opened at a place. -/
def enteredAt (p : Place) : Option (NodeId × Scope) :=
  if rules.opensScope p.node then some (p.node.id, rules.innermost p.above) else none

theorem filterMap_exitSteps {α : Type} {f : ScopeStep → Option α} (hf : f .exitControlFlow = none)
    (n : Node) : (rules.exitSteps n).filterMap f = [] := by
  rw [exitSteps]
  split <;> simp [hf]

mutual

/-- The definition pass takes the steps into each place, in pre-order, where the steps out of a node do
not count. -/
theorem filterMap_declare {α : Type} {f : ScopeStep → Option α} (hf : f .exitControlFlow = none)
    (above : List Node) :
    ∀ n : Node, (rules.declare (rules.innermost above) n).filterMap f =
      (n.placesUnder above).flatMap fun p =>
        (rules.entrySteps (rules.innermost p.above) p.node).filterMap f
  | ⟨kind, span, text, children⟩ => by
    rw [declare, List.filterMap_append, List.filterMap_append, rules.filterMap_exitSteps hf,
      ← innermost_cons, filterMap_declareAll hf, Node.placesUnder, List.flatMap_cons,
      List.append_nil]

theorem filterMap_declareAll {α : Type} {f : ScopeStep → Option α} (hf : f .exitControlFlow = none)
    (above : List Node) :
    ∀ ns : List Node, (rules.declareAll (rules.innermost above) ns).filterMap f =
      (Node.placesUnderAll above ns).flatMap fun p =>
        (rules.entrySteps (rules.innermost p.above) p.node).filterMap f
  | [] => rfl
  | n :: ns => by
    rw [declareAll, List.filterMap_append, filterMap_declare hf, filterMap_declareAll hf,
      Node.placesUnderAll, List.flatMap_append]

end

/-- Of the steps into a node, those of its definition are left where neither the scope it opens nor its
control-flow mark counts. -/
theorem filterMap_entrySteps {α : Type} {f : ScopeStep → Option α}
    (hscope : ∀ id outer, f (.enterScope id outer) = none)
    (hmark : ∀ id, f (.enterControlFlow id) = none) (outer : Scope) (n : Node) :
    (rules.entrySteps outer n).filterMap f =
      (((rules.definition n).map (bindingSteps n.id (rules.scopeIn outer n))).getD []).filterMap f := by
  have hopen : (if rules.introducesScope n.kind then [ScopeStep.enterScope n.id (some outer)]
      else []).filterMap f = [] := by
    split <;> simp [hscope]
  have hcontrol : (if rules.isControlFlow n.kind then [ScopeStep.enterControlFlow n.id]
      else []).filterMap f = [] := by
    split <;> simp [hmark]
  rw [entrySteps, List.filterMap_append, List.filterMap_append, hopen, hcontrol, List.nil_append,
    List.append_nil]

theorem filterMap_bound?_entrySteps (above : List Node) (n : Node) :
    (rules.entrySteps (rules.innermost above) n).filterMap ScopeStep.bound? =
      rules.boundAt ⟨n, above⟩ := by
  rw [rules.filterMap_entrySteps (fun _ _ => rfl) (fun _ => rfl), boundAt, variablesOf, Place.path,
    innermost_cons]
  cases rules.definition n with
  | none => rfl
  | some d =>
    cases d with
    | function name params =>
      cases name <;>
        simp [bindingSteps, ScopeStep.bound?, Definition.variables, List.filterMap_cons,
          Function.comp_def]
    | classLike name => simp [bindingSteps, ScopeStep.bound?, Definition.variables]
    | binds bindings => simp [bindingSteps, ScopeStep.bound?, Definition.variables, Function.comp_def]
    | imports bindings =>
      simp [bindingSteps, ScopeStep.bound?, Definition.variables, Function.comp_def]

/-- The definition pass binds the variables of each place, in pre-order. -/
theorem filterMap_bound?_declare (above : List Node) (n : Node) :
    (rules.declare (rules.innermost above) n).filterMap ScopeStep.bound? =
      (n.placesUnder above).flatMap rules.boundAt := by
  rw [rules.filterMap_declare rfl]
  congr 1
  funext p
  exact rules.filterMap_bound?_entrySteps p.above p.node

theorem filterMap_entered?_bindingSteps (id : NodeId) (scope : Scope) (d : Definition) :
    (bindingSteps id scope d).filterMap ScopeStep.entered? = [] := by
  cases d with
  | function name params => cases name <;> simp [bindingSteps, ScopeStep.entered?]
  | classLike name => simp [bindingSteps, ScopeStep.entered?]
  | binds bindings => simp [bindingSteps, ScopeStep.entered?]
  | imports bindings => simp [bindingSteps, ScopeStep.entered?]

theorem filterMap_entered?_entrySteps (above : List Node) (n : Node) :
    (rules.entrySteps (rules.innermost above) n).filterMap ScopeStep.entered? =
      (rules.enteredAt ⟨n, above⟩).toList := by
  have hdef : (((rules.definition n).map
      (bindingSteps n.id (rules.scopeIn (rules.innermost above) n))).getD []).filterMap
        ScopeStep.entered? = [] := by
    cases rules.definition n with
    | none => rfl
    | some d => exact filterMap_entered?_bindingSteps _ _ d
  have hmark : (if rules.isControlFlow n.kind then [ScopeStep.enterControlFlow n.id]
      else []).filterMap ScopeStep.entered? = [] := by
    split <;> rfl
  rw [entrySteps, List.filterMap_append, List.filterMap_append, hdef, hmark, List.append_nil,
    List.append_nil, enteredAt, opensScope]
  split <;> rfl

/-- The definition pass enters the scope of each place that opens one, in pre-order. -/
theorem filterMap_entered?_declare (above : List Node) (n : Node) :
    (rules.declare (rules.innermost above) n).filterMap ScopeStep.entered? =
      (n.placesUnder above).filterMap rules.enteredAt := by
  rw [rules.filterMap_declare rfl, List.filterMap_eq_flatMap_toList]
  congr 1
  funext p
  exact rules.filterMap_entered?_entrySteps p.above p.node

/-! ### Uses -/

/-- The edges that a place emits when uses are looked up. -/
def linksAt (table : ScopeTable) (p : Place) : List Edge :=
  rules.ownLinks table p.parent? (rules.innermost p.path) p.node

mutual

/-- The reference pass emits the edges of each place, in pre-order. -/
theorem links_eq_flatMap (table : ScopeTable) (above : List Node) :
    ∀ n : Node, rules.links table above.head? (rules.innermost above) n =
      (n.placesUnder above).flatMap (rules.linksAt table)
  | ⟨kind, span, text, children⟩ => by
    simp only [links, Node.placesUnder, List.flatMap_cons]
    rw [← innermost_cons, linksAll_eq_flatMap table]
    rfl

theorem linksAll_eq_flatMap (table : ScopeTable) (parent : Node) (above : List Node) :
    ∀ ns : List Node, rules.linksAll table parent (rules.innermost (parent :: above)) ns =
      (Node.placesUnderAll (parent :: above) ns).flatMap (rules.linksAt table)
  | [] => rfl
  | n :: ns => by
    rw [linksAll, Node.placesUnderAll, List.flatMap_append, linksAll_eq_flatMap table,
      ← links_eq_flatMap table (parent :: above) n]
    rfl

end

/-! ### The history as a tour -/

/-- The steps of the definition pass at a crossing, where the pass has come into the tree in some scope. -/
def crossingSteps (start : Scope) : Crossing → List ScopeStep
  | .enter p => rules.entrySteps (p.given rules.scopeIn start) p.node
  | .leave p => rules.exitSteps p.node

theorem given_scopeIn (p : Place) : p.given rules.scopeIn .global = rules.innermost p.above := by
  obtain ⟨node, above⟩ := p
  induction above with
  | nil => rfl
  | cons n above ih =>
    rw [innermost_cons, ← ih]
    rfl

mutual

/-- The definition pass goes on a tour: it takes the steps of each crossing, in order. -/
theorem declare_eq_flatMap (start : Scope) (above : List Node) :
    ∀ n : Node, rules.declare (Place.given rules.scopeIn start ⟨n, above⟩) n =
      (n.tourUnder above).flatMap (rules.crossingSteps start)
  | ⟨kind, span, text, children⟩ => by
    have hchildren := declareAll_eq_flatMap start ⟨kind, span, text, children⟩ above children
    rw [declare, hchildren, Node.tourUnder, List.flatMap_cons, List.flatMap_append, List.append_assoc]
    simp only [crossingSteps, List.flatMap_cons, List.flatMap_nil, List.append_nil]

theorem declareAll_eq_flatMap (start : Scope) (parent : Node) (above : List Node) :
    ∀ ns : List Node,
      rules.declareAll (rules.scopeIn (Place.given rules.scopeIn start ⟨parent, above⟩) parent) ns =
        (Node.tourUnderAll (parent :: above) ns).flatMap (rules.crossingSteps start)
  | [] => rfl
  | n :: ns => by
    have hn := declare_eq_flatMap start (parent :: above) n
    have hns := declareAll_eq_flatMap start parent above ns
    rw [declareAll, Node.tourUnderAll, List.flatMap_append, ← hns, ← hn]
    rfl

end

theorem declare_eq_tour (start : Scope) (root : Node) :
    rules.declare start root = root.tour.flatMap (rules.crossingSteps start) :=
  rules.declare_eq_flatMap start [] root

/-! ### What resolution returns -/

theorem scopes_resolve (hsem : rules.isSemantic = true) (root : Node) :
    (rules.resolve root).scopes = rules.tableOf root := by
  rw [resolve, if_pos hsem]

/-- Resolution lists the control-flow edges of a tree, and then the edges of each place in pre-order. -/
theorem edges_resolve (hsem : rules.isSemantic = true) (root : Node) :
    (rules.resolve root).edges =
      rules.controlEdges root ++ root.places.flatMap (rules.linksAt (rules.tableOf root)) := by
  have hlinks : rules.links (rules.tableOf root) none .global root =
      root.places.flatMap (rules.linksAt (rules.tableOf root)) :=
    rules.links_eq_flatMap (rules.tableOf root) [] root
  rw [resolve, if_pos hsem, ← hlinks]

/-- Every edge of resolution is a control-flow edge or comes from a place. -/
theorem mem_edges_resolve {root : Node} {e : Edge} (he : e ∈ (rules.resolve root).edges) :
    e ∈ rules.controlEdges root ∨ ∃ p ∈ root.places, e ∈ rules.linksAt (rules.tableOf root) p := by
  cases hsem : rules.isSemantic with
  | false =>
    rw [resolve, hsem] at he
    exact absurd he List.not_mem_nil
  | true =>
    rw [rules.edges_resolve hsem, List.mem_append, List.mem_flatMap] at he
    exact he

theorem kind_of_mem_controlEdges {root : Node} {e : Edge} (he : e ∈ rules.controlEdges root) :
    e.kind = .controlFlow := by
  obtain ⟨n, -, hn⟩ := List.mem_filterMap.mp he
  rw [controlEdge?] at hn
  split at hn
  · obtain ⟨body, -, rfl⟩ := Option.map_eq_some_iff.mp hn
    rfl
  · cases hn

end ScopingRules

end CodeGraph
