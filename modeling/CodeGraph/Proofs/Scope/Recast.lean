import CodeGraph.Proofs.Tree.Recast
import CodeGraph.Scope.Resolution
import Mathlib.Data.Prod.Basic

/-!
# Resolution of a recast tree

Rules fit a recast where they read of a tree nothing that the recast changes. Then every step that the first pass
takes on the recast tree is a step that it takes on the tree, recast; so all tables of names correspond entry by
entry, every look-up in them has the corresponding answer, and the second pass emits the corresponding edges in the
same order. Main statement: `Recast.resolve_node`.
-/

namespace CodeGraph

namespace Writes

variable {κ ν κ' ν' : Type}

/-- A table with other keys and values. -/
def map (f : κ → κ') (g : ν → ν') (t : Writes κ ν) : Writes κ' ν' := ⟨t.entries.map (Prod.map f g)⟩

/-- Where keys stay different, the newest value of a key is the one it was. -/
theorem get?_map [DecidableEq κ] [DecidableEq κ'] {f : κ → κ'} (hf : Function.Injective f)
    (g : ν → ν') (t : Writes κ ν) (key : κ) : (t.map f g).get? (f key) = (t.get? key).map g := by
  obtain ⟨entries⟩ := t
  show newest? (f key) (entries.map (Prod.map f g)) = (newest? key entries).map g
  induction entries with
  | nil => rfl
  | cons e entries ih =>
    obtain ⟨k, v⟩ := e
    by_cases hk : k = key
    · simp [newest?, hk]
    · simp [newest?, hk, hf.eq_iff, ih]

end Writes

namespace Recast

variable (ρ : Recast)

/-- What becomes of a scope. -/
def scope : Scope → Scope
  | .global => .global
  | .node id => .node (ρ.id id)

/-- What becomes of a binding. -/
def binding (b : Binding) : Binding := ⟨ρ.text b.name, ρ.node b.node⟩

/-- What becomes of a definition. -/
def definition : Definition → Definition
  | .function name params => .function (name.map ρ.binding) (params.map ρ.binding)
  | .classLike name => .classLike (ρ.binding name)
  | .binds bindings => .binds (bindings.map ρ.binding)
  | .imports bindings => .imports (bindings.map ρ.binding)

/-- What becomes of a step. -/
def step : ScopeStep → ScopeStep
  | .enterScope id parent => .enterScope (ρ.id id) (parent.map ρ.scope)
  | .addVariable name id scope => .addVariable (ρ.text name) (ρ.id id) (ρ.scope scope)
  | .addFunction name id => .addFunction (ρ.text name) (ρ.id id)
  | .addClass name id => .addClass (ρ.text name) (ρ.id id)
  | .addImport name id => .addImport (ρ.text name) (ρ.id id)
  | .enterControlFlow id => .enterControlFlow (ρ.id id)
  | .exitControlFlow => .exitControlFlow

/-- What becomes of a scope table. -/
def table (t : ScopeTable) : ScopeTable where
  parents := t.parents.map ρ.id ρ.scope
  bindings := t.bindings.map (Prod.map ρ.scope ρ.text) ρ.id
  functions := t.functions.map ρ.text ρ.id
  classes := t.classes.map ρ.text ρ.id
  imports := t.imports.map ρ.text ρ.id
  marks := t.marks.map ρ.id

/-- What becomes of an edge. -/
def edge (e : Edge) : Edge := ⟨ρ.id e.source, ρ.id e.target, e.kind⟩

/-- What rules say of a node is said of the recast node, recast. Of kinds they may say what they like. -/
structure Fits (rules : ScopingRules) : Prop where
  definition : ∀ n, rules.definition (ρ.node n) = (rules.definition n).map ρ.definition
  controlBody : ∀ n, rules.controlBody (ρ.node n) = (rules.controlBody n).map ρ.node
  callee : ∀ n, rules.callee (ρ.node n) = (rules.callee n).map ρ.node
  isDefinitionSite : ∀ parent n,
    rules.isDefinitionSite (ρ.node parent) (ρ.node n) = rules.isDefinitionSite parent n

theorem scope_injective : Function.Injective ρ.scope := by
  intro s t h
  cases s with
  | global =>
    cases t with
    | global => rfl
    | node id => cases h
  | node id =>
    cases t with
    | global => cases h
    | node id' => rw [ρ.id_injective (Scope.node.inj h)]

/-! ### The first pass -/

section Declarations

variable {ρ} {rules : ScopingRules}

theorem scopeIn_node (outer : Scope) (n : Node) :
    rules.scopeIn (ρ.scope outer) (ρ.node n) = ρ.scope (rules.scopeIn outer n) := by
  rw [ScopingRules.scopeIn, ScopingRules.scopeIn, kind_node, id_node]
  split <;> rfl

theorem bindingSteps_definition (id : NodeId) (scope : Scope) (d : Definition) :
    ScopingRules.bindingSteps (ρ.id id) (ρ.scope scope) (ρ.definition d) =
      (ScopingRules.bindingSteps id scope d).map ρ.step := by
  cases d with
  | function name params =>
    cases name <;> simp [ScopingRules.bindingSteps, definition, binding, step, Function.comp_def]
  | classLike name => rfl
  | binds bindings => simp [ScopingRules.bindingSteps, definition, binding, step, Function.comp_def]
  | imports bindings => simp [ScopingRules.bindingSteps, definition, binding, step, Function.comp_def]

theorem entrySteps_node (h : ρ.Fits rules) (outer : Scope) (n : Node) :
    rules.entrySteps (ρ.scope outer) (ρ.node n) = (rules.entrySteps outer n).map ρ.step := by
  have hopen : (if rules.introducesScope (ρ.node n).kind then
      [ScopeStep.enterScope (ρ.node n).id (some (ρ.scope outer))] else []) =
      (if rules.introducesScope n.kind then [ScopeStep.enterScope n.id (some outer)] else []).map
        ρ.step := by
    rw [kind_node, id_node]
    split <;> rfl
  have hdefine : ((rules.definition (ρ.node n)).map (ScopingRules.bindingSteps (ρ.node n).id
      (rules.scopeIn (ρ.scope outer) (ρ.node n)))).getD [] =
      (((rules.definition n).map
        (ScopingRules.bindingSteps n.id (rules.scopeIn outer n))).getD []).map ρ.step := by
    rw [h.definition, id_node, scopeIn_node]
    cases rules.definition n with
    | none => rfl
    | some d => exact bindingSteps_definition n.id _ d
  have hmark : (if rules.isControlFlow (ρ.node n).kind then
      [ScopeStep.enterControlFlow (ρ.node n).id] else []) =
      (if rules.isControlFlow n.kind then [ScopeStep.enterControlFlow n.id] else []).map ρ.step := by
    rw [kind_node, id_node]
    split <;> rfl
  rw [ScopingRules.entrySteps, hopen, hdefine, hmark, ← List.map_append, ← List.map_append,
    ScopingRules.entrySteps]

theorem exitSteps_node (n : Node) : rules.exitSteps (ρ.node n) = (rules.exitSteps n).map ρ.step := by
  rw [ScopingRules.exitSteps, ScopingRules.exitSteps, kind_node]
  split <;> rfl

mutual

/-- The first pass takes the same steps, recast. -/
theorem declare_node (h : ρ.Fits rules) (outer : Scope) :
    ∀ n : Node, rules.declare (ρ.scope outer) (ρ.node n) = (rules.declare outer n).map ρ.step
  | ⟨kind, s, t, children⟩ => by
    rw [ρ.node_mk, ScopingRules.declare, ScopingRules.declare, ← ρ.node_mk, entrySteps_node h,
      scopeIn_node, exitSteps_node, declareAll_map_node h _ children, List.map_append,
      List.map_append]

theorem declareAll_map_node (h : ρ.Fits rules) (outer : Scope) :
    ∀ ns : List Node, rules.declareAll (ρ.scope outer) (ns.map ρ.node) =
      (rules.declareAll outer ns).map ρ.step
  | [] => rfl
  | n :: ns => by
    rw [List.map_cons, ScopingRules.declareAll, declare_node h outer n,
      declareAll_map_node h outer ns, ScopingRules.declareAll, List.map_append]

end

end Declarations

/-! ### Tables -/

/-- A step changes the recast table as it changes the table. -/
theorem table_apply (t : ScopeTable) (s : ScopeStep) :
    ρ.table (t.apply s) = (ρ.table t).apply (ρ.step s) := by
  cases s with
  | enterScope id parent => cases parent <;> rfl
  | exitControlFlow => simp [ScopeTable.apply, step, table, List.map_tail]
  | addVariable name id scope => rfl
  | addFunction name id => rfl
  | addClass name id => rfl
  | addImport name id => rfl
  | enterControlFlow id => rfl

theorem table_applyAll (steps : List ScopeStep) (t : ScopeTable) :
    ρ.table (t.applyAll steps) = (ρ.table t).applyAll (steps.map ρ.step) := by
  induction steps generalizing t with
  | nil => rfl
  | cons s steps ih =>
    rw [ScopeTable.applyAll_cons, ih, table_apply, List.map_cons, ScopeTable.applyAll_cons]

/-- The table of a recast tree is the table of the tree, recast. -/
theorem tableOf_node {rules : ScopingRules} (h : ρ.Fits rules) (root : Node) :
    rules.tableOf (ρ.node root) = ρ.table (rules.tableOf root) := by
  have hsteps : rules.declare .global (ρ.node root) = (rules.declare .global root).map ρ.step :=
    declare_node h .global root
  rw [ScopingRules.tableOf, hsteps]
  exact (ρ.table_applyAll (rules.declare .global root) .empty).symm

section LookUps

variable (t : ScopeTable)

theorem findFunction_table (name : String) :
    (ρ.table t).findFunction (ρ.text name) = (t.findFunction name).map ρ.id :=
  Writes.get?_map ρ.text_injective ρ.id t.functions name

theorem findImport_table (name : String) :
    (ρ.table t).findImport (ρ.text name) = (t.findImport name).map ρ.id :=
  Writes.get?_map ρ.text_injective ρ.id t.imports name

theorem lookupLocal_table (scope : Scope) (name : String) :
    (ρ.table t).lookupLocal (ρ.scope scope) (ρ.text name) = (t.lookupLocal scope name).map ρ.id :=
  Writes.get?_map (ρ.scope_injective.prodMap ρ.text_injective) ρ.id t.bindings (scope, name)

theorem parent?_table (scope : Scope) :
    (ρ.table t).parent? (ρ.scope scope) = (t.parent? scope).map ρ.scope := by
  cases scope with
  | global => rfl
  | node id => exact Writes.get?_map ρ.id_injective ρ.scope t.parents id

theorem wayOut_table : (ρ.table t).wayOut = t.wayOut := List.length_map _

theorem findWithin_table (name : String) (fuel : Nat) (scope : Scope) :
    (ρ.table t).findWithin (ρ.text name) fuel (ρ.scope scope) =
      (t.findWithin name fuel scope).map ρ.id := by
  induction fuel generalizing scope with
  | zero => exact ρ.lookupLocal_table t scope name
  | succ fuel ih =>
    rw [ScopeTable.findWithin, ScopeTable.findWithin, lookupLocal_table, parent?_table]
    cases t.lookupLocal scope name with
    | some id => rfl
    | none =>
      cases t.parent? scope with
      | none => rfl
      | some outer => exact ih outer

theorem findVariable_table (name : String) (scope : Scope) :
    (ρ.table t).findVariable (ρ.text name) (ρ.scope scope) =
      (t.findVariable name scope).map ρ.id := by
  rw [ScopeTable.findVariable, wayOut_table, findWithin_table, ScopeTable.findVariable]

end LookUps

/-! ### The second pass -/

section Links

variable {ρ} {rules : ScopingRules}

theorem callEdges_table (t : ScopeTable) (callee : Node) :
    (ρ.table t).callEdges (ρ.node callee) = (t.callEdges callee).map ρ.edge := by
  rw [ScopeTable.callEdges, ScopeTable.callEdges, text_node, id_node, findFunction_table,
    findImport_table]
  cases t.findFunction callee.text <;> cases t.findImport callee.text <;> rfl

theorem referenceEdges_table (t : ScopeTable) (scope : Scope) (n : Node) :
    (ρ.table t).referenceEdges (ρ.scope scope) (ρ.node n) =
      (t.referenceEdges scope n).map ρ.edge := by
  rw [ScopeTable.referenceEdges, ScopeTable.referenceEdges, text_node, id_node, findVariable_table]
  cases t.findVariable n.text scope with
  | none => rfl
  | some target => by_cases ht : target = n.id <;> simp [ht, ρ.id_injective.eq_iff, edge]

theorem isDefining_node (h : ρ.Fits rules) (parent : Option Node) (n : Node) :
    rules.isDefining (parent.map ρ.node) (ρ.node n) = rules.isDefining parent n := by
  cases parent with
  | none => rfl
  | some p => exact h.isDefinitionSite p n

/-- A recast node emits the edges of the node, recast. -/
theorem ownLinks_node (h : ρ.Fits rules) (t : ScopeTable) (parent : Option Node) (scope : Scope)
    (n : Node) :
    rules.ownLinks (ρ.table t) (parent.map ρ.node) (ρ.scope scope) (ρ.node n) =
      (rules.ownLinks t parent scope n).map ρ.edge := by
  rw [ScopingRules.ownLinks, ScopingRules.ownLinks, kind_node, h.callee, isDefining_node h]
  split
  · cases rules.callee n with
    | none => rfl
    | some callee => exact callEdges_table t callee
  split
  · split
    · rfl
    · exact referenceEdges_table t scope n
  · rfl

mutual

/-- The second pass emits the same edges, recast. -/
theorem links_node (h : ρ.Fits rules) (t : ScopeTable) (parent : Option Node) (outer : Scope) :
    ∀ n : Node, rules.links (ρ.table t) (parent.map ρ.node) (ρ.scope outer) (ρ.node n) =
      (rules.links t parent outer n).map ρ.edge
  | ⟨kind, s, text, children⟩ => by
    rw [ρ.node_mk, ScopingRules.links, ScopingRules.links, ← ρ.node_mk, scopeIn_node,
      ownLinks_node h, linksAll_map_node h t _ _ children, List.map_append]

theorem linksAll_map_node (h : ρ.Fits rules) (t : ScopeTable) (parent : Node) (outer : Scope) :
    ∀ ns : List Node, rules.linksAll (ρ.table t) (ρ.node parent) (ρ.scope outer) (ns.map ρ.node) =
      (rules.linksAll t parent outer ns).map ρ.edge
  | [] => rfl
  | n :: ns => by
    have hn : rules.links (ρ.table t) (some (ρ.node parent)) (ρ.scope outer) (ρ.node n) =
        (rules.links t (some parent) outer n).map ρ.edge := links_node h t (some parent) outer n
    rw [List.map_cons, ScopingRules.linksAll, hn, linksAll_map_node h t parent outer ns,
      ScopingRules.linksAll, List.map_append]

end

theorem controlEdge?_node (h : ρ.Fits rules) (n : Node) :
    rules.controlEdge? (ρ.node n) = (rules.controlEdge? n).map ρ.edge := by
  rw [ScopingRules.controlEdge?, ScopingRules.controlEdge?, kind_node, id_node, h.controlBody]
  split
  · cases rules.controlBody n with
    | none => rfl
    | some body => simp [edge]
  · rfl

theorem controlEdges_node (h : ρ.Fits rules) (root : Node) :
    rules.controlEdges (ρ.node root) = (rules.controlEdges root).map ρ.edge := by
  rw [ScopingRules.controlEdges, ScopingRules.controlEdges, walk_node, List.filterMap_map,
    List.map_filterMap]
  exact List.filterMap_congr fun n _ => controlEdge?_node h n

/-- **Resolution commutes with a recast that the rules fit**: the edges are the same in the same order, and so are
all tables of names. -/
theorem resolve_node (h : ρ.Fits rules) (root : Node) :
    rules.resolve (ρ.node root) =
      ⟨(rules.resolve root).edges.map ρ.edge, ρ.table (rules.resolve root).scopes⟩ := by
  rw [ScopingRules.resolve, ScopingRules.resolve]
  split
  · have hlinks : rules.links (ρ.table (rules.tableOf root)) none .global (ρ.node root) =
        (rules.links (rules.tableOf root) none .global root).map ρ.edge :=
      links_node h (rules.tableOf root) none .global root
    simp only [tableOf_node ρ h, hlinks, controlEdges_node h, List.map_append]
  · rfl

end Links

end Recast

end CodeGraph
