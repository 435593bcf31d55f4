import CodeGraph.Graph.Edge
import CodeGraph.Scope.Table
import CodeGraph.Scoping.Rules

/-!
# Name resolution

Resolution goes over a tree twice. `declare` collects every definition as a history of scope steps,
and `links` then looks the uses up in the finished table. A use may therefore come before its
definition. Control-flow edges depend on the tree alone.
-/

namespace CodeGraph

/-- What resolution finds: the edges between names, and the table they were looked up in. -/
structure Resolution where
  edges : List Edge
  scopes : ScopeTable

namespace ScopingRules

variable (rules : ScopingRules)

/-- The scope inside a node. -/
def scopeIn (outer : Scope) (n : Node) : Scope :=
  if rules.introducesScope n.kind then .node n.id else outer

/-- The steps that record a definition made by a node in a scope. -/
def bindingSteps (id : NodeId) (scope : Scope) : Definition → List ScopeStep
  | .function name params =>
    (name.map fun b => ScopeStep.addFunction b.name id).toList ++
      params.map fun b => .addVariable b.name b.node.id scope
  | .classLike name => [.addClass name.name id]
  | .binds bindings => bindings.map fun b => .addVariable b.name b.node.id scope
  | .imports bindings => bindings.map fun b => .addImport b.name b.node.id

/-- The steps on the way into a node: its scope, its definitions, and its control-flow mark. -/
def entrySteps (outer : Scope) (n : Node) : List ScopeStep :=
  (if rules.introducesScope n.kind then [ScopeStep.enterScope n.id (some outer)] else []) ++
    ((rules.definition n).map (bindingSteps n.id (rules.scopeIn outer n))).getD [] ++
    (if rules.isControlFlow n.kind then [ScopeStep.enterControlFlow n.id] else [])

/-- The steps on the way out of a node. -/
def exitSteps (n : Node) : List ScopeStep :=
  if rules.isControlFlow n.kind then [.exitControlFlow] else []

mutual

/-- The history of the definitions of a tree that lies in a scope. -/
def declare (outer : Scope) : Node → List ScopeStep
  | ⟨kind, span, text, children⟩ =>
    let n : Node := ⟨kind, span, text, children⟩
    rules.entrySteps outer n ++ declareAll (rules.scopeIn outer n) children ++ rules.exitSteps n

/-- The history of the definitions of a forest that lies in a scope. -/
def declareAll (outer : Scope) : List Node → List ScopeStep
  | [] => []
  | n :: ns => declare outer n ++ declareAll outer ns

end

/-- The edge from a control-flow construct to its body. -/
def controlEdge? (n : Node) : Option Edge :=
  if rules.isControlFlow n.kind then
    (rules.controlBody n).map fun body => ⟨n.id, body.id, .controlFlow⟩
  else none

/-- The control-flow edges of a tree, in pre-order. -/
def controlEdges (root : Node) : List Edge := root.walk.filterMap rules.controlEdge?

end ScopingRules

namespace ScopeTable

/-- The edges of a call: to the function of the callee's name, and to the import of that name. -/
def callEdges (table : ScopeTable) (callee : Node) : List Edge :=
  ((table.findFunction callee.text).map fun target => Edge.mk callee.id target .calls).toList ++
    ((table.findImport callee.text).map fun target => Edge.mk callee.id target .callsImport).toList

/-- The edge of a use to what its name means in a scope; none leads from a node to itself. -/
def referenceEdges (table : ScopeTable) (scope : Scope) (n : Node) : List Edge :=
  match table.findVariable n.text scope with
  | none => []
  | some target => if target = n.id then [] else [⟨n.id, target, .references⟩]

end ScopeTable

namespace ScopingRules

variable (rules : ScopingRules)

/-- Whether a child of `parent` is a name being defined; the root is not. -/
def isDefining (parent : Option Node) (n : Node) : Bool :=
  match parent with
  | none => false
  | some p => rules.isDefinitionSite p n

/-- The edges that one node emits, in the scope inside it. -/
def ownLinks (table : ScopeTable) (parent : Option Node) (scope : Scope) (n : Node) : List Edge :=
  if rules.isCall n.kind then
    match rules.callee n with
    | none => []
    | some callee => table.callEdges callee
  else if rules.isReference n.kind then
    if rules.isDefining parent n then [] else table.referenceEdges scope n
  else []

mutual

/-- The call and reference edges of a tree that lies in a scope, in pre-order. -/
def links (table : ScopeTable) (parent : Option Node) (outer : Scope) : Node → List Edge
  | ⟨kind, span, text, children⟩ =>
    let n : Node := ⟨kind, span, text, children⟩
    let scope := rules.scopeIn outer n
    rules.ownLinks table parent scope n ++ linksAll table n scope children

/-- The call and reference edges of the children of a node. -/
def linksAll (table : ScopeTable) (parent : Node) (outer : Scope) : List Node → List Edge
  | [] => []
  | n :: ns => links table (some parent) outer n ++ linksAll table parent outer ns

end

/-- The table that the definitions of a tree leave. -/
def tableOf (root : Node) : ScopeTable := ScopeTable.ofSteps (rules.declare .global root)

/-- Resolve the names of a tree. Structural rules find nothing. -/
def resolve (root : Node) : Resolution :=
  if rules.isSemantic then
    let table := rules.tableOf root
    ⟨rules.controlEdges root ++ rules.links table none .global root, table⟩
  else ⟨[], .empty⟩

end ScopingRules

end CodeGraph
