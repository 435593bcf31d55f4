import CodeGraph.Proofs.Scope.Passes
import CodeGraph.Scoping.RuleBook

/-!
# Calls are resolved by name alone

Functions and imports are named for the whole program. Whatever the shape of the tree, and also where nodes
share a name, a call leads to the last function of its callee's name anywhere in the tree, and after that to
the last import of the name; neither the scopes nor the order of call and definition matter. These edges of
resolution are listed without any table in `ScopingRules.callGraph`.
-/

namespace CodeGraph

/-- Whether an edge leads from a callee to what it names. -/
def Edge.isOfCall (e : Edge) : Bool := e.kind == .calls || e.kind == .callsImport

/-- The name under which a definition adds a function. -/
def Definition.functionName? : Definition → Option String
  | .function (some name) _ => some name.name
  | _ => none

/-- The names that a definition imports. -/
def Definition.imported : Definition → List Binding
  | .imports bindings => bindings
  | _ => []

namespace ScopingRules

variable (rules : ScopingRules)

/-- The name of the function that a node defines. -/
def functionNameOf? (n : Node) : Option String :=
  (rules.definition n).bind Definition.functionName?

/-- The names that a node imports, in the order of its definition. -/
def importsOf (n : Node) : List Binding := ((rules.definition n).map Definition.imported).getD []

/-- The last node of a tree, in pre-order, that defines a function of a name. -/
def lastFunction? (root : Node) (name : String) : Option Node :=
  (root.walk.filter fun n => rules.functionNameOf? n = some name).getLast?

/-- The last import of a name in a tree: in pre-order of the importing nodes, and then in the order of their
definition. -/
def lastImport? (root : Node) (name : String) : Option Binding :=
  ((root.walk.flatMap rules.importsOf).filter fun b => b.name = name).getLast?

/-- The edges of a callee: to the last function of its name, and then to the last import of its name. -/
def calleeEdges (root callee : Node) : List Edge :=
  ((rules.lastFunction? root callee.text).map fun n => Edge.mk callee.id n.id .calls).toList ++
    ((rules.lastImport? root callee.text).map fun b =>
      Edge.mk callee.id b.node.id .callsImport).toList

/-- The edges of a call. Its callee is its first child that is an identifier; a call without one has no
edges. -/
def callEdgesOf (root call : Node) : List Edge :=
  match call.childOfKind? "identifier" with
  | none => []
  | some callee => rules.calleeEdges root callee

/-- The edges of the calls of a tree, in pre-order of the calls. -/
def callGraph (root : Node) : List Edge :=
  (root.walk.filter fun n => rules.isCall n.kind).flatMap (rules.callEdgesOf root)

/-! ### The functions and imports of the finished table -/

variable {rules}

theorem filterMap_functionAdded?_entrySteps (outer : Scope) (n : Node) :
    (rules.entrySteps outer n).filterMap ScopeStep.functionAdded? =
      ((rules.functionNameOf? n).map fun name => (name, n.id)).toList := by
  rw [rules.filterMap_entrySteps (fun _ _ => rfl) (fun _ => rfl), functionNameOf?]
  cases rules.definition n with
  | none => rfl
  | some d =>
    cases d with
    | function name params =>
      cases name <;> simp [bindingSteps, ScopeStep.functionAdded?, Definition.functionName?]
    | classLike name => simp [bindingSteps, ScopeStep.functionAdded?, Definition.functionName?]
    | binds bindings => simp [bindingSteps, ScopeStep.functionAdded?, Definition.functionName?]
    | imports bindings => simp [bindingSteps, ScopeStep.functionAdded?, Definition.functionName?]

theorem filterMap_importAdded?_entrySteps (outer : Scope) (n : Node) :
    (rules.entrySteps outer n).filterMap ScopeStep.importAdded? =
      (rules.importsOf n).map fun b => (b.name, b.node.id) := by
  rw [rules.filterMap_entrySteps (fun _ _ => rfl) (fun _ => rfl), importsOf]
  cases rules.definition n with
  | none => rfl
  | some d =>
    cases d with
    | function name params =>
      cases name <;>
        simp [bindingSteps, ScopeStep.importAdded?, Definition.imported, List.filterMap_cons]
    | classLike name => simp [bindingSteps, ScopeStep.importAdded?, Definition.imported]
    | binds bindings => simp [bindingSteps, ScopeStep.importAdded?, Definition.imported]
    | imports bindings =>
      simp [bindingSteps, ScopeStep.importAdded?, Definition.imported, Function.comp_def]

/-- What does not depend on the scope is declared node by node. -/
theorem filterMap_declare_global {α : Type} {f : ScopeStep → Option α}
    (hf : f .exitControlFlow = none) {g : Node → List α}
    (hg : ∀ outer n, (rules.entrySteps outer n).filterMap f = g n) (root : Node) :
    (rules.declare .global root).filterMap f = root.walk.flatMap g := by
  have hdeclare := rules.filterMap_declare hf [] root
  simp only [hg] at hdeclare
  rw [innermost_nil] at hdeclare
  rw [hdeclare, ← Node.map_node_places, List.flatMap_map]
  rfl

/-- In a table of names into which a node writes itself under at most one name, a name has the last node, in
pre-order, that writes it. -/
theorem get?_tableOf {g : ScopeTable.Group String NodeId} {nameOf? : Node → Option String}
    (hexit : g.written? .exitControlFlow = none)
    (hentry : ∀ outer n, (rules.entrySteps outer n).filterMap g.written? =
      ((nameOf? n).map fun name => (name, n.id)).toList) (root : Node) (name : String) :
    (g.writes (rules.tableOf root)).get? name =
      ((root.walk.filter fun n => nameOf? n = some name).getLast?).map Node.id := by
  rw [tableOf, g.get?_ofSteps, filterMap_declare_global hexit hentry, ← List.getLast?_map]
  congr 1
  induction root.walk with
  | nil => rfl
  | cons n ns ih =>
    rw [List.flatMap_cons, List.filter_append, List.map_append, ih]
    by_cases hn : nameOf? n = some name
    · simp [hn]
    · cases hname : nameOf? n with
      | none => simp [hname]
      | some other =>
        have hne : other ≠ name := fun h => hn (hname.trans (congrArg some h))
        simp [hname, hne]

theorem findFunction_tableOf (root : Node) (name : String) :
    (rules.tableOf root).findFunction name = (rules.lastFunction? root name).map Node.id :=
  get?_tableOf (g := .functions) rfl filterMap_functionAdded?_entrySteps root name

theorem findImport_tableOf (root : Node) (name : String) :
    (rules.tableOf root).findImport name =
      (rules.lastImport? root name).map fun b => b.node.id := by
  rw [tableOf, ScopeTable.findImport_ofSteps,
    filterMap_declare_global rfl filterMap_importAdded?_entrySteps, lastImport?,
    ← List.getLast?_map]
  congr 1
  induction root.walk with
  | nil => rfl
  | cons n ns ih =>
    rw [List.flatMap_cons, List.flatMap_cons, List.filter_append, List.filter_append,
      List.map_append, List.map_append, ih]
    congr 1
    simp [List.filter_map, Function.comp_def]

theorem callEdges_tableOf (root callee : Node) :
    (rules.tableOf root).callEdges callee = rules.calleeEdges root callee := by
  rw [ScopeTable.callEdges, findFunction_tableOf, findImport_tableOf, calleeEdges, Option.map_map,
    Option.map_map]
  rfl

/-! ### The edges of the second pass -/

theorem filter_isOfCall_calleeEdges (root callee : Node) :
    (rules.calleeEdges root callee).filter Edge.isOfCall = rules.calleeEdges root callee := by
  rw [calleeEdges]
  cases rules.lastFunction? root callee.text <;> cases rules.lastImport? root callee.text <;> rfl

theorem filter_isOfCall_controlEdges (root : Node) :
    (rules.controlEdges root).filter Edge.isOfCall = [] := by
  refine List.filter_eq_nil_iff.mpr fun e he => ?_
  rw [Edge.isOfCall, rules.kind_of_mem_controlEdges he]
  decide

theorem filter_isOfCall_referenceEdges (table : ScopeTable) (scope : Scope) (n : Node) :
    (table.referenceEdges scope n).filter Edge.isOfCall = [] := by
  rw [ScopeTable.referenceEdges]
  cases table.findVariable n.text scope with
  | none => rfl
  | some target => by_cases ht : target = n.id <;> simp [ht, Edge.isOfCall]

/-- The rules of every language find the callee of a call at its first identifier. -/
theorem callee_of_mem_builtIn (hrules : rules ∈ builtIn) (hsem : rules.isSemantic = true)
    (call : Node) : rules.callee call = call.childOfKind? "identifier" := by
  rcases mem_builtIn.mp hrules with rfl | rfl | rfl | rfl
  · rfl
  · rfl
  · rfl
  · cases hsem

/-- The call edges that a place emits are those of its callee. -/
theorem filter_isOfCall_linksAt (hrules : rules ∈ builtIn) (hsem : rules.isSemantic = true)
    (root : Node) (p : Place) :
    (rules.linksAt (rules.tableOf root) p).filter Edge.isOfCall =
      if rules.isCall p.node.kind then rules.callEdgesOf root p.node else [] := by
  rw [linksAt, ownLinks]
  by_cases hcall : rules.isCall p.node.kind = true
  · rw [if_pos hcall, if_pos hcall, callee_of_mem_builtIn hrules hsem, callEdgesOf]
    cases p.node.childOfKind? "identifier" with
    | none => rfl
    | some callee =>
      show ((rules.tableOf root).callEdges callee).filter Edge.isOfCall = _
      rw [callEdges_tableOf, filter_isOfCall_calleeEdges]
  · rw [if_neg hcall, if_neg hcall]
    split
    · split
      · rfl
      · exact filter_isOfCall_referenceEdges _ _ _
    · rfl

/-- **Call resolution is by name alone.** For the rules of every language and every tree, also where nodes share
a name, the call edges of resolution are, in order, those of the call graph: it knows no scopes and does not ask
whether a definition comes before the call. -/
theorem calls_resolve_eq_callGraph (hrules : rules ∈ builtIn) (hsem : rules.isSemantic = true)
    (root : Node) : (rules.resolve root).edges.filter Edge.isOfCall = rules.callGraph root := by
  rw [rules.edges_resolve hsem, List.filter_append, filter_isOfCall_controlEdges, List.nil_append,
    List.filter_flatMap, callGraph, ← Node.map_node_places]
  induction root.places with
  | nil => rfl
  | cons p ps ih =>
    rw [List.flatMap_cons, filter_isOfCall_linksAt hrules hsem, ih, List.map_cons, List.filter_cons]
    by_cases hcall : rules.isCall p.node.kind = true
    · rw [if_pos hcall, if_pos hcall, List.flatMap_cons]
    · rw [if_neg hcall, if_neg hcall, List.nil_append]

open Node (token around)

/-- A module that calls `f` before anything of that name is there, imports an `f`, and defines two functions
`f` of one kind and range after it. -/
def earlyCallTree : Node :=
  around "module" 0 60
    [around "call" 0 3 [token "identifier" 0 "f", around "argument_list" 1 3 []],
      around "import_statement" 5 13 [token "import" 5 "import", token "dotted_name" 12 "f"],
      around "function_definition" 20 40
        [token "identifier" 24 "f", around "block" 30 40 [around "call" 30 33 [token "identifier" 30 "g"]]],
      around "function_definition" 20 40 [token "identifier" 24 "f"]]

theorem calls_resolve_earlyCallTree :
    Python.rules ∈ builtIn ∧ Python.rules.isSemantic = true ∧
      (Python.rules.resolve earlyCallTree).edges.filter Edge.isOfCall =
        Python.rules.callGraph earlyCallTree ∧
      Python.rules.callGraph earlyCallTree =
        [⟨⟨"identifier_0_1"⟩, ⟨"function_definition_20_40"⟩, .calls⟩,
          ⟨⟨"identifier_0_1"⟩, ⟨"dotted_name_12_13"⟩, .callsImport⟩] := by
  have hrules : Python.rules ∈ builtIn := List.mem_cons_self
  have hsem : Python.rules.isSemantic = true := rfl
  exact ⟨hrules, hsem, calls_resolve_eq_callGraph hrules hsem earlyCallTree, by decide⟩

end ScopingRules

end CodeGraph
