import CodeGraph.Proofs.Scope.Recast
import CodeGraph.Scoping.RuleBook

/-!
# The rules of the languages fit recasts

The rules of every language look at kinds, at the order of children, and at where one node begins or ends before
another; texts they only copy, as the names of bindings. Go alone takes a text apart, the path of an import, and so its
rules fit the recasts that leave texts alone. Main statements: `Python.fits`, `EcmaScript.fits`, `Go.fits`.
-/

namespace CodeGraph

namespace Recast

variable (ρ : Recast)

@[simp] theorem binding_of (n : Node) : Binding.of (ρ.node n) = ρ.binding (Binding.of n) := by
  rw [Binding.of, text_node]
  rfl

@[simp] theorem map_binding_of (n : Option Node) :
    (n.map ρ.node).map Binding.of = (n.map Binding.of).map ρ.binding := by
  cases n with
  | none => rfl
  | some n => exact congrArg some (ρ.binding_of n)

@[simp] theorem bindings_of (ns : List Node) :
    (ns.map ρ.node).map Binding.of = (ns.map Binding.of).map ρ.binding := by
  rw [List.map_map, List.map_map]
  exact List.map_congr_left fun n _ => ρ.binding_of n

theorem childOfKind?_map_node (n : Option Node) (kind : String) :
    (n.map ρ.node).bind (·.childOfKind? kind) = (n.bind (·.childOfKind? kind)).map ρ.node := by
  cases n with
  | none => rfl
  | some n => exact ρ.childOfKind?_node n kind

/-- The last identifier among the children of a node. -/
theorem lastIdentifier_node (n : Node) :
    (ρ.node n).children.reverse.find? (·.kind == "identifier") =
      (n.children.reverse.find? (·.kind == "identifier")).map ρ.node := by
  rw [children_node, ← List.map_reverse]
  exact ρ.find?_map_node (· == "identifier") n.children.reverse

theorem filterMap_map_node {f : Node → Option Binding}
    (hf : ∀ n, f (ρ.node n) = (f n).map ρ.binding) (ns : List Node) :
    (ns.map ρ.node).filterMap f = (ns.filterMap f).map ρ.binding := by
  rw [List.filterMap_map, List.map_filterMap]
  exact List.filterMap_congr fun n _ => hf n

mutual

theorem patternLeaves_node (leafKinds patternKinds : List String) :
    ∀ n : Node, patternLeaves leafKinds patternKinds (ρ.node n) =
      (patternLeaves leafKinds patternKinds n).map ρ.binding
  | ⟨kind, s, t, children⟩ => by
    rw [node_mk, patternLeaves, patternLeaves, ← node_mk, binding_of,
      patternLeavesAll_map_node leafKinds patternKinds children]
    split
    · rfl
    · split <;> rfl

theorem patternLeavesAll_map_node (leafKinds patternKinds : List String) :
    ∀ ns : List Node, patternLeavesAll leafKinds patternKinds (ns.map ρ.node) =
      (patternLeavesAll leafKinds patternKinds ns).map ρ.binding
  | [] => rfl
  | n :: ns => by
    rw [List.map_cons, patternLeavesAll, patternLeaves_node leafKinds patternKinds n,
      patternLeavesAll_map_node leafKinds patternKinds ns, patternLeavesAll, List.map_append]

end

end Recast

variable (ρ : Recast)

/-- Rules without semantics find nothing in a recast tree either. -/
theorem ScopingRules.fits_structural : ρ.Fits ScopingRules.structural :=
  ⟨fun _ => rfl, fun _ => rfl, fun _ => rfl, fun _ _ => rfl⟩

/-! ### Python -/

namespace Python

theorem parameter?_node (n : Node) : parameter? (ρ.node n) = (parameter? n).map ρ.binding := by
  rw [parameter?, parameter?, ρ.kind_node, ρ.childOfKind?_node, ρ.childOfKinds?_node,
    ρ.childOfKind?_map_node, ρ.map_binding_of, ρ.binding_of]
  split
  · rfl
  split
  · cases n.childOfKind? "identifier" with
    | none => rfl
    | some name => exact congrArg some (ρ.binding_of name)
  · rfl

theorem parameters_node (n : Node) : parameters (ρ.node n) = (parameters n).map ρ.binding := by
  rw [parameters, parameters, ρ.childOfKind?_node]
  cases n.childOfKind? "parameters" with
  | none => rfl
  | some list =>
    show (ρ.node list).children.filterMap parameter? = _
    rw [ρ.children_node, ρ.filterMap_map_node (parameter?_node ρ)]

theorem targets_map_node (ns : List Node) : targets (ns.map ρ.node) = (targets ns).map ρ.binding :=
  ρ.patternLeavesAll_map_node _ _ ns

theorem assignmentTargets_node (n : Node) :
    assignmentTargets (ρ.node n) = (assignmentTargets n).map ρ.binding := by
  rw [assignmentTargets, ρ.children_node,
    ρ.takeWhile_map_node (fun kind => kind != "=" && kind != ":"), targets_map_node,
    assignmentTargets]

theorem loopTargets_node (n : Node) : loopTargets (ρ.node n) = (loopTargets n).map ρ.binding := by
  rw [loopTargets, ρ.children_node, ρ.dropWhile_map_node (· != "for"), ← List.map_drop,
    ρ.takeWhile_map_node (· != "in"), targets_map_node, loopTargets]

theorem importName?_node (n : Node) : importName? (ρ.node n) = (importName? n).map ρ.binding := by
  rw [importName?, importName?, ρ.kind_node, ρ.lastIdentifier_node, ρ.map_binding_of, ρ.binding_of]
  split
  · rfl
  split <;> rfl

theorem definition_node (n : Node) : definition (ρ.node n) = (definition n).map ρ.definition := by
  rw [definition, definition, ρ.kind_node, ρ.childOfKind?_node, ρ.map_binding_of, parameters_node,
    assignmentTargets_node, loopTargets_node, ρ.children_node,
    ρ.filterMap_map_node (importName?_node ρ)]
  split
  · rfl
  split
  · cases n.childOfKind? "identifier" with
    | none => rfl
    | some name => exact congrArg (fun b => some (Definition.classLike b)) (ρ.binding_of name)
  split
  · rfl
  split
  · rfl
  split <;> rfl

/-- The rules of Python fit every recast. -/
theorem fits : ρ.Fits rules where
  definition := definition_node ρ
  controlBody n := ρ.childOfKind?_node n "block"
  callee n := ρ.childOfKind?_node n "identifier"
  isDefinitionSite parent n := by
    show isDefinitionSite (ρ.node parent) (ρ.node n) = isDefinitionSite parent n
    rw [isDefinitionSite, isDefinitionSite, ρ.kind_node, ρ.isFirstChild_node]

end Python

/-! ### The ECMAScript family -/

namespace EcmaScript

mutual

theorem patternNames_node : ∀ n : Node, patternNames (ρ.node n) = (patternNames n).map ρ.binding
  | ⟨kind, s, t, children⟩ => by
    rw [ρ.node_mk, patternNames, patternNames, ← ρ.node_mk, ρ.binding_of,
      patternNamesAll_map_node children, firstPatternNames_map_node children,
      lastPatternNames_map_node children, parameterNames_map_node children]
    split
    · rfl
    split
    · rfl
    split
    · rfl
    split
    · rfl
    split <;> rfl

theorem patternNamesAll_map_node : ∀ ns : List Node,
    patternNamesAll (ns.map ρ.node) = (patternNamesAll ns).map ρ.binding
  | [] => rfl
  | n :: ns => by
    rw [List.map_cons, patternNamesAll, patternNames_node n, patternNamesAll_map_node ns,
      patternNamesAll, List.map_append]

theorem firstPatternNames_map_node : ∀ ns : List Node,
    firstPatternNames (ns.map ρ.node) = (firstPatternNames ns).map ρ.binding
  | [] => rfl
  | n :: _ => patternNames_node n

theorem lastPatternNames_map_node : ∀ ns : List Node,
    lastPatternNames (ns.map ρ.node) = (lastPatternNames ns).map ρ.binding
  | [] => rfl
  | n :: ns => by
    rw [List.map_cons, lastPatternNames, lastPatternNames, List.isEmpty_map, patternNames_node n,
      lastPatternNames_map_node ns]
    split <;> rfl

theorem parameterNames_map_node : ∀ ns : List Node,
    parameterNames (ns.map ρ.node) = (parameterNames ns).map ρ.binding
  | [] => rfl
  | n :: ns => by
    rw [List.map_cons, parameterNames, parameterNames, ρ.kind_node, patternNames_node n,
      parameterNames_map_node ns]
    split <;> rfl

end

theorem functionName?_node (n : Node) :
    functionName? (ρ.node n) = (functionName? n).map ρ.binding := by
  rw [functionName?, functionName?, ρ.kind_node, ρ.children_node,
    ρ.takeWhile_map_node (· != "formal_parameters"),
    ρ.find?_map_node (functionNameKinds n.kind).contains, ρ.map_binding_of]

theorem parameters_node (n : Node) : parameters (ρ.node n) = (parameters n).map ρ.binding := by
  rw [parameters, parameters, ρ.kind_node, ρ.childOfKind?_node, ρ.children_node]
  cases n.childOfKind? "formal_parameters" with
  | some list =>
    show patternNamesAll (ρ.node list).children = _
    rw [ρ.children_node, patternNamesAll_map_node]
  | none =>
    simp only [Option.map_none]
    split
    · cases n.children with
      | nil => rfl
      | cons first rest =>
        simp only [List.map_cons, ρ.kind_node, ρ.binding_of]
        split <;> rfl
    · rfl

theorem loopTargets_node (n : Node) : loopTargets (ρ.node n) = (loopTargets n).map ρ.binding := by
  have htargets : ∀ ns : List Node, (ns.map ρ.node).takeWhile (!isLoopKeyword ·) =
      (ns.takeWhile (!isLoopKeyword ·)).map ρ.node :=
    ρ.takeWhile_map_node fun kind => !(kind == "in" || kind == "of")
  rw [loopTargets, ρ.children_node, ρ.dropWhile_map_node (· != "("), ← List.map_drop, htargets,
    patternNamesAll_map_node, loopTargets]

theorem specifierName?_node (n : Node) :
    specifierName? (ρ.node n) = (specifierName? n).map ρ.binding := by
  rw [specifierName?, ρ.lastIdentifier_node, ρ.map_binding_of, specifierName?]

theorem clauseNames_node (n : Node) : clauseNames (ρ.node n) = (clauseNames n).map ρ.binding := by
  rw [clauseNames, clauseNames, ρ.kind_node, ρ.binding_of, ρ.childOfKind?_node, ρ.map_binding_of,
    ρ.children_node, ρ.filter_map_node (· == "import_specifier"),
    ρ.filterMap_map_node (specifierName?_node ρ)]
  split
  · rfl
  split
  · cases n.childOfKind? "identifier" <;> rfl
  split <;> rfl

theorem importNames_node (n : Node) : importNames (ρ.node n) = (importNames n).map ρ.binding := by
  rw [importNames, importNames, ρ.childOfKind?_node]
  cases n.childOfKind? "import_clause" with
  | none => rfl
  | some clause =>
    show (ρ.node clause).children.flatMap clauseNames = (clause.children.flatMap clauseNames).map _
    rw [ρ.children_node, List.flatMap_map, List.map_flatMap]
    exact List.flatMap_congr fun part _ => clauseNames_node ρ part

theorem definition_node (n : Node) : definition (ρ.node n) = (definition n).map ρ.definition := by
  rw [definition, definition, ρ.kind_node, ρ.childOfKinds?_node, functionName?_node, parameters_node,
    loopTargets_node, importNames_node, declaratorNames, ρ.children_node, firstPatternNames_map_node]
  split
  · rfl
  split
  · cases n.childOfKinds? ["identifier", "type_identifier"] with
    | none => rfl
    | some name => exact congrArg (fun b => some (Definition.classLike b)) (ρ.binding_of name)
  split
  · rfl
  split
  · rfl
  split <;> rfl

theorem endsBeforeLoopKeyword_node (parent n : Node) :
    endsBeforeLoopKeyword (ρ.node parent) (ρ.node n) = endsBeforeLoopKeyword parent n := by
  have hkeyword : (parent.children.map ρ.node).find? isLoopKeyword =
      (parent.children.find? isLoopKeyword).map ρ.node :=
    ρ.find?_map_node (fun kind => kind == "in" || kind == "of") parent.children
  rw [endsBeforeLoopKeyword, endsBeforeLoopKeyword, ρ.children_node, hkeyword]
  cases parent.children.find? isLoopKeyword with
  | none => rfl
  | some keyword =>
    simp only [Option.map_some, ρ.span_node, ρ.end_le_iff]

/-- The rules of the ECMAScript family fit every recast. -/
theorem fits : ρ.Fits rules where
  definition := definition_node ρ
  controlBody n := ρ.childOfKinds?_node n ["statement_block", "switch_body"]
  callee n := ρ.childOfKind?_node n "identifier"
  isDefinitionSite parent n := by
    show isDefinitionSite (ρ.node parent) (ρ.node n) = isDefinitionSite parent n
    rw [isDefinitionSite, isDefinitionSite, ρ.kind_node, ρ.isFirstChild_node, ρ.childOfKind?_node,
      endsBeforeLoopKeyword_node]
    cases parent.childOfKind? "identifier" with
    | none => rfl
    | some first => simp only [Option.map_some, ρ.start_beq_node]

end EcmaScript

/-! ### Go -/

namespace Go

theorem identifiers_node (n : Node) : identifiers (ρ.node n) = (identifiers n).map ρ.node := by
  rw [identifiers, ρ.children_node]
  exact ρ.filter_map_node (· == "identifier") n.children

theorem parameters_node (n : Node) : parameters (ρ.node n) = (parameters n).map ρ.binding := by
  have hdeclarations : ∀ list : Node, (ρ.node list).children.filter declaresParameters =
      (list.children.filter declaresParameters).map ρ.node := fun list => by
    rw [ρ.children_node]
    exact ρ.filter_map_node
      (fun kind => kind == "parameter_declaration" || kind == "variadic_parameter_declaration") _
  rw [parameters, parameters, ρ.children_node, ρ.filter_map_node (· == "parameter_list")]
  simp only [List.flatMap_map, hdeclarations, ← List.map_flatMap, identifiers_node, ρ.bindings_of]

theorem shortTargets_node (n : Node) : shortTargets (ρ.node n) = (shortTargets n).map ρ.binding := by
  rw [shortTargets, shortTargets, ρ.childOfKind?_node, ρ.childOfKind?_node]
  cases n.childOfKind? ":=" with
  | none => rfl
  | some token =>
    cases n.childOfKind? "expression_list" with
    | none => rfl
    | some list =>
      show (identifiers (ρ.node list)).map Binding.of = _
      rw [identifiers_node, ρ.bindings_of]

variable {ρ} (htext : ∀ t, ρ.text t = t)

include htext

/-- The name in an import's path is found again where the path is as it was. -/
theorem importName?_node (n : Node) : importName? (ρ.node n) = (importName? n).map ρ.binding := by
  rw [importName?, importName?, ρ.childOfKind?_node, ρ.childOfKinds?_node]
  cases n.childOfKind? "package_identifier" with
  | some given => exact congrArg some (ρ.binding_of given)
  | none =>
    cases n.childOfKinds? literals with
    | none => rfl
    | some path => simp [Recast.binding, htext]

theorem definition_node (n : Node) : definition (ρ.node n) = (definition n).map ρ.definition := by
  simp only [definition, ρ.kind_node, ρ.childOfKind?_node, ρ.map_binding_of, parameters_node,
    shortTargets_node, identifiers_node, ρ.bindings_of, importName?_node htext]
  split
  · rfl
  split
  · rfl
  split
  · cases n.childOfKind? "type_identifier" with
    | none => rfl
    | some name => exact congrArg (fun b => some (Definition.classLike b)) (ρ.binding_of name)
  split
  · rfl
  split
  · rfl
  split
  · cases importName? n <;> rfl
  · rfl

/-- The rules of Go fit every recast that leaves texts alone. -/
theorem fits : ρ.Fits rules where
  definition := definition_node htext
  controlBody n := ρ.childOfKind?_node n "block"
  callee n := ρ.childOfKind?_node n "identifier"
  isDefinitionSite parent n := by
    show namingParents.contains (ρ.node parent).kind = namingParents.contains parent.kind
    rw [ρ.kind_node]

end Go

/-- Under a recast that leaves texts alone, the rules of every language fit. -/
theorem ScopingRules.fits_of_mem_builtIn {rules : ScopingRules} (hrules : rules ∈ builtIn)
    {ρ : Recast} (htext : ∀ t, ρ.text t = t) : ρ.Fits rules := by
  rcases mem_builtIn.mp hrules with rfl | rfl | rfl | rfl
  · exact Python.fits ρ
  · exact EcmaScript.fits ρ
  · exact Go.fits htext
  · exact fits_structural ρ

end CodeGraph
