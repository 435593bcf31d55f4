import CodeGraph.Tree.Node

/-!
# Scoping rules

What a language's node kinds mean for names: which open a scope, which bind names and which, which
are calls, and which identifiers are uses. `structural` is the rule set that finds none of these.
-/

namespace CodeGraph

/-- A name and the node that carries it. -/
structure Binding where
  name : String
  node : Node

/-- A binding named by its node's own text. -/
def Binding.of (n : Node) : Binding := ⟨n.text, n⟩

/-- What a node introduces. -/
inductive Definition where
  /-- A function: the name goes to the defining node, the parameters are variables of the function's
  own scope. -/
  | function (name : Option Binding) (params : List Binding)
  /-- A class or another named type. -/
  | classLike (name : Binding)
  /-- Variables of the current scope. -/
  | binds (bindings : List Binding)
  /-- Names that are imported. -/
  | imports (bindings : List Binding)

/-- What the node kinds of a language mean for names. -/
structure ScopingRules where
  name : String
  /-- Whether the rules find more than the tree's own structure. -/
  isSemantic : Bool
  /-- Kinds of nodes that open a scope. -/
  introducesScope : String → Bool
  /-- Kinds of nodes that are control-flow constructs. -/
  isControlFlow : String → Bool
  /-- The body of a control-flow construct. -/
  controlBody : Node → Option Node
  /-- The names that a node defines. -/
  definition : Node → Option Definition
  /-- Kinds of nodes that are calls. -/
  isCall : String → Bool
  /-- The identifier that names the function called. -/
  callee : Node → Option Node
  /-- Kinds of nodes that are identifiers. -/
  isReference : String → Bool
  /-- Whether the second node, a child of the first, is a name being defined and not a use. -/
  isDefinitionSite : Node → Node → Bool
  /-- The module that an import names. -/
  importSource : Node → Option String

namespace ScopingRules

/-- The callee of a call is its first identifier. -/
def identifierCallee (call : Node) : Option Node := call.childOfKind? "identifier"

/-- Uses are identifiers. -/
def isIdentifier (kind : String) : Bool := kind == "identifier"

/-- The rules of a language about whose names nothing is known. -/
def structural : ScopingRules where
  name := "structural"
  isSemantic := false
  introducesScope _ := false
  isControlFlow _ := false
  controlBody _ := none
  definition _ := none
  isCall _ := false
  callee _ := none
  isReference _ := false
  isDefinitionSite _ _ := false
  importSource _ := none

end ScopingRules

mutual

/-- The leaves that a pattern binds: nodes of the leaf kinds that are reached through nodes of the
pattern kinds alone. -/
def patternLeaves (leafKinds patternKinds : List String) : Node → List Binding
  | ⟨kind, span, text, children⟩ =>
    if leafKinds.contains kind then [Binding.of ⟨kind, span, text, children⟩]
    else if patternKinds.contains kind then patternLeavesAll leafKinds patternKinds children
    else []

/-- The leaves that some patterns bind. -/
def patternLeavesAll (leafKinds patternKinds : List String) : List Node → List Binding
  | [] => []
  | n :: ns => patternLeaves leafKinds patternKinds n ++ patternLeavesAll leafKinds patternKinds ns

end

end CodeGraph
