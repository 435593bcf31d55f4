import CodeGraph.Scoping.Rules

/-!
# Scoping rules of Python

Functions, classes, loops and `with` open scopes. Parameters, assignment targets and loop targets
are variables; targets may be nested in tuples and lists.
-/

namespace CodeGraph.Python

/-- Kinds of nodes that open a scope. -/
def scopes : List String :=
  ["function_definition", "class_definition", "for_statement", "while_statement", "with_statement"]

/-- Kinds of control-flow constructs. -/
def controlFlow : List String :=
  ["if_statement", "for_statement", "while_statement", "try_statement", "with_statement",
    "match_statement"]

/-- Kinds of nodes that group the targets of an assignment or a loop. -/
def patterns : List String :=
  ["pattern_list", "tuple_pattern", "list_pattern", "tuple", "list", "list_splat_pattern",
    "parenthesized_expression"]

/-- Kinds of nodes that wrap the name of a parameter. -/
def parameterWrappers : List String :=
  ["typed_parameter", "default_parameter", "typed_default_parameter", "list_splat_pattern",
    "dictionary_splat_pattern"]

/-- The name of a parameter: the parameter itself, its first identifier, or the first identifier
of its splat. -/
def parameter? (param : Node) : Option Binding :=
  if param.kind == "identifier" then some (Binding.of param)
  else if parameterWrappers.contains param.kind then
    match param.childOfKind? "identifier" with
    | some name => some (Binding.of name)
    | none =>
      ((param.childOfKinds? ["list_splat_pattern", "dictionary_splat_pattern"]).bind
        (·.childOfKind? "identifier")).map Binding.of
  else none

/-- The parameters of a function, in order. -/
def parameters (function : Node) : List Binding :=
  match function.childOfKind? "parameters" with
  | none => []
  | some list => list.children.filterMap parameter?

/-- The names bound by some target patterns. -/
def targets (ns : List Node) : List Binding := patternLeavesAll ["identifier"] patterns ns

/-- The targets of an assignment: all before the first `=` or `:`. -/
def assignmentTargets (n : Node) : List Binding :=
  targets (n.children.takeWhile fun c => c.kind != "=" && c.kind != ":")

/-- The targets of a loop: all between `for` and `in`. -/
def loopTargets (n : Node) : List Binding :=
  targets (((n.children.dropWhile (·.kind != "for")).drop 1).takeWhile (·.kind != "in"))

/-- The name that a part of an import binds; an alias is the last identifier. -/
def importName? (part : Node) : Option Binding :=
  if part.kind == "dotted_name" || part.kind == "identifier" then some (Binding.of part)
  else if part.kind == "aliased_import" then
    (part.children.reverse.find? (·.kind == "identifier")).map Binding.of
  else none

/-- The names that a node defines. -/
def definition (n : Node) : Option Definition :=
  if n.kind == "function_definition" then
    some (.function ((n.childOfKind? "identifier").map Binding.of) (parameters n))
  else if n.kind == "class_definition" then
    (n.childOfKind? "identifier").map fun name => .classLike (Binding.of name)
  else if n.kind == "assignment" then some (.binds (assignmentTargets n))
  else if n.kind == "for_statement" then some (.binds (loopTargets n))
  else if n.kind == "import_statement" || n.kind == "import_from_statement" then
    some (.imports (n.children.filterMap importName?))
  else none

/-- Kinds of parents all of whose identifiers are names being defined. -/
def namingParents : List String :=
  ["function_definition", "class_definition", "parameters", "lambda_parameters", "aliased_import",
    "dotted_name"]

/-- Whether a child of `parent` is a name being defined. -/
def isDefinitionSite (parent n : Node) : Bool :=
  if namingParents.contains parent.kind then true
  else if parent.kind == "keyword_argument" || parameterWrappers.contains parent.kind then
    parent.isFirstChild n
  else false

/-- The module that a part of an import names. -/
def moduleOf? (part : Node) : Option String :=
  if part.kind == "dotted_name" then some part.text
  else if part.kind == "aliased_import" then (part.childOfKind? "dotted_name").map (·.text)
  else none

/-- The modules of an import, joined by dots. -/
def importSource (n : Node) : Option String :=
  if n.kind == "import_statement" || n.kind == "import_from_statement" then
    match n.children.filterMap moduleOf? with
    | [] => none
    | modules => some (".".intercalate modules)
  else none

/-- The scoping rules of Python. -/
def rules : ScopingRules where
  name := "python"
  isSemantic := true
  introducesScope := scopes.contains
  isControlFlow := controlFlow.contains
  controlBody n := n.childOfKind? "block"
  definition := definition
  isCall kind := kind == "call"
  callee := ScopingRules.identifierCallee
  isReference := ScopingRules.isIdentifier
  isDefinitionSite := isDefinitionSite
  importSource := importSource

end CodeGraph.Python
