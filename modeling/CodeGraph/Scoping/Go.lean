import CodeGraph.Scoping.Rules
import CodeGraph.Text.Blank

/-!
# Scoping rules of Go

Functions and `for` open scopes. The receiver, the parameters and the named results of a function
are its variables; an import without an alias is named by the last part of its path.
-/

namespace CodeGraph.Go

/-- Kinds of nodes that open a scope. -/
def scopes : List String :=
  ["function_declaration", "method_declaration", "func_literal", "for_statement"]

/-- Kinds of control-flow constructs. -/
def controlFlow : List String :=
  ["if_statement", "for_statement", "expression_switch_statement", "type_switch_statement",
    "select_statement"]

/-- The identifiers among the children of a node. -/
def identifiers (n : Node) : List Node := n.children.filter (·.kind == "identifier")

/-- Whether a node declares parameters. -/
def declaresParameters (n : Node) : Bool :=
  n.kind == "parameter_declaration" || n.kind == "variadic_parameter_declaration"

/-- The names of all parameter lists of a function: receiver, parameters and results. -/
def parameters (n : Node) : List Binding :=
  let lists := n.children.filter (·.kind == "parameter_list")
  let declarations := lists.flatMap fun list => list.children.filter declaresParameters
  (declarations.flatMap identifiers).map Binding.of

/-- The names on the left of `:=`. -/
def shortTargets (n : Node) : List Binding :=
  match n.childOfKind? ":=" with
  | none => []
  | some _ =>
    match n.childOfKind? "expression_list" with
    | none => []
    | some list => (identifiers list).map Binding.of

/-- The kinds of string literals. -/
def literals : List String := ["interpreted_string_literal", "raw_string_literal"]

/-- A literal without its quotes. -/
def unquote (text : String) : String := Text.stripEnds (fun c => c == '"' || c == '`') text

/-- The name that an import binds: its alias, or the last part of its path. -/
def importName? (spec : Node) : Option Binding :=
  match spec.childOfKind? "package_identifier" with
  | some given => some (Binding.of given)
  | none =>
    (spec.childOfKinds? literals).map fun path =>
      ⟨String.ofList (Text.afterLast '/' (unquote path.text).toList), path⟩

/-- The names that a node defines. -/
def definition (n : Node) : Option Definition :=
  if n.kind == "function_declaration" || n.kind == "func_literal" then
    some (.function ((n.childOfKind? "identifier").map Binding.of) (parameters n))
  else if n.kind == "method_declaration" then
    some (.function ((n.childOfKind? "field_identifier").map Binding.of) (parameters n))
  else if n.kind == "type_spec" || n.kind == "type_alias" then
    (n.childOfKind? "type_identifier").map fun name => .classLike (Binding.of name)
  else if n.kind == "short_var_declaration" || n.kind == "range_clause" then
    some (.binds (shortTargets n))
  else if n.kind == "var_spec" || n.kind == "const_spec" then
    some (.binds ((identifiers n).map Binding.of))
  else if n.kind == "import_spec" then some (.imports (importName? n).toList)
  else none

/-- Kinds of parents all of whose identifiers are names being defined. -/
def namingParents : List String :=
  ["function_declaration", "parameter_declaration", "variadic_parameter_declaration", "var_spec",
    "const_spec", "import_spec"]

/-- The path of an import, without its quotes. -/
def importSource (n : Node) : Option String :=
  if n.kind == "import_spec" then (n.childOfKinds? literals).map fun path => unquote path.text
  else none

/-- The scoping rules of Go. -/
def rules : ScopingRules where
  name := "go"
  isSemantic := true
  introducesScope := scopes.contains
  isControlFlow := controlFlow.contains
  controlBody n := n.childOfKind? "block"
  definition := definition
  isCall kind := kind == "call_expression"
  callee := ScopingRules.identifierCallee
  isReference := ScopingRules.isIdentifier
  isDefinitionSite parent _ := namingParents.contains parent.kind
  importSource := importSource

end CodeGraph.Go
