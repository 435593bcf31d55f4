import CodeGraph.Scoping.Rules
import CodeGraph.Text.Blank

/-!
# Scoping rules of the ECMAScript family

One rule set serves JavaScript, TypeScript and TSX, which share the kinds of their statements and
expressions. Functions, classes and loops open scopes. Patterns bind the names they spell; the
default values in them bind nothing.
-/

namespace CodeGraph.EcmaScript

/-- Kinds of functions. -/
def functions : List String :=
  ["function_declaration", "generator_function_declaration", "function_expression",
    "generator_function", "arrow_function", "method_definition"]

/-- Kinds of class declarations. -/
def classes : List String := ["class_declaration", "abstract_class_declaration"]

/-- Kinds of loops. -/
def loops : List String :=
  ["for_statement", "for_in_statement", "while_statement", "do_statement"]

/-- Kinds of control-flow constructs. -/
def controlFlow : List String :=
  ["if_statement", "for_statement", "for_in_statement", "while_statement", "do_statement",
    "try_statement", "switch_statement"]

/-- Kinds of nodes that spell a name in a pattern. -/
def names : List String := ["identifier", "shorthand_property_identifier_pattern"]

/-- Patterns that bind what all their children bind. -/
def groupPatterns : List String := ["object_pattern", "array_pattern", "rest_pattern"]

/-- Patterns with a default value: the target comes first. -/
def defaultPatterns : List String := ["assignment_pattern", "object_assignment_pattern"]

/-- Typed parameters: a modifier may come before the pattern. -/
def typedParameters : List String := ["required_parameter", "optional_parameter"]

mutual

/-- The names that a pattern binds. -/
def patternNames : Node → List Binding
  | ⟨kind, span, text, children⟩ =>
    if names.contains kind then [Binding.of ⟨kind, span, text, children⟩]
    else if groupPatterns.contains kind then patternNamesAll children
    else if kind == "pair_pattern" then lastPatternNames children
    else if defaultPatterns.contains kind then firstPatternNames children
    else if typedParameters.contains kind then parameterNames children
    else []

/-- The names that some patterns bind. -/
def patternNamesAll : List Node → List Binding
  | [] => []
  | n :: ns => patternNames n ++ patternNamesAll ns

/-- The names that the first of some patterns binds. -/
def firstPatternNames : List Node → List Binding
  | [] => []
  | n :: _ => patternNames n

/-- The names that the last of some patterns binds. -/
def lastPatternNames : List Node → List Binding
  | [] => []
  | n :: ns => if ns.isEmpty then patternNames n else lastPatternNames ns

/-- The names of a parameter: those of the first child that is no accessibility modifier. -/
def parameterNames : List Node → List Binding
  | [] => []
  | n :: ns => if n.kind == "accessibility_modifier" then parameterNames ns else patternNames n

end

/-- The kinds of node that name a function. -/
def functionNameKinds (kind : String) : List String :=
  if kind == "arrow_function" then []
  else if kind == "method_definition" then ["property_identifier", "private_property_identifier"]
  else ["identifier"]

/-- The name of a function stands before its parameter list. An arrow function has none: its only
identifier is a parameter. -/
def functionName? (n : Node) : Option Binding :=
  let kinds := functionNameKinds n.kind
  ((n.children.takeWhile (·.kind != "formal_parameters")).find? (kinds.contains ·.kind)).map
    Binding.of

/-- The parameters of a function; the bare identifier of an arrow function is one. -/
def parameters (n : Node) : List Binding :=
  match n.childOfKind? "formal_parameters" with
  | some list => patternNamesAll list.children
  | none =>
    if n.kind == "arrow_function" then
      match n.children with
      | first :: _ => if first.kind == "identifier" then [Binding.of first] else []
      | [] => []
    else []

/-- Whether a token separates the target of a loop from what is looped over. -/
def isLoopKeyword (n : Node) : Bool := n.kind == "in" || n.kind == "of"

/-- The targets of a loop: all between the parenthesis and `in` or `of`. -/
def loopTargets (n : Node) : List Binding :=
  patternNamesAll
    (((n.children.dropWhile (·.kind != "(")).drop 1).takeWhile (!isLoopKeyword ·))

/-- The local name of `a as b` is its last identifier. -/
def specifierName? (spec : Node) : Option Binding :=
  (spec.children.reverse.find? (·.kind == "identifier")).map Binding.of

/-- The names that a part of an import clause binds. -/
def clauseNames (part : Node) : List Binding :=
  if part.kind == "identifier" then [Binding.of part]
  else if part.kind == "namespace_import" then
    ((part.childOfKind? "identifier").map Binding.of).toList
  else if part.kind == "named_imports" then
    (part.children.filter (·.kind == "import_specifier")).filterMap specifierName?
  else []

/-- The names that an import binds. -/
def importNames (n : Node) : List Binding :=
  match n.childOfKind? "import_clause" with
  | none => []
  | some clause => clause.children.flatMap clauseNames

/-- The names that a declarator binds: those of its first child. -/
def declaratorNames (n : Node) : List Binding := firstPatternNames n.children

/-- The names that a node defines. -/
def definition (n : Node) : Option Definition :=
  if functions.contains n.kind then some (.function (functionName? n) (parameters n))
  else if classes.contains n.kind then
    (n.childOfKinds? ["identifier", "type_identifier"]).map fun name =>
      .classLike (Binding.of name)
  else if n.kind == "variable_declarator" then some (.binds (declaratorNames n))
  else if n.kind == "for_in_statement" then some (.binds (loopTargets n))
  else if n.kind == "import_statement" then some (.imports (importNames n))
  else none

/-- Whether a node ends before the keyword of a loop. -/
def endsBeforeLoopKeyword (parent n : Node) : Bool :=
  match parent.children.find? isLoopKeyword with
  | none => false
  | some keyword => n.span.endByte ≤ keyword.span.startByte

/-- Kinds of parents whose first child is a name being defined. -/
def firstNamingParents : List String :=
  ["arrow_function", "variable_declarator", "assignment_pattern", "object_assignment_pattern"]

/-- Kinds of parents all of whose identifiers are names being defined. -/
def namingParents : List String :=
  ["formal_parameters", "rest_pattern", "array_pattern", "catch_clause", "import_clause",
    "namespace_import", "import_specifier"]

/-- Whether a child of `parent` is a name being defined. -/
def isDefinitionSite (parent n : Node) : Bool :=
  if firstNamingParents.contains parent.kind then parent.isFirstChild n
  else if typedParameters.contains parent.kind then
    match parent.childOfKind? "identifier" with
    | none => false
    | some first => first.span.startByte == n.span.startByte
  else if namingParents.contains parent.kind then true
  else if parent.kind == "for_in_statement" then endsBeforeLoopKeyword parent n
  else functions.contains parent.kind || classes.contains parent.kind || parent.kind == "class"

/-- The module of an import, without its quotes. -/
def importSource (n : Node) : Option String :=
  if n.kind == "import_statement" then
    (n.childOfKind? "string").map fun s => Text.stripEnds (fun c => c == '\'' || c == '"') s.text
  else none

/-- The scoping rules of JavaScript, TypeScript and TSX. -/
def rules : ScopingRules where
  name := "ecmascript"
  isSemantic := true
  introducesScope kind := functions.contains kind || classes.contains kind || loops.contains kind
  isControlFlow := controlFlow.contains
  controlBody n := n.childOfKinds? ["statement_block", "switch_body"]
  definition := definition
  isCall kind := kind == "call_expression"
  callee := ScopingRules.identifierCallee
  isReference := ScopingRules.isIdentifier
  isDefinitionSite := isDefinitionSite
  importSource := importSource

end CodeGraph.EcmaScript
