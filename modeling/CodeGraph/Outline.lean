import CodeGraph.Language
import CodeGraph.Scoping.Rules

/-!
# Outlines

An `Outline` sums a source up: its named functions, classes and imports with their lines, the number
of nodes, and how deep control flow is nested. Lines count from one.
-/

namespace CodeGraph

/-- The first and the last line of a node, counted from one. -/
structure LineRange where
  first : Nat
  last : Nat
deriving DecidableEq, Repr

/-- The lines of a node. -/
def LineRange.of (n : Node) : LineRange := ⟨n.span.start.line + 1, n.span.stop.line + 1⟩

/-- A named function. -/
structure FunctionEntry where
  name : String
  lines : LineRange
  parameters : List String
deriving DecidableEq, Repr

/-- A class or another named type. -/
structure ClassEntry where
  name : String
  lines : LineRange
deriving DecidableEq, Repr

/-- An import. -/
structure ImportEntry where
  moduleName : String
  line : Nat
deriving DecidableEq, Repr

/-- A source summed up. -/
structure Outline where
  language : Language
  /-- The number of characters. -/
  codeLength : Nat
  functions : List FunctionEntry
  classes : List ClassEntry
  imports : List ImportEntry
  /-- The most control-flow constructs on one way from the root to a node. -/
  maxNesting : Nat
  totalNodes : Nat
deriving DecidableEq, Repr

namespace ScopingRules

variable (rules : ScopingRules)

/-- The entry of a named function. -/
def functionEntryOf? (n : Node) : Option FunctionEntry :=
  match rules.definition n with
  | some (.function (some name) params) => some ⟨name.name, LineRange.of n, params.map (·.name)⟩
  | _ => none

/-- The entry of a class. -/
def classEntryOf? (n : Node) : Option ClassEntry :=
  match rules.definition n with
  | some (.classLike name) => some ⟨name.name, LineRange.of n⟩
  | _ => none

/-- The entry of an import that names a module. -/
def importEntryOf? (n : Node) : Option ImportEntry :=
  match rules.definition n with
  | some (.imports _) =>
    (rules.importSource n).map fun moduleName => ⟨moduleName, n.span.start.line + 1⟩
  | _ => none

mutual

/-- The deepest nesting of control flow in a tree that lies in `outer` constructs. -/
def nesting (outer : Nat) : Node → Nat
  | ⟨kind, _, _, children⟩ =>
    let depth := if rules.isControlFlow kind then outer + 1 else outer
    max depth (nestingAll depth children)

/-- The deepest nesting of control flow in a forest that lies in `outer` constructs. -/
def nestingAll (outer : Nat) : List Node → Nat
  | [] => 0
  | n :: ns => max (nesting outer n) (nestingAll outer ns)

end

end ScopingRules

/-- Sum up a tree. -/
def outline (root : Node) (language : Language) (rules : ScopingRules) (codeLength : Nat) :
    Outline where
  language := language
  codeLength := codeLength
  functions := root.walk.filterMap rules.functionEntryOf?
  classes := root.walk.filterMap rules.classEntryOf?
  imports := root.walk.filterMap rules.importEntryOf?
  maxNesting := rules.nesting 0 root
  totalNodes := root.count

end CodeGraph
