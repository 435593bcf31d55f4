import CodeGraph.Tree.NodeId

/-!
# Edges

A typed relation between two nodes of a graph: `contains` from a parent to its child, `controlFlow`
from a control construct to its body, `calls` and `callsImport` from a callee to what it names, and
`references` from a use to its binding.
-/

namespace CodeGraph

/-- How one node relates to another. -/
inductive EdgeKind where
  | contains | controlFlow | calls | callsImport | references
deriving DecidableEq, Repr, Inhabited

namespace EdgeKind

/-- The kinds in their order of declaration. -/
def all : List EdgeKind := [contains, controlFlow, calls, callsImport, references]

/-- The kinds in the order of their names. -/
def byName : List EdgeKind := [calls, callsImport, contains, controlFlow, references]

/-- The canonical name. -/
def name : EdgeKind → String
  | contains => "contains"
  | controlFlow => "control_flow"
  | calls => "calls"
  | callsImport => "calls_import"
  | references => "references"

instance : ToString EdgeKind := ⟨name⟩

/-- The spellings of a kind, in lower case. -/
def spellings : EdgeKind → List String
  | contains => ["contains"]
  | controlFlow => ["control_flow", "control-flow"]
  | calls => ["calls", "call"]
  | callsImport => ["calls_import", "calls-import"]
  | references => ["references", "reference", "ref"]

/-- The kind of a spelling, letter case apart. Only ASCII letters are folded: the one other
character whose lower case is a single ASCII letter is the Kelvin sign, and no spelling has a
`k`. -/
def ofText? (text : String) : Option EdgeKind :=
  all.find? (·.spellings.contains text.toLower)

/-- The kind of a canonical name. -/
def ofName? (text : String) : Option EdgeKind := all.find? (·.name == text)

/-- What is said of a text that spells no kind. -/
def unknownMessage (text : String) : String := "Unknown edge kind: " ++ text

/-- Whether the kind says more than that one node contains another. -/
def isSemantic : EdgeKind → Bool
  | contains => false
  | _ => true

theorem ofName?_name (k : EdgeKind) : ofName? k.name = some k := by
  cases k <;> decide

end EdgeKind

/-- A relation of one node to another. -/
structure Edge where
  source : NodeId
  target : NodeId
  kind : EdgeKind
deriving DecidableEq, Repr

end CodeGraph
