/-!
# Kinds of stored results

Three kinds of results are kept: syntax trees, semantic graphs and outlines.
-/

namespace CodeGraph

/-- Which operation made a stored result. -/
inductive ResultKind where
  | tree | graph | outline
deriving DecidableEq, Repr, Inhabited

namespace ResultKind

/-- Every kind. -/
def all : List ResultKind := [tree, graph, outline]

/-- The name under which results of a kind are stored. -/
def name : ResultKind → String
  | tree => "ast"
  | graph => "asg"
  | outline => "analysis"

instance : ToString ResultKind := ⟨name⟩

/-- The kind of a name. -/
def ofName? (text : String) : Option ResultKind := all.find? (·.name == text)

theorem ofName?_name (k : ResultKind) : ofName? k.name = some k := by
  cases k <;> decide

theorem name_injective {a b : ResultKind} (h : a.name = b.name) : a = b := by
  have := congrArg ofName? h
  simpa [ofName?_name] using this

end ResultKind

end CodeGraph
