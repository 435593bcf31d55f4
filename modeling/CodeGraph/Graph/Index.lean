import CodeGraph.Keyed
import CodeGraph.Tree.NodeId

/-!
# Positions by name

A `NodeIndex` maps names of nodes to positions in a list. Its entries are in the order of the names,
each name once.
-/

namespace CodeGraph

/-- Positions by name, in the order of the names. -/
structure NodeIndex where
  entries : List (NodeId × Nat)
  increasing : Keyed.Increasing (·.1.text) entries

namespace NodeIndex

/-- The index of some entries; of entries with one name the first counts. -/
def ofList (entries : List (NodeId × Nat)) : NodeIndex :=
  ⟨Keyed.byKey (·.1.text) entries, Keyed.increasing_byKey _ entries⟩

/-- The index of some entries; of entries with one name the last counts. -/
def ofWrites (entries : List (NodeId × Nat)) : NodeIndex := ofList entries.reverse

/-- The position of a name. -/
def get? (index : NodeIndex) (id : NodeId) : Option Nat :=
  (index.entries.find? (·.1 = id)).map (·.2)

theorem ext {a b : NodeIndex} (h : a.entries = b.entries) : a = b := by
  cases a; cases b; cases h; rfl

end NodeIndex

end CodeGraph
