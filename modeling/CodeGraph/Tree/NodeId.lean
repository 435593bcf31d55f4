/-!
# Identities

A node is named by its kind and byte range, written `kind_start_end`. Two nodes of one kind and
range cannot be told apart, and an edit that moves a node changes its name.
-/

namespace CodeGraph

/-- The name of a node within one tree. -/
structure NodeId where
  text : String
deriving DecidableEq, Hashable, Repr, Inhabited

namespace NodeId

/-- The name of a node of a kind that spans `[start, stop)`. -/
def of (kind : String) (start stop : Nat) : NodeId :=
  ⟨kind ++ "_" ++ start.repr ++ "_" ++ stop.repr⟩

instance : ToString NodeId := ⟨NodeId.text⟩

/-- Names are ordered as their texts. -/
instance : LT NodeId := ⟨fun a b => a.text < b.text⟩

instance (a b : NodeId) : Decidable (a < b) := inferInstanceAs (Decidable (a.text < b.text))

end NodeId

end CodeGraph
