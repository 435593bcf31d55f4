import CodeGraph.Tree.Parse

/-!
# Results of parsing, and their differences

A `TreeResult` is a syntax tree with the parse it came from; one read back from the store has no
parse. Two results of one language that both have theirs can be compared.
-/

namespace CodeGraph

/-- The answer to a request to parse. -/
structure TreeResult where
  language : Language
  tree : Node
  parse : Option Parse
  /-- The ranges that differ from the source the parse was built upon. -/
  changedRanges : Option (List Span)

namespace TreeResult

/-- The result of a parse. -/
def ofParse (p : Parse) (limit : Nat) : Except Fault TreeResult :=
  (p.toTree limit).map fun tree => ⟨p.language, tree, some p, none⟩

/-- The source, where it is still known. -/
def source? (r : TreeResult) : Option String := r.parse.map (·.source)

/-- The result without its parse, as it is stored. -/
def detached (r : TreeResult) : TreeResult := { r with parse := none }

end TreeResult

/-- How two syntax trees differ. -/
structure TreeDiff where
  language : Language
  changedRanges : List Span
  /-- The outermost nodes of the new tree that changed. -/
  changedNodes : List Node
  oldTree : Node
  newTree : Node

namespace TreeDiff

/-- Whether nothing differs. -/
def isEmpty (d : TreeDiff) : Bool := d.changedRanges.isEmpty

end TreeDiff

/-- Compare two results. -/
def diffResults (parser : Parser) (old new : TreeResult) : Except Fault TreeDiff :=
  match old.parse, new.parse with
  | some oldParse, some newParse =>
    if old.language = new.language then
      let ranges := parser.changedRanges oldParse newParse
      .ok ⟨new.language, ranges, new.tree.changedNodes ranges, old.tree, new.tree⟩
    else .error (.languagesDiffer old.language new.language)
  | _, _ => .error .treesMissing

/-- What a comparison consists of: the ranges between the two parses, and the nodes of the new tree that
they meet. -/
theorem diffResults_eq_ok {parser : Parser} {old new : TreeResult} {d : TreeDiff}
    (h : diffResults parser old new = .ok d) :
    ∃ oldParse newParse, old.parse = some oldParse ∧ new.parse = some newParse ∧
      d.changedRanges = parser.changedRanges oldParse newParse ∧
      d.changedNodes = new.tree.changedNodes d.changedRanges ∧ d.newTree = new.tree := by
  unfold diffResults at h
  split at h
  · next oldParse newParse hold hnew =>
    split at h
    · cases h
      exact ⟨oldParse, newParse, hold, hnew, rfl, rfl, rfl⟩
    · cases h
  · cases h

end CodeGraph
