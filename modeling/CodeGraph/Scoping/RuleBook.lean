import CodeGraph.Language
import CodeGraph.Scoping.EcmaScript
import CodeGraph.Scoping.Go
import CodeGraph.Scoping.Python
import CodeGraph.Writes

/-!
# Rules by language

A `RuleBook` says which rules hold for which language. A later entry replaces an earlier one, and a
language without an entry has the structural rules.
-/

namespace CodeGraph

/-- The rule sets of the library, the structural one last. -/
def ScopingRules.builtIn : List ScopingRules :=
  [Python.rules, EcmaScript.rules, Go.rules, ScopingRules.structural]

theorem ScopingRules.mem_builtIn {rules : ScopingRules} :
    rules ∈ builtIn ↔ rules = Python.rules ∨ rules = EcmaScript.rules ∨ rules = Go.rules ∨
      rules = structural := by
  simp only [builtIn, List.mem_cons, List.not_mem_nil, or_false]

/-- The rules of some languages. -/
structure RuleBook where
  entries : Writes Language ScopingRules

namespace RuleBook

/-- The book without entries. -/
def empty : RuleBook := ⟨∅⟩

/-- Set the rules of a language. -/
def register (book : RuleBook) (language : Language) (rules : ScopingRules) : RuleBook :=
  ⟨book.entries.put language rules⟩

/-- The rules of a language. -/
def rulesFor (book : RuleBook) (language : Language) : ScopingRules :=
  (book.entries.get? language).getD ScopingRules.structural

/-- Whether a language has rules of its own. -/
def hasSemantics (book : RuleBook) (language : Language) : Bool := book.entries.contains language

/-- The book with all rule sets of the library. -/
def standard : RuleBook :=
  ((((empty.register .python Python.rules).register .javaScript EcmaScript.rules).register
    .typeScript EcmaScript.rules).register .tsx EcmaScript.rules).register .go Go.rules

end RuleBook

end CodeGraph
