import CodeGraph.Tree.NodeId
import CodeGraph.Writes

/-!
# Scope tables

A `ScopeTable` holds the nesting of scopes, the variables of each scope, the functions, classes and
imports of the whole program, and the control-flow constructs that are being visited. It changes by
`ScopeStep`s, and `ScopeTable.ofSteps` is the table after a history of them. Nothing is removed but
control-flow marks; the last write of a key wins.
-/

namespace CodeGraph

/-- Where a name is looked up: the whole program, or the scope that a node opens. -/
inductive Scope where
  | global
  | node (id : NodeId)
deriving DecidableEq, Repr, Inhabited

namespace Scope

/-- How a scope is shown. -/
def text : Scope → String
  | global => "global"
  | node id => id.text

instance : ToString Scope := ⟨text⟩

end Scope

/-- One change of a scope table. -/
inductive ScopeStep where
  /-- A scope is entered; it lies in its parent, or in the global scope. -/
  | enterScope (id : NodeId) (parent : Option Scope)
  | addVariable (name : String) (id : NodeId) (scope : Scope)
  | addFunction (name : String) (id : NodeId)
  | addClass (name : String) (id : NodeId)
  | addImport (name : String) (id : NodeId)
  | enterControlFlow (id : NodeId)
  | exitControlFlow
deriving DecidableEq, Repr

/-- What is known of the names of a program. -/
structure ScopeTable where
  parents : Writes NodeId Scope
  bindings : Writes (Scope × String) NodeId
  functions : Writes String NodeId
  classes : Writes String NodeId
  imports : Writes String NodeId
  /-- The control-flow constructs being visited, innermost first. -/
  marks : List NodeId

namespace ScopeTable

/-- The table before anything is known. -/
def empty : ScopeTable := ⟨∅, ∅, ∅, ∅, ∅, []⟩

instance : Inhabited ScopeTable := ⟨empty⟩

/-- The table after a step. -/
def apply (t : ScopeTable) : ScopeStep → ScopeTable
  | .enterScope id parent => { t with parents := t.parents.put id (parent.getD .global) }
  | .addVariable name id scope => { t with bindings := t.bindings.put (scope, name) id }
  | .addFunction name id => { t with functions := t.functions.put name id }
  | .addClass name id => { t with classes := t.classes.put name id }
  | .addImport name id => { t with imports := t.imports.put name id }
  | .enterControlFlow id => { t with marks := id :: t.marks }
  | .exitControlFlow => { t with marks := t.marks.tail }

/-- The table after some steps. -/
def applyAll (t : ScopeTable) (steps : List ScopeStep) : ScopeTable := steps.foldl apply t

/-- The table after a history of steps. -/
def ofSteps (steps : List ScopeStep) : ScopeTable := empty.applyAll steps

@[simp] theorem applyAll_cons (t : ScopeTable) (s : ScopeStep) (steps : List ScopeStep) :
    t.applyAll (s :: steps) = (t.apply s).applyAll steps := rfl

theorem applyAll_append (t : ScopeTable) (xs ys : List ScopeStep) :
    t.applyAll (xs ++ ys) = (t.applyAll xs).applyAll ys := List.foldl_append

/-- The scope around a scope. The global scope has none, nor has one that was never entered. -/
def parent? (t : ScopeTable) : Scope → Option Scope
  | .global => none
  | .node id => t.parents.get? id

/-- The variable of a name in one scope alone. -/
def lookupLocal (t : ScopeTable) (scope : Scope) (name : String) : Option NodeId :=
  t.bindings.get? (scope, name)

/-- The function of a name. -/
def findFunction (t : ScopeTable) (name : String) : Option NodeId := t.functions.get? name

/-- The class of a name. -/
def findClass (t : ScopeTable) (name : String) : Option NodeId := t.classes.get? name

/-- The import of a name. -/
def findImport (t : ScopeTable) (name : String) : Option NodeId := t.imports.get? name

/-- The number of scopes that were entered, the global one apart. -/
def scopeCount (t : ScopeTable) : Nat := t.parents.size

/-- The innermost control-flow construct being visited. -/
def currentControlFlow (t : ScopeTable) : Option NodeId := t.marks.head?

/-- The number of control-flow constructs being visited. -/
def controlDepth (t : ScopeTable) : Nat := t.marks.length

/-- Leave the innermost control-flow construct being visited, and tell which one it was. -/
def exitControlFlow (t : ScopeTable) : Option NodeId × ScopeTable :=
  (t.currentControlFlow, t.apply .exitControlFlow)

/-- The first hit of a name on the way out of a scope, at most `fuel` scopes further out. -/
def findWithin (t : ScopeTable) (name : String) : Nat → Scope → Option NodeId
  | 0, scope => t.lookupLocal scope name
  | fuel + 1, scope =>
    match t.lookupLocal scope name with
    | some id => some id
    | none =>
      match t.parent? scope with
      | none => none
      | some outer => findWithin t name fuel outer

/-- The scopes on the way out of a scope, at most `fuel` scopes further out. -/
def chainWithin (t : ScopeTable) : Nat → Scope → List Scope
  | 0, scope => [scope]
  | fuel + 1, scope =>
    scope ::
      match t.parent? scope with
      | none => []
      | some outer => chainWithin t fuel outer

/-- A way out that does not run in a circle visits no scope twice, so it takes at most one step for
each scope entered. -/
def wayOut (t : ScopeTable) : Nat := t.parents.entries.length

/-- The variable that a name means in a scope: the innermost one on the way out. -/
def findVariable (t : ScopeTable) (name : String) (scope : Scope) : Option NodeId :=
  t.findWithin name t.wayOut scope

/-- A scope and all scopes around it, innermost first. -/
def scopeChain (t : ScopeTable) (scope : Scope) : List Scope := t.chainWithin t.wayOut scope

end ScopeTable

end CodeGraph
