import CodeGraph.Json.Double
import CodeGraph.Keyed

/-!
# JSON values

Integers of sixty-four bits are exact, and all other numbers are doubles. The members of an object
keep their order; `Json.get?` is the view of an object by key.
-/

namespace CodeGraph

/-- A JSON number. -/
inductive JsonNumber where
  | natural (n : Nat)
  /-- The number `-n`. -/
  | negative (n : Nat)
  | double (d : Double)
deriving DecidableEq, Repr

/-- A JSON value. -/
inductive Json where
  | null
  | bool (b : Bool)
  | number (n : JsonNumber)
  | string (s : String)
  | array (items : List Json)
  | object (members : List (String × Json))

namespace Json

instance : Inhabited Json := ⟨null⟩

/-- A natural number. -/
def nat (n : Nat) : Json := number (.natural n)

instance : Coe String Json := ⟨string⟩

instance : Coe Bool Json := ⟨bool⟩

/-- A value that may be missing. -/
def ofOption : Option Json → Json
  | none => null
  | some j => j

/-- Members in the order of their keys; of members with one key, the last. -/
def sortedMembers (members : List (String × Json)) : List (String × Json) :=
  Keyed.byKey (·.1) members.reverse

/-- The member of a key. -/
def get? (j : Json) (key : String) : Option Json :=
  match j with
  | object members => (members.find? (·.1 == key)).map (·.2)
  | _ => none

end Json

end CodeGraph
