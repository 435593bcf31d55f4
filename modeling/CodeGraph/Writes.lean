/-!
# Tables by history

A `Writes` table keeps all that was put into it, newest first. A look-up takes the newest entry of
its key, so the last write wins, and the size counts keys and not writes.
-/

namespace CodeGraph

/-- A table as the list of its writes, newest first. -/
structure Writes (κ ν : Type) where
  entries : List (κ × ν)
deriving Repr

namespace Writes

variable {κ ν : Type} [DecidableEq κ]

/-- The table into which nothing was put. -/
def empty : Writes κ ν := ⟨[]⟩

instance : EmptyCollection (Writes κ ν) := ⟨empty⟩

instance : Inhabited (Writes κ ν) := ⟨empty⟩

/-- Put a value under a key. -/
def put (t : Writes κ ν) (key : κ) (value : ν) : Writes κ ν := ⟨(key, value) :: t.entries⟩

/-- The newest value of a key in a list of writes. -/
def newest? (key : κ) : List (κ × ν) → Option ν
  | [] => none
  | (k, v) :: rest => if k = key then some v else newest? key rest

/-- The value of a key. -/
def get? (t : Writes κ ν) (key : κ) : Option ν := newest? key t.entries

/-- Whether a key has a value. -/
def contains (t : Writes κ ν) (key : κ) : Bool := (t.get? key).isSome

/-- The keys that have a value, each once. -/
def keysOf : List (κ × ν) → List κ
  | [] => []
  | (k, _) :: rest => if k ∈ keysOf rest then keysOf rest else k :: keysOf rest

/-- The number of keys that have a value. -/
def size (t : Writes κ ν) : Nat := (keysOf t.entries).length

theorem get?_put (t : Writes κ ν) (k key : κ) (v : ν) :
    (t.put k v).get? key = if k = key then some v else t.get? key := rfl

@[simp] theorem get?_put_self (t : Writes κ ν) (k : κ) (v : ν) : (t.put k v).get? k = some v := by
  simp [get?_put]

theorem get?_put_of_ne (t : Writes κ ν) {k key : κ} (v : ν) (h : k ≠ key) :
    (t.put k v).get? key = t.get? key := by
  simp [get?_put, h]

end Writes

end CodeGraph
