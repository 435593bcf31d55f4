import CodeGraph.Json.Reader

/-!
# Bodies of requests

A body is the JSON of a flat record: an object of named fields, or an array of the fields in order. It
is judged from its start on, and the first fault counts: either the text is no JSON, or it has the
wrong shape.
-/

namespace CodeGraph

/-- What is wrong with a body. -/
inductive BodyFault where
  | malformed
  | wrongShape
deriving DecidableEq, Repr

namespace Body

/-- What a field holds. -/
inductive FieldKind where
  | text
  /-- A text that may be null, or missing from an object. -/
  | optionalText
  /-- A natural number of sixty-four bits. -/
  | count
deriving DecidableEq, Repr

/-- The value of a field. -/
inductive FieldValue where
  | text (s : Option String)
  | count (n : Nat)
deriving DecidableEq, Repr

/-- The fault of a value that is not of the kind of its field. Of arrays and objects only the start
is looked at. -/
def misfit : Document → BodyFault
  | .malformed => .malformed
  | .string none => .malformed
  | .number n => if n.value?.isNone then .malformed else .wrongShape
  | _ => .wrongShape

/-- Read the value of a field. -/
def readField (kind : FieldKind) (d : Document) : Except BodyFault FieldValue :=
  match kind, d with
  | .text, .string (some s) => .ok (.text (some s))
  | .optionalText, .string (some s) => .ok (.text (some s))
  | .optionalText, .null => .ok (.text none)
  | .count, .number n =>
    match n.value? with
    | some (.natural k) => .ok (.count k)
    | _ => .error (misfit d)
  | _, d => .error (misfit d)

/-- The fields of a record, in order. -/
abbrev Fields := List (String × FieldKind)

/-- Read the members of an object, after those in `seen`. -/
def readMembers (fields : Fields) (seen : List (String × FieldValue)) :
    List (Option String × Document) → Except BodyFault (List (String × FieldValue))
  | [] => .ok seen
  | (none, _) :: _ => .error .malformed
  | (some key, d) :: rest =>
    match fields.find? (·.1 == key) with
    | none => if d.isComplete then readMembers fields seen rest else .error .malformed
    | some field =>
      if seen.any (·.1 == key) then .error .wrongShape
      else do
        let v ← readField field.2 d
        readMembers fields ((key, v) :: seen) rest

/-- The value of a field among those that were read. -/
def valueOf (seen : List (String × FieldValue)) (field : String × FieldKind) :
    Except BodyFault FieldValue :=
  match seen.find? (·.1 == field.1), field.2 with
  | some v, _ => .ok v.2
  | none, .optionalText => .ok (.text none)
  | none, _ => .error .wrongShape

/-- Read the items of an array. -/
def readItems : Fields → List Document → Except BodyFault (List FieldValue)
  | [], [] => .ok []
  | [], _ :: _ => .error .malformed
  | _ :: _, [] => .error .wrongShape
  | field :: fields, d :: ds => do
    let v ← readField field.2 d
    let vs ← readItems fields ds
    return v :: vs

/-- Read a record. -/
def readRecord (fields : Fields) : Document → Except BodyFault (List FieldValue)
  | .object members => do
    let seen ← readMembers fields [] members
    fields.mapM (valueOf seen)
  | .array items => readItems fields items
  | d => .error (misfit d)

/-- Read a body. -/
def read (fields : Fields) (body : String) : Except BodyFault (List FieldValue) := do
  let (d, rest) := Json.readText body.toList
  let values ← readRecord fields d
  match rest with
  | none => .error .malformed
  | some rest => if (Json.skipSpace rest).isEmpty then return values else throw .malformed

end Body

end CodeGraph
