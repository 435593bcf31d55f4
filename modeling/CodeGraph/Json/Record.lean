import CodeGraph.Json.Reader
import CodeGraph.Json.Writer

/-!
# Records in JSON

A record is an object of named parts, or an array of its parts in order. In an object, parts that
the record does not have are passed over, and a part given twice is refused; an array may end before
the last parts. A `Codec` writes a type of values as JSON and reads it back.
-/

namespace CodeGraph

/-- What a document says of one part of a record. -/
inductive Slot where
  /-- An object does not have the part. -/
  | absent
  /-- An array ends before the part. -/
  | beyond
  | given (d : Document)

namespace Slot

/-- A part that must be there. -/
def required {α : Type} (read : Document → Option α) : Slot → Option α
  | given d => read d
  | _ => none

/-- A part with a value of its own where it is not there. -/
def withDefault {α : Type} (default : α) (read : Document → Option α) : Slot → Option α
  | given d => read d
  | _ => some default

/-- A value that may be null. -/
def nullable {α : Type} (read : Document → Option α) : Document → Option (Option α)
  | .null => some none
  | d => (read d).map some

/-- A part that may be null or missing from an object, but not from an array. -/
def optional {α : Type} (read : Document → Option α) : Slot → Option (Option α)
  | given d => nullable read d
  | absent => some none
  | beyond => none

end Slot

namespace Document

/-- A string. -/
def text? : Document → Option String
  | string s => s
  | _ => none

/-- A natural number below a bound. -/
def natural? (bound : Nat) : Document → Option Nat
  | number n =>
    match n.value? with
    | some (.natural k) => if k < bound then some k else none
    | _ => none
  | _ => none

/-- A natural number of sixty-four bits. -/
def count? : Document → Option Nat := natural? UInt64.size

/-- Read each of some documents. -/
def each? {α : Type} (read : Document → Option α) : List Document → Option (List α)
  | [] => some []
  | d :: ds =>
    match read d, each? read ds with
    | some x, some xs => some (x :: xs)
    | _, _ => none

/-- An array. -/
def list? {α : Type} (read : Document → Option α) : Document → Option (List α)
  | array items => each? read items
  | _ => none

/-- A name out of a fixed list, alone or as the one key of an object whose value is null. -/
def name? {α : Type} (ofName? : String → Option α) : Document → Option α
  | string (some s) => ofName? s
  | object [(some s, null)] => ofName? s
  | _ => none

/-- As `name?`, and the value of the key may also be an empty object. -/
def looseName? {α : Type} (ofName? : String → Option α) : Document → Option α
  | object [(some s, object [])] => ofName? s
  | d => name? ofName? d

/-- What the members of an object say of a part; none where it is given twice. -/
def memberSlot? (members : List (Option String × Document)) (name : String) : Option Slot :=
  match members.filter (·.1 == some name) with
  | [] => some .absent
  | [m] => some (.given m.2)
  | _ => none

/-- What the items of an array say of some parts; none where there are more items than parts. -/
def itemSlots? : List String → List Document → Option (List Slot)
  | [], [] => some []
  | [], _ :: _ => none
  | _ :: names, [] => (itemSlots? names []).map (.beyond :: ·)
  | _ :: names, d :: ds => (itemSlots? names ds).map (.given d :: ·)

/-- What the members of an object say of some parts. -/
def memberSlots? (members : List (Option String × Document)) : List String → Option (List Slot)
  | [] => some []
  | name :: names =>
    match memberSlot? members name, memberSlots? members names with
    | some s, some ss => some (s :: ss)
    | _, _ => none

/-- What a document says of the parts of a record. -/
def slots? (names : List String) : Document → Option (List Slot)
  | object members =>
    if members.all (·.1.isSome) then memberSlots? members names else none
  | array items => itemSlots? names items
  | _ => none

/-- A record that is told apart by one of its parts: that part, and the rest of the record. All
numbers and strings of it must have values. -/
def tagged? (tag : String) (d : Document) : Option (String × Document) :=
  if d.value?.isNone then none
  else
    match d with
    | object members =>
      match members.filter (·.1 == some tag) with
      | [(_, string (some t))] => some (t, object (members.filter (·.1 != some tag)))
      | _ => none
    | array (string (some t) :: items) => some (t, array items)
    | _ => none

mutual

/-- The number of levels of a document. -/
def levels : Document → Nat
  | array items => levelsAll items + 1
  | object members => levelsOfMembers members + 1
  | _ => 1

/-- The most levels among some documents. -/
def levelsAll : List Document → Nat
  | [] => 0
  | d :: ds => max (levels d) (levelsAll ds)

/-- The most levels among some members. -/
def levelsOfMembers : List (Option String × Document) → Nat
  | [] => 0
  | (_, d) :: ms => max (levels d) (levelsOfMembers ms)

end

end Document

/-- How a type of values is written as JSON and read back. -/
structure Codec (α : Type) where
  encode : α → Json
  decode : Document → Option α

namespace Codec

variable {α : Type} (c : Codec α)

/-- The text of a value on one line. -/
def write (x : α) : String := (c.encode x).compact

/-- The value of a text. -/
def read? (text : String) : Option α := (Json.read? text).bind c.decode

end Codec

end CodeGraph
