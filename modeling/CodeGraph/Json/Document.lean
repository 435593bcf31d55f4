import CodeGraph.Json.Value

/-!
# JSON documents

A `Document` is a JSON text as it is read, before numbers and strings get a meaning: a number keeps
its digits, and a string whose escapes do not pair up has no value. Where a text is malformed the
document ends in `malformed`, so that what comes first in the text can be found out.
-/

namespace CodeGraph

/-- A number as it is spelled, its digits as numbers below ten. -/
structure NumberLiteral where
  negative : Bool
  whole : List Nat
  /-- The digits after the point. -/
  fraction : Option (List Nat)
  /-- Whether the exponent is negative, and its digits. -/
  exponent : Option (Bool × List Nat)
deriving DecidableEq, Repr

/-- A JSON text as it is read. -/
inductive Document where
  /-- The text is no JSON from here on. -/
  | malformed
  | null
  | bool (b : Bool)
  | number (n : NumberLiteral)
  /-- A string, with a value unless an escaped surrogate is alone. -/
  | string (s : Option String)
  | array (items : List Document)
  | object (members : List (Option String × Document))

namespace NumberLiteral

/-- The largest significand that is kept. -/
def maxSignificand : Nat := UInt64.size - 1

/-- The value of some digits. -/
def valueOf (digits : List Nat) : Nat := digits.foldl (fun n d => 10 * n + d) 0

/-- Take up digits as long as the significand fits; the number of digits left over is the second
part of the result. -/
def takeUp (significand : Nat) : List Nat → Nat × Nat
  | [] => (significand, 0)
  | d :: ds =>
    if significand * 10 + d ≤ maxSignificand then takeUp (significand * 10 + d) ds
    else (significand, (d :: ds).length)

/-- The significand and the decimal exponent of the digits before and after the point. Digits that
do not fit any more are dropped: before the point they still count as places. -/
def parts (n : NumberLiteral) : Nat × Int :=
  let (significand, dropped) := takeUp 0 n.whole
  match n.fraction with
  | none => (significand, dropped)
  | some ds =>
    let (total, unused) := takeUp significand ds
    (total, (dropped : Int) - (ds.length - unused : Nat))

/-- The double nearest to a natural number of sixty-four bits. -/
def floatOfNat (n : Nat) : Float := n.toUInt64.toFloat

/-- A power of ten. -/
def powerOfTen (k : Nat) : Float := Float.ofScientific 1 false k

/-- A float times a power of ten, by one multiplication or division where the power is itself a
double; none where the result is out of range. -/
def scaleFloat (f : Float) : Nat → Int → Option Float
  | 0, _ => some f
  | fuel + 1, e =>
    if e.natAbs ≤ 308 then
      if 0 ≤ e then
        let scaled := f * powerOfTen e.natAbs
        if scaled.isInf then none else some scaled
      else some (f / powerOfTen e.natAbs)
    else if f == 0.0 then some f
    else if 0 ≤ e then none
    else scaleFloat (f / powerOfTen 308) fuel (e + 308)

/-- The largest exponent that is taken as written. -/
def maxExponent : Nat := (1 <<< 31) - 1

/-- The magnitude of a number as a float; none where it is out of range. Three steps of scaling
bring every significand to zero. -/
def magnitude? (n : NumberLiteral) : Option Float :=
  let (significand, places) := n.parts
  match n.exponent with
  | none => scaleFloat (floatOfNat significand) 4 places
  | some (isBelow, ds) =>
    let e := valueOf ds
    if maxExponent < e then
      if significand ≠ 0 ∧ !isBelow then none else some 0.0
    else scaleFloat (floatOfNat significand) 4 (if isBelow then places - e else places + e)

/-- The double of a float. -/
def doubleOf (negative : Bool) (f : Float) : Double :=
  ⟨(if negative then -f else f).toBits⟩

/-- The value of a number; none where it is out of range. Whole numbers of sixty-four bits are
exact, and minus zero is a double. -/
def value? (n : NumberLiteral) : Option JsonNumber :=
  let whole := valueOf n.whole
  if n.fraction.isNone && n.exponent.isNone && !n.negative && whole ≤ maxSignificand then
    some (.natural whole)
  else if n.fraction.isNone && n.exponent.isNone && n.negative && 0 < whole && whole ≤ 1 <<< 63 then
    some (.negative whole)
  else n.magnitude?.map fun f => .double (doubleOf n.negative f)

end NumberLiteral

namespace Document

mutual

/-- The generic value of a document: members in the order of their keys, the last of each key. -/
def value? : Document → Option Json
  | malformed => none
  | null => some .null
  | bool b => some (.bool b)
  | number n => n.value?.map .number
  | string s => s.map .string
  | array items => (valuesOf? items).map .array
  | object members => (membersOf? members).map fun ms => .object (Json.sortedMembers ms)

/-- The generic values of some documents. -/
def valuesOf? : List Document → Option (List Json)
  | [] => some []
  | d :: ds =>
    match value? d, valuesOf? ds with
    | some j, some js => some (j :: js)
    | _, _ => none

/-- The generic members of an object. -/
def membersOf? : List (Option String × Document) → Option (List (String × Json))
  | [] => some []
  | (key, d) :: ms =>
    match key, value? d, membersOf? ms with
    | some k, some j, some js => some ((k, j) :: js)
    | _, _, _ => none

end

mutual

/-- Whether a text is well-formed throughout. -/
def isComplete : Document → Bool
  | malformed => false
  | array items => allComplete items
  | object members => membersComplete members
  | _ => true

/-- Whether some documents are well-formed. -/
def allComplete : List Document → Bool
  | [] => true
  | d :: ds => isComplete d && allComplete ds

/-- Whether the members of an object are well-formed. -/
def membersComplete : List (Option String × Document) → Bool
  | [] => true
  | (_, d) :: ms => isComplete d && membersComplete ms

end

end Document

namespace Json

/-- The spelling of a number that is written without point or exponent. -/
def literal (negative : Bool) (n : Nat) : NumberLiteral :=
  ⟨negative, (Nat.toDigits 10 n).map fun c => c.toNat - 48, none, none⟩

end Json

end CodeGraph
