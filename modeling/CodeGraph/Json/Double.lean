/-!
# Doubles as decimals

A `Double` is a finite double-precision number, kept as its bits. `shortest` finds the fewest digits
that read back as the number, and of those the nearest; ties go to the even digit. All of it is
exact arithmetic on natural numbers.
-/

namespace CodeGraph

/-- A double-precision number as its sixty-four bits. -/
structure Double where
  bits : UInt64
deriving DecidableEq, Repr, Inhabited

namespace Double

/-- Whether the sign bit is set. -/
def isNegative (d : Double) : Bool := d.bits >>> 63 != 0

/-- The exponent field. -/
def exponentField (d : Double) : Nat := ((d.bits >>> 52) &&& 0x7ff).toNat

/-- The fraction field. -/
def fractionField (d : Double) : Nat := (d.bits &&& 0xfffffffffffff).toNat

/-- The integer `m` of the magnitude `m * 2 ^ (p - 1074)`. -/
def significand (d : Double) : Nat :=
  if d.exponentField = 0 then d.fractionField else d.fractionField + (1 <<< 52)

/-- The exponent `p` of the magnitude `m * 2 ^ (p - 1074)`. -/
def scale (d : Double) : Nat := d.exponentField - 1

/-- A decimal number `digits * 10 ^ exponent`. -/
structure Decimal where
  digits : Nat
  exponent : Int
deriving DecidableEq, Repr

/-- A ratio of two natural numbers, multiplied by a power of ten. -/
def shift (num den : Nat) (k : Int) : Nat × Nat :=
  if 0 ≤ k then (num * Nat.pow 10 k.toNat, den) else (num, den * Nat.pow 10 (-k).toNat)

/-- The least `e` of `start, start + 1, …` with the ratio below `10 ^ e`. -/
def decimalOrder (num den : Nat) : Nat → Int → Int
  | 0, e => e
  | fuel + 1, e =>
    let (a, b) := shift num den (-e)
    if a < b then e else decimalOrder num den fuel (e + 1)

/-- The numbers that read back as a double, in quarters of its last place: from `low` to `high`
around `mid`, ends included where `closed`, all over the denominator `den`. -/
structure Interval where
  low : Nat
  mid : Nat
  high : Nat
  den : Nat
  closed : Bool

/-- The numbers that read back as a double. The gap below a power of two is half as wide. -/
def interval (d : Double) : Interval :=
  let m := d.significand
  let narrow := d.fractionField == 0 && d.exponentField > 1
  let unit := 1 <<< d.scale
  ⟨(4 * m - (if narrow then 1 else 2)) * unit, 4 * m * unit, (4 * m + 2) * unit, 1 <<< 1076,
    m % 2 == 0⟩

namespace Interval

/-- Whether `n * 10 ^ k` lies in the interval. -/
def holds (i : Interval) (n : Nat) (k : Int) : Bool :=
  let (low, den) := shift i.low i.den (-k)
  let (high, _) := shift i.high i.den (-k)
  if i.closed then low ≤ n * den && n * den ≤ high else low < n * den && n * den < high

/-- The neighbour of the middle on the grid of the multiples of `10 ^ k` that lies in the interval;
of two, the nearer, and the even one of two equally near. -/
def onGrid? (i : Interval) (k : Int) : Option Nat :=
  let (mid, den) := shift i.mid i.den (-k)
  let below := mid / den
  let above := below + 1
  match i.holds below k, i.holds above k with
  | true, true =>
    let rest := mid - below * den
    if 2 * rest < den then some below
    else if den < 2 * rest then some above
    else if below % 2 == 0 then some below else some above
  | true, false => some below
  | false, true => some above
  | false, false => none

/-- The first hit on ever finer grids, from `10 ^ k` down. -/
def search (i : Interval) : Nat → Int → Decimal
  | 0, k => ⟨(i.onGrid? k).getD 0, k⟩
  | fuel + 1, k =>
    match i.onGrid? k with
    | some n => ⟨n, k⟩
    | none => search i fuel (k - 1)

end Interval

/-- A decimal without zeros at the end of its digits. -/
def trimZeros : Nat → Decimal → Decimal
  | 0, d => d
  | fuel + 1, d =>
    if d.digits ≠ 0 ∧ d.digits % 10 = 0 then trimZeros fuel ⟨d.digits / 10, d.exponent + 1⟩ else d

/-- The shortest decimal that reads back as a double's magnitude. Seventeen digits always do. -/
def shortest (d : Double) : Decimal :=
  if d.significand = 0 then ⟨0, 0⟩
  else
    let i := d.interval
    let order := decimalOrder i.mid i.den 700 (-330)
    trimZeros 20 (i.search 17 (order - 1))

/-- Zeros. -/
def zeros (n : Nat) : List Char := List.replicate n '0'

/-- The text of an exponent, with its sign. -/
def exponentText (e : Int) : List Char :=
  if 0 ≤ e then '+' :: Nat.toDigits 10 e.toNat else '-' :: Nat.toDigits 10 (-e).toNat

/-- The decimal text of a magnitude: positional from `1e-5` up to `1e+16`, with an exponent
elsewhere. There is always a point or an exponent. -/
def magnitudeText (d : Decimal) : List Char :=
  if d.digits = 0 then ['0', '.', '0']
  else
    let ds := Nat.toDigits 10 d.digits
    let point : Int := ds.length + d.exponent
    if 0 ≤ d.exponent ∧ point ≤ 16 then ds ++ zeros d.exponent.toNat ++ ['.', '0']
    else if 0 < point ∧ point ≤ 16 then ds.take point.toNat ++ '.' :: ds.drop point.toNat
    else if -5 < point ∧ point ≤ 0 then '0' :: '.' :: (zeros (-point).toNat ++ ds)
    else
      let mantissa := if ds.length = 1 then ds else ds.take 1 ++ '.' :: ds.drop 1
      mantissa ++ 'e' :: exponentText (point - 1)

/-- The decimal text of a double. -/
def text (d : Double) : List Char :=
  (if d.isNegative then ['-'] else []) ++ magnitudeText d.shortest

end Double

end CodeGraph
