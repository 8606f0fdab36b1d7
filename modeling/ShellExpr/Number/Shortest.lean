import ShellExpr.Number.Double
import ShellExpr.Number.Numeral

/-!
# Shortest decimal text of a double

The text of a double has the fewest digits that read back as it. The reals that read back are those
between the midpoints to its two neighbours, the ends included if the mantissa is even. On a decimal
grid that is fine enough, one of the two grid points around the value lies among them; the nearer
one is taken, and of two equally near ones the larger.

* `Shortest.digits`: the digits and the power of ten.
* `Double.text`: positional from `0.0001` up to below `10 ^ 16`, with an exponent elsewhere.
-/

namespace ShellExpr.Shortest

/-- The real interval that rounds to a double, over a common denominator. -/
structure Interval where
  low : Nat
  value : Nat
  high : Nat
  den : Nat
  /-- Whether the ends themselves round to the double. -/
  closed : Bool

/-- The interval of the positive double `mantissa * 2 ^ exponent`. The lower neighbour is half as
far when the mantissa is the least of a normal number. -/
def interval (x : Double) : Interval :=
  let m := x.mantissa
  let below := if m = 2 ^ 52 ∧ -1074 < x.exponent then 1 else 2
  let scale := 2 ^ (x.exponent - 2).toNat
  { low := (4 * m - below) * scale
    value := 4 * m * scale
    high := (4 * m + 2) * scale
    den := 2 ^ (2 - x.exponent).toNat
    closed := m % 2 = 0 }

/-- Whether `num / den` is in the interval. -/
def Interval.contains (i : Interval) (num den : Nat) : Bool :=
  if i.closed then i.low * den ≤ num * i.den && num * i.den ≤ i.high * den
  else i.low * den < num * i.den && num * i.den < i.high * den

/-- The least `k` with `num / den < 10 ^ k`, searched upward from `start`. -/
def tenLog (num den : Nat) (start : Int) : Nat → Int
  | 0 => start
  | fuel + 1 =>
    if num * 10 ^ (-start).toNat < den * 10 ^ start.toNat then start
    else tenLog num den (start + 1) fuel

/-- The grid point of unit `10 ^ unit` that stands for the value, if one of the two around it lies
in the interval. -/
def gridPoint? (i : Interval) (unit : Int) : Option Nat :=
  let up := 10 ^ unit.toNat
  let down := 10 ^ (-unit).toNat
  let a := i.value * down / (i.den * up)
  let lowOk := i.contains (a * up) down
  let highOk := i.contains ((a + 1) * up) down
  if lowOk && highOk then
    if i.den * up * (2 * a + 1) ≤ 2 * i.value * down then some (a + 1) else some a
  else if lowOk then some a
  else if highOk then some (a + 1)
  else none

/-- The first grid with a point for the value, the grids getting finer from `10 ^ unit` on. -/
def firstGrid (i : Interval) (unit : Int) : Nat → Nat × Int
  | 0 => (0, unit)
  | fuel + 1 =>
    match gridPoint? i unit with
    | some a => (a, unit)
    | none => firstGrid i (unit - 1) fuel

/-- The number without its trailing zeros, and how many there were on top of `count`. -/
def dropZeros (n : Nat) (count : Int) : Nat × Int :=
  if _h : n = 0 ∨ n % 10 ≠ 0 then (n, count) else dropZeros (n / 10) (count + 1)
termination_by n
decreasing_by omega

/-- The shortest decimal `n * 10 ^ k` of a positive double. -/
def digits (x : Double) : Nat × Int :=
  let i := interval x
  let k := tenLog i.value i.den (-324) 640
  let (a, unit) := firstGrid i (k - 1) 18
  dropZeros a unit

/-- The text of `n * 10 ^ k`, `n` without trailing zeros. -/
def write (n : Nat) (k : Int) : List Char :=
  let ds := Numeral.digits 10 n
  let point := (ds.length : Int) + k
  if -4 < point ∧ point ≤ 16 then
    if point ≤ 0 then '0' :: '.' :: List.replicate (-point).toNat '0' ++ ds
    else if 0 ≤ k then ds ++ List.replicate k.toNat '0' ++ ['.', '0']
    else ds.take point.toNat ++ '.' :: ds.drop point.toNat
  else
    let mantissa := match ds with
      | d :: (e :: rest) => d :: '.' :: e :: rest
      | _ => ds
    mantissa ++ 'e' :: Numeral.decimal (point - 1)

end ShellExpr.Shortest

namespace ShellExpr.Double

/-- The text of a double. -/
def text (x : Double) : List Char :=
  if x.isNaN then ['N', 'a', 'N']
  else
    let sign := if x.isNegative then ['-'] else []
    if !x.isFinite then sign ++ ['i', 'n', 'f']
    else if x.isZero then sign ++ ['0', '.', '0']
    else
      let (n, k) := Shortest.digits x
      sign ++ Shortest.write n k

end ShellExpr.Double
