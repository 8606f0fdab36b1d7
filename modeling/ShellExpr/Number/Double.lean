import ShellExpr.Number.Numeral

/-!
# Doubles

Binary floating-point numbers of 64 bits, given by their bits. A finite one is
`± mantissa * 2 ^ exponent`; comparison, conversion and rounding are computed exactly from that,
and the four basic operations and powers are the machine's.

* `Double.compare?`: the order of values; not-a-number is comparable with nothing.
* `Double.toInt?`: the integer a double equals, if there is one.
* `Double.ofRatio`: the double nearest to a quotient, of two equally near the even one.
* `Double.rem`: the exact remainder of the truncated quotient.
-/

namespace ShellExpr

/-- A double, bit for bit: two not-a-numbers with different bits are different. -/
structure Double where
  bits : UInt64
deriving DecidableEq, Inhabited

namespace Double

/-- The bits below the sign. -/
def magnitude (x : Double) : Nat := x.bits.toNat % 2 ^ 63

def isNegative (x : Double) : Bool := 2 ^ 63 ≤ x.bits.toNat

/-- The double with the given sign and bits below it. -/
def ofParts (negative : Bool) (magnitude : Nat) : Double :=
  ⟨UInt64.ofNat ((if negative then 2 ^ 63 else 0) + magnitude)⟩

/-- The bits of infinity below the sign; the larger ones are those of not-a-numbers. -/
def infiniteMagnitude : Nat := 2047 * 2 ^ 52

def isNaN (x : Double) : Bool := infiniteMagnitude < x.magnitude

def isFinite (x : Double) : Bool := x.magnitude < infiniteMagnitude

def isZero (x : Double) : Bool := x.magnitude = 0

def zero : Double := ofParts false 0

def one : Double := ofParts false (1023 * 2 ^ 52)

def infinity (negative : Bool) : Double := ofParts negative infiniteMagnitude

/-- The not-a-number of texts. -/
def quietNaN (negative : Bool) : Double := ofParts negative (infiniteMagnitude + 2 ^ 51)

/-- The not-a-number that an operation on ordinary numbers produces. -/
def inventedNaN : Double := quietNaN true

/-- Whole part of the significand. -/
def mantissa (x : Double) : Nat :=
  let fraction := x.magnitude % 2 ^ 52
  if x.magnitude < 2 ^ 52 then fraction else 2 ^ 52 + fraction

/-- The power of two by which the mantissa is scaled. -/
def exponent (x : Double) : Int := (max (x.magnitude / 2 ^ 52) 1 : Nat) - 1075

def neg (x : Double) : Double := ofParts (!x.isNegative) x.magnitude

/-- The position of a number on the line of doubles; both zeros stand at zero. -/
def rank (x : Double) : Int := if x.isNegative then -(x.magnitude : Int) else x.magnitude

/-- The order of two values, unless one is not a number. -/
def compare? (x y : Double) : Option Ordering :=
  if x.isNaN || y.isNaN then none else some (compare x.rank y.rank)

/-- Equality of values: the two zeros are equal, and not-a-number equals nothing. -/
def equal (x y : Double) : Bool := x.compare? y = some .eq

/-- Whether the value is below zero. -/
def isBelowZero (x : Double) : Bool := x.compare? zero = some .lt

/-- `n` if the value is the integer `n`. -/
def toInt? (x : Double) : Option Int :=
  if x.isFinite then
    let signed : Int := if x.isNegative then -(x.mantissa : Int) else x.mantissa
    if 0 ≤ x.exponent then some (signed * 2 ^ x.exponent.toNat)
    else if x.mantissa % 2 ^ (-x.exponent).toNat = 0 then
      some (signed / 2 ^ (-x.exponent).toNat)
    else none
  else none

/-! ### Rounding -/

/-- `num / den` rounded to an integer, a half to the even neighbour. -/
def roundDiv (num den : Nat) : Nat :=
  let q := num / den
  let r := num % den
  if 2 * r < den then q else if den < 2 * r then q + 1 else if q % 2 = 0 then q else q + 1

/-- The largest `e` with `2 ^ e ≤ num / den`, for positive operands. -/
def ratioLog2 (num den : Nat) : Int :=
  let e : Int := (Nat.log2 num : Int) - Nat.log2 den
  if den * 2 ^ e.toNat ≤ num * 2 ^ (-e).toNat then e else e - 1

/-- The double nearest to `± num / den`; of two equally near ones the one with even mantissa. -/
def ofRatio (negative : Bool) (num den : Nat) : Double :=
  if num = 0 ∨ den = 0 then ofParts negative 0
  else
    let e := max (-1074) (ratioLog2 num den - 52)
    let m := roundDiv (num * 2 ^ (-e).toNat) (den * 2 ^ e.toNat)
    ofParts negative (min infiniteMagnitude ((e + 1074).toNat * 2 ^ 52 + m))

/-- The double nearest to an integer. -/
def ofInt (n : Int) : Double := ofRatio (n < 0) n.natAbs 1

/-- The largest integral value not above `x`; zeros, infinities and not-a-numbers stay. -/
def floor (x : Double) : Double :=
  if x.isFinite && x.exponent < 0 then
    let whole := x.mantissa / 2 ^ (-x.exponent).toNat
    let exact := x.mantissa % 2 ^ (-x.exponent).toNat = 0
    ofRatio x.isNegative (if x.isNegative && !exact then whole + 1 else whole) 1
  else x

/-! ### Arithmetic -/

def toFloat (x : Double) : Float := Float.ofBits x.bits

/-- The result of an operation on `x` and `y`: a not-a-number among them is passed on. -/
def result (x y : Double) (r : Float) : Double :=
  if r.isNaN then if x.isNaN then x else if y.isNaN then y else inventedNaN
  else ⟨r.toBits⟩

def add (x y : Double) : Double := result x y (x.toFloat + y.toFloat)

def sub (x y : Double) : Double := result x y (x.toFloat - y.toFloat)

def mul (x y : Double) : Double := result x y (x.toFloat * y.toFloat)

def div (x y : Double) : Double := result x y (x.toFloat / y.toFloat)

def pow (x y : Double) : Double := result x y (Float.pow x.toFloat y.toFloat)

/-- The remainder of the truncated quotient, exact and with the sign of `x`. -/
def rem (x y : Double) : Double :=
  if x.isNaN then x
  else if y.isNaN then y
  else if !x.isFinite || y.isZero then inventedNaN
  else if !y.isFinite then x
  else
    let e := min x.exponent y.exponent
    let r := (x.mantissa * 2 ^ (x.exponent - e).toNat) % (y.mantissa * 2 ^ (y.exponent - e).toNat)
    ofRatio x.isNegative (r * 2 ^ e.toNat) (2 ^ (-e).toNat)

/-- The remainder with the sign of the divisor. -/
def mod (x y : Double) : Double :=
  let r := x.rem y
  if !r.isZero && r.isBelowZero != y.isBelowZero then r.add y else r

/-- The quotient rounded toward negative infinity. -/
def floorDiv (x y : Double) : Double := (x.div y).floor

/-- The product of `r` and the power of `a` by repeated squaring. -/
def powerTimes (a r : Double) (n : Nat) : Double :=
  if n = 0 then r
  else
    let r := if n % 2 = 1 then r.mul a else r
    if n / 2 = 0 then r else powerTimes (a.mul a) r (n / 2)
termination_by n

/-- `a` to the power `-n`: the reciprocal of the power by repeated squaring. -/
def reciprocalPower (a : Double) (n : Nat) : Double := one.div (powerTimes a one n)

end Double

end ShellExpr
