import ShellExpr.Number.Numeral

/-!
# Machine integers

Arithmetic on the signed 64-bit integers. Sums, products and quotients are computed exactly over
`Int` and kept only if they fit; shifts work on the bits and are checked afterwards. Nothing wraps.

* `Integer.ofInt?`: the integer as a machine integer, if it is in range.
* `Integer.div?`, `Integer.rem?`: division rounded toward zero, from which the two that follow the
  divisor are made.
* `Integer.mod?`: has the sign of the divisor, and is undefined where the quotient is.
-/

namespace ShellExpr.Integer

/-- The machine integer of value `n`, unless `n` is out of range. -/
def ofInt? (n : Int) : Option Int64 :=
  if -2 ^ 63 ≤ n ∧ n < 2 ^ 63 then some (Int64.ofInt n) else none

/-- The machine integer nearest to `n`. -/
def clamp (n : Int) : Int64 :=
  if n < -2 ^ 63 then Int64.minValue else if 2 ^ 63 ≤ n then Int64.maxValue else Int64.ofInt n

def ofBool (b : Bool) : Int64 := if b then 1 else 0

def add? (a b : Int64) : Option Int64 := ofInt? (a.toInt + b.toInt)

def sub? (a b : Int64) : Option Int64 := ofInt? (a.toInt - b.toInt)

def mul? (a b : Int64) : Option Int64 := ofInt? (a.toInt * b.toInt)

def neg? (a : Int64) : Option Int64 := ofInt? (-a.toInt)

/-! ### Division -/

/-- The quotient rounded toward zero; there is none by zero, or if it does not fit. -/
def div? (a b : Int64) : Option Int64 := if b = 0 then none else ofInt? (a.toInt.tdiv b.toInt)

/-- The remainder that goes with `div?`, with the sign of `a`; there is none without a quotient. -/
def rem? (a b : Int64) : Option Int64 := (div? a b).map fun _ => a % b

/-- Whether a remainder by `b` is nonzero and has the other sign. -/
def isAcross (r b : Int64) : Bool := r ≠ 0 && decide (r < 0) != decide (b < 0)

/-- The quotient rounded toward negative infinity. -/
def floorDiv? (a b : Int64) : Option Int64 := do
  let q ← div? a b
  let r ← rem? a b
  if isAcross r b then sub? q 1 else some q

/-- The remainder with the sign of the divisor. -/
def mod? (a b : Int64) : Option Int64 := do
  let r ← rem? a b
  if isAcross r b then add? r b else some r

/-! ### Powers and shifts -/

/-- `a` to the power `n`. Exponents of 33 bits and more are refused whatever the base, and a base
of absolute value two or more needs an exponent below 64 to fit. -/
def pow? (a : Int64) (n : Nat) : Option Int64 :=
  if 2 ^ 32 ≤ n then none
  else if a = 0 then some (if n = 0 then 1 else 0)
  else if a = 1 then some 1
  else if a = -1 then some (if n % 2 = 0 then 1 else -1)
  else if 64 ≤ n then none
  else ofInt? (a.toInt ^ n)

/-- The bits of `a` moved up by `n` places, unless moving them back down gives another integer. -/
def shiftLeft? (a : Int64) (n : Nat) : Option Int64 :=
  if a = 0 then some 0
  else if 64 ≤ n then none
  else
    let shifted := a <<< Int64.ofNat n
    if shifted >>> Int64.ofNat n = a then some shifted else none

/-- The bits of `a` moved down by `n` places, the sign filling up. -/
def shiftRight (a : Int64) (n : Nat) : Int64 := a >>> Int64.ofNat (min n 63)

end ShellExpr.Integer
