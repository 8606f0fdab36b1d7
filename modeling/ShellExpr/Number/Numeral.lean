/-!
# Numerals

Whole numbers as digits in a radix of at most 36, read with letters of either case and written
with lower-case ones.

* `Numeral.value?`: the value of a nonempty run of digits.
* `Numeral.signed?`: the same with one leading sign allowed.
* `Numeral.digits`: the digits of a number, without leading zeros.
-/

namespace ShellExpr

-- Powers of numbers are those of the core library in every module, also beside an algebraic one.
attribute [scoped instance (high)] instPowNat
attribute [default_instance high + 1] instPowNat

end ShellExpr

namespace ShellExpr.Numeral

/-- The value of a digit, a letter counting from ten. -/
def digitValue? (c : Char) : Option Nat :=
  if '0' ≤ c ∧ c ≤ '9' then some (c.toNat - 48)
  else if 'a' ≤ c ∧ c ≤ 'z' then some (c.toNat - 87)
  else if 'A' ≤ c ∧ c ≤ 'Z' then some (c.toNat - 55)
  else none

/-- The value of a digit of the radix. -/
def digit? (radix : Nat) (c : Char) : Option Nat := (digitValue? c).filter (· < radix)

/-- Whether the character is one of the ten decimal digits. -/
def isDecimalDigit (c : Char) : Bool := '0' ≤ c && c ≤ '9'

/-- The number whose digits are those of `acc` followed by the given ones. -/
def extend? (radix acc : Nat) : List Char → Option Nat
  | [] => some acc
  | c :: rest => (digit? radix c).bind fun d => extend? radix (acc * radix + d) rest

/-- The value of a nonempty run of digits. -/
def value? (radix : Nat) (cs : List Char) : Option Nat :=
  if cs.isEmpty then none else extend? radix 0 cs

/-- The value of a nonempty run of digits, a plus sign allowed before it. -/
def unsigned? (radix : Nat) : List Char → Option Nat
  | '+' :: rest => value? radix rest
  | cs => value? radix cs

/-- The value of a nonempty run of digits, a sign allowed before it. -/
def signed? (radix : Nat) : List Char → Option Int
  | '-' :: rest => (value? radix rest).map fun n => -(n : Int)
  | cs => (unsigned? radix cs).map fun n => (n : Int)

/-- The character of a digit below 36. -/
def digitChar (d : Nat) : Char := Char.ofNat (if d < 10 then 48 + d else 87 + d)

/-- The digits of a number; zero has one digit. -/
def digits (radix n : Nat) : List Char :=
  if _h : radix < 2 ∨ n < radix then [digitChar n]
  else digits radix (n / radix) ++ [digitChar (n % radix)]
termination_by n
decreasing_by exact Nat.div_lt_self (by omega) (by omega)

/-- Decimal digits, with a minus sign for a negative number. -/
def decimal (n : Int) : List Char :=
  if n < 0 then '-' :: digits 10 n.natAbs else digits 10 n.natAbs

end ShellExpr.Numeral
