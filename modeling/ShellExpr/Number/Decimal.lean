import ShellExpr.Number.Double
import ShellExpr.Number.Numeral

/-!
# Reading doubles

A double is written as an optional sign and either a word for infinity or not-a-number, in any
case, or decimal digits with an optional point and an optional power of ten. At least one digit
stands before the power. The double read is the one nearest to the decimal.

* `Decimal.split?`: the significant digits and the power of ten of a text.
* `Double.read?`: the double a text stands for.
-/

namespace ShellExpr.Decimal

/-- A capital ASCII letter made small. -/
def lower (c : Char) : Char := if 'A' ≤ c ∧ c ≤ 'Z' then Char.ofNat (c.toNat + 32) else c

/-- The power of ten after the letter for it; zero if nothing is written. -/
def power? : List Char → Option Int
  | [] => some 0
  | c :: rest => if lower c = 'e' then Numeral.signed? 10 rest else none

/-- The digits of a decimal without its point, and its power of ten. -/
def split? (cs : List Char) : Option (List Char × Int) :=
  let whole := cs.takeWhile Numeral.isDecimalDigit
  let rest := cs.dropWhile Numeral.isDecimalDigit
  let (fraction, rest) := match rest with
    | '.' :: r => (r.takeWhile Numeral.isDecimalDigit, r.dropWhile Numeral.isDecimalDigit)
    | r => ([], r)
  if whole.isEmpty && fraction.isEmpty then none
  else (power? rest).map fun p => (whole ++ fraction, p - fraction.length)

/-- The double nearest to `± n * 10 ^ k`. Far outside the range of doubles the power is not
computed. -/
def nearest (negative : Bool) (n : Nat) (k : Int) : Double :=
  let size := ((Numeral.digits 10 n).length : Int) + k
  if n = 0 then Double.ofParts negative 0
  else if 400 < size then Double.infinity negative
  else if size < -400 then Double.ofParts negative 0
  else Double.ofRatio negative (n * 10 ^ k.toNat) (10 ^ (-k).toNat)

/-- The double of a text without a sign. -/
def readUnsigned? (negative : Bool) (cs : List Char) : Option Double :=
  match cs.map lower with
  | ['i', 'n', 'f'] => some (Double.infinity negative)
  | ['i', 'n', 'f', 'i', 'n', 'i', 't', 'y'] => some (Double.infinity negative)
  | ['n', 'a', 'n'] => some (Double.quietNaN negative)
  | _ =>
    (split? cs).bind fun (ds, k) =>
      (Numeral.value? 10 ds).map fun n => nearest negative n k

end ShellExpr.Decimal

namespace ShellExpr.Double

/-- The double that a text stands for. -/
def read? : List Char → Option Double
  | '+' :: rest => Decimal.readUnsigned? false rest
  | '-' :: rest => Decimal.readUnsigned? true rest
  | cs => Decimal.readUnsigned? false cs

end ShellExpr.Double
