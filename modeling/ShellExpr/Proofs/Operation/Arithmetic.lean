import ShellExpr.Operation.Arithmetic
import ShellExpr.Proofs.Number.Double
import ShellExpr.Proofs.Number.Integer

/-!
# Arithmetic of integers

The operators give integers, and truth values as zero and one, their exact result or say that it is
out of range. Two of them give up too early: a remainder is refused along with a quotient that does
not fit, and a power of large exponent is refused whatever its base.

* `IsExact`: a result is the integer it should be, or an overflow if that does not fit.
* `binary_integers`: what an operator makes of two integers.
* `integers_exact`: **sums, products, quotients and shifts are exact**.
* `remainder_exact`: **the remainder goes with the floor of the quotient**.
* `power_exact`: **powers are exact** for exponents of 32 bits and for bases beyond one.
-/

namespace ShellExpr

open Integer Arithmetic

/-- The result of an operation is the integer `r` if that fits, and its overflow if not. -/
structure IsExact (operation : String) (r : Int) (result : Except Fault Value) : Prop where
  ok : Fits r → ∃ n : Int64, n.toInt = r ∧ result = .ok (.int n)
  overflow : ¬ Fits r → result = .error (.exprEval (.overflow operation))

theorem isExact_checked (operation : String) (r : Int) :
    IsExact operation r (checked operation (ofInt? r)) := by
  constructor
  · intro hfits
    obtain ⟨n, hn, hr⟩ := exists_ofInt? hfits
    exact ⟨n, hr, by rw [hn, checked]⟩
  · intro hfits
    rw [ofInt?_eq_none_iff.mpr hfits, checked, Arithmetic.overflow]

/-- The operators that make an integer of two, and treat truth values as integers. -/
def BinaryOp.isIntegral : BinaryOp → Bool
  | add | sub | mul | floorDiv | mod | pow | shiftLeft | shiftRight => true
  | _ => false

section Operators

variable {x y : Value} {a b : Int64} {op : BinaryOp} (h : Handle)

theorem binary_numbers (hx : x.number? = some (.int a)) (hy : y.number? = some (.int b))
    (hop : op.isIntegral = true) :
    binary h op x y = (onNumbers? (.int a) (.int b) op).getD (.error (mismatch op x y)) := by
  cases op <;> cases hop <;> cases x <;> cases hx <;> cases y <;> cases hy <;> rfl

theorem isZero_toDouble (b : Int64) : (Number.int b).toDouble.isZero = decide (b = 0) := by
  have hb : b.toInt = 0 ↔ b = 0 := Int64.toInt_inj (y := 0)
  rw [Number.toDouble, Double.isZero_ofInt, decide_eq_decide, hb]

/-- What an operator makes of two integers, where it does not divide by zero. -/
theorem binary_integers (op : BinaryOp) (hx : x.number? = some (.int a))
    (hy : y.number? = some (.int b)) (hop : op.isIntegral = true)
    (hzero : op.isDivision = false ∨ b ≠ 0) {result : Except Fault Value}
    (hresult : onInts? a b op = some result) :
    binary h op x y = result := by
  have hdiv : op ≠ .div := by
    rintro rfl
    cases hop
  have hguard : ¬ (op.isDivision && (Number.int b).toDouble.isZero) = true := by
    rw [isZero_toDouble]
    rcases hzero with hzero | hzero <;> simp [hzero]
  rw [binary_numbers h hx hy hop, onNumbers?, if_neg hguard, if_neg hdiv, hresult, Option.getD_some]

/-- A division by zero is refused, whatever is divided. -/
theorem binary_by_zero (hx : x.number? = some (.int a)) (hy : y.number? = some (.int 0))
    (hop : op.isIntegral = true) (hdiv : op.isDivision = true) :
    binary h op x y = .error (.divideByZero op) := by
  have hguard : (op.isDivision && (Number.int 0).toDouble.isZero) = true := by
    rw [isZero_toDouble, hdiv]
    rfl
  rw [binary_numbers h hx hy hop, onNumbers?, if_pos hguard, Option.getD_some]

theorem unary_neg (hx : x.number? = some (.int a)) :
    unary .neg x = checked "negation" (neg? a) := by
  cases x <;> cases hx
  case int => rfl
  case bool p => cases p <;> rfl

/-- **Integer operators are exact.** -/
theorem integers_exact (hx : x.number? = some (.int a)) (hy : y.number? = some (.int b)) :
    IsExact "addition" (a.toInt + b.toInt) (binary h .add x y) ∧
      IsExact "subtraction" (a.toInt - b.toInt) (binary h .sub x y) ∧
      IsExact "multiplication" (a.toInt * b.toInt) (binary h .mul x y) ∧
      IsExact "negation" (-a.toInt) (unary .neg x) ∧
      (if b = 0 then binary h .floorDiv x y = .error (.divideByZero .floorDiv)
        else IsExact "floor division" ⌊(a.toInt : ℚ) / b.toInt⌋ (binary h .floorDiv x y)) ∧
      if b < 0 then
        binary h .shiftLeft x y = .error (.missing .shiftCount) ∧
          binary h .shiftRight x y = .error (.missing .shiftCount)
      else
        IsExact "left shift" (a.toInt * 2 ^ b.toInt.toNat) (binary h .shiftLeft x y) ∧
          ∃ n : Int64, n.toInt = ⌊(a.toInt : ℚ) / 2 ^ b.toInt.toNat⌋ ∧
            binary h .shiftRight x y = .ok (.int n) := by
  have hadd := binary_integers h .add hx hy rfl (.inl rfl) rfl
  have hsub := binary_integers h .sub hx hy rfl (.inl rfl) rfl
  have hmul := binary_integers h .mul hx hy rfl (.inl rfl) rfl
  have hleft := binary_integers h .shiftLeft hx hy rfl (.inl rfl) rfl
  have hright := binary_integers h .shiftRight hx hy rfl (.inl rfl) rfl
  rw [hadd, hsub, hmul, unary_neg hx, hleft, hright]
  refine ⟨isExact_checked _ _, isExact_checked _ _, isExact_checked _ _, isExact_checked _ _,
    ?_, ?_⟩
  · split
    next hb => exact binary_by_zero h hx (hb ▸ hy) rfl rfl
    next hb =>
      have hquot := binary_integers h .floorDiv hx hy rfl (.inr hb) rfl
      rw [hquot, floorDiv?_eq hb]
      exact isExact_checked _ _
  · unfold Arithmetic.shiftLeft Arithmetic.shiftRight
    split
    next => exact ⟨rfl, rfl⟩
    next =>
      refine ⟨?_, _, toInt_shiftRight_eq_floor a _, rfl⟩
      rw [shiftLeft?_eq]
      exact isExact_checked _ _

/-- The least integer and `true`: some results fit, some are one too small or too large. -/
theorem integers_exact_least :
    let x := Value.int Int64.minValue
    let y := Value.bool true
    x.number? = some (.int Int64.minValue) ∧ y.number? = some (.int 1) ∧
      (∃ n : Int64, n.toInt = -2 ^ 63 + 1 ∧ binary ⟨[0]⟩ .add x y = .ok (.int n)) ∧
      binary ⟨[0]⟩ .sub x y = .error (.exprEval (.overflow "subtraction")) ∧
      unary .neg x = .error (.exprEval (.overflow "negation")) ∧
      binary ⟨[0]⟩ .shiftLeft x y = .error (.exprEval (.overflow "left shift")) ∧
      ∃ n : Int64, n.toInt = ⌊((-2 ^ 63 : Int) : ℚ) / 2 ^ 1⌋ ∧
        binary ⟨[0]⟩ .shiftRight x y = .ok (.int n) := by
  intro x y
  have hx : x.number? = some (.int Int64.minValue) := rfl
  have hy : y.number? = some (.int 1) := rfl
  obtain ⟨hadd, hsub, -, hneg, -, hshift⟩ := integers_exact ⟨[0]⟩ hx hy
  rw [if_neg (by decide)] at hshift
  obtain ⟨hleft, hright⟩ := hshift
  have hout : ∀ r : Int, r < -2 ^ 63 ∨ 2 ^ 63 ≤ r → ¬ Fits r := by
    intro r hr
    unfold Fits
    omega
  refine ⟨hx, hy, hadd.ok ⟨by decide, by decide⟩, hsub.overflow (hout _ (.inl (by decide))),
    hneg.overflow (hout _ (.inr (by decide))), hleft.overflow (hout _ (.inl (by decide))), hright⟩

/-- **The remainder goes with the floor of the quotient**: no other quotient leaves a remainder that
is smaller than the divisor and on its side. Only the least integer has none by minus one, as their
quotient does not fit. -/
theorem remainder_exact (hx : x.number? = some (.int a)) (hy : y.number? = some (.int b))
    (hb : b ≠ 0) :
    if a = Int64.minValue ∧ b = -1 then
      binary h .mod x y = .error (.exprEval (.overflow "modulo"))
    else
      ∃ n : Int64, binary h .mod x y = .ok (.int n) ∧
        (∀ q r : Int, IsFloorDivision a.toInt b.toInt q r ↔
          q = ⌊(a.toInt : ℚ) / b.toInt⌋ ∧ r = n.toInt) ∧
        ∃ q : Int64, binary h .floorDiv x y = .ok (.int q) ∧
          a.toInt = q.toInt * b.toInt + n.toInt := by
  have hmod := binary_integers h .mod hx hy rfl (.inr hb) rfl
  have hquot := binary_integers h .floorDiv hx hy rfl (.inr hb) rfl
  rw [hmod, hquot]
  split
  next hleast =>
    obtain ⟨rfl, rfl⟩ := hleast
    rw [floorDiv?_minValue.2]
    rfl
  next hleast =>
    obtain ⟨q, n, hq, hn, hdiv⟩ := isFloorDivision_floorDiv hb hleast
    refine ⟨n, by rw [hn, checked], fun q' r => ?_, q, by rw [hq, checked], ?_⟩
    · rw [← hdiv.eq_floor]
      exact hdiv.iff
    · rw [mul_comm]
      exact hdiv.sum

/-- The remainder of a negative number by a positive one. -/
theorem remainder_exact_negative :
    let x := Value.int (-7)
    let y := Value.int 2
    x.number? = some (.int (-7)) ∧ y.number? = some (.int 2) ∧ (2 : Int64) ≠ 0 ∧
      ∃ n q : Int64, binary ⟨[0]⟩ .mod x y = .ok (.int n) ∧
        binary ⟨[0]⟩ .floorDiv x y = .ok (.int q) ∧ -7 = q.toInt * 2 + n.toInt ∧
        n.toInt = 1 := by
  intro x y
  have h2 : (2 : Int64) ≠ 0 := by decide
  have hmod := remainder_exact (x := x) (y := y) ⟨[0]⟩ rfl rfl h2
  rw [if_neg (by decide)] at hmod
  obtain ⟨n, hn, hunique, q, hq, hsum⟩ := hmod
  have hdiv : IsFloorDivision (-7) 2 (-4) 1 := ⟨by decide, by decide, by decide⟩
  exact ⟨rfl, rfl, h2, n, q, hn, hq, hsum, ((hunique _ _).mp hdiv).2.symm⟩

/-- The least integer divided by minus one leaves zero, but that is an overflow. -/
theorem no_remainder_of_least :
    IsFloorDivision Int64.minValue.toInt (-1 : Int64).toInt (2 ^ 63) 0 ∧ Fits 0 ∧
      binary ⟨[0]⟩ .mod (.int Int64.minValue) (.int (-1)) =
        .error (.exprEval (.overflow "modulo")) :=
  ⟨⟨by decide, .inl rfl, by decide⟩, ⟨by decide, by decide⟩, rfl⟩

/-- **Powers are exact** as long as large exponents are those of bases that they overflow. Exponents
of more than 32 bits are refused. -/
theorem power_exact (hx : x.number? = some (.int a)) (hy : y.number? = some (.int b))
    (hb : 0 ≤ b) :
    (IsExact "exponentiation" (a.toInt ^ b.toInt.toNat) (binary h .pow x y) ↔
        b.toInt < 2 ^ 32 ∨ 2 ≤ a.toInt.natAbs) ∧
      (2 ^ 32 ≤ b.toInt → binary h .pow x y = .error (.exprEval (.overflow "exponentiation"))) := by
  have hb0 : 0 ≤ b.toInt := Int64.le_iff_toInt_le.mp hb
  have hnonneg : ¬ b < 0 := by
    rw [Int64.lt_iff_toInt_lt, Int64.toInt_zero]
    omega
  have hpow : binary h .pow x y = checked "exponentiation" (pow? a b.toInt.toNat) := by
    rw [binary_integers h .pow hx hy rfl (.inl rfl) rfl, power, if_neg hnonneg]
  rw [hpow]
  have hrefused : 2 ^ 32 ≤ b.toInt → checked "exponentiation" (pow? a b.toInt.toNat) =
      .error (.exprEval (.overflow "exponentiation")) := by
    intro hlarge
    rw [pow?_of_large a (by omega)]
    rfl
  refine ⟨⟨fun hexact => ?_, fun hsmall => ?_⟩, hrefused⟩
  · by_contra hnot
    -- the power fits, but its exponent is refused
    obtain ⟨n, -, hn⟩ := hexact.ok (fits_pow_of_small (by omega))
    rw [hrefused (by omega)] at hn
    cases hn
  · rw [pow?_eq (by omega)]
    exact isExact_checked _ _

/-- The largest power of minus two that fits is the least integer. -/
theorem power_exact_least :
    let x := Value.int (-2)
    let y := Value.int 63
    x.number? = some (.int (-2)) ∧ y.number? = some (.int 63) ∧ (0 : Int64) ≤ 63 ∧
      IsExact "exponentiation" ((-2) ^ 63) (binary ⟨[0]⟩ .pow x y) ∧
      ∃ n : Int64, n.toInt = -2 ^ 63 ∧ binary ⟨[0]⟩ .pow x y = .ok (.int n) := by
  intro x y
  have hb : (0 : Int64) ≤ 63 := by decide
  have hexact := (power_exact (x := x) (y := y) ⟨[0]⟩ rfl rfl hb).1.mpr (.inl (by decide))
  exact ⟨rfl, rfl, hb, hexact, hexact.ok ⟨by decide, by decide⟩⟩

/-- Every power of one fits, but some are refused. -/
theorem no_power_of_one :
    Fits (1 ^ (2 ^ 32 : Int64).toInt.toNat) ∧
      binary ⟨[0]⟩ .pow (.int 1) (.int (2 ^ 32)) =
        .error (.exprEval (.overflow "exponentiation")) := by
  rw [one_pow]
  exact ⟨⟨by decide, by decide⟩, rfl⟩

end Operators

end ShellExpr
