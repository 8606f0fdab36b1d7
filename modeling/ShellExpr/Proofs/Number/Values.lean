import Mathlib.Algebra.Order.AbsoluteValue.Basic
import Mathlib.Data.Rat.Cast.Order
import Mathlib.Tactic.Linarith
import ShellExpr.Proofs.Number.Double

/-!
# The values of doubles

A finite double stands for its mantissa times a power of two. Each such value but zero has one
double, so equality is equality of values, and rounding gives a value that is a double's back as it
was.

* `Double.value`: the value of a finite double.
* `Double.toInt?_eq_some_iff`: the integer of a double is its value.
* `Double.equal_iff_value`: **equality of finite doubles is equality of their values.**
* `Double.equal_ofInt`: the double nearest to an integer that is the value of one is that.
-/

namespace ShellExpr.Double

variable {x y : Double} {n : Int}

/-- The value of a finite double. -/
def value (x : Double) : ℚ :=
  (if x.isNegative then -(x.mantissa : ℚ) else x.mantissa) * 2 ^ x.exponent

/-! ### The parts of a double -/

theorem mantissa_lt (x : Double) : x.mantissa < 2 ^ 53 := by
  unfold mantissa
  dsimp only
  split <;> omega

theorem le_exponent (x : Double) : -1074 ≤ x.exponent := by
  unfold exponent
  omega

/-- Above the smallest exponent the mantissa has all its digits. -/
theorem le_mantissa (h : -1074 < x.exponent) : 2 ^ 52 ≤ x.mantissa := by
  unfold exponent at h
  unfold mantissa
  dsimp only
  split <;> omega

theorem magnitude_eq (x : Double) :
    x.magnitude = (x.exponent + 1074).toNat * 2 ^ 52 + x.mantissa := by
  unfold exponent mantissa
  dsimp only
  split <;> omega

theorem magnitude_lt (x : Double) : x.magnitude < 2 ^ 63 := Nat.mod_lt _ (by decide)

theorem mantissa_eq_zero_iff : x.mantissa = 0 ↔ x.magnitude = 0 := by
  have hexp := le_exponent x
  have hnormal := le_mantissa (x := x)
  have hmag := magnitude_eq x
  omega

theorem ofParts_parts (x : Double) : ofParts x.isNegative x.magnitude = x :=
  eq_of_parts (magnitude_ofParts x.magnitude_lt) (isNegative_ofParts x.magnitude_lt)

theorem isNaN_of_isFinite (h : x.isFinite = true) : x.isNaN = false := by
  have hlt := of_decide_eq_true h
  exact decide_eq_false (by omega)

/-- One value above zero is written with one mantissa and one exponent. -/
theorem parts_unique (h : (x.mantissa : ℚ) * 2 ^ x.exponent = y.mantissa * 2 ^ y.exponent)
    (h0 : x.mantissa ≠ 0) : x.magnitude = y.magnitude := by
  wlog hle : x.exponent ≤ y.exponent generalizing x y
  · have hy0 : y.mantissa ≠ 0 := by
      intro hy
      rw [hy, Nat.cast_zero, zero_mul] at h
      have hpow : (2 : ℚ) ^ x.exponent ≠ 0 := zpow_ne_zero _ (by norm_num)
      exact h0 (by exact_mod_cast (mul_eq_zero.mp h).resolve_right hpow)
    exact (this h.symm hy0 (by omega)).symm
  obtain ⟨k, hk⟩ := Int.eq_ofNat_of_zero_le (show 0 ≤ y.exponent - x.exponent by omega)
  have hy : y.exponent = x.exponent + k := by omega
  -- the smaller exponent has the mantissa with more digits
  have hmantissa : x.mantissa = y.mantissa * 2 ^ k := by
    have hpow : (2 : ℚ) ^ x.exponent ≠ 0 := zpow_ne_zero _ (by norm_num)
    rw [hy, zpow_add₀ (by norm_num), zpow_natCast, mul_left_comm, mul_comm] at h
    exact_mod_cast mul_left_cancel₀ hpow h
  have hk0 : k = 0 := by
    by_contra hk0
    have hnormal := le_mantissa (x := y) (by have := le_exponent x; omega)
    have htwo : 2 ≤ 2 ^ k := Nat.le_self_pow hk0 2
    have hlarge : 2 ^ 52 * 2 ≤ y.mantissa * 2 ^ k := Nat.mul_le_mul hnormal htwo
    have hsmall := mantissa_lt x
    omega
  subst hk0
  rw [magnitude_eq, magnitude_eq, hy, hmantissa]
  simp

/-! ### Equality -/

theorem abs_value (x : Double) : |x.value| = x.mantissa * 2 ^ x.exponent := by
  have hpow : (0 : ℚ) < 2 ^ x.exponent := zpow_pos (by norm_num) _
  rw [value, abs_mul, abs_of_pos hpow]
  cases x.isNegative <;> simp

theorem value_eq_zero_iff : x.value = 0 ↔ x.magnitude = 0 := by
  have hpow : (2 : ℚ) ^ x.exponent ≠ 0 := zpow_ne_zero _ (by norm_num)
  rw [← abs_eq_zero, abs_value, mul_eq_zero_iff_right hpow, Nat.cast_eq_zero, mantissa_eq_zero_iff]

/-- The sign of a value that is not zero. -/
theorem isNegative_iff (h : x.value ≠ 0) : x.isNegative = true ↔ x.value < 0 := by
  have hm : 0 < x.mantissa := by
    rw [ne_eq, value_eq_zero_iff, ← mantissa_eq_zero_iff] at h
    omega
  have hpos : (0 : ℚ) < x.mantissa * 2 ^ x.exponent :=
    mul_pos (by exact_mod_cast hm) (zpow_pos (by norm_num) _)
  rw [value]
  cases x.isNegative
  · simpa using hpos.le
  · simpa using hpos

/-- Doubles of one value are the same, or both are zero. -/
theorem eq_or_zeros_of_value (h : x.value = y.value) :
    x = y ∨ x.magnitude = 0 ∧ y.magnitude = 0 := by
  by_cases h0 : x.value = 0
  · exact .inr ⟨value_eq_zero_iff.mp h0, value_eq_zero_iff.mp (h ▸ h0)⟩
  · have hx := isNegative_iff h0
    have hy := isNegative_iff (h ▸ h0)
    have hm : x.mantissa ≠ 0 := mantissa_eq_zero_iff.not.mpr (value_eq_zero_iff.not.mp h0)
    have habs := congrArg abs h
    rw [abs_value, abs_value] at habs
    refine .inl (eq_of_parts (parts_unique habs hm) ?_)
    rw [Bool.eq_iff_iff, hx, hy, h]

/-- **Equality of finite doubles is equality of their values.** -/
theorem equal_iff_value (hx : x.isFinite = true) (hy : y.isFinite = true) :
    x.equal y = true ↔ x.value = y.value := by
  constructor
  · intro h
    obtain rfl | ⟨hx0, hy0⟩ := eq_or_zeros_of_equal h
    · rfl
    · rw [value_eq_zero_iff.mpr hx0, value_eq_zero_iff.mpr hy0]
  · intro h
    obtain rfl | ⟨hx0, hy0⟩ := eq_or_zeros_of_value h
    · exact equal_self.mpr (isNaN_of_isFinite hx)
    · refine equal_iff.mpr ⟨isNaN_of_isFinite hx, isNaN_of_isFinite hy, ?_⟩
      simp [rank, hx0, hy0]

/-! ### Integers -/

/-- A fraction with a power of two below is an integer just if that divides it. -/
theorem mul_zpow_neg_eq_iff {m : Int} {k : Nat} :
    (m : ℚ) * 2 ^ (-(k : Int)) = n ↔ m = n * 2 ^ k := by
  have hpow : (2 : ℚ) ^ k ≠ 0 := pow_ne_zero _ (by norm_num)
  rw [zpow_neg, zpow_natCast, ← div_eq_mul_inv, div_eq_iff hpow]
  exact_mod_cast Iff.rfl

/-- **The integer of a double is its value.** -/
theorem toInt?_eq_some_iff : x.toInt? = some n ↔ x.isFinite = true ∧ x.value = n := by
  unfold toInt? value
  split
  next hfin =>
    rw [and_iff_right hfin]
    have hsigned : (if x.isNegative then -(x.mantissa : ℚ) else x.mantissa) =
        ((if x.isNegative then -(x.mantissa : Int) else x.mantissa : Int) : ℚ) := by
      split <;> simp
    have hdvd : ∀ d : Int, d ∣ (if x.isNegative then -(x.mantissa : Int) else x.mantissa) ↔
        d ∣ x.mantissa := by
      intro d
      split <;> simp
    rw [hsigned]
    generalize (if x.isNegative then -(x.mantissa : Int) else (x.mantissa : Int)) = m at hdvd ⊢
    dsimp only
    split
    next hexp =>
      obtain ⟨k, hk⟩ := Int.eq_ofNat_of_zero_le hexp
      rw [hk, Option.some.injEq, Int.toNat_natCast, zpow_natCast]
      exact_mod_cast Iff.rfl
    next hexp =>
      obtain ⟨k, hk⟩ := Int.eq_ofNat_of_zero_le (show 0 ≤ -x.exponent by omega)
      have hneg : x.exponent = -k := by omega
      have hpow : (2 : Int) ^ k ≠ 0 := pow_ne_zero _ (by decide)
      rw [hk, Int.toNat_natCast, hneg, mul_zpow_neg_eq_iff]
      split
      next hzero =>
        have hm : (2 : Int) ^ k ∣ m := by
          rw [hdvd]
          exact_mod_cast Nat.dvd_of_mod_eq_zero hzero
        rw [Option.some.injEq, Int.ediv_eq_iff_eq_mul_left hpow hm]
      next hrest =>
        refine iff_of_false nofun ?_
        rintro rfl
        have hm : (2 : Int) ^ k ∣ x.mantissa := (hdvd _).mp (Int.dvd_mul_left _ _)
        exact hrest (Nat.mod_eq_zero_of_dvd (by exact_mod_cast hm))
  next hinf => simp [hinf]

/-- A double of absolute value `2 ^ 53` or more has no places after the point. -/
theorem exists_int_of_large (h : 2 ^ 53 ≤ |x.value|) : ∃ n : Int, x.value = n := by
  have hexp : 0 ≤ x.exponent := by
    by_contra hneg
    have hpow : (2 : ℚ) ^ x.exponent ≤ 1 := zpow_le_one_of_nonpos₀ (by norm_num) (by omega)
    have hmantissa : (x.mantissa : ℚ) < 2 ^ 53 := by exact_mod_cast x.mantissa_lt
    have hmul := mul_le_mul_of_nonneg_left hpow (Nat.cast_nonneg (α := ℚ) x.mantissa)
    rw [abs_value] at h
    linarith
  obtain ⟨k, hk⟩ := Int.eq_ofNat_of_zero_le hexp
  refine ⟨(if x.isNegative then -(x.mantissa : Int) else x.mantissa) * 2 ^ k, ?_⟩
  rw [value, hk, zpow_natCast]
  cases x.isNegative <;> simp

theorem roundDiv_mul {m d : Nat} (hd : 0 < d) : roundDiv (m * d) d = m := by
  simp [roundDiv, Nat.mul_div_cancel _ hd, hd]

/-- A mantissa with all its digits keeps them when it is scaled up and rounded. -/
theorem ofRatio_scaled {negative : Bool} {m k : Nat} (hlow : 2 ^ 52 ≤ m) (hhigh : m < 2 ^ 53) :
    ofRatio negative (m * 2 ^ k) 1 =
      ofParts negative (min infiniteMagnitude ((k + 1074) * 2 ^ 52 + m)) := by
  have hpos : 0 < 2 ^ k := Nat.two_pow_pos k
  have h0 : m * 2 ^ k ≠ 0 := (Nat.mul_pos (by omega) hpos).ne'
  have hlog : Nat.log2 (m * 2 ^ k) = 52 + k := by
    rw [Nat.log2_eq_iff h0, pow_add, show 52 + k + 1 = 53 + k by omega, pow_add]
    exact ⟨Nat.mul_le_mul_right _ hlow, Nat.mul_lt_mul_of_pos_right hhigh hpos⟩
  have he : max (-1074) (ratioLog2 (m * 2 ^ k) 1 - 52) = (k : Int) := by
    rw [ratioLog2_one h0, hlog]
    omega
  have hup : (-(k : Int)).toNat = 0 := by omega
  have hfield : ((k : Int) + 1074).toNat = k + 1074 := by omega
  simp only [ofRatio, h0, one_ne_zero, or_self, if_false, he, hup, hfield, Int.toNat_natCast,
    pow_zero, mul_one, one_mul, roundDiv_mul hpos]

/-- An integer that is the value of a double, scaled up from its mantissa, is rounded to that. -/
theorem ofInt_of_exponent_pos (hx : x.isFinite = true) (h : x.value = n) (hexp : 0 < x.exponent) :
    ofInt n = x := by
  obtain ⟨k, hk⟩ := Int.eq_ofNat_of_zero_le hexp.le
  have hnormal : 2 ^ 52 ≤ x.mantissa := le_mantissa (by omega)
  have hscaled : n.natAbs = x.mantissa * 2 ^ k := by
    have habs := abs_value x
    rw [h, hk, zpow_natCast, ← Int.cast_abs, ← Nat.cast_natAbs] at habs
    exact_mod_cast habs
  have hsign : decide (n < 0) = x.isNegative := by
    have h0 : x.value ≠ 0 := by
      rw [ne_eq, value_eq_zero_iff, ← mantissa_eq_zero_iff]
      omega
    rw [Bool.eq_iff_iff, decide_eq_true_iff, isNegative_iff h0, h]
    exact_mod_cast Iff.rfl
  have hmag : min infiniteMagnitude ((k + 1074) * 2 ^ 52 + x.mantissa) = x.magnitude := by
    have hlt := of_decide_eq_true hx
    have hmag := magnitude_eq x
    rw [hk] at hmag
    omega
  rw [ofInt, hscaled, ofRatio_scaled hnormal x.mantissa_lt, hmag, hsign, ofParts_parts]

/-- **An integer that is the value of a double** is rounded to that. -/
theorem equal_ofInt (hx : x.isFinite = true) (h : x.value = n) : (ofInt n).equal x = true := by
  by_cases hexp : x.exponent ≤ 0
  · -- it has no more digits than the mantissa
    have hle : n.natAbs ≤ x.mantissa := by
      have hpow : (2 : ℚ) ^ x.exponent ≤ 1 := zpow_le_one_of_nonpos₀ (by norm_num) hexp
      have hmul := mul_le_mul_of_nonneg_left hpow (Nat.cast_nonneg (α := ℚ) x.mantissa)
      rw [← abs_value, h, ← Int.cast_abs, ← Nat.cast_natAbs, mul_one] at hmul
      exact_mod_cast hmul
    have hlt := mantissa_lt x
    obtain ⟨hfin, hvalue⟩ := toInt?_eq_some_iff.mp (toInt?_ofInt (n := n) (by omega))
    rw [equal_iff_value hfin hx, hvalue, h]
  · rw [ofInt_of_exponent_pos hx h (not_le.mp hexp)]
    exact equal_self.mpr (isNaN_of_isFinite hx)

end ShellExpr.Double
