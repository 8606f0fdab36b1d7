import Mathlib.Tactic.Ring
import ShellExpr.Number.Double

/-!
# Doubles and integers

Doubles are equal if they are the same or both zero, so equal doubles stand for one integer or for
none. Every integer of absolute value at most `2 ^ 53` is a double exactly; beyond, several integers
have one nearest double.

* `Double.eq_or_zeros_of_equal`: what equality of doubles identifies.
* `Double.isZero_ofInt`: only zero is nearest to zero.
* `Double.toInt?_ofInt`: small integers come back from the doubles nearest to them.
-/

namespace ShellExpr.Double

variable {x y : Double}

/-! ### Equality -/

theorem equal_iff : x.equal y = true ↔ x.isNaN = false ∧ y.isNaN = false ∧ x.rank = y.rank := by
  unfold equal compare?
  cases x.isNaN <;> cases y.isNaN <;> simp

theorem equal_comm (x y : Double) : x.equal y = y.equal x := by
  rw [Bool.eq_iff_iff, equal_iff, equal_iff]
  tauto

theorem equal_self : x.equal x = true ↔ x.isNaN = false := by
  rw [equal_iff]
  tauto

theorem equal_trans {z : Double} (h : x.equal y = true) (h' : y.equal z = true) :
    x.equal z = true := by
  rw [equal_iff] at h h' ⊢
  exact ⟨h.1, h'.2.1, h.2.2.trans h'.2.2⟩

theorem eq_of_parts (hm : x.magnitude = y.magnitude) (hs : x.isNegative = y.isNegative) :
    x = y := by
  have hbits : x.bits.toNat = y.bits.toNat := by
    have hx := x.bits.toNat_lt
    have hy := y.bits.toNat_lt
    unfold magnitude at hm
    unfold isNegative at hs
    rw [decide_eq_decide] at hs
    omega
  obtain ⟨b⟩ := x
  obtain ⟨c⟩ := y
  exact congrArg mk (UInt64.toNat_inj.mp hbits)

/-- Equal doubles are the same, or both are zero. -/
theorem eq_or_zeros_of_equal (h : x.equal y = true) :
    x = y ∨ x.magnitude = 0 ∧ y.magnitude = 0 := by
  obtain ⟨-, -, hrank⟩ := equal_iff.mp h
  by_cases hz : x.magnitude = 0 ∧ y.magnitude = 0
  · exact .inr hz
  · refine .inl (eq_of_parts ?_ ?_)
    all_goals
      unfold rank at hrank
      cases hx : x.isNegative <;> cases hy : y.isNegative <;> simp [hx, hy] at hrank ⊢ <;> omega

/-! ### Integers -/

theorem toInt?_of_zero (h : x.magnitude = 0) : x.toInt? = some 0 := by
  have hfinite : x.isFinite = true := by simp [isFinite, h, infiniteMagnitude]
  have hexp : ¬ 0 ≤ x.exponent := by simp [exponent, h]
  have hmantissa : x.mantissa = 0 := by simp [mantissa, h]
  simp [toInt?, hfinite, hexp, hmantissa]

theorem toInt?_eq_of_equal (h : x.equal y = true) : x.toInt? = y.toInt? := by
  obtain rfl | ⟨hx, hy⟩ := eq_or_zeros_of_equal h
  · rfl
  · rw [toInt?_of_zero hx, toInt?_of_zero hy]

section Parts

variable {negative : Bool} {m : Nat}

theorem magnitude_ofParts (h : m < 2 ^ 63) : (ofParts negative m).magnitude = m := by
  unfold magnitude ofParts
  rw [UInt64.toNat_ofNat']
  cases negative <;> simp <;> omega

theorem isNegative_ofParts (h : m < 2 ^ 63) : (ofParts negative m).isNegative = negative := by
  unfold isNegative ofParts
  rw [UInt64.toNat_ofNat']
  cases negative <;> simp <;> omega

end Parts

theorem roundDiv_one (n : Nat) : roundDiv n 1 = n := by simp [roundDiv, Nat.mod_one]

theorem ratioLog2_one {n : Nat} (h : n ≠ 0) : ratioLog2 n 1 = Nat.log2 n := by
  have hone : Nat.log2 1 = 0 := rfl
  have hlog : 2 ^ Nat.log2 n ≤ n := Nat.log2_self_le h
  simp [ratioLog2, hone, hlog]

/-- The double of a positive number below `2 ^ 53` has all its binary digits. -/
theorem ofRatio_one {negative : Bool} {n l : Nat} (hl : Nat.log2 n = l) (h0 : n ≠ 0)
    (h : n * 2 ^ (52 - l) < 2 ^ 53) (hle : l ≤ 52) :
    ofRatio negative n 1 = ofParts negative ((l + 1022) * 2 ^ 52 + n * 2 ^ (52 - l)) := by
  have he : max (-1074) (ratioLog2 n 1 - 52) = (l : Int) - 52 := by
    rw [ratioLog2_one h0]
    omega
  have hup : (-((l : Int) - 52)).toNat = 52 - l := by omega
  have hdown : ((l : Int) - 52).toNat = 0 := by omega
  have hfield : ((l : Int) - 52 + 1074).toNat = l + 1022 := by omega
  simp only [ofRatio, h0, one_ne_zero, or_self, if_false, he, hup, hdown, hfield, pow_zero,
    mul_one, roundDiv_one]
  congr 1
  rw [min_eq_right]
  unfold infiniteMagnitude
  omega

/-- A double of biased exponent `l + 1023` and mantissa `n * 2 ^ (52 - l)` is the integer `n`. -/
theorem toInt?_ofParts {negative : Bool} {n l : Nat} (hle : l ≤ 52)
    (hlow : 2 ^ 52 ≤ n * 2 ^ (52 - l)) (hhigh : n * 2 ^ (52 - l) < 2 ^ 53) :
    (ofParts negative ((l + 1022) * 2 ^ 52 + n * 2 ^ (52 - l))).toInt? =
      some (if negative then -(n : Int) else n) := by
  generalize hx : ofParts negative ((l + 1022) * 2 ^ 52 + n * 2 ^ (52 - l)) = x
  have hmag : x.magnitude = (l + 1022) * 2 ^ 52 + n * 2 ^ (52 - l) := by
    rw [← hx, magnitude_ofParts (by omega)]
  have hneg : x.isNegative = negative := by rw [← hx, isNegative_ofParts (by omega)]
  have hfinite : x.isFinite = true := by
    unfold isFinite infiniteMagnitude
    exact decide_eq_true (by omega)
  have hmantissa : x.mantissa = n * 2 ^ (52 - l) := by
    unfold mantissa
    dsimp only
    split <;> omega
  have hexp : x.exponent = (l : Int) - 52 := by
    unfold exponent
    omega
  unfold toInt?
  rw [if_pos hfinite, hneg, hmantissa, hexp]
  by_cases h52 : l = 52
  · subst h52
    cases negative <;> simp
  · have hpos : (2 : Int) ^ (52 - l) ≠ 0 := pow_ne_zero _ (by decide)
    have hup : (-((l : Int) - 52)).toNat = 52 - l := by omega
    rw [if_neg (by omega), hup, if_pos (Nat.mul_mod_left _ _)]
    cases negative <;> simp [← neg_mul, Int.mul_ediv_cancel _ hpos]

/-- No integer but zero is rounded to zero. -/
theorem isZero_ofInt (n : Int) : (ofInt n).isZero = decide (n = 0) := by
  by_cases h0 : n = 0
  · subst h0
    rfl
  have hne : n.natAbs ≠ 0 := by omega
  have hfield : 0 < (max (-1074) (ratioLog2 n.natAbs 1 - 52) + 1074).toNat := by
    rw [ratioLog2_one hne]
    omega
  unfold ofInt ofRatio isZero
  rw [if_neg (by omega)]
  dsimp only
  rw [magnitude_ofParts (lt_of_le_of_lt (min_le_left _ _) (by decide)), decide_eq_decide]
  unfold infiniteMagnitude
  omega

/-- **Integers up to `2 ^ 53` are doubles exactly.** -/
theorem toInt?_ofInt {n : Int} (h : n.natAbs ≤ 2 ^ 53) : (ofInt n).toInt? = some n := by
  obtain rfl | h0 := eq_or_ne n 0
  · exact toInt?_of_zero rfl
  obtain h53 | hlt := h.eq_or_lt
  · obtain rfl | rfl : n = 2 ^ 53 ∨ n = -2 ^ 53 := by omega
    · rfl
    · rfl
  have hne : n.natAbs ≠ 0 := by omega
  generalize hl : Nat.log2 n.natAbs = l
  have hle : l ≤ 52 := by
    have := (Nat.log2_lt hne).mpr hlt
    omega
  have hscale : (2 : Nat) ^ l * 2 ^ (52 - l) = 2 ^ 52 := by
    rw [← pow_add, Nat.add_sub_cancel' hle]
  have hlow : 2 ^ 52 ≤ n.natAbs * 2 ^ (52 - l) := by
    rw [← hscale]
    exact Nat.mul_le_mul_right _ (hl ▸ Nat.log2_self_le hne)
  have hhigh : n.natAbs * 2 ^ (52 - l) < 2 ^ 53 := by
    have hself : n.natAbs < 2 * 2 ^ l := by
      rw [← pow_succ', ← hl]
      exact Nat.lt_log2_self
    calc n.natAbs * 2 ^ (52 - l) < 2 * 2 ^ l * 2 ^ (52 - l) :=
          Nat.mul_lt_mul_of_pos_right hself (Nat.pow_pos (by decide))
      _ = 2 ^ 53 := by rw [Nat.mul_assoc, hscale]
  rw [ofInt, ofRatio_one hl hne hhigh hle, toInt?_ofParts hle hlow hhigh]
  congr 1
  simp only [decide_eq_true_eq]
  split <;> omega

/-- Beyond `2 ^ 53` two integers can have one nearest double. -/
example : (ofInt (2 ^ 53 + 1)).toInt? = some (2 ^ 53) := rfl

end ShellExpr.Double
