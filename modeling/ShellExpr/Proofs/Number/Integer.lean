import Mathlib.Data.Rat.Floor
import Mathlib.Tactic.FieldSimp
import Mathlib.Tactic.Linarith
import ShellExpr.Number.Integer

/-!
# Machine integers are exact

An operation on machine integers gives the integer that it is named for, or nothing if that is out
of range. Division follows the divisor: it is made from the division toward zero by one more step
where the remainder has the other sign.

* `Integer.Fits`: the range of machine integers.
* `Integer.IsFloorDivision`: a quotient with a remainder on the side of the divisor.
* `Integer.IsFloorDivision.eq_floor`: **the quotient is the floor** of the exact one.
* `Integer.isFloorDivision_floorDiv`: quotient and remainder are computed for all but one division.
* `Integer.shiftLeft?_eq`: moving bits up and back tells whether the product fits.
* `Integer.toInt_shiftRight_eq_floor`: moving bits down gives the floor of the quotient.
* `Integer.pow?_eq`: powers are exact but for exponents of more than 32 bits and bases up to one.
-/

namespace ShellExpr.Integer

/-- Whether an integer is in the range of machine integers. -/
def Fits (r : Int) : Prop := -2 ^ 63 ≤ r ∧ r < 2 ^ 63

section Range

variable {r : Int} {n : Int64}

theorem fits_toInt (n : Int64) : Fits n.toInt := ⟨n.le_toInt, n.toInt_lt⟩

theorem ofInt?_eq_some_iff : ofInt? r = some n ↔ n.toInt = r := by
  unfold ofInt?
  constructor
  · intro h
    split at h
    next hfits =>
      obtain rfl := Option.some.inj h
      exact Int64.toInt_ofInt_of_le hfits.1 hfits.2
    next => cases h
  · rintro rfl
    rw [if_pos ⟨n.le_toInt, n.toInt_lt⟩, Int64.ofInt_toInt]

theorem ofInt?_eq_none_iff : ofInt? r = none ↔ ¬ Fits r := by
  unfold ofInt? Fits
  split <;> simp_all

theorem ofInt?_toInt (n : Int64) : ofInt? n.toInt = some n := ofInt?_eq_some_iff.mpr rfl

theorem exists_ofInt? (h : Fits r) : ∃ n : Int64, ofInt? r = some n ∧ n.toInt = r := by
  have hn : (Int64.ofInt r).toInt = r := Int64.toInt_ofInt_of_le h.1 h.2
  exact ⟨Int64.ofInt r, ofInt?_eq_some_iff.mpr hn, hn⟩

theorem toInt_ne_zero {b : Int64} (hb : b ≠ 0) : b.toInt ≠ 0 :=
  fun h => hb (Int64.toInt_inj.mp h)

/-- An integer is in range, or the nearest machine integer is an end of the range. -/
theorem clamp_cases (r : Int) : (clamp r).toInt = r ∨
    2 ^ 63 ≤ r ∧ clamp r = Int64.maxValue ∨ r < -2 ^ 63 ∧ clamp r = Int64.minValue := by
  unfold clamp
  split
  next hlow => exact .inr (.inr ⟨hlow, rfl⟩)
  next hlow =>
    split
    next hhigh => exact .inr (.inl ⟨hhigh, rfl⟩)
    next hhigh => exact .inl (Int64.toInt_ofInt_of_le (by omega) (by omega))

@[simp] theorem clamp_toInt (n : Int64) : clamp n.toInt = n := by
  have hn := fits_toInt n
  unfold Fits at hn
  rw [clamp, if_neg (by omega), if_neg (by omega), Int64.ofInt_toInt]

end Range

/-! ### Division -/

/-- A division with remainder, the remainder being zero or on the side of the divisor. -/
structure IsFloorDivision (a b q r : Int) : Prop where
  sum : a = b * q + r
  side : r = 0 ∨ (r < 0 ↔ b < 0)
  small : r.natAbs < b.natAbs

section Division

variable {a b q r : Int}

/-- **The quotient is the floor** of the exact one. -/
theorem IsFloorDivision.eq_floor (h : IsFloorDivision a b q r) : q = ⌊(a : ℚ) / b⌋ := by
  obtain ⟨hsum, hside, hsmall⟩ := h
  have hb : b ≠ 0 := by omega
  have hb' : (b : ℚ) ≠ 0 := by exact_mod_cast hb
  have hquot : (a : ℚ) / b = q + r / b := by
    rw [hsum]
    push_cast
    field_simp
  -- what the remainder adds is at least zero and less than one
  have hpart : 0 ≤ (r : ℚ) / b ∧ (r : ℚ) / b < 1 := by
    rcases lt_or_gt_of_ne hb with hneg | hpos
    · have hr : r ≤ 0 ∧ b < r := by omega
      have hbq : (b : ℚ) < 0 := by exact_mod_cast hneg
      refine ⟨div_nonneg_of_nonpos (by exact_mod_cast hr.1) hbq.le, ?_⟩
      rw [div_lt_one_of_neg hbq]
      exact_mod_cast hr.2
    · have hr : 0 ≤ r ∧ r < b := by omega
      have hbq : (0 : ℚ) < b := by exact_mod_cast hpos
      refine ⟨div_nonneg (by exact_mod_cast hr.1) hbq.le, ?_⟩
      rw [div_lt_one hbq]
      exact_mod_cast hr.2
  symm
  rw [Int.floor_eq_iff, hquot]
  exact ⟨by linarith [hpart.1], by linarith [hpart.2]⟩

/-- There is one such division: its quotient is known, and hence what that leaves. -/
theorem IsFloorDivision.iff {q' r' : Int} (h : IsFloorDivision a b q r) :
    IsFloorDivision a b q' r' ↔ q' = q ∧ r' = r := by
  constructor
  · intro h'
    have hq : q' = q := h'.eq_floor.trans h.eq_floor.symm
    have hsum := h'.sum
    rw [h.sum, hq] at hsum
    exact ⟨hq, by omega⟩
  · rintro ⟨rfl, rfl⟩
    exact h

theorem natAbs_tmod_lt (a : Int) (hb : b ≠ 0) : (a.tmod b).natAbs < b.natAbs := by
  rw [Int.natAbs_tmod]
  exact Nat.mod_lt _ (by omega)

/-- A divisor of absolute value two or more halves. -/
theorem natAbs_tdiv_le (a : Int) (hb : 2 ≤ b.natAbs) : (a.tdiv b).natAbs ≤ a.natAbs / 2 := by
  rw [Int.natAbs_tdiv]
  exact Nat.div_le_div_left hb (by decide)

/-- Division toward zero is the one wanted if its remainder is on the side of the divisor. -/
theorem isFloorDivision_tdiv (hb : b ≠ 0) (hside : a.tmod b = 0 ∨ (a.tmod b < 0 ↔ b < 0)) :
    IsFloorDivision a b (a.tdiv b) (a.tmod b) :=
  ⟨(Int.mul_tdiv_add_tmod a b).symm, hside, natAbs_tmod_lt a hb⟩

/-- If not, it is one step short. -/
theorem isFloorDivision_step (hb : b ≠ 0) (hside : ¬ (a.tmod b = 0 ∨ (a.tmod b < 0 ↔ b < 0))) :
    IsFloorDivision a b (a.tdiv b - 1) (a.tmod b + b) := by
  have hsum := Int.mul_tdiv_add_tmod a b
  have hsmall := natAbs_tmod_lt a hb
  refine ⟨?_, by omega, by omega⟩
  rw [mul_sub, mul_one]
  omega

end Division

section Machine

variable {a b q r : Int64}

theorem isAcross_iff :
    isAcross r b = true ↔ ¬ (r.toInt = 0 ∨ (r.toInt < 0 ↔ b.toInt < 0)) := by
  have hr : r = 0 ↔ r.toInt = 0 := Int64.toInt_inj.symm
  simp only [isAcross, Bool.and_eq_true, decide_eq_true_eq, bne_iff_ne, ne_eq, decide_eq_decide,
    Int64.lt_iff_toInt_lt, Int64.toInt_zero, hr, not_or]

/-- A quotient does not fit in one case only. -/
theorem div?_eq_none_iff (hb : b ≠ 0) : div? a b = none ↔ a = Int64.minValue ∧ b = -1 := by
  have ha := fits_toInt a
  have hb0 : b.toInt ≠ 0 := toInt_ne_zero hb
  have hmin : a = Int64.minValue ↔ a.toInt = -2 ^ 63 := Int64.toInt_inj.symm
  have hone : b = -1 ↔ b.toInt = -1 := Int64.toInt_inj.symm
  unfold div?
  rw [if_neg hb, ofInt?_eq_none_iff, hmin, hone]
  unfold Fits at ha ⊢
  by_cases h1 : b.toInt = 1
  · rw [h1, Int.tdiv_one]
    omega
  by_cases h2 : b.toInt = -1
  · rw [h2, Int.tdiv_neg, Int.tdiv_one]
    omega
  · have hhalf := natAbs_tdiv_le a.toInt (show 2 ≤ b.toInt.natAbs by omega)
    omega

/-- **Quotient and remainder** of machine integers, but where the quotient does not fit. -/
theorem isFloorDivision_floorDiv (hb : b ≠ 0) (h : ¬ (a = Int64.minValue ∧ b = -1)) :
    ∃ q r, floorDiv? a b = some q ∧ mod? a b = some r ∧
      IsFloorDivision a.toInt b.toInt q.toInt r.toInt := by
  have ha := fits_toInt a
  have hbfits := fits_toInt b
  have hb0 : b.toInt ≠ 0 := toInt_ne_zero hb
  obtain ⟨q, hq⟩ := Option.ne_none_iff_exists'.mp (mt (div?_eq_none_iff hb).mp h)
  have hqt : q.toInt = a.toInt.tdiv b.toInt := by
    unfold div? at hq
    rw [if_neg hb] at hq
    exact ofInt?_eq_some_iff.mp hq
  have hr : rem? a b = some (a % b) := by rw [rem?, hq, Option.map_some]
  have hrt : (a % b).toInt = a.toInt.tmod b.toInt := Int64.toInt_mod a b
  have hfloor : floorDiv? a b = if isAcross (a % b) b then sub? q 1 else some q := by
    simp [floorDiv?, hq, hr]
  have hmod : mod? a b = if isAcross (a % b) b then add? (a % b) b else some (a % b) := by
    simp [mod?, hr]
  by_cases hside : isAcross (a % b) b = true
  · rw [if_pos hside] at hfloor hmod
    rw [isAcross_iff, hrt] at hside
    have hsmall := natAbs_tmod_lt a.toInt hb0
    -- a remainder that is not zero leaves room for the step
    have hhalf := natAbs_tdiv_le a.toInt (show 2 ≤ b.toInt.natAbs by omega)
    unfold Fits at ha hbfits
    have hq' : Fits (q.toInt - (1 : Int64).toInt) := by
      rw [hqt, Int64.toInt_one]
      unfold Fits
      omega
    have hr' : Fits ((a % b).toInt + b.toInt) := by
      rw [hrt]
      unfold Fits
      omega
    obtain ⟨q', hsub, hqt'⟩ := exists_ofInt? hq'
    obtain ⟨r', hadd, hrt'⟩ := exists_ofInt? hr'
    refine ⟨q', r', hfloor.trans hsub, hmod.trans hadd, ?_⟩
    rw [hqt', hrt', hqt, hrt, Int64.toInt_one]
    exact isFloorDivision_step hb0 hside
  · rw [if_neg hside] at hfloor hmod
    rw [isAcross_iff, hrt, not_not] at hside
    refine ⟨q, a % b, hfloor, hmod, ?_⟩
    rw [hqt, hrt]
    exact isFloorDivision_tdiv hb0 hside

/-- The one division whose quotient does not fit has no remainder either. -/
theorem floorDiv?_minValue :
    floorDiv? Int64.minValue (-1) = none ∧ mod? Int64.minValue (-1) = none := by
  decide

theorem floorDiv?_eq (hb : b ≠ 0) : floorDiv? a b = ofInt? ⌊(a.toInt : ℚ) / b.toInt⌋ := by
  by_cases h : a = Int64.minValue ∧ b = -1
  · obtain ⟨rfl, rfl⟩ := h
    have hdiv : IsFloorDivision Int64.minValue.toInt (-1 : Int64).toInt (2 ^ 63) 0 :=
      ⟨by decide, .inl rfl, by decide⟩
    rw [← hdiv.eq_floor, floorDiv?_minValue.1]
    rfl
  · obtain ⟨q, r, hq, -, hdiv⟩ := isFloorDivision_floorDiv hb h
    rw [hq, ← hdiv.eq_floor, ofInt?_toInt]

end Machine

/-! ### Shifts -/

section Shifts

variable {a : Int64} {n : Nat}

/-- A shift count below the width is taken as it is. -/
theorem toNat_smod_of_lt (hn : n < 64) : ((Int64.ofNat n).toBitVec.smod 64).toNat = n := by
  decide +revert

theorem toInt_shiftRight (hn : n < 64) : (a >>> Int64.ofNat n).toInt = a.toInt / 2 ^ n := by
  rw [← Int64.toInt_toBitVec, Int64.toBitVec_shiftRight, BitVec.sshiftRight_eq',
    toNat_smod_of_lt hn, BitVec.toInt_sshiftRight, Int64.toInt_toBitVec, Int.shiftRight_eq_div_pow]
  norm_cast

/-- Moving bits up loses those above the range. -/
theorem toInt_shiftLeft (hn : n < 64) :
    (a <<< Int64.ofNat n).toInt = (a.toInt * 2 ^ n).bmod (2 ^ 64) := by
  rw [← Int64.toInt_toBitVec, Int64.toBitVec_shiftLeft, BitVec.shiftLeft_eq', toNat_smod_of_lt hn,
    BitVec.toInt_shiftLeft, Nat.shiftLeft_eq, ← Int64.toInt_toBitVec, BitVec.toInt_eq_toNat_bmod,
    Int.bmod_mul_bmod]
  norm_cast

theorem bmod_of_fits {r : Int} (h : Fits r) : r.bmod (2 ^ 64) = r := by
  unfold Fits at h
  exact Int.bmod_eq_of_le (by omega) (by omega)

/-- Moving bits up and back down gives the integer just if the product fits: what is lost on the
way up is a multiple of the factor too, so it is missing on the way down. -/
theorem shiftRight_shiftLeft_eq_iff (hn : n < 64) :
    (a <<< Int64.ofNat n) >>> Int64.ofNat n = a ↔ Fits (a.toInt * 2 ^ n) := by
  have hpos : (2 : Int) ^ n ≠ 0 := pow_ne_zero _ (by decide)
  have hsplit : (2 : Int) ^ 64 = 2 ^ n * 2 ^ (64 - n) := by
    rw [← pow_add, Nat.add_sub_cancel' hn.le]
  have hdvd : (2 : Int) ^ n ∣ (a.toInt * 2 ^ n).bmod (2 ^ 64) := by
    rw [Int.bmod_eq_self_sub_mul_bdiv]
    refine dvd_sub (dvd_mul_left _ _) (dvd_mul_of_dvd_left ?_ _)
    exact ⟨2 ^ (64 - n), by exact_mod_cast hsplit⟩
  rw [← Int64.toInt_inj, toInt_shiftRight hn, toInt_shiftLeft hn,
    Int.ediv_eq_iff_eq_mul_left hpos hdvd]
  constructor
  · intro h
    rw [← h, ← toInt_shiftLeft hn]
    exact fits_toInt _
  · exact bmod_of_fits

theorem not_fits_mul_pow (ha : a ≠ 0) (hn : 64 ≤ n) : ¬ Fits (a.toInt * 2 ^ n) := by
  have ha0 : a.toInt ≠ 0 := toInt_ne_zero ha
  have hpow : (2 : Int) ^ 64 ≤ 2 ^ n := pow_le_pow_right₀ (by decide) hn
  rintro ⟨hlow, hhigh⟩
  rcases lt_or_gt_of_ne ha0 with hneg | hpos
  · have hle : a.toInt * 2 ^ n ≤ -1 * 2 ^ n :=
      Int.mul_le_mul_of_nonneg_right (by omega) (by omega)
    omega
  · have hle : 1 * 2 ^ n ≤ a.toInt * 2 ^ n :=
      Int.mul_le_mul_of_nonneg_right (by omega) (by omega)
    omega

/-- **A shift to the left is a product**, or nothing if that does not fit. -/
theorem shiftLeft?_eq (a : Int64) (n : Nat) : shiftLeft? a n = ofInt? (a.toInt * 2 ^ n) := by
  unfold shiftLeft?
  by_cases ha : a = 0
  · subst ha
    rw [if_pos rfl, Int64.toInt_zero, zero_mul]
    rfl
  by_cases hn : 64 ≤ n
  · rw [if_neg ha, if_pos hn, eq_comm, ofInt?_eq_none_iff]
    exact not_fits_mul_pow ha hn
  have hback := shiftRight_shiftLeft_eq_iff (a := a) (n := n) (by omega)
  rw [if_neg ha, if_neg hn]
  dsimp only
  by_cases hfits : Fits (a.toInt * 2 ^ n)
  · rw [if_pos (hback.mpr hfits), eq_comm, ofInt?_eq_some_iff, toInt_shiftLeft (by omega)]
    exact bmod_of_fits hfits
  · rw [if_neg (mt hback.mp hfits), eq_comm, ofInt?_eq_none_iff]
    exact hfits

/-- **A shift to the right is a quotient**; the last place already holds nothing but the sign. -/
theorem toInt_shiftRight_eq_floor (a : Int64) (n : Nat) :
    (shiftRight a n).toInt = ⌊(a.toInt : ℚ) / 2 ^ n⌋ := by
  have hfloor : ⌊(a.toInt : ℚ) / 2 ^ n⌋ = a.toInt / 2 ^ n := by
    exact_mod_cast Rat.floor_intCast_div_natCast a.toInt (2 ^ n)
  have ha := fits_toInt a
  unfold shiftRight
  rw [toInt_shiftRight (by omega), hfloor]
  rcases le_total n 63 with hn | hn
  · rw [min_eq_left hn]
  · rw [min_eq_right hn]
    have hpow : (2 : Int) ^ 63 ≤ 2 ^ n := pow_le_pow_right₀ (by decide) hn
    unfold Fits at ha
    rcases lt_or_ge a.toInt 0 with hneg | hpos
    · rw [Int.ediv_eq_neg_one_of_neg_of_le hneg (by omega),
        Int.ediv_eq_neg_one_of_neg_of_le hneg (by omega)]
    · rw [Int.ediv_eq_zero_of_lt hpos (by omega), Int.ediv_eq_zero_of_lt hpos (by omega)]

end Shifts

/-! ### Powers -/

section Powers

variable {a : Int64} {n : Nat}

theorem not_fits_pow (ha : 2 ≤ a.toInt.natAbs) (hn : 64 ≤ n) : ¬ Fits (a.toInt ^ n) := by
  have hbase : 2 ^ n ≤ a.toInt.natAbs ^ n := Nat.pow_le_pow_left ha n
  have hexp : 2 ^ 64 ≤ 2 ^ n := Nat.pow_le_pow_right (by decide) hn
  have habs : (a.toInt ^ n).natAbs = a.toInt.natAbs ^ n := Int.natAbs_pow _ _
  unfold Fits
  omega

/-- Exponents of more than 32 bits are refused. -/
theorem pow?_of_large (a : Int64) (hn : 2 ^ 32 ≤ n) : pow? a n = none := if_pos hn

/-- **A power is exact**, or nothing if it does not fit, but for large exponents of small bases. -/
theorem pow?_eq (h : n < 2 ^ 32 ∨ 2 ≤ a.toInt.natAbs) : pow? a n = ofInt? (a.toInt ^ n) := by
  by_cases hlarge : 2 ^ 32 ≤ n
  · rw [pow?_of_large a hlarge, eq_comm, ofInt?_eq_none_iff]
    exact not_fits_pow (by omega) (by omega)
  unfold pow?
  rw [if_neg hlarge]
  by_cases h0 : a = 0
  · subst h0
    rw [if_pos rfl, eq_comm, ofInt?_eq_some_iff, Int64.toInt_zero]
    by_cases hn : n = 0
    · rw [if_pos hn, hn, pow_zero]
      rfl
    · rw [if_neg hn, zero_pow hn]
      rfl
  by_cases h1 : a = 1
  · subst h1
    rw [if_neg h0, if_pos rfl, Int64.toInt_one, one_pow]
    rfl
  by_cases h2 : a = -1
  · subst h2
    have hbase : (-1 : Int64).toInt = -1 := rfl
    rw [if_neg h0, if_neg h1, if_pos rfl, eq_comm, ofInt?_eq_some_iff, hbase]
    by_cases heven : n % 2 = 0
    · rw [if_pos heven, (Nat.even_iff.mpr heven).neg_one_pow]
      rfl
    · rw [if_neg heven, (Nat.odd_iff.mpr (by omega)).neg_one_pow]
      rfl
  rw [if_neg h0, if_neg h1, if_neg h2]
  by_cases h64 : 64 ≤ n
  · have ha0 : a.toInt ≠ 0 := toInt_ne_zero h0
    have ha1 : a.toInt ≠ 1 := fun ha => h1 (Int64.toInt_inj.mp ha)
    have ha2 : a.toInt ≠ -1 := fun ha => h2 (Int64.toInt_inj.mp ha)
    rw [if_pos h64, eq_comm, ofInt?_eq_none_iff]
    exact not_fits_pow (by omega) h64
  · rw [if_neg h64]

/-- All powers of zero, one and minus one fit. -/
theorem fits_pow_of_small (ha : a.toInt.natAbs ≤ 1) : Fits (a.toInt ^ n) := by
  have hpow : a.toInt.natAbs ^ n ≤ 1 := pow_le_one₀ (Nat.zero_le _) ha
  have habs : (a.toInt ^ n).natAbs = a.toInt.natAbs ^ n := Int.natAbs_pow _ _
  unfold Fits
  omega

end Powers

end ShellExpr.Integer
