import ShellExpr.Operation.Comparison
import ShellExpr.Proofs.Number.Integer
import ShellExpr.Proofs.Number.Values
import ShellExpr.Proofs.Value.Keys

/-!
# Floats that are integers

A float whose value is an integer is looked for in a range as that integer, and is its key in a dict.
Both conversions are exact short of the limit up to which floats are looked for. From there on up to
the end of the machine integers no range holds a float, and the first float beyond them is taken for
the largest integer.

* `Key.ofDouble_eq_int_iff_value`: the float of an integer key has its value, but for one float.
* `contains_float_iff`: a range holds the floats whose values are in it, short of the limit.
* `Double.IsBridged`: what conversions of one float should do.
* `integral_conversions`: **what the conversions do**, and which floats they are exact for.
-/

namespace ShellExpr

open Integer (Fits)

variable {x : Double} {n : Int64}

/-! ### Keys -/

/-- The float next to the largest integer. -/
theorem toInt?_ofInt_maxValue : (Double.ofInt Int64.maxValue.toInt).toInt? = some (2 ^ 63) := rfl

theorem toInt?_ofInt_minValue : (Double.ofInt Int64.minValue.toInt).toInt? = some (-2 ^ 63) := rfl

/-- **The float of an integer key** has that integer as its value, but for the float next to the
largest integer. -/
theorem Key.ofDouble_eq_int_iff_value (hx : x.isFinite = true) : Key.ofDouble x = .int n ↔
    x.value = n.toInt ∨ x.value = 2 ^ 63 ∧ n = Int64.maxValue := by
  rw [ofDouble_eq_int_iff]
  constructor
  · rintro ⟨hi, hnear⟩
    obtain ⟨i, hi, hclamp⟩ := Option.map_eq_some_iff.mp hi
    obtain ⟨-, hvalue⟩ := Double.toInt?_eq_some_iff.mp hi
    have hsame := (Double.toInt?_eq_of_equal hnear).trans hi
    rcases Integer.clamp_cases i with hfits | ⟨-, hmax⟩ | ⟨hlow, hmin⟩
    · rw [hclamp] at hfits
      exact .inl (hfits ▸ hvalue)
    · obtain rfl := hclamp.symm.trans hmax
      rw [toInt?_ofInt_maxValue, Option.some.injEq] at hsame
      refine .inr ⟨?_, rfl⟩
      rw [hvalue, ← hsame]
      norm_num
    · -- what is nearest to the least integer is that integer
      obtain rfl := hclamp.symm.trans hmin
      rw [toInt?_ofInt_minValue, Option.some.injEq] at hsame
      omega
  · rintro (h | ⟨h, rfl⟩)
    · have hi : x.toInt? = some n.toInt := Double.toInt?_eq_some_iff.mpr ⟨hx, h⟩
      exact ⟨by rw [hi, Option.map_some, Integer.clamp_toInt], Double.equal_ofInt hx h⟩
    · have h' : x.value = ((2 ^ 63 : Int) : ℚ) := by
        rw [h]
        norm_num
      have hi : x.toInt? = some (2 ^ 63) := Double.toInt?_eq_some_iff.mpr ⟨hx, h'⟩
      have hround : Double.ofInt Int64.maxValue.toInt = Double.ofInt (2 ^ 63) := rfl
      exact ⟨by rw [hi]; rfl, by rw [hround]; exact Double.equal_ofInt hx h'⟩

/-! ### Ranges -/

/-- Whether the value of a float is an integer of a range. -/
def Double.LiesIn (x : Double) (r : Range) : Prop :=
  ∃ n : Int, x.value = n ∧ r.start.toInt ≤ n ∧ n < r.stop.toInt

theorem integral?_eq_some_iff {i : Int} : integral? x = some i ↔
    x.isFinite = true ∧ x.value = i ∧ |x.value| < integralLimit := by
  rw [integral?, Option.filter_eq_some_iff, Double.toInt?_eq_some_iff, and_assoc]
  refine and_congr_right fun _ => and_congr_right fun h => ?_
  rw [h, decide_eq_true_iff, ← Int.cast_abs, Int.cast_lt, Int.abs_eq_natAbs]

/-- **A range holds the floats whose values are in it**, short of the limit. -/
theorem contains_float_iff (hx : x.isFinite = true) (r : Range) :
    contains (.range r) (.float x) = .ok true ↔ x.LiesIn r ∧ |x.value| < integralLimit := by
  have hcontains : contains (.range r) (.float x) = .ok ((integral? x).any r.contains) := rfl
  have hmem : ∀ i : Int, r.contains i = true ↔ r.start.toInt ≤ i ∧ i < r.stop.toInt := by
    simp [Range.contains]
  rw [hcontains, Except.ok.injEq, Option.any_eq_true]
  constructor
  · rintro ⟨i, hi, hr⟩
    obtain ⟨-, hvalue, hlimit⟩ := integral?_eq_some_iff.mp hi
    exact ⟨⟨i, hvalue, (hmem i).mp hr⟩, hlimit⟩
  · rintro ⟨⟨i, hvalue, hr⟩, hlimit⟩
    exact ⟨i, integral?_eq_some_iff.mpr ⟨hx, hvalue, hlimit⟩, (hmem i).mpr hr⟩

theorem Double.LiesIn.fits {r : Range} (h : x.LiesIn r) : ∃ i : Int, x.value = i ∧ Fits i := by
  obtain ⟨i, hvalue, hlow, hhigh⟩ := h
  have hstart := Integer.fits_toInt r.start
  have hstop := Integer.fits_toInt r.stop
  exact ⟨i, hvalue, hstart.1.trans hlow, hhigh.trans hstop.2⟩

/-! ### Both -/

/-- What the conversions of a float should do: find it in a range just if its value is an integer of
the range, make the key of an integer of it just if that is its value, and agree on the integer. -/
structure Double.IsBridged (x : Double) : Prop where
  range : ∀ r, contains (.range r) (.float x) = .ok true ↔ x.LiesIn r
  key : ∀ n, Key.ofValue? (.float x) = some (.int n) ↔ x.value = n.toInt
  same : ∀ n : Int64, integral? x = some n.toInt ↔ Key.ofValue? (.float x) = some (.int n)

/-- Floats as large as the limit are integers. -/
theorem two_pow_le_limit : (2 : ℚ) ^ 53 ≤ integralLimit := by
  norm_num [integralLimit]

/-- An integer that fits is no larger than the float next to the largest one. -/
theorem abs_le_of_fits {i : Int} (h : Fits i) : |(i : ℚ)| ≤ 2 ^ 63 := by
  unfold Fits at h
  have habs : |i| ≤ 2 ^ 63 := abs_le.mpr ⟨h.1, h.2.le⟩
  exact_mod_cast habs

theorem key_eq_int_iff (hx : x.isFinite = true) : Key.ofValue? (.float x) = some (.int n) ↔
    x.value = n.toInt ∨ x.value = 2 ^ 63 ∧ n = Int64.maxValue :=
  Option.some_inj.trans (Key.ofDouble_eq_int_iff_value hx)

/-- No float from the limit up to the one next to the largest integer is bridged. -/
theorem Double.IsBridged.outside (h : x.IsBridged) (hx : x.isFinite = true) :
    |x.value| < integralLimit ∨ 2 ^ 63 < |x.value| := by
  by_contra hbetween
  rw [not_or, not_lt, not_lt] at hbetween
  obtain ⟨hlow, hhigh⟩ := hbetween
  obtain ⟨i, hi⟩ := Double.exists_int_of_large (le_trans two_pow_le_limit hlow)
  by_cases hfits : Fits i
  · -- the key of the float is the integer that a range does not look for
    obtain ⟨n, -, rfl⟩ := Integer.exists_ofInt? hfits
    have hint := (h.same n).mpr ((h.key n).mpr hi)
    exact absurd (integral?_eq_some_iff.mp hint).2.2 (not_lt.mpr hlow)
  · -- the float next to the largest integer has that as its key
    have hi' : i = 2 ^ 63 := by
      have habs : |i| ≤ 2 ^ 63 := by
        rw [hi] at hhigh
        exact_mod_cast hhigh
      unfold Fits at hfits
      rw [abs_le] at habs
      omega
    have hvalue : x.value = 2 ^ 63 := by
      rw [hi, hi']
      norm_num
    have hkey := (h.key Int64.maxValue).mp ((key_eq_int_iff hx).mpr (.inr ⟨hvalue, rfl⟩))
    rw [hvalue] at hkey
    exact absurd hkey (by norm_num [Int64.toInt_maxValue])

/-- All other floats are bridged: those short of the limit are converted exactly, and the values of
the larger ones do not fit. -/
theorem Double.isBridged_of_outside (hx : x.isFinite = true)
    (h : |x.value| < integralLimit ∨ 2 ^ 63 < |x.value|) : x.IsBridged := by
  have hne : x.value ≠ 2 ^ 63 := by
    intro hvalue
    rw [hvalue] at h
    norm_num [integralLimit] at h
  have hlimit : ∀ i : Int, x.value = i → Fits i → |x.value| < integralLimit := by
    intro i hi hfits
    refine h.resolve_right (not_lt.mpr ?_)
    rw [hi]
    exact abs_le_of_fits hfits
  have hkey : ∀ n : Int64, Key.ofValue? (.float x) = some (.int n) ↔ x.value = n.toInt :=
    fun n => (key_eq_int_iff hx).trans (or_iff_left fun hmax => hne hmax.1)
  refine ⟨fun r => ?_, hkey, fun n => ?_⟩
  · rw [contains_float_iff hx]
    refine and_iff_left_of_imp fun hr => ?_
    obtain ⟨i, hi, hfits⟩ := hr.fits
    exact hlimit i hi hfits
  · rw [integral?_eq_some_iff, hkey, and_iff_right hx]
    exact and_iff_left_of_imp fun hi => hlimit _ hi (Integer.fits_toInt n)

/-- **What the conversions of a float do.** A range holds a float whose value is in it, short of the
limit, and a float is the key of its value, but for the one next to the largest integer. This is what
they should do for all floats but those from the limit up to that one. -/
theorem integral_conversions (hx : x.isFinite = true) :
    (∀ r : Range, ∃ found, contains (.range r) (.float x) = .ok found ∧
      (found = true ↔ x.LiesIn r ∧ |x.value| < integralLimit)) ∧
    (∃ k, Key.ofValue? (.float x) = some k ∧ ∀ n : Int64,
      (k = .int n ↔ x.value = n.toInt ∨ x.value = 2 ^ 63 ∧ n = Int64.maxValue)) ∧
    (x.IsBridged ↔ |x.value| < integralLimit ∨ 2 ^ 63 < |x.value|) := by
  refine ⟨fun r => ⟨_, rfl, ?_⟩, ⟨_, rfl, fun n => Key.ofDouble_eq_int_iff_value hx⟩,
    fun h => h.outside hx, Double.isBridged_of_outside hx⟩
  rw [← contains_float_iff hx, ← Except.ok.injEq]
  exact Iff.rfl

/-- The float `2 ^ 62` is found in a range and is the key of its value. -/
theorem integral_conversions_large :
    let x := Double.ofParts false (1085 * 2 ^ 52)
    x.isFinite = true ∧ x.value = 2 ^ 62 ∧ x.IsBridged ∧
      contains (.range ⟨0, Int64.maxValue⟩) (.float x) = .ok true ∧
      Key.ofValue? (.float x) = some (.int 4611686018427387904) := by
  intro x
  have hx : x.isFinite = true := by decide
  have hvalue : x.value = 2 ^ 62 := by
    have hi : x.value = ((2 ^ 62 : Int) : ℚ) :=
      (Double.toInt?_eq_some_iff.mp (by decide +kernel)).2
    rw [hi]
    norm_num
  have hlimit : |x.value| < integralLimit := by
    rw [hvalue]
    norm_num [integralLimit]
  obtain ⟨hrange, ⟨k, hk, hkey⟩, hexact⟩ := integral_conversions hx
  obtain ⟨found, hfound, hiff⟩ := hrange ⟨0, Int64.maxValue⟩
  have hin : x.LiesIn ⟨0, Int64.maxValue⟩ := ⟨2 ^ 62, by rw [hvalue]; norm_num, by decide, by decide⟩
  have hpow : (4611686018427387904 : Int64).toInt = 2 ^ 62 := by decide
  obtain rfl := hiff.mpr ⟨hin, hlimit⟩
  obtain rfl := (hkey 4611686018427387904).mpr (.inl (by rw [hvalue, hpow]; norm_num))
  exact ⟨hx, hvalue, hexact.mpr (.inl hlimit), hfound, hk⟩

/-- From the limit on, ranges miss floats whose values are in them, though the same floats are keys
of integers; and the float after the largest integer has that as its key. -/
theorem ranges_miss_large_floats :
    let x : Double := ⟨0x43dfeb3dd0676600⟩
    let y := Double.ofParts false (1086 * 2 ^ 52)
    x.isFinite = true ∧ x.LiesIn ⟨0, Int64.maxValue⟩ ∧
      contains (.range ⟨0, Int64.maxValue⟩) (.float x) = .ok false ∧
      Key.ofValue? (.float x) = some (.int 9200000000000000000) ∧
      y.isFinite = true ∧ y.value = 2 ^ 63 ∧
      Key.ofValue? (.float y) = some (.int Int64.maxValue) := by
  intro x y
  have hx : x.value = ((9200000000000000000 : Int) : ℚ) :=
    (Double.toInt?_eq_some_iff.mp (by decide +kernel)).2
  have hy : y.value = ((2 ^ 63 : Int) : ℚ) :=
    (Double.toInt?_eq_some_iff.mp (by decide +kernel)).2
  have hin : x.LiesIn ⟨0, Int64.maxValue⟩ := ⟨9200000000000000000, hx, by decide, by decide⟩
  exact ⟨by decide, hin, by decide, by decide +kernel, by decide, by rw [hy]; norm_num,
    by decide +kernel⟩

end ShellExpr
