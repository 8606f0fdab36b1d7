import Mathlib.Data.List.Induction
import ShellExpr.Proofs.Number.Numeral

/-!
# Numerals and their values

What a row of digits stands for, said apart from how it is read: each digit adds itself to the
radix times what stands before it. Letters count in either case, and zeros may stand in front.

* `IsDigit`, `IsNumeral`: digits and numerals of a radix, with their values.
* `value?_eq_some_iff`: **the value of a row of digits is that of the numeral**.
* `unsigned?_eq_some_iff`, `signed?_eq_some_iff`: the same where signs are allowed.
* `signed?_decimal`: an integer is read back from its decimal.
-/

namespace ShellExpr.Numeral

/-- A digit of the radix with its value; a letter stands in either case. -/
def IsDigit (radix : Nat) (c : Char) (d : Nat) : Prop :=
  d < radix ∧ (c = digitChar d ∨ c = (digitChar d).toUpper)

/-- A numeral with its value, the most significant digit first. -/
inductive IsNumeral (radix : Nat) : List Char → Nat → Prop where
  | digit {c : Char} {d : Nat} (h : IsDigit radix c d) : IsNumeral radix [c] d
  | snoc {cs : List Char} {n : Nat} {c : Char} {d : Nat} (hn : IsNumeral radix cs n)
      (h : IsDigit radix c d) : IsNumeral radix (cs ++ [c]) (n * radix + d)

variable {radix n d : Nat} {c : Char} {cs : List Char}

/-! ### Digits -/

theorem digitValue?_toUpper : ∀ d < 36, digitValue? (digitChar d).toUpper = some d := by decide

/-- All digits are among the first characters, so they can be gone through. -/
theorem eq_digitChar_of_small : ∀ n < 123, ∀ d ∈ digitValue? (Char.ofNat n),
    d < 36 ∧ (Char.ofNat n = digitChar d ∨ Char.ofNat n = (digitChar d).toUpper) := by decide

theorem toNat_lt_of_digitValue? (h : digitValue? c = some d) : c.toNat < 123 := by
  have hrange : ∀ a b : Char, a ≤ c ∧ c ≤ b → c.toNat ≤ b.toNat := fun _ _ h => h.2
  unfold digitValue? at h
  split at h
  · have := hrange '0' '9' ‹_›
    have : ('9' : Char).toNat = 57 := rfl
    omega
  split at h
  · have := hrange 'a' 'z' ‹_›
    have : ('z' : Char).toNat = 122 := rfl
    omega
  split at h
  · have := hrange 'A' 'Z' ‹_›
    have : ('Z' : Char).toNat = 90 := rfl
    omega
  · contradiction

theorem digitValue?_eq_some_iff :
    digitValue? c = some d ↔ d < 36 ∧ (c = digitChar d ∨ c = (digitChar d).toUpper) := by
  constructor
  · intro h
    have hsmall := eq_digitChar_of_small c.toNat (toNat_lt_of_digitValue? h) d
    rw [Char.ofNat_toNat] at hsmall
    exact hsmall h
  · rintro ⟨hd, rfl | rfl⟩
    · exact digitValue?_digitChar d hd
    · exact digitValue?_toUpper d hd

theorem digit?_eq_some_iff (h36 : radix ≤ 36) : digit? radix c = some d ↔ IsDigit radix c d := by
  unfold digit? IsDigit
  rw [Option.filter_eq_some_iff, digitValue?_eq_some_iff, decide_eq_true_eq]
  constructor
  · rintro ⟨⟨-, hc⟩, hd⟩
    exact ⟨hd, hc⟩
  · rintro ⟨hd, hc⟩
    exact ⟨⟨by omega, hc⟩, hd⟩

/-! ### Numerals -/

theorem extend?_snoc (acc : Nat) (cs : List Char) (c : Char) : extend? radix acc (cs ++ [c]) =
    (extend? radix acc cs).bind fun n => (digit? radix c).map fun d => n * radix + d := by
  rw [extend?_append]
  congr 1
  funext n
  simp only [extend?]
  cases digit? radix c <;> rfl

theorem extend?_eq_some_iff (h36 : radix ≤ 36) (hne : cs ≠ []) :
    extend? radix 0 cs = some n ↔ IsNumeral radix cs n := by
  constructor
  · intro h
    induction cs using List.reverseRecOn generalizing n with
    | nil => contradiction
    | append_singleton cs c ih =>
      rw [extend?_snoc] at h
      obtain ⟨m, hm, h⟩ := Option.bind_eq_some_iff.mp h
      obtain ⟨d, hd, rfl⟩ := Option.map_eq_some_iff.mp h
      have hd := (digit?_eq_some_iff h36).mp hd
      by_cases hcs : cs = []
      · subst hcs
        obtain rfl := Option.some.inj hm
        rw [Nat.zero_mul, Nat.zero_add]
        exact .digit hd
      · exact .snoc (ih hcs hm) hd
  · intro h
    clear hne
    induction h with
    | digit h =>
      rw [← List.nil_append [_], extend?_snoc, (digit?_eq_some_iff h36).mpr h]
      simp [extend?]
    | snoc _ h ih =>
      rw [extend?_snoc, ih, (digit?_eq_some_iff h36).mpr h]
      rfl

theorem IsNumeral.ne_nil (h : IsNumeral radix cs n) : cs ≠ [] := by
  cases h <;> simp

/-- Every character of a numeral is a digit. -/
theorem IsNumeral.isDigit (h : IsNumeral radix cs n) (hc : c ∈ cs) : ∃ d, IsDigit radix c d := by
  induction h with
  | digit h =>
    rw [List.mem_singleton] at hc
    exact ⟨_, hc ▸ h⟩
  | snoc _ h ih =>
    rcases List.mem_append.mp hc with hc | hc
    · exact ih hc
    · rw [List.mem_singleton] at hc
      exact ⟨_, hc ▸ h⟩

/-- **The value of a row of digits is that of the numeral.** -/
theorem value?_eq_some_iff (h36 : radix ≤ 36) :
    value? radix cs = some n ↔ IsNumeral radix cs n := by
  cases cs with
  | nil =>
    constructor
    · intro h
      cases h
    · intro h
      exact absurd rfl h.ne_nil
  | cons c rest => exact extend?_eq_some_iff h36 (List.cons_ne_nil c rest)

/-- A numeral starts with no sign. -/
theorem IsNumeral.head_not_sign (h36 : radix ≤ 36) (h : IsNumeral radix (c :: cs) n) :
    c ≠ '+' ∧ c ≠ '-' := by
  obtain ⟨d, hd⟩ := h.isDigit List.mem_cons_self
  have hv := (digit?_eq_some_iff h36).mpr hd
  constructor
  · rintro rfl
    contradiction
  · rintro rfl
    contradiction

theorem unsigned?_eq_some_iff (h36 : radix ≤ 36) : unsigned? radix cs = some n ↔
    IsNumeral radix cs n ∨ ∃ ds, cs = '+' :: ds ∧ IsNumeral radix ds n := by
  unfold unsigned?
  split
  · rename_i rest
    rw [value?_eq_some_iff h36]
    constructor
    · intro h
      exact .inr ⟨rest, rfl, h⟩
    · rintro (h | ⟨ds, hds, h⟩)
      · exact absurd rfl (h.head_not_sign h36).1
      · exact (List.cons.inj hds).2 ▸ h
  · rename_i hplus
    rw [value?_eq_some_iff h36]
    constructor
    · intro h
      exact .inl h
    · rintro (h | ⟨ds, hds, -⟩)
      · exact h
      · exact absurd hds (hplus ds)

/-- A numeral with its value, a sign allowed before it. -/
inductive IsSigned (radix : Nat) : List Char → Int → Prop where
  | plain {cs : List Char} {n : Nat} (h : IsNumeral radix cs n) : IsSigned radix cs n
  | plus {cs : List Char} {n : Nat} (h : IsNumeral radix cs n) : IsSigned radix ('+' :: cs) n
  | minus {cs : List Char} {n : Nat} (h : IsNumeral radix cs n) : IsSigned radix ('-' :: cs) (-n)

/-- A natural number as an integer comes of that number. -/
theorem of_bind_cast {x : Option Nat} {z : Int} (h : (do let n ← x; pure (n : Int)) = some z) :
    ∃ n, x = some n ∧ (n : Int) = z := by
  obtain ⟨n, hn, hz⟩ := Option.bind_eq_some_iff.mp h
  exact ⟨n, hn, Option.some.inj hz⟩

theorem signed?_eq_some_iff (h36 : radix ≤ 36) {z : Int} :
    signed? radix cs = some z ↔ IsSigned radix cs z := by
  constructor
  · intro h
    unfold signed? at h
    split at h
    · obtain ⟨_, hcast, rfl⟩ := Option.map_eq_some_iff.mp h
      obtain ⟨n, hn, rfl⟩ := of_bind_cast hcast
      exact .minus ((value?_eq_some_iff h36).mp hn)
    · obtain ⟨_, hcast, rfl⟩ := Option.map_eq_some_iff.mp h
      obtain ⟨n, hn, rfl⟩ := of_bind_cast hcast
      rcases (unsigned?_eq_some_iff h36).mp hn with hplain | ⟨ds, rfl, hplus⟩
      · exact .plain hplain
      · exact .plus hplus
  · intro h
    cases h with
    | plain h =>
      rename_i n
      have hu : unsigned? radix cs = some n := (unsigned?_eq_some_iff h36).mpr (.inl h)
      unfold signed?
      split
      · exact absurd rfl (h.head_not_sign h36).2
      · rw [hu]
        rfl
    | plus h =>
      rename_i ds n
      have hu : unsigned? radix ('+' :: ds) = some n :=
        (unsigned?_eq_some_iff h36).mpr (.inr ⟨ds, rfl, h⟩)
      rw [signed?, hu]
      · rfl
      · simp
    | minus h =>
      rw [signed?, (value?_eq_some_iff h36).mpr h]
      rfl

/-- **An integer is read back from its decimal.** -/
theorem signed?_decimal (n : Int) : signed? 10 (decimal n) = some n := by
  have hdigits : IsNumeral 10 (digits 10 n.natAbs) n.natAbs :=
    (value?_eq_some_iff (by decide)).mp (value?_digits (by decide) (by decide) _)
  rw [signed?_eq_some_iff (by decide)]
  unfold decimal
  by_cases hneg : n < 0
  · have hn : -(n.natAbs : Int) = n := by omega
    rw [if_pos hneg]
    nth_rewrite 2 [← hn]
    exact .minus hdigits
  · have hn : (n.natAbs : Int) = n := by omega
    rw [if_neg hneg]
    nth_rewrite 2 [← hn]
    exact .plain hdigits

end ShellExpr.Numeral
