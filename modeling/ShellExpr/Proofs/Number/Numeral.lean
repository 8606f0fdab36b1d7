import ShellExpr.Number.Numeral

/-!
# Numerals read back

* `value?_digits`: the digits of a number have it as their value, in every radix from 2 to 36.
-/

namespace ShellExpr.Numeral

theorem digits_eq (radix n : Nat) : digits radix n =
    if radix < 2 ∨ n < radix then [digitChar n]
    else digits radix (n / radix) ++ [digitChar (n % radix)] := by
  rw [digits]
  split <;> rfl

theorem digits_ne_nil (radix n : Nat) : digits radix n ≠ [] := by
  rw [digits_eq]
  split <;> simp

theorem digitValue?_digitChar : ∀ d < 36, digitValue? (digitChar d) = some d := by decide

theorem isDecimalDigit_digitChar : ∀ d < 10, isDecimalDigit (digitChar d) = true := by decide

theorem extend?_append (radix acc : Nat) (xs ys : List Char) :
    extend? radix acc (xs ++ ys) = (extend? radix acc xs).bind fun n => extend? radix n ys := by
  induction xs generalizing acc with
  | nil => rfl
  | cons c xs ih =>
    simp only [List.cons_append, extend?, Option.bind_assoc]
    congr 1
    funext d
    exact ih _

theorem extend?_digitChar {radix : Nat} (h36 : radix ≤ 36) (acc : Nat) {d : Nat} (hd : d < radix) :
    extend? radix acc [digitChar d] = some (acc * radix + d) := by
  simp [extend?, digit?, digitValue?_digitChar d (by omega), Option.filter_some, hd]

theorem extend?_digits {radix : Nat} (h2 : 2 ≤ radix) (h36 : radix ≤ 36) (n : Nat) :
    extend? radix 0 (digits radix n) = some n := by
  induction n using Nat.strongRecOn with
  | _ n ih =>
    rw [digits_eq]
    split
    · rw [extend?_digitChar h36 0 (by omega)]
      simp
    · rw [extend?_append, ih (n / radix) (Nat.div_lt_self (by omega) (by omega)), Option.bind_some,
        extend?_digitChar h36 _ (Nat.mod_lt n (by omega)), Nat.div_add_mod']

/-- **The digits of a number have it as their value.** -/
theorem value?_digits {radix : Nat} (h2 : 2 ≤ radix) (h36 : radix ≤ 36) (n : Nat) :
    value? radix (digits radix n) = some n := by
  have hne : (digits radix n).isEmpty = false := by simp [digits_ne_nil]
  rw [value?, hne]
  exact extend?_digits h2 h36 n

/-- Decimal digits are the ten of them. -/
theorem isDecimalDigit_of_mem_digits {n : Nat} {c : Char} (h : c ∈ digits 10 n) :
    isDecimalDigit c = true := by
  induction n using Nat.strongRecOn with
  | _ n ih =>
    rw [digits_eq] at h
    split at h
    · rw [List.mem_singleton.mp h]
      exact isDecimalDigit_digitChar n (by omega)
    · rcases List.mem_append.mp h with h | h
      · exact ih (n / 10) (Nat.div_lt_self (by omega) (by omega)) h
      · rw [List.mem_singleton.mp h]
        exact isDecimalDigit_digitChar _ (Nat.mod_lt n (by omega))

end ShellExpr.Numeral
