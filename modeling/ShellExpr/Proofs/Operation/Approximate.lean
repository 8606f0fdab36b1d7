import Mathlib.Data.List.TakeWhile
import Mathlib.Data.Nat.Digits.Defs
import ShellExpr.Operation.Comparison
import ShellExpr.Proofs.Number.Integer
import ShellExpr.Proofs.Number.Reading

/-!
# Loose equality with integers

A string is loosely equal to an integer if it is written in decimal digits, without a sign, and has
that value; blanks may stand around it and zeros in front of it. The value is read into a machine
integer. Whatever does not fit is equal to no integer, so reading without a bound would give the
same answers.

* `Blank.IsTrim`: a text and what is left of it between blanks.
* `Blank.trim_eq_iff`: trimming leaves that.
* `Numeral.decimalValue`: the number that decimal digits stand for, however large.
* `approxEqual_int`: the answer for a string and an integer.
* `approxEqual_decimal`: **a string is loosely equal to the integer it is the decimal of**.
-/

namespace ShellExpr

/-! ### Blanks at the ends -/

namespace Blank

variable {text middle before behind : List Char}

/-- What is left of a text without the blanks at its ends. -/
structure IsTrim (text middle : List Char) : Prop where
  surrounded : ∃ before behind, text = before ++ middle ++ behind ∧
    (∀ c ∈ before, isBlank c = true) ∧ ∀ c ∈ behind, isBlank c = true
  head : ∀ c ∈ middle.head?, isBlank c = false
  last : ∀ c ∈ middle.getLast?, isBlank c = false

/-- Blanks are dropped up to the first other character. -/
theorem dropWhile_blanks (hbefore : ∀ c ∈ before, isBlank c = true)
    (hhead : ∀ c ∈ text.head?, isBlank c = false) :
    (before ++ text).dropWhile isBlank = text := by
  rw [List.dropWhile_append_of_pos hbefore]
  cases text with
  | nil => rfl
  | cons c rest =>
    have hc : isBlank c = false := hhead c rfl
    rw [List.dropWhile_cons_of_neg (by simp [hc])]

theorem IsTrim.trim_eq (h : IsTrim text middle) : trim text = middle := by
  obtain ⟨⟨before, behind, rfl, hbefore, hbehind⟩, hhead, hlast⟩ := h
  by_cases hempty : middle = []
  · -- nothing but blanks: all of them stand in front
    subst hempty
    have hall : ∀ c ∈ before ++ behind, isBlank c = true := by
      intro c hc
      rcases List.mem_append.mp hc with hc | hc
      · exact hbefore c hc
      · exact hbehind c hc
    have hdrop : (before ++ behind).dropWhile isBlank = [] := List.dropWhile_eq_nil_iff.mpr hall
    rw [trim, List.append_nil, hdrop]
    rfl
  · have hfront : ∀ c ∈ (middle ++ behind).head?, isBlank c = false := by
      intro c hc
      rw [List.head?_append_of_ne_nil _ hempty] at hc
      exact hhead c hc
    have hback : ∀ c ∈ middle.reverse.head?, isBlank c = false := by
      rw [List.head?_reverse]
      exact hlast
    have hblanks : ∀ c ∈ behind.reverse, isBlank c = true := by
      intro c hc
      exact hbehind c (List.mem_reverse.mp hc)
    rw [trim, List.append_assoc, dropWhile_blanks hbefore hfront, List.reverse_append,
      dropWhile_blanks hblanks hback, List.reverse_reverse]

theorem isBlank_of_head?_dropWhile (cs : List Char) :
    ∀ c ∈ (cs.dropWhile isBlank).head?, isBlank c = false := by
  intro c hc
  have hnot := List.head?_dropWhile_not isBlank cs
  rw [hc] at hnot
  exact hnot

theorem isTrim_trim (text : List Char) : IsTrim text (trim text) := by
  -- what is left at the front is split once more, from its end
  obtain ⟨behind, hbehind, hrest⟩ : ∃ behind, (∀ c ∈ behind, isBlank c = true) ∧
      text.dropWhile isBlank = trim text ++ behind := by
    refine ⟨((text.dropWhile isBlank).reverse.takeWhile isBlank).reverse, ?_, ?_⟩
    · intro c hc
      exact List.mem_takeWhile_imp (List.mem_reverse.mp hc)
    · rw [trim, ← List.reverse_append, List.takeWhile_append_dropWhile, List.reverse_reverse]
  constructor
  · refine ⟨text.takeWhile isBlank, behind, ?_, ?_, hbehind⟩
    · rw [List.append_assoc, ← hrest, List.takeWhile_append_dropWhile]
    · intro c hc
      exact List.mem_takeWhile_imp hc
  · intro c hc
    apply isBlank_of_head?_dropWhile text c
    rw [hrest, List.head?_append, hc]
    rfl
  · rw [trim, List.getLast?_reverse]
    exact isBlank_of_head?_dropWhile _

/-- Trimming leaves what stands between the blanks. -/
theorem trim_eq_iff : trim text = middle ↔ IsTrim text middle := by
  constructor
  · rintro rfl
    exact isTrim_trim text
  · exact IsTrim.trim_eq

end Blank

/-! ### Decimal digits -/

namespace Numeral

variable {cs : List Char} {c : Char}

/-- The number that decimal digits stand for, the last digit counting once. -/
def decimalValue (cs : List Char) : Nat :=
  Nat.ofDigits 10 (cs.reverse.map fun c => c.toNat - '0'.toNat)

theorem isDecimalDigit_iff : isDecimalDigit c = true ↔ '0' ≤ c ∧ c ≤ '9' := by
  unfold isDecimalDigit
  rw [Bool.and_eq_true, decide_eq_true_eq, decide_eq_true_eq]

theorem decimalValue_snoc (cs : List Char) (c : Char) :
    decimalValue (cs ++ [c]) = decimalValue cs * 10 + (c.toNat - '0'.toNat) := by
  unfold decimalValue
  rw [List.reverse_append, List.reverse_singleton, List.singleton_append, List.map_cons,
    Nat.ofDigits_cons]
  omega

theorem digit?_of_decimal (h : '0' ≤ c ∧ c ≤ '9') : digit? 10 c = some (c.toNat - '0'.toNat) := by
  have hlow : '0'.toNat ≤ c.toNat := h.1
  have hhigh : c.toNat ≤ '9'.toNat := h.2
  have hzero : '0'.toNat = 48 := rfl
  have hnine : '9'.toNat = 57 := rfl
  rw [digit?, digitValue?, if_pos h, Option.filter_some]
  rw [if_pos (by rw [decide_eq_true_eq]; omega), hzero]

/-- Digits are read as the number that they stand for. -/
theorem value?_of_decimal (hne : cs ≠ []) (h : ∀ c ∈ cs, '0' ≤ c ∧ c ≤ '9') :
    value? 10 cs = some (decimalValue cs) := by
  have hextend : ∀ ds : List Char, (∀ c ∈ ds, '0' ≤ c ∧ c ≤ '9') →
      extend? 10 0 ds = some (decimalValue ds) := by
    intro ds
    induction ds using List.reverseRecOn with
    | nil =>
      intro _
      rfl
    | append_singleton ds d ih =>
      intro hds
      have hd : digit? 10 d = some (d.toNat - '0'.toNat) := digit?_of_decimal (hds d (by simp))
      rw [extend?_snoc, ih fun c hc => hds c (List.mem_append_left _ hc), hd, Option.bind_some,
        Option.map_some, decimalValue_snoc]
  rw [value?, if_neg (by simpa using hne), hextend cs h]

/-- Zeros in front change nothing. -/
theorem decimalValue_zeros (k : Nat) (cs : List Char) :
    decimalValue (List.replicate k '0' ++ cs) = decimalValue cs := by
  induction cs using List.reverseRecOn with
  | nil =>
    induction k with
    | zero => rfl
    | succ k ih =>
      rw [List.append_nil] at ih ⊢
      rw [List.replicate_succ', decimalValue_snoc, ih]
      rfl
  | append_singleton cs c ih => rw [← List.append_assoc, decimalValue_snoc, ih, decimalValue_snoc]

theorem decimal_of_mem_digits {n : Nat} (hc : c ∈ digits 10 n) : '0' ≤ c ∧ c ≤ '9' :=
  isDecimalDigit_iff.mp (isDecimalDigit_of_mem_digits hc)

theorem decimalValue_digits (n : Nat) : decimalValue (digits 10 n) = n := by
  have hread := value?_digits (show 2 ≤ 10 by decide) (by decide) n
  rw [value?_of_decimal (digits_ne_nil 10 n) fun c hc => decimal_of_mem_digits hc] at hread
  exact Option.some.inj hread

end Numeral

/-! ### The answer for an integer -/

open Blank Numeral

variable {s : String} {middle : List Char} (h : Handle) (n : Int64)

/-- What a string without its blanks is compared with. -/
theorem approxEqual_int (ht : IsTrim s.toList middle) :
    ∃ yes, approxEqual (.str h s) (.int n) = .ok yes ∧ (yes = true ↔
      middle ≠ [] ∧ (∀ c ∈ middle, '0' ≤ c ∧ c ≤ '9') ∧ (decimalValue middle : Int) = n.toInt) := by
  have htrim : trim s.toList = middle := ht.trim_eq
  rw [approxEqual, htrim]
  by_cases hdigits : ∀ c ∈ middle, '0' ≤ c ∧ c ≤ '9'
  · have hall : middle.all isDecimalDigit = true := by
      rw [List.all_eq_true]
      intro c hc
      exact isDecimalDigit_iff.mpr (hdigits c hc)
    rw [if_pos hall]
    refine ⟨_, rfl, ?_⟩
    rw [decide_eq_true_iff]
    by_cases hne : middle = []
    · simp [hne, value?]
    · -- the bound on machine integers is on the integer asked for as well
      have hread : ((decimalValue middle : Int) = n.toInt) ↔
          Integer.ofInt? (decimalValue middle) = some n := by
        rw [Integer.ofInt?_eq_some_iff, eq_comm]
      rw [value?_of_decimal hne hdigits, Option.bind_some, ← hread]
      constructor
      · intro heq
        exact ⟨hne, hdigits, heq⟩
      · rintro ⟨-, -, heq⟩
        exact heq
  · have hall : middle.all isDecimalDigit = false := by
      rw [Bool.eq_false_iff]
      intro hall
      apply hdigits
      intro c hc
      exact isDecimalDigit_iff.mp (List.all_eq_true.mp hall c hc)
    rw [if_neg (by simp [hall])]
    refine ⟨false, rfl, ?_⟩
    constructor
    · intro hyes
      cases hyes
    · rintro ⟨-, hyes, -⟩
      exact absurd hyes hdigits

theorem isBlank_of_decimal {c : Char} (hc : '0' ≤ c ∧ c ≤ '9') : isBlank c = false := by
  have hlow : '0'.toNat ≤ c.toNat := hc.1
  have hhigh : c.toNat ≤ '9'.toNat := hc.2
  have hzero : '0'.toNat = 48 := rfl
  have hnine : '9'.toNat = 57 := rfl
  unfold isBlank
  simp only [Bool.or_eq_false_iff, Bool.and_eq_false_iff, decide_eq_false_iff_not]
  omega

theorem isTrim_of_decimal {before behind : List Char} (hbefore : ∀ c ∈ before, isBlank c = true)
    (hbehind : ∀ c ∈ behind, isBlank c = true) (hdigits : ∀ c ∈ middle, '0' ≤ c ∧ c ≤ '9') :
    IsTrim (before ++ middle ++ behind) middle where
  surrounded := ⟨before, behind, rfl, hbefore, hbehind⟩
  head c hc := isBlank_of_decimal (hdigits c (List.mem_of_head? hc))
  last c hc := isBlank_of_decimal (hdigits c (List.mem_of_getLast? hc))

theorem decimal_of_nonneg {n : Int64} (hn : 0 ≤ n.toInt) :
    decimal n.toInt = digits 10 n.toInt.toNat := by
  rw [decimal, if_neg (by omega)]
  congr 1
  omega

theorem approxEqual_of_ne (ht : IsTrim s.toList middle)
    (hne : (decimalValue middle : Int) ≠ n.toInt) : approxEqual (.str h s) (.int n) = .ok false := by
  obtain ⟨yes, hanswer, hyes⟩ := approxEqual_int h n ht
  have hno : yes = false := by
    rw [Bool.eq_false_iff, ne_eq, hyes]
    rintro ⟨-, -, heq⟩
    exact hne heq
  rw [hanswer, hno]

/-- Zeros in front of the decimal and blanks around it are of no account. -/
theorem approxEqual_padded (m : Int64) {n : Int64} (hn : 0 ≤ n.toInt) {before behind : List Char}
    (hbefore : ∀ c ∈ before, isBlank c = true) (hbehind : ∀ c ∈ behind, isBlank c = true) (k : Nat) :
    approxEqual (.str h (String.ofList
      (before ++ (List.replicate k '0' ++ decimal n.toInt) ++ behind))) (.int m) =
        .ok (decide (m = n)) := by
  rw [decimal_of_nonneg hn]
  have hdigits : ∀ c ∈ List.replicate k '0' ++ digits 10 n.toInt.toNat, '0' ≤ c ∧ c ≤ '9' := by
    intro c hc
    rcases List.mem_append.mp hc with hc | hc
    · rw [List.eq_of_mem_replicate hc]
      decide
    · exact decimal_of_mem_digits hc
  have hne : List.replicate k '0' ++ digits 10 n.toInt.toNat ≠ [] :=
    List.append_ne_nil_of_right_ne_nil _ (digits_ne_nil 10 _)
  have hvalue : (decimalValue (List.replicate k '0' ++ digits 10 n.toInt.toNat) : Int) = n.toInt := by
    rw [decimalValue_zeros, decimalValue_digits]
    omega
  have htrim := isTrim_of_decimal hbefore hbehind hdigits
  rw [← String.toList_ofList (l := before ++ _ ++ behind)] at htrim
  obtain ⟨yes, hanswer, hyes⟩ := approxEqual_int h m htrim
  rw [hanswer, Except.ok.injEq, Bool.eq_iff_iff, hyes, hvalue, decide_eq_true_iff]
  constructor
  · rintro ⟨-, -, heq⟩
    exact (Int64.toInt_inj.mp heq).symm
  · rintro rfl
    exact ⟨hne, hdigits, rfl⟩

/-- **A string is loosely equal to the integer it is the decimal of.** There is always an answer. It
is yes if what stands between the blanks is one decimal digit or more, of the value asked for; so
blanks around a decimal and zeros in front of it are of no account, and a decimal too large for the
integers and a negative integer are equal to nothing. -/
theorem approxEqual_decimal :
    (∀ (s : String) (n : Int64), ∃ middle yes, (∀ rest, IsTrim s.toList rest ↔ rest = middle) ∧
      approxEqual (.str h s) (.int n) = .ok yes ∧ (yes = true ↔ middle ≠ [] ∧
        (∀ c ∈ middle, '0' ≤ c ∧ c ≤ '9') ∧ (decimalValue middle : Int) = n.toInt)) ∧
    (∀ (n m : Int64) (before behind : List Char) (k : Nat), 0 ≤ n.toInt →
      (∀ c ∈ before, isBlank c = true) → (∀ c ∈ behind, isBlank c = true) →
      approxEqual (.str h (String.ofList
        (before ++ (List.replicate k '0' ++ decimal n.toInt) ++ behind))) (.int m) =
          .ok (decide (m = n))) ∧
    (∀ (s : String) (middle : List Char) (m : Int64), IsTrim s.toList middle →
      (∀ c ∈ middle, '0' ≤ c ∧ c ≤ '9') → Int64.maxValue.toInt < decimalValue middle →
      approxEqual (.str h s) (.int m) = .ok false) ∧
    ∀ (s : String) (n : Int64), n.toInt < 0 → approxEqual (.str h s) (.int n) = .ok false := by
  refine ⟨?_, ?_, ?_, ?_⟩
  · intro s n
    obtain ⟨yes, hanswer, hyes⟩ := approxEqual_int h n (isTrim_trim s.toList)
    have htrim : ∀ rest, IsTrim s.toList rest ↔ rest = trim s.toList := by
      intro rest
      rw [← trim_eq_iff, eq_comm]
    exact ⟨trim s.toList, yes, htrim, hanswer, hyes⟩
  · intro n m before behind k hn hbefore hbehind
    exact approxEqual_padded h m hn hbefore hbehind k
  · intro s middle m htrim hdigits hlarge
    have hmax : m.toInt ≤ Int64.maxValue.toInt := Int64.toInt_le m
    exact approxEqual_of_ne h m htrim (by omega)
  · intro s n hn
    exact approxEqual_of_ne h n (isTrim_trim _) (by omega)

/-- Seven with two zeros in front, between a tab and a no-break space; one more than the largest
integer; and a negative integer, which its own decimal does not match. -/
theorem approxEqual_decimal_padded :
    let tooLarge := "9223372036854775808".toList
    0 ≤ (7 : Int64).toInt ∧ (∀ c ∈ ['\t'], isBlank c = true) ∧
      (∀ c ∈ ['\u00a0'], isBlank c = true) ∧
      approxEqual (.str ⟨[0]⟩ "\t007\u00a0") (.int 7) = .ok true ∧
      IsTrim (String.ofList tooLarge).toList tooLarge ∧
      (∀ c ∈ tooLarge, '0' ≤ c ∧ c ≤ '9') ∧ Int64.maxValue.toInt < decimalValue tooLarge ∧
      approxEqual (.str ⟨[0]⟩ "9223372036854775808") (.int Int64.minValue) = .ok false ∧
      (-3 : Int64).toInt < 0 ∧ approxEqual (.str ⟨[0]⟩ "-3") (.int (-3)) = .ok false := by
  intro tooLarge
  have hseven : 0 ≤ (7 : Int64).toInt := by decide
  have htab : ∀ c ∈ ['\t'], isBlank c = true := List.forall_mem_singleton.mpr rfl
  have hspace : ∀ c ∈ ['\u00a0'], isBlank c = true := List.forall_mem_singleton.mpr rfl
  have hdigits : ∀ c ∈ tooLarge, '0' ≤ c ∧ c ≤ '9' := by
    have hall : tooLarge.all isDecimalDigit = true := by decide
    intro c hc
    exact isDecimalDigit_iff.mp (List.all_eq_true.mp hall c hc)
  have htrim : IsTrim (String.ofList tooLarge).toList tooLarge := by
    have hblanks : ∀ c ∈ ([] : List Char), isBlank c = true := List.forall_mem_nil _
    have hwhole := isTrim_of_decimal hblanks hblanks hdigits
    rwa [List.nil_append, List.append_nil, ← String.toList_ofList (l := tooLarge)] at hwhole
  have hlarge : Int64.maxValue.toInt < decimalValue tooLarge := by decide
  have hnegative : (-3 : Int64).toInt < 0 := by decide
  obtain ⟨-, hpadded, hover, hminus⟩ := approxEqual_decimal ⟨[0]⟩
  have hmatch := hpadded 7 7 ['\t'] ['\u00a0'] 2 hseven htab hspace
  have hdecimal : decimal (7 : Int64).toInt = ['7'] := by
    rw [decimal_of_nonneg hseven, digits_eq]
    rfl
  rw [decide_eq_true rfl, hdecimal] at hmatch
  exact ⟨hseven, htab, hspace, hmatch, htrim, hdigits, hlarge,
    hover _ tooLarge _ htrim hdigits hlarge, hnegative, hminus _ _ hnegative⟩

end ShellExpr
