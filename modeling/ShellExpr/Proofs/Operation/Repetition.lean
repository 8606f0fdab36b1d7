import ShellExpr.Operation.Comparison
import ShellExpr.Proofs.Operation.Arithmetic
import ShellExpr.Proofs.Operation.Subscript
import ShellExpr.Proofs.Value.Equality

/-!
# Repetition

A string, a list or a tuple times an integer is that many copies of it in a row, none for a negative
integer. The length is computed first, for a string in bytes, and what is too long is refused
altogether. So a result has all its elements: they are those of the sequence over and over, and
joining two repetitions gives the repetition by the sum.

Joining gives the same elements but another sequence. The two are equal as far as their elements
are equal to themselves, which a float that is not a number is not.

* `IsCopies`: a row that holds another one a number of times.
* `Repetition.getElem?_copies`: where its elements come from.
* `binary_repeats`: repetition is all or nothing, from either side.
* `repetition_lawful`: **repetitions are made of copies**, and how they are joined.
* `doubled_nan_differs`: two copies at once and twice one copy, unequal for a list of not-a-number.
-/

namespace ShellExpr

variable {α : Type}

/-- A row that holds another one `count` times. -/
structure IsCopies (xs : List α) (count : Nat) (ys : List α) : Prop where
  length_eq : ys.length = xs.length * count
  getElem?_eq : ∀ i < xs.length * count, ys[i]? = xs[i % xs.length]?

namespace SequenceKind

/-- Arrays of strings are not repeated. -/
def IsRepeatable : SequenceKind α → Prop
  | strArray => False
  | _ => True

/-- What a sequence takes up: a string is counted in bytes. -/
def size : SequenceKind α → List α → Nat
  | str => fun cs => (String.ofList cs).utf8ByteSize
  | list => List.length
  | tuple => List.length
  | strArray => List.length

end SequenceKind

/-! ### Copies in a row -/

namespace Repetition

/-- An element of the first copy, or one of the copies behind it. -/
theorem getElem?_copies (xs : List α) (count : Nat) : ∀ i < xs.length * count,
    (List.replicate count xs).flatten[i]? = xs[i % xs.length]? := by
  induction count with
  | zero =>
    intro i hi
    omega
  | succ count ih =>
    intro i hi
    rw [Nat.mul_succ] at hi
    rw [List.replicate_succ, List.flatten_cons, List.getElem?_append]
    by_cases hfirst : i < xs.length
    · rw [if_pos hfirst, Nat.mod_eq_of_lt hfirst]
    · rw [if_neg hfirst, ih (i - xs.length) (by omega), ← Nat.mod_eq_sub_mod (by omega)]

theorem length_copies (xs : List α) (count : Nat) :
    (List.replicate count xs).flatten.length = xs.length * count := by
  rw [List.length_flatten, List.map_replicate, List.sum_replicate_nat, Nat.mul_comm]

theorem isCopies_copies (xs : List α) (count : Nat) :
    IsCopies xs count (List.replicate count xs).flatten :=
  ⟨length_copies xs count, getElem?_copies xs count⟩

theorem copies_add (xs : List α) (m n : Nat) : (List.replicate (m + n) xs).flatten =
    (List.replicate m xs).flatten ++ (List.replicate n xs).flatten := by
  rw [List.replicate_add, List.flatten_append]

theorem mem_copies_iff {xs : List α} {count : Nat} {x : α} :
    x ∈ (List.replicate count xs).flatten ↔ count ≠ 0 ∧ x ∈ xs := by
  rw [List.mem_flatten]
  constructor
  · rintro ⟨ys, hys, hx⟩
    obtain ⟨hcount, rfl⟩ := List.mem_replicate.mp hys
    exact ⟨hcount, hx⟩
  · rintro ⟨hcount, hx⟩
    exact ⟨xs, List.mem_replicate.mpr ⟨hcount, rfl⟩, hx⟩

/-- All copies, or none and the overflow. -/
theorem sequence_eq {size : Nat} {xs : List α} (hsize : size = 0 → xs = []) (count : Nat) :
    sequence size xs count = if size * count < lengthLimit
      then .ok (List.replicate count xs).flatten else .error (Arithmetic.overflow "repetition") := by
  unfold sequence
  by_cases hzero : size * count = 0
  · have hnone : (List.replicate count xs).flatten = [] := by
      rcases Nat.mul_eq_zero.mp hzero with h | h
      · rw [hsize h]
        simp
      · rw [h]
        rfl
    have hlimit : size * count < lengthLimit := by
      rw [hzero]
      decide
    rw [if_pos hzero, if_pos hlimit, hnone]
  · rw [if_neg hzero]
    by_cases hlimit : size * count < lengthLimit
    · rw [if_neg (by omega), if_pos hlimit]
    · rw [if_pos (by omega), if_neg hlimit]

end Repetition

/-! ### Sequences times integers -/

open Repetition Arithmetic

section Repeating

variable (kind : SequenceKind α) (g h₁ h₂ h : Handle) (xs : List α)

theorem SequenceKind.eq_nil_of_size (hsize : kind.size xs = 0) : xs = [] := by
  cases kind with
  | str =>
    have hempty : String.ofList xs = "" := String.utf8ByteSize_eq_zero_iff.mp hsize
    rw [← String.toList_ofList (l := xs), hempty]
    rfl
  | _ => exact List.length_eq_zero_iff.mp hsize

/-- Repetition is all or nothing, from either side. -/
theorem binary_repeats (hkind : kind.IsRepeatable) (k : Int64) :
    binary h .mul (kind.many g xs) (.int k) = binary h .mul (.int k) (kind.many g xs) ∧
      binary h .mul (kind.many g xs) (.int k) =
        if kind.size xs * k.toInt.toNat < lengthLimit
        then .ok (kind.many h (List.replicate k.toInt.toNat xs).flatten)
        else .error (overflow "repetition") := by
  have hsequence := sequence_eq (kind.eq_nil_of_size xs) k.toInt.toNat
  have hleft : binary h .mul (kind.many g xs) (.int k) =
      (sequence (kind.size xs) xs k.toInt.toNat).map (kind.many h) := by
    cases kind with
    | str =>
      have hcs : (String.ofList xs).toList = xs := String.toList_ofList
      have hstr : binary h .mul (.str g (String.ofList xs)) (.int k) =
          (sequence (String.ofList xs).utf8ByteSize (String.ofList xs).toList k.toInt.toNat).map
            fun cs => .str h (String.ofList cs) := rfl
      rw [hcs] at hstr
      exact hstr
    | list => rfl
    | tuple => rfl
    | strArray => exact hkind.elim
  have hright : binary h .mul (.int k) (kind.many g xs) =
      (sequence (kind.size xs) xs k.toInt.toNat).map (kind.many h) := by
    rw [← hleft]
    cases kind with
    | strArray => exact hkind.elim
    | _ => rfl
  refine ⟨hleft.trans hright.symm, ?_⟩
  rw [hleft, hsequence]
  split <;> rfl

theorem binary_joins (hkind : kind.IsRepeatable) (g' : Handle) (ys : List α) :
    binary h .add (kind.many g xs) (kind.many g' ys) = .ok (kind.many h (xs ++ ys)) := by
  cases kind with
  | str =>
    have hjoin : binary h .add (.str g (String.ofList xs)) (.str g' (String.ofList ys)) =
        .ok (.str h (String.ofList xs ++ String.ofList ys)) := rfl
    rw [← String.ofList_append] at hjoin
    exact hjoin
  | list => rfl
  | tuple => rfl
  | strArray => exact hkind.elim

/-- Two repetitions that fit together are the repetition by the sum. -/
theorem binary_joins_repeats (hkind : kind.IsRepeatable) {p q r : Int64}
    (hsum : r.toInt.toNat = p.toInt.toNat + q.toInt.toNat)
    (hroom : kind.size xs * r.toInt.toNat < lengthLimit) :
    binary h₁ .mul (kind.many g xs) (.int p) =
        .ok (kind.many h₁ (List.replicate p.toInt.toNat xs).flatten) ∧
      binary h₂ .mul (kind.many g xs) (.int q) =
        .ok (kind.many h₂ (List.replicate q.toInt.toNat xs).flatten) ∧
      binary h .add (kind.many h₁ (List.replicate p.toInt.toNat xs).flatten)
        (kind.many h₂ (List.replicate q.toInt.toNat xs).flatten) =
          .ok (kind.many h (List.replicate r.toInt.toNat xs).flatten) := by
  have hroomp : kind.size xs * p.toInt.toNat < lengthLimit :=
    lt_of_le_of_lt (Nat.mul_le_mul_left _ (by omega)) hroom
  have hroomq : kind.size xs * q.toInt.toNat < lengthLimit :=
    lt_of_le_of_lt (Nat.mul_le_mul_left _ (by omega)) hroom
  refine ⟨?_, ?_, ?_⟩
  · rw [(binary_repeats kind g h₁ xs hkind p).2, if_pos hroomp]
  · rw [(binary_repeats kind g h₂ xs hkind q).2, if_pos hroomq]
  · rw [binary_joins kind h₁ h _ hkind h₂, hsum, copies_add]

end Repeating

/-! ### Equality of two sequences of the same elements -/

/-- Only a float that is not a number is unequal to itself. -/
theorem Value.equal_self_iff (v : Value) : v.equal v = true ↔ v.NotNaN := by
  constructor
  · rintro heq x rfl
    exact Double.equal_self.mp heq
  · intro hnan
    cases v with
    | float x => exact Double.equal_self.mpr (hnan x rfl)
    | _ => exact Value.equal_of_isSame hnan (by simp [Value.isSame])

/-- Sequences at two allocations are compared element by element. -/
theorem SequenceKind.equal_copy_iff (kind : SequenceKind α) (hkind : kind.IsRepeatable)
    (g : Handle) {h h' : Handle} (hne : h ≠ h') (xs : List α) :
    (kind.many h xs).equal (kind.many h' xs) = true ↔ ∀ x ∈ xs, (kind.one g x).NotNaN := by
  have hshare : decide (h = h') = false := decide_eq_false hne
  have hitems : ∀ vs : List Value, Value.allEqualBy (fun h k => h = k) vs vs = true ↔
      ∀ v ∈ vs, v.NotNaN := by
    intro vs
    rw [Value.allEqualBy_iff, List.forall₂_same]
    exact forall₂_congr fun v _ => v.equal_self_iff
  cases kind with
  | str =>
    constructor
    · intro _ x _ y hy
      cases hy
    · intro _
      simp [many, Value.equal, Value.equalBy]
  | list =>
    refine Iff.trans ?_ (hitems xs)
    simp [many, Value.equal, Value.equalBy, hshare]
  | tuple =>
    refine Iff.trans ?_ (hitems xs)
    simp [many, Value.equal, Value.equalBy, hshare]
  | strArray => exact hkind.elim

/-- Repetitions at two allocations are equal unless an element in them is not a number. -/
theorem SequenceKind.equal_copies_iff (kind : SequenceKind α) (hkind : kind.IsRepeatable)
    (g : Handle) {h h' : Handle} (hne : h ≠ h') (xs : List α) (count : Nat) :
    (kind.many h (List.replicate count xs).flatten).equal
        (kind.many h' (List.replicate count xs).flatten) = true ↔
      count = 0 ∨ ∀ x ∈ xs, (kind.one g x).NotNaN := by
  rw [kind.equal_copy_iff hkind g hne]
  simp only [mem_copies_iff, and_imp]
  constructor
  · intro hall
    by_cases hzero : count = 0
    · exact .inl hzero
    · exact .inr fun x hx => hall x hzero hx
  · rintro (hzero | hall) x hcount hx
    · exact absurd hzero hcount
    · exact hall x hx

/-- **Repetitions are made of copies.** On either side of an integer a sequence gives as many copies
of itself as that says, all of them or the overflow; what does not fit the machine's sizes is an
overflow. Two repetitions joined hold the elements of the repetition by the sum, and are equal to it
if they are empty or no element is a float that is not a number. -/
theorem repetition_lawful (kind : SequenceKind α) (hkind : kind.IsRepeatable) (g : Handle)
    (xs : List α) :
    (∀ (h : Handle) (k : Int64),
      binary h .mul (kind.many g xs) (.int k) = binary h .mul (.int k) (kind.many g xs) ∧
      (k.toInt ≤ 0 → binary h .mul (kind.many g xs) (.int k) = .ok (kind.many h [])) ∧
      (if kind.size xs * k.toInt.toNat < lengthLimit then
        ∃ ys, IsCopies xs k.toInt.toNat ys ∧
          binary h .mul (kind.many g xs) (.int k) = .ok (kind.many h ys)
      else binary h .mul (kind.many g xs) (.int k) = .error (overflow "repetition")) ∧
      (2 ^ 64 ≤ kind.size xs * k.toInt.toNat →
        binary h .mul (kind.many g xs) (.int k) = .error (overflow "repetition"))) ∧
    (overflow "repetition").text = "integer overflow in repetition" ∧
    ∀ (p q r : Int64) (h₁ h₂ h₃ h₄ : Handle), 0 ≤ p.toInt → 0 ≤ q.toInt →
      r.toInt = p.toInt + q.toInt → kind.size xs * r.toInt.toNat < lengthLimit →
      ∃ ps qs rs,
        binary h₁ .mul (kind.many g xs) (.int p) = .ok (kind.many h₁ ps) ∧
        binary h₂ .mul (kind.many g xs) (.int q) = .ok (kind.many h₂ qs) ∧
        binary h₃ .mul (kind.many g xs) (.int r) = .ok (kind.many h₃ rs) ∧
        binary h₄ .add (kind.many h₁ ps) (kind.many h₂ qs) = .ok (kind.many h₄ rs) ∧
        (h₃ ≠ h₄ → (compareValues .eq (kind.many h₃ rs) (kind.many h₄ rs) = .ok true ↔
          r.toInt = 0 ∨ ∀ x ∈ xs, (kind.one g x).NotNaN)) := by
  have hrepeats := fun (h : Handle) (k : Int64) => binary_repeats kind g h xs hkind k
  refine ⟨fun h k => ⟨(hrepeats h k).1, ?_, ?_, ?_⟩, rfl, ?_⟩
  · intro hk
    have hcount : k.toInt.toNat = 0 := by omega
    have hroom : kind.size xs * 0 < lengthLimit := by
      rw [Nat.mul_zero]
      decide
    rw [(hrepeats h k).2, hcount, if_pos hroom]
    rfl
  · rw [(hrepeats h k).2]
    split
    · exact ⟨_, isCopies_copies xs k.toInt.toNat, rfl⟩
    · rfl
  · intro hlarge
    have hlimit : lengthLimit ≤ 2 ^ 64 := by decide
    rw [(hrepeats h k).2, if_neg (by omega)]
  · intro p q r h₁ h₂ h₃ h₄ hp hq hr hroom
    have hsum : r.toInt.toNat = p.toInt.toNat + q.toInt.toNat := by omega
    have hrow := fun (h : Handle) => (hrepeats h r).2
    obtain ⟨hfirst, hsecond, hjoin⟩ := binary_joins_repeats kind g h₁ h₂ h₄ xs hkind hsum hroom
    refine ⟨_, _, _, hfirst, hsecond, ?_, hjoin, ?_⟩
    · rw [hrow, if_pos hroom]
    · intro hne
      rw [compareValues, Except.ok.injEq, kind.equal_copies_iff hkind g hne]
      have hcount : r.toInt.toNat = 0 ↔ r.toInt = 0 := by omega
      rw [hcount]

/-- Three elements three times, as one copy and two copies joined, and a length that no machine has. -/
theorem repetition_lawful_list :
    let xs := [Value.int 1, .null, .str ⟨[5]⟩ "x"]
    SequenceKind.list.IsRepeatable ∧ (3 : Int64).toInt = (1 : Int64).toInt + (2 : Int64).toInt ∧
      SequenceKind.list.size xs * (3 : Int64).toInt.toNat < lengthLimit ∧
      (∃ ps qs rs,
        binary ⟨[1]⟩ .mul (.list ⟨[0]⟩ xs) (.int 1) = .ok (.list ⟨[1]⟩ ps) ∧
        binary ⟨[2]⟩ .mul (.list ⟨[0]⟩ xs) (.int 2) = .ok (.list ⟨[2]⟩ qs) ∧
        binary ⟨[3]⟩ .mul (.list ⟨[0]⟩ xs) (.int 3) = .ok (.list ⟨[3]⟩ rs) ∧
        binary ⟨[4]⟩ .add (.list ⟨[1]⟩ ps) (.list ⟨[2]⟩ qs) = .ok (.list ⟨[4]⟩ rs) ∧
        compareValues .eq (.list ⟨[3]⟩ rs) (.list ⟨[4]⟩ rs) = .ok true) ∧
      2 ^ 64 ≤ SequenceKind.list.size xs * Int64.maxValue.toInt.toNat ∧
      binary ⟨[1]⟩ .mul (.list ⟨[0]⟩ xs) (.int Int64.maxValue) = .error (overflow "repetition") := by
  intro xs
  have hkind : SequenceKind.list.IsRepeatable := trivial
  have hsum : (3 : Int64).toInt = (1 : Int64).toInt + (2 : Int64).toInt := by decide
  have hroom : SequenceKind.list.size xs * (3 : Int64).toInt.toNat < lengthLimit := by decide
  have hlarge : 2 ^ 64 ≤ SequenceKind.list.size xs * Int64.maxValue.toInt.toNat := by decide
  have hnumbers : ∀ x ∈ xs, (SequenceKind.list.one ⟨[0]⟩ x).NotNaN := by
    intro x hx y hy
    simp only [xs, List.mem_cons, List.not_mem_nil, or_false] at hx
    rcases hx with rfl | rfl | rfl <;> cases hy
  obtain ⟨hmul, -, hadd⟩ := repetition_lawful .list hkind ⟨[0]⟩ xs
  obtain ⟨ps, qs, rs, hps, hqs, hrs, hjoin, hequal⟩ := hadd 1 2 3 ⟨[1]⟩ ⟨[2]⟩ ⟨[3]⟩ ⟨[4]⟩ (by decide)
    (by decide) hsum hroom
  exact ⟨hkind, hsum, hroom, ⟨ps, qs, rs, hps, hqs, hrs, hjoin,
    (hequal (by decide)).mpr (.inr hnumbers)⟩, hlarge, (hmul ⟨[1]⟩ Int64.maxValue).2.2.2 hlarge⟩

/-- Not-a-number is equal to nothing, and a list of it is equal to itself only as one allocation: two
copies at once and one copy joined to another hold the same elements and are unequal. -/
theorem doubled_nan_differs :
    let xs := Value.list ⟨[0]⟩ [.float (Double.quietNaN false)]
    ∃ one other joined two,
      binary ⟨[1]⟩ .mul xs (.int 1) = .ok one ∧ binary ⟨[2]⟩ .mul xs (.int 1) = .ok other ∧
      binary ⟨[3]⟩ .add one other = .ok joined ∧ binary ⟨[4]⟩ .mul xs (.int 2) = .ok two ∧
      compareValues .eq two joined = .ok false :=
  ⟨_, _, _, _, rfl, rfl, rfl, rfl, rfl⟩

end ShellExpr
