import Mathlib.Computability.Language
import ShellExpr.Proofs.Pattern.Meaning

/-!
# Patterns and languages

A pattern without conditions on positions matches the words of a language. Rows of patterns denote
products, choices sums, and repetitions unions of powers.

* `repeated_reaches`: a repetition is a number of copies within its bounds, whichever of the forms
  it is given.
* `Denotes`: a pattern matches the words of a language, between any two spots.
-/

namespace ShellExpr.Pattern

open Relation Spot

/-! ### Repetitions -/

section Copies

variable {α : Type} {r : α → α → Prop}

theorem copies_one : Copies r 1 = r := comp_eq

theorem copies_add (m n : Nat) : Copies r (m + n) = Comp (Copies r m) (Copies r n) := by
  induction m with
  | zero => rw [Nat.zero_add]; exact eq_comp.symm
  | succ m ih => rw [Nat.succ_add, Copies, Copies, ih, comp_assoc]

theorem transGen_iff_copies {a b : α} : TransGen r a b ↔ ∃ k, 1 ≤ k ∧ Copies r k a b := by
  constructor
  · intro h
    induction h with
    | single h => exact ⟨1, le_rfl, by rwa [copies_one]⟩
    | tail _ h ih =>
      obtain ⟨k, hk, hc⟩ := ih
      refine ⟨k + 1, by omega, ?_⟩
      rw [copies_add, copies_one]
      exact ⟨_, hc, h⟩
  · rintro ⟨k, hk, hc⟩
    induction k generalizing a with
    | zero => omega
    | succ k ih =>
      obtain ⟨c, h1, h2⟩ := hc
      cases k with
      | zero => cases h2; exact .single h1
      | succ k => exact .head h1 (ih (by omega) h2)

/-- A relation that goes nowhere is the same one time and many times over. -/
theorem copies_of_eq (h : ∀ a b, r a b → a = b) {k : Nat} (hk : 1 ≤ k) : Copies r k = r := by
  induction k with
  | zero => omega
  | succ k ih =>
    cases k with
    | zero => exact copies_one
    | succ k =>
      rw [Copies, ih (by omega)]
      funext a b
      refine propext ⟨?_, fun hab => ?_⟩
      · rintro ⟨c, hac, hcb⟩
        rwa [h a c hac]
      · obtain rfl := h a b hab
        exact ⟨a, hab, hab⟩

theorem eq_of_copies (h : ∀ a b, r a b → a = b) {k : Nat} {a b : α} (hk : Copies r k a b) :
    a = b := by
  cases k with
  | zero => exact hk
  | succ k => rw [copies_of_eq h (by omega)] at hk; exact h a b hk

end Copies

/-- A pattern that takes no character matches nothing but the empty word. -/
theorem eq_of_isWidthless {p : Pattern} (h : p.isWidthless = true) {s t : Spot}
    (hst : p.Reaches s t) : s = t := by
  induction p generalizing s t with
  | empty | mark _ => exact hst
  | set cs => simp [isWidthless] at h
  | look l => exact hst.2
  | cat p q ihp ihq =>
    simp only [isWidthless, Bool.and_eq_true] at h
    obtain ⟨u, h1, h2⟩ := hst
    exact (ihp h.1 h1).trans (ihq h.2 h2)
  | alt p q ihp ihq =>
    simp only [isWidthless, Bool.and_eq_true] at h
    exact hst.elim (ihp h.1) (ihq h.2)
  | opt _ p ih => exact hst.elim id (ih h)
  | plus _ p ih =>
    obtain ⟨k, hk, hc⟩ := transGen_iff_copies.mp hst
    rw [copies_of_eq (fun a b => ih h) hk] at hc
    exact ih h hc
  | again _ p ih =>
    induction hst with
    | refl => rfl
    | tail _ h2 ih2 => exact ih2.trans (ih h h2)
  | times p n ih =>
    simp only [isWidthless, Bool.or_eq_true, decide_eq_true_eq] at h
    rcases h with rfl | h
    · exact hst
    · exact eq_of_copies (fun a b => ih h) hst
  | upTo _ p n ih =>
    simp only [isWidthless, Bool.or_eq_true, decide_eq_true_eq] at h
    obtain ⟨k, hk, hc⟩ := hst
    rcases h with rfl | h
    · obtain rfl := Nat.le_zero.mp hk
      exact hc
    · exact eq_of_copies (fun a b => ih h) hc

/-- Whether a number of times is within two bounds, the second of them optional. -/
def Within (min : Nat) (max : Option Nat) (k : Nat) : Prop := min ≤ k ∧ ∀ m ∈ max, k ≤ m

section CopiesWithin

variable {α : Type} {r : α → α → Prop}

/-- A relation a number of times in a row, within two bounds. -/
def CopiesWithin (r : α → α → Prop) (min : Nat) (max : Option Nat) (a b : α) : Prop :=
  ∃ k, Within min max k ∧ Copies r k a b

theorem copiesWithin_self (n : Nat) : CopiesWithin r n (some n) = Copies r n := by
  funext a b
  refine propext ⟨?_, fun h => ⟨n, ⟨le_rfl, by simp⟩, h⟩⟩
  rintro ⟨k, ⟨h1, h2⟩, hc⟩
  obtain rfl : k = n := Nat.le_antisymm (h2 n rfl) h1
  exact hc

theorem copiesWithin_upTo (n : Nat) :
    CopiesWithin r 0 (some n) = fun a b => ∃ k ≤ n, Copies r k a b := by
  funext a b
  simp [CopiesWithin, Within]

theorem copiesWithin_one_none : CopiesWithin r 1 none = TransGen r := by
  funext a b
  simp only [CopiesWithin, Within, transGen_iff_copies, Option.not_mem_none, false_implies,
    implies_true, and_true]

theorem copiesWithin_zero_none {a b : α} :
    CopiesWithin r 0 none a b ↔ a = b ∨ TransGen r a b := by
  rw [transGen_iff_copies]
  constructor
  · rintro ⟨k, -, hc⟩
    cases k with
    | zero => exact .inl hc
    | succ k => exact .inr ⟨k + 1, by omega, hc⟩
  · rintro (rfl | ⟨k, -, hc⟩)
    · exact ⟨0, ⟨le_rfl, by simp⟩, rfl⟩
    · exact ⟨k, ⟨Nat.zero_le k, by simp⟩, hc⟩

/-- Copies that must be there can be taken first. -/
theorem copiesWithin_add (n min : Nat) (max : Option Nat) :
    CopiesWithin r (n + min) (max.map (n + ·)) = Comp (Copies r n) (CopiesWithin r min max) := by
  funext a b
  refine propext ⟨?_, ?_⟩
  · rintro ⟨k, ⟨h1, h2⟩, hc⟩
    obtain ⟨j, rfl⟩ : ∃ j, k = n + j := ⟨k - n, by omega⟩
    rw [copies_add] at hc
    obtain ⟨c, h3, h4⟩ := hc
    refine ⟨c, h3, j, ⟨by omega, fun m hm => ?_⟩, h4⟩
    have := h2 (n + m) (Option.mem_map_of_mem _ hm)
    omega
  · rintro ⟨c, h3, j, ⟨h1, h2⟩, h4⟩
    refine ⟨n + j, ⟨by omega, fun m hm => ?_⟩, ?_⟩
    · obtain ⟨m', hm', rfl⟩ := Option.mem_map.mp hm
      have := h2 m' hm'
      omega
    · rw [copies_add]
      exact ⟨c, h3, h4⟩

end CopiesWithin

/-- `repeated` is what its name says, for a pattern that may take characters. -/
theorem repeated_reaches_of_takes {greedy : Bool} {p : Pattern} {min : Nat} {max : Option Nat}
    (hp : p.isWidthless = false) (h : ∀ m ∈ max, min ≤ m) :
    (repeated greedy p min max).Reaches = CopiesWithin p.Reaches min max := by
  unfold repeated
  simp only [hp, Bool.false_eq_true, if_false]
  split
  · rw [copiesWithin_self]; rfl
  · rw [copiesWithin_self, copies_one]
  · rw [copiesWithin_upTo]
    funext s t
    rw [exists_copies_succ]
    simp [Reaches, Copies]
  · funext s t
    rw [copiesWithin_zero_none]
    rfl
  · rw [copiesWithin_one_none]; rfl
  · rename_i h0 h1
    have hmin : min ≠ 0 := h0
    obtain ⟨n, rfl⟩ : ∃ n, min = n + 1 := ⟨min - 1, by omega⟩
    have := copiesWithin_add (r := p.Reaches) n 1 none
    rw [Option.map_none, copiesWithin_one_none] at this
    rw [this]
    rfl
  · rename_i m _ _ _
    have hm : min ≤ m := h m rfl
    split
    · subst min; rw [copiesWithin_self]; rfl
    split
    · subst min; rw [copiesWithin_upTo]; rfl
    · obtain ⟨j, rfl⟩ : ∃ j, m = min + j := ⟨m - min, by omega⟩
      have := copiesWithin_add (r := p.Reaches) min 0 (some j)
      rw [Option.map_some, copiesWithin_upTo, Nat.add_zero] at this
      rw [this, Nat.add_sub_cancel_left]
      rfl

/-- Of a relation that goes nowhere one copy is as good as many. -/
theorem copiesWithin_of_eq {α : Type} {r : α → α → Prop} (hr : ∀ a b, r a b → a = b) {min : Nat}
    {max : Option Nat} (h : ∀ m ∈ max, min ≤ m) :
    CopiesWithin r (Nat.min min 1) (some (Nat.min (max.getD 1) 1)) = CopiesWithin r min max := by
  funext a b
  refine propext ⟨?_, ?_⟩
  · rintro ⟨k, ⟨h1, h2⟩, hc⟩
    have hk := h2 _ rfl
    obtain rfl | rfl : k = 0 ∨ k = 1 := by
      have : Nat.min (max.getD 1) 1 ≤ 1 := Nat.min_le_right _ _
      omega
    · obtain rfl : min = 0 := by
        rw [Nat.le_zero, Nat.min_eq_zero_iff] at h1
        omega
      exact ⟨0, ⟨le_rfl, fun m _ => m.zero_le⟩, hc⟩
    · refine ⟨Nat.max min 1, ⟨Nat.le_max_left _ _, fun m hm => ?_⟩, ?_⟩
      · rw [Option.mem_def] at hm
        subst hm
        have := h m rfl
        exact Nat.max_le.mpr ⟨this, le_trans hk (Nat.min_le_left _ _)⟩
      · rw [copies_of_eq hr (Nat.le_max_right _ _)]
        rwa [copies_one] at hc
  · rintro ⟨k, ⟨h1, h2⟩, hc⟩
    cases k with
    | zero =>
      obtain rfl := Nat.le_zero.mp h1
      exact ⟨0, ⟨Nat.min_le_left _ _, by simp⟩, hc⟩
    | succ k =>
      refine ⟨1, ⟨Nat.min_le_right _ _, fun m hm => ?_⟩, ?_⟩
      · obtain rfl := Option.mem_some.mp hm
        refine Nat.le_min.mpr ⟨?_, le_rfl⟩
        cases max with
        | none => exact le_rfl
        | some m => exact le_trans (Nat.le_add_left 1 k) (h2 m rfl)
      · rw [copies_of_eq hr (by omega)] at hc
        rwa [copies_one]

/-- **A repetition is a number of copies** within its bounds. -/
theorem repeated_reaches {greedy : Bool} {p : Pattern} {min : Nat} {max : Option Nat}
    (h : ∀ m ∈ max, min ≤ m) :
    (repeated greedy p min max).Reaches = CopiesWithin p.Reaches min max := by
  cases hp : p.isWidthless with
  | false => exact repeated_reaches_of_takes hp h
  | true =>
    rw [← copiesWithin_of_eq (fun a b => eq_of_isWidthless hp) h]
    unfold repeated
    simp only [hp, if_true]
    have hle : Nat.min min 1 ≤ Nat.min (max.getD 1) 1 := by
      refine Nat.le_min.mpr ⟨?_, Nat.min_le_right _ _⟩
      cases max with
      | none => exact Nat.min_le_right _ _
      | some m => exact le_trans (Nat.min_le_left _ _) (h m rfl)
    have hle' : Nat.min (max.getD 1) 1 ≤ 1 := Nat.min_le_right _ _
    generalize Nat.min min 1 = a at hle ⊢
    generalize Nat.min (max.getD 1) 1 = b at hle hle' ⊢
    obtain ⟨rfl, rfl⟩ | ⟨rfl, rfl⟩ | ⟨rfl, rfl⟩ :
        a = 0 ∧ b = 0 ∨ a = 0 ∧ b = 1 ∨ a = 1 ∧ b = 1 := by omega
    · rw [copiesWithin_self]; rfl
    · rw [copiesWithin_upTo]
      funext s t
      rw [exists_copies_succ]
      simp [Reaches, Copies]
    · rw [copiesWithin_self]
      exact copies_one.symm

/-! ### Languages -/

/-- Between two spots, the pattern matches the words of the language and no others. -/
def Denotes (p : Pattern) (l : Language Char) : Prop :=
  ∀ s t, p.Reaches s t ↔ ∃ w ∈ l, Reads w s t

/-- The words of one character for which `p` holds. -/
def oneOf (p : Char → Bool) : Language Char := {w | ∃ c, p c = true ∧ w = [c]}

/-- The words made of a number of words of a language, within two bounds. -/
def powers (l : Language Char) (min : Nat) (max : Option Nat) : Language Char :=
  {w | ∃ k, Within min max k ∧ w ∈ l ^ k}

section Denotes

variable {p q : Pattern} {l m : Language Char}

theorem denotes_set (cs : CharSet) : (set cs).Denotes (oneOf cs.mem) := by
  intro s t
  constructor
  · rintro ⟨c, hc, h⟩
    exact ⟨[c], ⟨c, hc, rfl⟩, h⟩
  · rintro ⟨_, ⟨c, hc, rfl⟩, h⟩
    exact ⟨c, hc, h⟩

theorem oneOf_eq (c : Char) : oneOf (c = ·) = {[c]} := by
  ext w
  constructor
  · rintro ⟨d, hd, rfl⟩
    rw [of_decide_eq_true hd]
    rfl
  · rintro rfl
    exact ⟨c, decide_eq_true rfl, rfl⟩

theorem denotes_cat_reaches (hp : p.Denotes l) {r : Spot → Spot → Prop}
    (hr : ∀ s t, r s t ↔ ∃ w ∈ m, Reads w s t) (s t : Spot) :
    Comp p.Reaches r s t ↔ ∃ w ∈ l * m, Reads w s t := by
  constructor
  · rintro ⟨u, h1, h2⟩
    obtain ⟨v, hv, h1⟩ := (hp s u).mp h1
    obtain ⟨w, hw, h2⟩ := (hr u t).mp h2
    exact ⟨v ++ w, Language.append_mem_mul hv hw, reads_append.mpr ⟨u, h1, h2⟩⟩
  · rintro ⟨_, hx, h⟩
    obtain ⟨v, hv, w, hw, rfl⟩ := Language.mem_mul.mp hx
    obtain ⟨u, h1, h2⟩ := reads_append.mp h
    exact ⟨u, (hp s u).mpr ⟨v, hv, h1⟩, (hr u t).mpr ⟨w, hw, h2⟩⟩

theorem denotes_alt (hp : p.Denotes l) (hq : q.Denotes m) : (alt p q).Denotes (l + m) := by
  intro s t
  simp only [Reaches, hp s t, hq s t, Language.mem_add, or_and_right, exists_or]

theorem denotes_capture (n : Nat) (hp : p.Denotes l) : (capture n p).Denotes l := by
  intro s t
  rw [capture_reaches]
  exact hp s t

theorem copies_reaches (hp : p.Denotes l) (n : Nat) (s t : Spot) :
    Copies p.Reaches n s t ↔ ∃ w ∈ l ^ n, Reads w s t := by
  induction n generalizing s t with
  | zero => simp [Copies, Language.mem_one]
  | succ n ih =>
    rw [pow_succ']
    exact denotes_cat_reaches hp ih s t

theorem denotes_repeated (hp : p.Denotes l) (greedy : Bool) {min : Nat} {max : Option Nat}
    (h : ∀ m ∈ max, min ≤ m) : (repeated greedy p min max).Denotes (powers l min max) := by
  intro s t
  rw [repeated_reaches h]
  simp only [CopiesWithin, copies_reaches hp, powers]
  constructor
  · rintro ⟨k, hk, w, hw, h⟩
    exact ⟨w, ⟨k, hk, hw⟩, h⟩
  · rintro ⟨w, ⟨k, hk, hw⟩, h⟩
    exact ⟨k, hk, w, hw, h⟩

end Denotes

theorem denotes_row {ps : List Pattern} {ls : List (Language Char)}
    (h : List.Forall₂ Denotes ps ls) : (row ps).Denotes ls.prod := by
  intro s t
  rw [row_reaches]
  induction h generalizing s t with
  | nil => simp [RowReaches, Language.mem_one]
  | cons hp _ ih =>
    rw [List.prod_cons]
    exact denotes_cat_reaches hp ih s t

theorem denotes_choice {ps : List Pattern} {ls : List (Language Char)} (hne : ps ≠ [])
    (h : List.Forall₂ Denotes ps ls) : (choice ps).Denotes ls.sum := by
  induction h with
  | nil => exact absurd rfl hne
  | @cons p l ps ls hp h ih =>
    cases h with
    | nil => simpa [choice] using hp
    | cons hq h => exact denotes_alt hp (ih (by simp))

end ShellExpr.Pattern
