import ShellExpr.Operation.Access
import ShellExpr.Proofs.Basics

/-!
# Subscripts of sequences

Strings, lists, tuples and string arrays are subscripted alike. A slice holds the elements between
its bounds, which are counted from the end if they are negative and clamped to the sequence; so a
sequence is cut in two at any bound. A single position is counted in the same way but not clamped.

* `SequenceKind`: the kinds of sequences, by what they are made of.
* `Slice.covers`: the positions that a slice selects.
* `Slice.bounds_ordered`: the bounds of a slice stand in order inside the sequence.
* `Slice.select_eq`: the elements selected are those at the positions covered.
* `subscript_sequence`: **slices and positions of a sequence**, and how they agree.
-/

namespace ShellExpr

/-- Kinds of sequences. Strings are made of characters, arrays of slots that may be unset. -/
inductive SequenceKind : Type → Type where
  | str : SequenceKind Char
  | list : SequenceKind Value
  | tuple : SequenceKind Value
  | strArray : SequenceKind (Option String)

namespace SequenceKind

variable {α : Type}

/-- The sequence of some elements. -/
def many (h : Handle) : SequenceKind α → List α → Value
  | str => fun cs => .str h (String.ofList cs)
  | list => .list h
  | tuple => .tuple h
  | strArray => .strArray h

/-- The value of one element: a character is a string, and an unset slot is null. -/
def one (h : Handle) : SequenceKind α → α → Value
  | str => fun c => .str h (String.ofList [c])
  | list => id
  | tuple => id
  | strArray => Access.slot h

end SequenceKind

/-! ### Bounds -/

namespace Slice

/-- The position of a bound in a sequence of length `n`. -/
def position (n : Nat) (k : Int) : Int := if 0 ≤ k then min k n else max 0 (n + k)

/-- Whether a slice of a sequence of length `n` selects the position `p`. -/
def covers (s : Slice) (n p : Nat) : Bool :=
  (s.lower.elim 0 fun k => position n k.toInt) ≤ p &&
    (p : Int) < s.upper.elim (n : Int) fun k => position n k.toInt

variable {α : Type}

theorem clamp_eq_position (n : Nat) (k : Int64) : (clamp n k : Int) = position n k.toInt := by
  unfold clamp position
  split <;> split <;> omega

theorem clamp_le (n : Nat) (k : Int64) : clamp n k ≤ n := by
  unfold clamp
  split <;> omega

/-- No slice reaches beyond the sequence, and none ends before it starts. -/
theorem bounds_ordered (s : Slice) (n : Nat) :
    (s.bounds n).1 ≤ (s.bounds n).2 ∧ (s.bounds n).2 ≤ n := by
  have hlower : (s.lower.map (clamp n)).getD 0 ≤ n := by
    cases s.lower with
    | none => exact Nat.zero_le n
    | some k => exact clamp_le n k
  have hupper : (s.upper.map (clamp n)).getD n ≤ n := by
    cases s.upper with
    | none => exact Nat.le_refl n
    | some k => exact clamp_le n k
  exact ⟨Nat.le_max_left _ _, Nat.max_le.mpr ⟨hlower, hupper⟩⟩

theorem covers_iff (s : Slice) (n p : Nat) :
    s.covers n p = true ↔ (s.bounds n).1 ≤ p ∧ p < (s.bounds n).2 := by
  have hlower : (((s.lower.map (clamp n)).getD 0 : Nat) : Int) =
      s.lower.elim 0 fun k => position n k.toInt := by
    cases s.lower with
    | none => rfl
    | some k => exact clamp_eq_position n k
  have hupper : (((s.upper.map (clamp n)).getD n : Nat) : Int) =
      s.upper.elim (n : Int) fun k => position n k.toInt := by
    cases s.upper with
    | none => rfl
    | some k => exact clamp_eq_position n k
  unfold covers bounds
  rw [Bool.and_eq_true, decide_eq_true_eq, decide_eq_true_eq, ← hlower, ← hupper]
  dsimp only
  omega

/-- The middle of a list by the positions of its elements. -/
theorem filter_middle (before xs behind : List α) (f : Nat → Bool)
    (hf : ∀ p, f p = true ↔ before.length ≤ p ∧ p < before.length + xs.length) :
    ((before ++ xs ++ behind).zipIdx.filter fun e => f e.2).map Prod.fst = xs := by
  have hbefore : before.zipIdx.filter (fun e => f e.2) = [] := by
    refine List.filter_eq_nil_iff.mpr fun e he => ?_
    have hp := List.snd_lt_of_mem_zipIdx he
    rw [hf]
    omega
  have hmiddle : (xs.zipIdx before.length).filter (fun e => f e.2) = xs.zipIdx before.length := by
    refine List.filter_eq_self.mpr fun e he => ?_
    have hle := List.le_snd_of_mem_zipIdx he
    have hlt := List.snd_lt_add_of_mem_zipIdx he
    rw [hf]
    omega
  have hbehind : (behind.zipIdx (before ++ xs).length).filter (fun e => f e.2) = [] := by
    refine List.filter_eq_nil_iff.mpr fun e he => ?_
    have hle := List.le_snd_of_mem_zipIdx he
    rw [List.length_append] at hle
    rw [hf]
    omega
  rw [List.zipIdx_append, List.zipIdx_append, List.filter_append, List.filter_append, Nat.zero_add,
    Nat.zero_add, hbefore, hmiddle, hbehind, List.nil_append, List.append_nil,
    List.zipIdx_map_fst]

/-- **The elements selected** are those at the positions that the slice covers. -/
theorem select_eq (s : Slice) (xs : List α) : s.select xs =
    (xs.zipIdx.filter fun e => s.covers xs.length e.2).map Prod.fst := by
  obtain ⟨hordered, hinside⟩ := s.bounds_ordered xs.length
  have hcovers := s.covers_iff xs.length
  unfold select
  generalize s.bounds xs.length = b at hordered hinside hcovers ⊢
  have hbefore : ((xs.take b.2).take b.1).length = b.1 := by
    rw [List.length_take, List.length_take]
    omega
  have hselected : ((xs.take b.2).drop b.1).length = b.2 - b.1 := by
    rw [List.length_drop, List.length_take]
    omega
  have hmiddle := filter_middle ((xs.take b.2).take b.1) ((xs.take b.2).drop b.1) (xs.drop b.2)
    (s.covers xs.length) fun p => by
      rw [hcovers, hbefore, hselected]
      omega
  rw [List.take_append_drop, List.take_append_drop] at hmiddle
  exact hmiddle.symm

/-- What stands before a bound and what stands from it on make up the sequence. -/
theorem select_append_select (k : Int64) (xs : List α) :
    select ⟨none, some k⟩ xs ++ select ⟨some k, none⟩ xs = xs := by
  have hk : clamp xs.length k ≤ xs.length := clamp_le xs.length k
  have hbefore : select ⟨none, some k⟩ xs = xs.take (clamp xs.length k) := by
    unfold select bounds
    simp
  have hfrom : select ⟨some k, none⟩ xs = xs.drop (clamp xs.length k) := by
    unfold select bounds
    simp [Nat.max_eq_right hk]
  rw [hbefore, hfrom, List.take_append_drop]

/-- From a position up to the next there is one element. -/
theorem select_single {xs : List α} {p : Nat} {a : α} {lower upper : Int64}
    (ha : xs[p]? = some a) (hlower : lower.toInt = p) (hupper : upper.toInt = p + 1) :
    select ⟨some lower, some upper⟩ xs = [a] := by
  have hp : p < xs.length := (List.getElem?_eq_some_iff.mp ha).1
  have hbounds : bounds ⟨some lower, some upper⟩ xs.length = (p, p + 1) := by
    have hlow : clamp xs.length lower = p := by
      unfold clamp
      rw [if_neg (by omega)]
      omega
    have hup : clamp xs.length upper = p + 1 := by
      unfold clamp
      rw [if_neg (by omega)]
      omega
    unfold bounds
    simp [hlow, hup]
  unfold select
  rw [hbounds]
  dsimp only
  rw [List.drop_take, drop_of_getElem? ha, Nat.add_sub_cancel_left]
  rfl

end Slice

/-! ### Positions -/

namespace Access

variable {α : Type} {xs : List α} {i : Int}

/-- An element is looked up at its position from the start. -/
theorem element_eq (xs : List α) {j : Int} (hj : (if 0 ≤ i then i else xs.length + i) = j) :
    element xs i =
      (if j < 0 then none else xs[j.toNat]?).elim (.error (.exprEval .outOfRange)) .ok := by
  have hj' : (if i < 0 then i + xs.length else i) = j := by
    rw [← hj]
    split <;> split <;> omega
  unfold element
  simp only [hj']
  cases (if j < 0 then none else xs[j.toNat]?) <;> rfl

theorem element_of_inside (h : -(xs.length : Int) ≤ i ∧ i < xs.length) :
    ∃ (p : Nat) (a : α), (p : Int) = (if 0 ≤ i then i else xs.length + i) ∧ xs[p]? = some a ∧
      element xs i = .ok a := by
  generalize hj : (if 0 ≤ i then i else xs.length + i) = j
  have hinside : 0 ≤ j ∧ j < xs.length := by
    split at hj <;> omega
  obtain ⟨a, ha⟩ : ∃ a, xs[j.toNat]? = some a :=
    ⟨_, List.getElem?_eq_getElem (show j.toNat < xs.length by omega)⟩
  refine ⟨j.toNat, a, by omega, ha, ?_⟩
  rw [element_eq xs hj, if_neg (by omega), ha]
  rfl

theorem element_of_outside (h : ¬ (-(xs.length : Int) ≤ i ∧ i < xs.length)) :
    element xs i = .error (.exprEval .outOfRange) := by
  generalize hj : (if 0 ≤ i then i else xs.length + i) = j
  rw [element_eq xs hj]
  by_cases hneg : j < 0
  · rw [if_pos hneg]
    rfl
  · have hover : xs.length ≤ j.toNat := by
      split at hj <;> omega
    rw [if_neg hneg, List.getElem?_eq_none hover]
    rfl

end Access

/-! ### Subscripts -/

section Subscripts

variable {α : Type} (kind : SequenceKind α) (g h : Handle) (xs : List α)

theorem subscript_many (index : Value) : subscript h (kind.many g xs) index =
    Access.sequence (kind.many g xs) index xs (kind.one h) (kind.many h) := by
  cases kind with
  | str =>
    have hcs : (String.ofList xs).toList = xs := String.toList_ofList
    have hstr : subscript h (.str g (String.ofList xs)) index =
        Access.sequence (.str g (String.ofList xs)) index (String.ofList xs).toList
          (fun c => .str h (String.ofList [c])) fun cs => .str h (String.ofList cs) := rfl
    rw [hcs] at hstr
    exact hstr
  | _ => rfl

theorem subscript_slice (s : Slice) :
    subscript h (kind.many g xs) (.slice s) = .ok (kind.many h (s.select xs)) := by
  rw [subscript_many]
  rfl

theorem subscript_int (i : Int64) : subscript h (kind.many g xs) (.int i) =
    (Access.element xs i.toInt).map (kind.one h) := by
  rw [subscript_many]
  change (Access.element xs i.toInt).bind _ = _
  cases Access.element xs i.toInt <;> rfl

/-- **Subscripts of sequences.** A slice is always answered, by the elements at the positions that
it covers; cut at any bound, a sequence falls into two parts. An integer is answered where it is a
position from the start or from the end, by the element that a slice of this position holds. -/
theorem subscript_sequence :
    (∀ s : Slice, (s.bounds xs.length).1 ≤ (s.bounds xs.length).2 ∧
      (s.bounds xs.length).2 ≤ xs.length ∧
      subscript h (kind.many g xs) (.slice s) =
        .ok (kind.many h ((xs.zipIdx.filter fun e => s.covers xs.length e.2).map Prod.fst))) ∧
    (∀ k : Int64, ∃ ys zs, ys ++ zs = xs ∧
      subscript h (kind.many g xs) (.slice ⟨none, some k⟩) = .ok (kind.many h ys) ∧
      subscript h (kind.many g xs) (.slice ⟨some k, none⟩) = .ok (kind.many h zs)) ∧
    ∀ i : Int64,
      if -(xs.length : Int) ≤ i.toInt ∧ i.toInt < xs.length then
        ∃ (p : Nat) (a : α), (p : Int) = (if 0 ≤ i.toInt then i.toInt else xs.length + i.toInt) ∧
          xs[p]? = some a ∧ subscript h (kind.many g xs) (.int i) = .ok (kind.one h a) ∧
          ∀ lower upper : Int64, lower.toInt = p → upper.toInt = p + 1 →
            subscript h (kind.many g xs) (.slice ⟨some lower, some upper⟩) =
              .ok (kind.many h [a])
      else subscript h (kind.many g xs) (.int i) = .error (.exprEval .outOfRange) := by
  refine ⟨fun s => ?_, fun k => ?_, fun i => ?_⟩
  · obtain ⟨hordered, hinside⟩ := s.bounds_ordered xs.length
    exact ⟨hordered, hinside, by rw [subscript_slice, Slice.select_eq]⟩
  · exact ⟨_, _, Slice.select_append_select k xs, subscript_slice kind g h xs _,
      subscript_slice kind g h xs _⟩
  · split
    next hinside =>
      obtain ⟨p, a, hp, ha, helement⟩ := Access.element_of_inside hinside
      refine ⟨p, a, hp, ha, ?_, fun lower upper hlower hupper => ?_⟩
      · rw [subscript_int, helement]
        rfl
      · rw [subscript_slice, Slice.select_single ha hlower hupper]
    next houtside =>
      rw [subscript_int, Access.element_of_outside houtside]
      rfl

/-- The hole of an array, by its position from the end and as a piece. -/
theorem subscript_sequence_hole :
    let x := Value.strArray ⟨[0]⟩ [some "a", none, some "b"]
    subscript ⟨[1]⟩ x (.int (-2)) = .ok .null ∧
      (1 : Int64).toInt = 1 ∧ (2 : Int64).toInt = 1 + 1 ∧
      subscript ⟨[1]⟩ x (.slice ⟨some 1, some 2⟩) = .ok (.strArray ⟨[1]⟩ [none]) := by
  intro x
  have hlower : (1 : Int64).toInt = 1 := rfl
  have hupper : (2 : Int64).toInt = 1 + 1 := rfl
  have hsequence := (subscript_sequence .strArray ⟨[0]⟩ ⟨[1]⟩ [some "a", none, some "b"]).2.2 (-2)
  rw [if_pos (by decide)] at hsequence
  obtain ⟨p, a, hp, ha, hint, hslice⟩ := hsequence
  obtain rfl : p = 1 := Int.ofNat.inj hp
  obtain rfl : none = a := Option.some.inj ha
  exact ⟨hint, hlower, hupper, hslice 1 2 hlower hupper⟩

end Subscripts

end ShellExpr
