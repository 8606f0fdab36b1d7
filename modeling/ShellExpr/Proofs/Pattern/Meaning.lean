import Mathlib.Logic.Relation
import Mathlib.Tactic.Tauto
import ShellExpr.Pattern.Search

/-!
# What a pattern matches

A pattern relates two spots of a text: one where a match may start and one where it may then end.
The moves of a pattern are the first steps of this relation, taken character by character.

* `Reaches`: the relation of a pattern.
* `moves_leads`: the moves of a pattern at a spot lead to the spots that the pattern reaches.
-/

namespace ShellExpr.Pattern

open Relation

/-- A spot in a text: the character before it and those after it. -/
@[ext]
structure Spot where
  before : Option Char
  after : List Char

namespace Spot

/-- The spot as a position. How many characters stand before it matters to marks only. -/
def gap (s : Spot) (index : Nat) : Gap := ⟨index, s.before, s.after.head?⟩

/-- The word between two spots is `w`. -/
def Reads (w : List Char) (s t : Spot) : Prop :=
  s.after = w ++ t.after ∧ t.before = w.getLast?.or s.before

@[simp] theorem reads_nil {s t : Spot} : Reads [] s t ↔ s = t := by
  constructor
  · rintro ⟨h1, h2⟩
    exact Spot.ext (by simpa using h2.symm) (by simpa using h1)
  · rintro rfl
    exact ⟨rfl, by simp⟩

theorem reads_cons {c : Char} {w : List Char} {s t : Spot} :
    Reads (c :: w) s t ↔ ∃ rest, s.after = c :: rest ∧ Reads w ⟨some c, rest⟩ t := by
  constructor
  · rintro ⟨h1, h2⟩
    refine ⟨w ++ t.after, h1, rfl, ?_⟩
    cases w <;> simp_all [List.getLast?_cons]
  · rintro ⟨rest, h1, h2, h3⟩
    refine ⟨by simp_all, ?_⟩
    cases w <;> simp_all [List.getLast?_cons]

theorem reads_append {v w : List Char} {s t : Spot} :
    Reads (v ++ w) s t ↔ ∃ u, Reads v s u ∧ Reads w u t := by
  induction v generalizing s with
  | nil => simp
  | cons c v ih =>
    simp only [List.cons_append, reads_cons, ih]
    constructor
    · rintro ⟨rest, h1, u, h2, h3⟩
      exact ⟨u, ⟨rest, h1, h2⟩, h3⟩
    · rintro ⟨u, ⟨rest, h1, h2⟩, h3⟩
      exact ⟨rest, h1, u, h2, h3⟩

end Spot

open Spot

theorem Look.holds_gap (l : Look) (s : Spot) (i j : Nat) :
    l.holds (s.gap i) = l.holds (s.gap j) := by
  cases l <;> rfl

/-! ### The relation of a pattern -/

/-- A relation a number of times in a row. -/
def Copies {α : Type} (r : α → α → Prop) : Nat → α → α → Prop
  | 0 => Eq
  | n + 1 => Comp r (Copies r n)

/-- Whether a match that starts at the first spot may end at the second. -/
def Reaches : Pattern → Spot → Spot → Prop
  | empty | mark _ => Eq
  | set cs => fun s t => ∃ c, cs.mem c ∧ Reads [c] s t
  | look l => fun s t => l.holds (s.gap 0) ∧ s = t
  | cat p q => Comp p.Reaches q.Reaches
  | alt p q => fun s t => p.Reaches s t ∨ q.Reaches s t
  | opt _ p => fun s t => s = t ∨ p.Reaches s t
  | plus _ p => TransGen p.Reaches
  | again _ p => ReflTransGen p.Reaches
  | times p n => Copies p.Reaches n
  | upTo _ p n => fun s t => ∃ k ≤ n, Copies p.Reaches k s t

/-- The same for several patterns in a row. -/
def RowReaches : List Pattern → Spot → Spot → Prop
  | [] => Eq
  | p :: rest => Comp p.Reaches (RowReaches rest)

theorem rowReaches_append (ps qs : List Pattern) :
    RowReaches (ps ++ qs) = Comp (RowReaches ps) (RowReaches qs) := by
  induction ps with
  | nil => exact (eq_comp).symm
  | cons p ps ih => simp only [List.cons_append, RowReaches, ih, comp_assoc]

@[simp] theorem rowReaches_single (p : Pattern) : RowReaches [p] = p.Reaches := comp_eq

theorem row_reaches (ps : List Pattern) : (row ps).Reaches = RowReaches ps := by
  induction ps with
  | nil => rfl
  | cons p ps ih =>
    cases ps with
    | nil => exact (rowReaches_single p).symm
    | cons q qs => simp only [row, Reaches, ih, RowReaches]

@[simp] theorem capture_reaches (n : Nat) (p : Pattern) : (capture n p).Reaches = p.Reaches := by
  simp only [capture, Reaches, eq_comp, comp_eq]

/-! ### Moves -/

/-- Whether a move can end in a match at the second spot. -/
def Move.Leads (m : Move) (s t : Spot) : Prop :=
  ∃ c u, m.chars.mem c ∧ Reads [c] s u ∧ RowReaches m.row u t

/-- Whether some move leads from the first spot to the second. -/
def Moves.Goes (ms : List Move) (s t : Spot) : Prop := ∃ m ∈ ms, m.Leads s t

/-- Whether being done or some move leads from the first spot to the second. -/
def Moves.Leads (m : Moves) (s t : Spot) : Prop := (m.done.isSome ∧ s = t) ∨ Moves.Goes m.all s t

namespace Moves

theorem goes_append {xs ys : List Move} {s t : Spot} :
    Goes (xs ++ ys) s t ↔ Goes xs s t ∨ Goes ys s t := by
  simp only [Goes, List.mem_append, or_and_right, exists_or]

theorem goes_followedBy {row : List Pattern} {ms : List Move} {s t : Spot} :
    Goes (followedBy row ms) s t ↔ ∃ u, Goes ms s u ∧ RowReaches row u t := by
  constructor
  · rintro ⟨m', hm', c, v, hc, hr, h⟩
    obtain ⟨m, hm, rfl⟩ := List.mem_map.mp hm'
    rw [rowReaches_append] at h
    obtain ⟨u, h1, h2⟩ := h
    exact ⟨u, ⟨m, hm, c, v, hc, hr, h1⟩, h2⟩
  · rintro ⟨u, ⟨m, hm, c, v, hc, hr, h1⟩, h2⟩
    refine ⟨_, List.mem_map_of_mem hm, c, v, hc, hr, ?_⟩
    rw [rowReaches_append]
    exact ⟨u, h1, h2⟩

@[simp] theorem leads_done {marks : Marks} {s t : Spot} :
    Leads { done := some marks } s t ↔ s = t := by
  simp [Leads, Goes, all]

theorem leads_orElse {m n : Moves} {s t : Spot} :
    (m.orElse n).Leads s t ↔ m.Leads s t ∨ n.Leads s t := by
  unfold orElse
  cases hm : m.done with
  | none =>
    simp only [Leads, all, hm, goes_append, Option.isSome_none, Bool.false_eq_true, false_and,
      false_or]
    tauto
  | some marks =>
    simp only [Leads, all, hm, goes_append, Option.isSome_some, true_and]
    tauto

theorem leads_orDone {greedy : Bool} {m : Moves} {marks : Marks} {s t : Spot} :
    (m.orDone greedy marks).Leads s t ↔ s = t ∨ m.Leads s t := by
  cases greedy
  · simp only [orDone, Bool.false_eq_true, if_false, leads_orElse, leads_done]
  · simp only [orDone, if_true, leads_orElse, leads_done]; tauto

/-- Going on: either the first part takes no character and the second starts where it is, or the
row of the second part is left for later. -/
theorem leads_andThen {m : Moves} {row : List Pattern} {next : Marks → Moves} {s t : Spot} :
    (m.andThen row next).Leads s t ↔
      (∃ marks, m.done = some marks ∧ (next marks).Leads s t) ∨
        ∃ u, Goes m.all s u ∧ RowReaches row u t := by
  rw [← goes_followedBy]
  unfold andThen
  cases hm : m.done with
  | none => simp [Leads, all]
  | some marks =>
    simp only [Leads, all, goes_append, followedBy, List.map_append, Option.some.injEq,
      exists_eq_left']
    tauto

/-- The same where the second part at hand is the row left for later. -/
theorem leads_andThen_of_row {m : Moves} {row : List Pattern} {next : Marks → Moves} {s t : Spot}
    (h : ∀ marks, (next marks).Leads s t ↔ RowReaches row s t) :
    (m.andThen row next).Leads s t ↔ ∃ u, m.Leads s u ∧ RowReaches row u t := by
  rw [leads_andThen]
  constructor
  · rintro (⟨marks, hm, hn⟩ | ⟨u, h1, h2⟩)
    · exact ⟨s, .inl ⟨by simp [hm], rfl⟩, (h marks).mp hn⟩
    · exact ⟨u, .inr h1, h2⟩
  · rintro ⟨u, ⟨hm, rfl⟩ | h1, h2⟩
    · obtain ⟨marks, hm⟩ := Option.isSome_iff_exists.mp hm
      exact .inl ⟨marks, hm, (h marks).mpr h2⟩
    · exact .inr ⟨u, h1, h2⟩

end Moves

open Moves

/-- What is left of `n` equal patterns after the first one. -/
theorem rowReaches_unless_none {n : Nat} {p : Pattern} (h : n = 0 → p.Reaches = Eq) :
    RowReaches (if n = 0 then [] else [p]) = p.Reaches := by
  split
  · rename_i hn; rw [h hn]; rfl
  · exact rowReaches_single p

theorem timesMoves_leads {p : Pattern} {one : Marks → Moves} {s : Spot}
    (h : ∀ marks t, (one marks).Leads s t ↔ p.Reaches s t) (n : Nat) (marks : Marks) (t : Spot) :
    (timesMoves p one n marks).Leads s t ↔ Copies p.Reaches n s t := by
  induction n generalizing marks with
  | zero => simp only [timesMoves, leads_done, Copies]
  | succ n ih =>
    -- with no copy left the row is empty, which says the same
    have hrow : RowReaches (if n = 0 then [] else [times p n]) = Copies p.Reaches n :=
      rowReaches_unless_none (p := times p n) fun h => by rw [h]; rfl
    rw [timesMoves, leads_andThen_of_row fun marks => by rw [ih, hrow], hrow]
    simp only [h, Copies, Comp]

theorem exists_copies_succ {α : Type} {r : α → α → Prop} {n : Nat} {a b : α} :
    (∃ k ≤ n + 1, Copies r k a b) ↔ a = b ∨ ∃ c, r a c ∧ ∃ k ≤ n, Copies r k c b := by
  constructor
  · rintro ⟨k, hk, h⟩
    cases k with
    | zero => exact .inl h
    | succ k =>
      obtain ⟨c, h1, h2⟩ := h
      exact .inr ⟨c, h1, k, by omega, h2⟩
  · rintro (rfl | ⟨c, h1, k, hk, h2⟩)
    · exact ⟨0, by omega, rfl⟩
    · exact ⟨k + 1, by omega, c, h1, h2⟩

theorem upToMoves_leads {greedy : Bool} {p : Pattern} {one : Marks → Moves} {s : Spot}
    (h : ∀ marks t, (one marks).Leads s t ↔ p.Reaches s t) (n : Nat) (marks : Marks) (t : Spot) :
    (upToMoves greedy p one n marks).Leads s t ↔ ∃ k ≤ n, Copies p.Reaches k s t := by
  induction n generalizing marks with
  | zero => simp [upToMoves, Copies]
  | succ n ih =>
    have hrow : RowReaches (if n = 0 then [] else [upTo greedy p n]) =
        fun s t => ∃ k ≤ n, Copies p.Reaches k s t :=
      rowReaches_unless_none (p := upTo greedy p n) fun h => by
        subst h; funext a b; simp [Reaches, Copies]
    rw [upToMoves, leads_orDone, leads_andThen_of_row fun marks => by rw [ih, hrow], hrow,
      exists_copies_succ]
    simp only [h]

/-- Loops can be left out: any number of steps is none, or a step elsewhere and any number. -/
theorem eq_or_step_of_reflTransGen {α : Type} {r : α → α → Prop} {a b : α}
    (h : ReflTransGen r a b) : a = b ∨ ∃ c, c ≠ a ∧ r a c ∧ ReflTransGen r c b := by
  induction h using ReflTransGen.head_induction_on with
  | refl => exact .inl rfl
  | @head a c hac hcb ih =>
    -- a step on the spot can be left out, any other one is the first
    by_cases hc : c = a
    · subst hc; exact ih
    · exact .inr ⟨c, hc, hac, hcb⟩

theorem reflTransGen_iff_goes {m : Moves} {r : Spot → Spot → Prop} {s t : Spot}
    (h : ∀ t, m.Leads s t ↔ r s t) :
    ReflTransGen r s t ↔ s = t ∨ ∃ u, Goes m.all s u ∧ ReflTransGen r u t := by
  constructor
  · intro hst
    rcases eq_or_step_of_reflTransGen hst with rfl | ⟨u, hne, hsu, hut⟩
    · exact .inl rfl
    · rcases (h u).mpr hsu with ⟨-, rfl⟩ | hg
      · exact absurd rfl hne
      · exact .inr ⟨u, hg, hut⟩
  · rintro (rfl | ⟨u, h1, h2⟩)
    · exact .refl
    · exact .head ((h u).mp (.inr h1)) h2

/-- One or more iterations: the first one takes no character, or the others are left for later. -/
theorem transGen_iff_goes {m : Moves} {r : Spot → Spot → Prop} {s t : Spot}
    (h : ∀ t, m.Leads s t ↔ r s t) :
    TransGen r s t ↔ (m.done.isSome ∧ s = t) ∨ ∃ u, Goes m.all s u ∧ ReflTransGen r u t := by
  rw [TransGen.head'_iff]
  -- if the first iteration takes no character, the others start on the spot
  constructor
  · rintro ⟨u, hsu, hut⟩
    rcases (h u).mpr hsu with ⟨hm, rfl⟩ | hg
    · rcases (reflTransGen_iff_goes h).mp hut with rfl | hg
      · exact .inl ⟨hm, rfl⟩
      · exact .inr hg
    · exact .inr ⟨u, hg, hut⟩
  · rintro (⟨hm, rfl⟩ | ⟨u, h1, h2⟩)
    · exact ⟨s, (h s).mp (.inl ⟨hm, rfl⟩), .refl⟩
    · exact ⟨u, (h u).mp (.inr h1), h2⟩

/-- **Moves are the first steps of matching**: they lead where the pattern reaches. -/
theorem moves_leads (p : Pattern) (s : Spot) (i : Nat) (marks : Marks) (t : Spot) :
    (p.moves (s.gap i) marks).Leads s t ↔ p.Reaches s t := by
  -- along the pattern, for all marks: those set by a first part are handed to the second
  induction p generalizing marks t with
  | empty => simp [moves, Reaches]
  | set cs => simp [moves, Reaches, Leads, Goes, all, Move.Leads, RowReaches]
  | look l =>
    rw [moves, Look.holds_gap l s i 0]
    by_cases h : l.holds (s.gap 0) = true <;> simp [h, Reaches, Leads, Goes, all]
  | mark slot => simp [moves, Reaches]
  | cat p q ihp ihq =>
    rw [moves, leads_andThen_of_row fun marks => by rw [ihq, rowReaches_single]]
    simp only [ihp, Reaches, Comp, rowReaches_single]
  | alt p q ihp ihq => rw [moves, leads_orElse, ihp, ihq]; rfl
  | opt greedy p ih => rw [moves, leads_orDone, ih]; rfl
  | plus greedy p ih =>
    rw [moves, leads_andThen, rowReaches_single]
    simp only [leads_done, Reaches]
    rw [transGen_iff_goes (ih marks), Option.isSome_iff_exists, exists_and_right]
  | again greedy p ih =>
    rw [moves, leads_orDone]
    simp only [Reaches]
    rw [reflTransGen_iff_goes (ih marks)]
    simp only [Leads, all, List.append_nil, Option.isSome_none, Bool.false_eq_true, false_and,
      false_or, goes_followedBy, rowReaches_single, Reaches]
  | times p n ih => exact timesMoves_leads ih n marks t
  | upTo greedy p n ih => exact upToMoves_leads ih n marks t

theorem rowMoves_leads (row : List Pattern) (s : Spot) (i : Nat) (marks : Marks) (t : Spot) :
    (rowMoves (s.gap i) row marks).Leads s t ↔ RowReaches row s t := by
  induction row generalizing marks t with
  | nil => simp [rowMoves, RowReaches]
  | cons p rest ih =>
    rw [rowMoves, leads_andThen_of_row fun marks => ih marks t]
    simp only [moves_leads, RowReaches, Comp]

end ShellExpr.Pattern
