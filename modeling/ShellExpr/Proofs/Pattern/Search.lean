import ShellExpr.Pattern.Cache
import ShellExpr.Proofs.Pattern.Language

/-!
# What the search finds

The search keeps threads in order of preference and drops those behind a thread that is done, and
those whose row another thread has. Neither decides whether there is a match: a thread that is done
is a match, and threads with one row reach the same spots.

* `find_isSome`: the search finds a match if there is one anywhere in the text.
* `find_whole`: between conditions for both ends of the text, the text itself has to match.
-/

namespace ShellExpr.Pattern

open Relation Spot Moves

/-- Whether a match that goes on with the row can be completed. -/
def Completes (row : List Pattern) (s : Spot) : Prop := ∃ t, RowReaches row s t

theorem rowMoves_completes (row : List Pattern) (s : Spot) (i : Nat) (marks : Marks) :
    Completes row s ↔ (rowMoves (s.gap i) row marks).done.isSome ∨
      ∃ t, Goes (rowMoves (s.gap i) row marks).all s t := by
  simp only [Completes, ← rowMoves_leads row s i marks, Moves.Leads, exists_or]
  simp

namespace Thread

theorem resolve_done {g : Gap} {ts : List Thread} :
    (resolve g ts).2.isSome ↔ ∃ t ∈ ts, (rowMoves g t.row t.marks).done.isSome := by
  induction ts with
  | nil => simp [resolve]
  | cons t ts ih =>
    cases h : (rowMoves g t.row t.marks).done <;> simp [resolve, h, ih]

/-- While no thread is done, none is dropped. -/
theorem resolve_moves {g : Gap} {ts : List Thread} (h : (resolve g ts).2 = none) :
    (resolve g ts).1 = ts.flatMap fun t => (rowMoves g t.row t.marks).all := by
  induction ts with
  | nil => rfl
  | cons t ts ih =>
    cases hd : (rowMoves g t.row t.marks).done with
    | none =>
      simp only [resolve, hd] at h ⊢
      rw [ih h, List.flatMap_cons]
    | some marks => simp [resolve, hd] at h

theorem mem_advance {c : Char} {seen : List (List Pattern)} {ms : List Move}
    {row : List Pattern} :
    (∃ t ∈ advance c seen ms, t.row = row) ↔
      row ∉ seen ∧ ∃ m ∈ ms, m.chars.mem c ∧ m.row = row := by
  induction ms generalizing seen with
  | nil => simp [advance]
  | cons m ms ih =>
    by_cases h : (m.chars.mem c && !seen.contains m.row) = true
    · simp only [advance, h, if_true, List.mem_cons, exists_eq_or_imp, ih]
      simp only [Bool.and_eq_true, Bool.not_eq_true', List.contains_eq_mem, decide_eq_false_iff_not]
        at h
      by_cases hr : m.row = row
      · simp_all
      · simp [hr, Ne.symm hr]
    · simp only [advance, h, Bool.false_eq_true, if_false, List.mem_cons, exists_eq_or_imp, ih]
      simp only [Bool.and_eq_true, Bool.not_eq_true', List.contains_eq_mem, decide_eq_false_iff_not,
        not_and, not_not] at h
      by_cases hr : m.row = row
      · subst hr
        simp only [and_true]
        exact ⟨fun ⟨h1, h2⟩ => ⟨h1, .inr h2⟩, fun ⟨h1, h2⟩ => ⟨h1, h2.resolve_left fun hc => h1 (h hc)⟩⟩
      · simp [hr]

/-- A step of the search: after a character, some thread can be completed if some move can. -/
theorem advance_completes {c : Char} {rest : List Char} {b : Option Char} {ms : List Move} :
    (∃ t ∈ advance c [] ms, Completes t.row ⟨some c, rest⟩) ↔ ∃ t, Goes ms ⟨b, c :: rest⟩ t := by
  constructor
  · rintro ⟨t, ht, u, hu⟩
    obtain ⟨-, m, hm, hc, hr⟩ := mem_advance.mp ⟨t, ht, rfl⟩
    exact ⟨u, m, hm, c, ⟨some c, rest⟩, hc, ⟨rfl, rfl⟩, hr ▸ hu⟩
  · rintro ⟨t, m, hm, d, u, hd, ⟨h1, h2⟩, hu⟩
    obtain ⟨rfl, hrest⟩ : c = d ∧ rest = u.after := List.cons.inj h1
    obtain rfl : u = ⟨some c, rest⟩ := Spot.ext h2 hrest.symm
    obtain ⟨t', ht', hr⟩ := (@mem_advance c [] ms m.row).mpr ⟨by simp, m, hm, hd, rfl⟩
    exact ⟨t', ht', t, hr ▸ hu⟩

end Thread

/-- The threads at a position: a new one joins them while nothing has been found. -/
def withStart (p : Pattern) (ts : List Thread) (found : Option Marks) : List Thread :=
  if found.isNone then ts ++ [⟨[capture 0 p], []⟩] else ts

theorem searchFrom_nil (p : Pattern) (i : Nat) (b : Option Char) (ts : List Thread)
    (found : Option Marks) :
    searchFrom p i b ts found [] =
      (Thread.resolve (Spot.gap ⟨b, []⟩ i) (withStart p ts found)).2.or found := rfl

theorem searchFrom_cons (p : Pattern) (i : Nat) (b : Option Char) (ts : List Thread)
    (found : Option Marks) (c : Char) (rest : List Char) :
    searchFrom p i b ts found (c :: rest) =
      let r := Thread.resolve (Spot.gap ⟨b, c :: rest⟩ i) (withStart p ts found)
      let next := Thread.advance c [] r.1
      if next.isEmpty && (r.2.or found).isSome then r.2.or found
      else searchFrom p (i + 1) (some c) next (r.2.or found) rest := rfl

/-- A match that was found is not lost. -/
theorem searchFrom_of_found {p : Pattern} {i : Nat} {b : Option Char} {ts : List Thread}
    {found : Option Marks} (text : List Char) (h : found.isSome) :
    (searchFrom p i b ts found text).isSome := by
  induction text generalizing i b ts found with
  | nil => simp [searchFrom_nil, h]
  | cons c rest ih =>
    rw [searchFrom_cons]
    simp only
    split
    · simp [h]
    · exact ih (by simp [h])

/-- Whether the pattern matches somewhere from the spot on. -/
def MatchesFrom (p : Pattern) (s : Spot) : Prop := ∃ w u t, Reads w s u ∧ p.Reaches u t

theorem completes_capture {p : Pattern} {s : Spot} :
    Completes [capture 0 p] s ↔ ∃ t, p.Reaches s t := by
  simp [Completes]

theorem matchesFrom_nil {p : Pattern} {b : Option Char} :
    MatchesFrom p ⟨b, []⟩ ↔ Completes [capture 0 p] ⟨b, []⟩ := by
  rw [completes_capture]
  constructor
  · rintro ⟨w, u, t, hr, ht⟩
    obtain rfl : w = [] := (List.append_eq_nil_iff.mp hr.1.symm).1
    obtain rfl := reads_nil.mp hr
    exact ⟨t, ht⟩
  · rintro ⟨t, ht⟩
    exact ⟨[], _, t, reads_nil.mpr rfl, ht⟩

theorem matchesFrom_cons {p : Pattern} {b : Option Char} {c : Char} {rest : List Char} :
    MatchesFrom p ⟨b, c :: rest⟩ ↔
      Completes [capture 0 p] ⟨b, c :: rest⟩ ∨ MatchesFrom p ⟨some c, rest⟩ := by
  rw [completes_capture]
  constructor
  · rintro ⟨w, u, t, hr, ht⟩
    cases w with
    | nil =>
      obtain rfl := reads_nil.mp hr
      exact .inl ⟨t, ht⟩
    | cons d w =>
      obtain ⟨rest', h1, hr⟩ := reads_cons.mp hr
      obtain ⟨rfl, rfl⟩ := List.cons.inj h1
      exact .inr ⟨w, u, t, hr, ht⟩
  · rintro (⟨t, ht⟩ | ⟨w, u, t, hr, ht⟩)
    · exact ⟨[], _, t, reads_nil.mpr rfl, ht⟩
    · exact ⟨c :: w, u, t, reads_cons.mpr ⟨rest, rfl, hr⟩, ht⟩

/-- While nothing is found, the search finds what a thread can complete and what starts later. -/
theorem searchFrom_isSome {p : Pattern} {i : Nat} {b : Option Char} {ts : List Thread}
    (text : List Char) : (searchFrom p i b ts none text).isSome ↔
      (∃ t ∈ ts, Completes t.row ⟨b, text⟩) ∨ MatchesFrom p ⟨b, text⟩ := by
  induction text generalizing i b ts with
  | nil =>
    rw [searchFrom_nil, Option.or_none, Thread.resolve_done, matchesFrom_nil]
    have hgo : ∀ ms t, ¬ Goes ms ⟨b, []⟩ t := by
      rintro ms t ⟨m, -, c, u, -, ⟨h, -⟩, -⟩
      cases h
    have hdone : ∀ row marks, (rowMoves (Spot.gap ⟨b, []⟩ i) row marks).done.isSome ↔
        Completes row ⟨b, []⟩ := fun row marks => by
      simp [rowMoves_completes row _ i marks, hgo]
    simp only [withStart, Option.isNone_none, if_true, List.mem_append, List.mem_singleton, hdone,
      or_and_right, exists_or, exists_eq_left]
  | cons c rest ih =>
    set s : Spot := ⟨b, c :: rest⟩ with hs
    set all := withStart p ts none with hall
    have hthreads : (∃ t ∈ all, Completes t.row s) ↔
        (∃ t ∈ ts, Completes t.row s) ∨ Completes [capture 0 p] s := by
      simp only [hall, withStart, Option.isNone_none, if_true, List.mem_append, List.mem_singleton,
        or_and_right, exists_or, exists_eq_left]
    rw [matchesFrom_cons, ← or_assoc, ← hthreads, searchFrom_cons]
    simp only [Option.or_none, ← hs, ← hall]
    cases hd : (Thread.resolve (s.gap i) all).2 with
    | some marks =>
      -- a thread is done here, and the match stays found
      have hc : ∃ t ∈ all, Completes t.row s := by
        obtain ⟨t, ht, h⟩ := Thread.resolve_done.mp (by rw [hd]; rfl)
        exact ⟨t, ht, (rowMoves_completes t.row s i t.marks).mpr (.inl h)⟩
      simp only [hc, true_or, iff_true, Option.isSome_some, Bool.and_true]
      split
      · rfl
      · exact searchFrom_of_found rest rfl
    | none =>
      -- no thread is done, so all their moves are taken
      have hnd : ∀ t ∈ all, (rowMoves (s.gap i) t.row t.marks).done.isSome = false := by
        intro t ht
        by_contra h
        have := Thread.resolve_done.mpr ⟨t, ht, eq_true_of_ne_false h⟩
        simp [hd] at this
      have hstep : (∃ t ∈ Thread.advance c [] (Thread.resolve (s.gap i) all).1,
          Completes t.row ⟨some c, rest⟩) ↔ ∃ t ∈ all, Completes t.row s := by
        rw [Thread.advance_completes (b := b), Thread.resolve_moves hd]
        simp only [Goes, List.mem_flatMap]
        constructor
        · rintro ⟨u, m, ⟨t, ht, hm⟩, h⟩
          exact ⟨t, ht, (rowMoves_completes t.row s i t.marks).mpr (.inr ⟨u, m, hm, h⟩)⟩
        · rintro ⟨t, ht, h⟩
          rcases (rowMoves_completes t.row s i t.marks).mp h with h | ⟨u, m, hm, h⟩
          · simp [hnd t ht] at h
          · exact ⟨u, m, ⟨t, ht, hm⟩, h⟩
      simp only [Option.isSome_none, Bool.and_false, Bool.false_eq_true, if_false]
      rw [ih, hstep]

/-- **The search finds a match if there is one.** -/
theorem find_isSome (p : Pattern) (text : List Char) :
    (p.find text).isSome ↔ MatchesFrom p ⟨none, text⟩ := by
  rw [find, captures, Option.isSome_map, Option.isSome_map, search, searchFrom_isSome]
  simp

/-- Between the ends of the text, the text itself has to be a word of the language. -/
theorem find_whole {p : Pattern} {l : Language Char} (h : p.Denotes l) (text : List Char) :
    ((row [look .textStart, p, look .textEnd]).find text).isSome ↔ text ∈ l := by
  rw [find_isSome]
  constructor
  · rintro ⟨v, s, t, hs, hr⟩
    rw [row_reaches] at hr
    obtain ⟨s', ⟨hstart, rfl⟩, t', ht, t'', ⟨hend, rfl⟩, rfl⟩ := hr
    obtain ⟨w, hw, hwt⟩ := (h _ _).mp ht
    simp only [Look.holds, Spot.gap, Option.isNone_iff_eq_none, List.head?_eq_none_iff] at hstart hend
    have hv : v = [] := by
      have := hs.2
      rw [hstart] at this
      simpa using this.symm
    subst hv
    obtain rfl := reads_nil.mp hs
    have hw' : text = w := by simpa [hend] using hwt.1
    exact hw' ▸ hw
  · intro ht
    refine ⟨[], _, ⟨text.getLast?, []⟩, reads_nil.mpr rfl, ?_⟩
    rw [row_reaches]
    have hp : p.Reaches ⟨none, text⟩ ⟨text.getLast?, []⟩ := (h _ _).mpr ⟨text, ht, by simp, by simp⟩
    exact ⟨_, ⟨rfl, rfl⟩, _, hp, _, ⟨rfl, rfl⟩, rfl⟩

end ShellExpr.Pattern
