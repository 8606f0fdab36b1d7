import ShellExpr.Proofs.Basics
import ShellExpr.Proofs.Pattern.Search

/-!
# What a match records

A match makes marks on its way. The marks that the search returns are those of one way through the
text, from a mark for the start of the match to one for its end, so what a group is said to have
taken is a piece of the text that its content matches there.

* `Records`: the relation of a pattern between positions with the marks made so far.
* `search_records`: **the marks found are those of a match.**
* `Labelled`: every group of a pattern is known by its number.
* `Labelled.records`: on the way a group keeps what it had, or takes a piece that its content matches.
* `find_groups`: **what the groups of a match have taken.**
-/

namespace ShellExpr.Pattern

open Relation Spot

/-- A position in a text and the marks made on the way to it. -/
structure Stand where
  index : Nat
  marks : Marks

/-- The spot at a position of a text. -/
def spotAt (text : List Char) (i : Nat) : Spot := ⟨(text.take i).getLast?, text.drop i⟩

/-- Whether a match that starts at the first position, with its marks, may end at the second with
those there. -/
def Records (text : List Char) : Pattern → Stand → Stand → Prop
  | empty => Eq
  | set cs => fun a b => ∃ c, text[a.index]? = some c ∧ cs.mem c ∧ b = ⟨a.index + 1, a.marks⟩
  | look l => fun a b => l.holds ((spotAt text a.index).gap 0) ∧ a = b
  | mark slot => fun a b => b = ⟨a.index, Assoc.insert slot a.index a.marks⟩
  | cat p q => Comp (Records text p) (Records text q)
  | alt p q => fun a b => Records text p a b ∨ Records text q a b
  | opt _ p => fun a b => a = b ∨ Records text p a b
  | plus _ p => TransGen (Records text p)
  | again _ p => ReflTransGen (Records text p)
  | times p n => Copies (Records text p) n
  | upTo _ p n => fun a b => ∃ k ≤ n, Copies (Records text p) k a b

/-- The same for several patterns in a row. -/
def RowRecords (text : List Char) : List Pattern → Stand → Stand → Prop
  | [] => Eq
  | p :: rest => Comp (Records text p) (RowRecords text rest)

variable {text : List Char} {i : Nat} {a b : Stand}

theorem rowRecords_append (ps qs : List Pattern) :
    RowRecords text (ps ++ qs) = Comp (RowRecords text ps) (RowRecords text qs) := by
  induction ps with
  | nil => exact eq_comp.symm
  | cons p ps ih => simp only [List.cons_append, RowRecords, ih, comp_assoc]

@[simp] theorem rowRecords_single (p : Pattern) : RowRecords text [p] = Records text p := comp_eq

/-! ### Moves record -/

/-- Whether a move at a position can end in a match at a stand. -/
def Move.Arrives (text : List Char) (i : Nat) (m : Move) (b : Stand) : Prop :=
  ∃ c, text[i]? = some c ∧ m.chars.mem c ∧ RowRecords text m.row ⟨i + 1, m.marks⟩ b

/-- Whatever the moves at a position come to, `R` holds of it. -/
structure Moves.Ensures (text : List Char) (i : Nat) (R : Stand → Prop) (m : Moves) : Prop where
  done : ∀ marks ∈ m.done, R ⟨i, marks⟩
  move : ∀ mv ∈ m.all, ∀ b, mv.Arrives text i b → R b

namespace Moves

variable {R S : Stand → Prop} {m n : Moves} {row : List Pattern}

theorem ensures_done {marks : Marks} (h : R ⟨i, marks⟩) :
    Ensures text i R { done := some marks } := by
  refine ⟨fun marks' h' => ?_, fun mv hmv => by simp [all] at hmv⟩
  obtain rfl := Option.some.inj h'
  exact h

theorem Ensures.imp (h : m.Ensures text i R) (hRS : ∀ b, R b → S b) : m.Ensures text i S :=
  ⟨fun marks hm => hRS _ (h.done marks hm), fun mv hmv b hb => hRS b (h.move mv hmv b hb)⟩

theorem mem_all_orElse {mv : Move} : mv ∈ (m.orElse n).all ↔ mv ∈ m.all ∨ mv ∈ n.all := by
  unfold Moves.orElse
  cases m.done <;> simp only [all, List.mem_append] <;> tauto

theorem done_orElse : (m.orElse n).done = m.done.or n.done := by
  unfold Moves.orElse
  cases m.done <;> rfl

theorem Ensures.orElse (hm : m.Ensures text i R) (hn : n.Ensures text i R) :
    (m.orElse n).Ensures text i R := by
  refine ⟨fun marks h => ?_, fun mv hmv => ?_⟩
  · rw [done_orElse] at h
    rcases Option.or_eq_some_iff.mp h with h | ⟨-, h⟩
    · exact hm.done marks h
    · exact hn.done marks h
  · exact (mem_all_orElse.mp hmv).elim (hm.move mv) (hn.move mv)

theorem Ensures.orDone (hm : m.Ensures text i R) {marks : Marks} (h : R ⟨i, marks⟩)
    (greedy : Bool) : (m.orDone greedy marks).Ensures text i R := by
  cases greedy
  · exact (ensures_done h).orElse hm
  · exact hm.orElse (ensures_done h)

/-- Moves with a row behind them come to where the row then leads. -/
theorem arrives_followedBy {ms : List Move} {mv : Move} (h : mv ∈ followedBy row ms)
    (hb : mv.Arrives text i b) :
    ∃ mv' ∈ ms, ∃ a, mv'.Arrives text i a ∧ RowRecords text row a b := by
  obtain ⟨mv', hmv, rfl⟩ := List.mem_map.mp h
  obtain ⟨c, hc, hmem, hrow⟩ := hb
  rw [rowRecords_append] at hrow
  obtain ⟨a, h1, h2⟩ := hrow
  exact ⟨mv', hmv, a, ⟨c, hc, hmem, h1⟩, h2⟩

theorem mem_all_andThen {next : Marks → Moves} {mv : Move} (h : mv ∈ (m.andThen row next).all) :
    mv ∈ followedBy row m.all ∨ ∃ marks ∈ m.done, mv ∈ (next marks).all := by
  unfold Moves.andThen at h
  cases hd : m.done with
  | none =>
    rw [hd] at h
    simp only [all, List.append_nil] at h
    exact .inl h
  | some marks =>
    rw [hd] at h
    simp only [all, followedBy, List.map_append, List.mem_append] at h ⊢
    rcases h with (h | h) | h | h
    · exact .inl (.inl h)
    · exact .inr ⟨marks, rfl, .inl h⟩
    · exact .inr ⟨marks, rfl, .inr h⟩
    · exact .inl (.inr h)

/-- Going on keeps to what the second part ensures, whether it starts at once or later. -/
theorem Ensures.andThen (hm : m.Ensures text i R) {next : Marks → Moves}
    (hnext : ∀ marks, R ⟨i, marks⟩ → (next marks).Ensures text i S)
    (hrow : ∀ a b, R a → RowRecords text row a b → S b) :
    (m.andThen row next).Ensures text i S := by
  refine ⟨fun marks' h => ?_, fun mv hmv b hb => ?_⟩
  · unfold Moves.andThen at h
    cases hd : m.done with
    | none => simp [hd] at h
    | some marks =>
      rw [hd] at h
      exact (hnext marks (hm.done marks hd)).done marks' h
  · rcases mem_all_andThen hmv with h | ⟨marks, hd, h⟩
    · obtain ⟨mv', hmv', a, ha, hab⟩ := arrives_followedBy h hb
      exact hrow a b (hm.move mv' hmv' a ha) hab
    · exact (hnext marks (hm.done marks hd)).move mv h b hb

end Moves

open Moves

theorem timesMoves_ensures {p : Pattern} {one : Marks → Moves}
    (h : ∀ marks, (one marks).Ensures text i (Records text p ⟨i, marks⟩)) (n : Nat)
    (marks : Marks) :
    (timesMoves p one n marks).Ensures text i (Copies (Records text p) n ⟨i, marks⟩) := by
  induction n generalizing marks with
  | zero => exact ensures_done rfl
  | succ n ih =>
    refine (h marks).andThen (fun marks' h' => (ih marks').imp fun b hb => ⟨_, h', hb⟩) ?_
    intro a b ha hab
    refine ⟨a, ha, ?_⟩
    split at hab
    · subst n
      exact hab
    · rwa [rowRecords_single] at hab

theorem upToMoves_ensures {greedy : Bool} {p : Pattern} {one : Marks → Moves}
    (h : ∀ marks, (one marks).Ensures text i (Records text p ⟨i, marks⟩)) (n : Nat)
    (marks : Marks) : (upToMoves greedy p one n marks).Ensures text i
      fun b => ∃ k ≤ n, Copies (Records text p) k ⟨i, marks⟩ b := by
  induction n generalizing marks with
  | zero => exact ensures_done ⟨0, Nat.le_refl 0, rfl⟩
  | succ n ih =>
    refine ((h marks).andThen (fun marks' h' => (ih marks').imp ?_) ?_).orDone
      ⟨0, Nat.zero_le _, rfl⟩ greedy
    · rintro b ⟨k, hk, hb⟩
      exact ⟨k + 1, by omega, _, h', hb⟩
    · intro a b ha hab
      split at hab
      · subst n
        exact ⟨1, Nat.le_refl 1, a, ha, hab⟩
      · rw [rowRecords_single] at hab
        obtain ⟨k, hk, hb⟩ := hab
        exact ⟨k + 1, by omega, a, ha, hb⟩

/-- **Moves record what the pattern records.** -/
theorem moves_ensures (p : Pattern) (marks : Marks) :
    (p.moves ((spotAt text i).gap i) marks).Ensures text i (Records text p ⟨i, marks⟩) := by
  -- along the pattern, for all marks: those of a first part are where the second one starts
  induction p generalizing marks with
  | empty => exact ensures_done rfl
  | set cs =>
    refine ⟨fun marks' h => by simp [moves] at h, fun mv hmv b hb => ?_⟩
    obtain rfl : mv = ⟨cs, [], marks⟩ := by simpa [moves, all] using hmv
    obtain ⟨c, hc, hmem, hrow⟩ := hb
    exact ⟨c, hc, hmem, hrow.symm⟩
  | look l =>
    rw [moves, Look.holds_gap l _ i 0]
    by_cases h : l.holds ((spotAt text i).gap 0) = true
    · rw [if_pos h]
      exact ensures_done ⟨h, rfl⟩
    · rw [if_neg h]
      exact ⟨fun marks' h => by simp at h, fun mv hmv => by simp [all] at hmv⟩
  | mark slot => exact ensures_done rfl
  | cat p q ihp ihq =>
    refine (ihp marks).andThen (fun marks' h => (ihq marks').imp fun b hb => ⟨_, h, hb⟩) ?_
    intro a b ha hab
    rw [rowRecords_single] at hab
    exact ⟨a, ha, hab⟩
  | alt p q ihp ihq =>
    exact ((ihp marks).imp fun b => Or.inl).orElse ((ihq marks).imp fun b => Or.inr)
  | opt greedy p ih => exact ((ih marks).imp fun b => Or.inr).orDone (.inl rfl) greedy
  | plus greedy p ih =>
    refine (ih marks).andThen (fun marks' h => ensures_done (.single h)) ?_
    intro a b ha hab
    rw [rowRecords_single] at hab
    exact .head' ha hab
  | again greedy p ih =>
    refine Ensures.orDone ⟨fun marks' h => by simp at h, fun mv hmv b hb => ?_⟩ .refl greedy
    simp only [all, List.append_nil] at hmv
    obtain ⟨mv', hmv', a, ha, hab⟩ := arrives_followedBy hmv hb
    rw [rowRecords_single] at hab
    exact .head ((ih marks).move mv' hmv' a ha) hab
  | times p n ih => exact timesMoves_ensures ih n marks
  | upTo greedy p n ih => exact upToMoves_ensures ih n marks

theorem rowMoves_ensures (row : List Pattern) (marks : Marks) :
    (rowMoves ((spotAt text i).gap i) row marks).Ensures text i
      (RowRecords text row ⟨i, marks⟩) := by
  induction row generalizing marks with
  | nil => exact ensures_done rfl
  | cons p rest ih =>
    exact (moves_ensures p marks).andThen (fun marks' h => (ih marks').imp fun b hb => ⟨_, h, hb⟩)
      fun a b ha hab => ⟨a, ha, hab⟩

/-! ### The search records -/

namespace Thread

/-- All that the thread can come to from a position is among `F`. -/
def Ensures (text : List Char) (i : Nat) (F : Stand → Prop) (t : Thread) : Prop :=
  ∀ b, RowRecords text t.row ⟨i, t.marks⟩ b → F b

theorem resolve_ensures {F : Stand → Prop} {ts : List Thread}
    (h : ∀ t ∈ ts, t.Ensures text i F) :
    (∀ marks ∈ (resolve ((spotAt text i).gap i) ts).2, F ⟨i, marks⟩) ∧
      ∀ mv ∈ (resolve ((spotAt text i).gap i) ts).1, ∀ b, mv.Arrives text i b → F b := by
  induction ts with
  | nil => simp [resolve]
  | cons t ts ih =>
    rw [List.forall_mem_cons] at h
    have ht := (rowMoves_ensures t.row t.marks).imp h.1
    obtain ⟨hdone, hmove⟩ := ih h.2
    cases hd : (rowMoves ((spotAt text i).gap i) t.row t.marks).done with
    | some marks =>
      simp only [resolve, hd]
      refine ⟨fun marks' h' => ht.done marks' (hd ▸ h'), fun mv hmv => ?_⟩
      exact ht.move mv (List.mem_append_left _ hmv)
    | none =>
      simp only [resolve, hd]
      refine ⟨hdone, fun mv hmv => ?_⟩
      exact (List.mem_append.mp hmv).elim (ht.move mv) (hmove mv)

theorem of_mem_advance {c : Char} {seen : List (List Pattern)} {ms : List Move} {t : Thread}
    (h : t ∈ advance c seen ms) :
    ∃ mv ∈ ms, mv.chars.mem c = true ∧ mv.row = t.row ∧ mv.marks = t.marks := by
  induction ms generalizing seen with
  | nil => simp [advance] at h
  | cons mv ms ih =>
    rw [advance] at h
    split at h
    · rename_i hc
      rcases List.mem_cons.mp h with rfl | h
      · exact ⟨mv, List.mem_cons_self, (Bool.and_eq_true_iff.mp hc).1, rfl, rfl⟩
      · obtain ⟨mv', hmv, hrest⟩ := ih h
        exact ⟨mv', List.mem_cons_of_mem mv hmv, hrest⟩
    · obtain ⟨mv', hmv, hrest⟩ := ih h
      exact ⟨mv', List.mem_cons_of_mem mv hmv, hrest⟩

/-- After a character, the threads come to what the moves come to. -/
theorem advance_ensures {F : Stand → Prop} {c : Char} {ms : List Move}
    (hc : text[i]? = some c) (h : ∀ mv ∈ ms, ∀ b, mv.Arrives text i b → F b) :
    ∀ t ∈ advance c [] ms, t.Ensures text (i + 1) F := by
  intro t ht b hb
  obtain ⟨mv, hmv, hmem, hrow, hmarks⟩ := of_mem_advance ht
  exact h mv hmv b ⟨c, hc, hmem, by rw [hrow, hmarks]; exact hb⟩

end Thread

/-- The ends of the matches of a pattern, with all marks made on the way. -/
def Matched (text : List Char) (p : Pattern) (b : Stand) : Prop :=
  ∃ i ≤ text.length, Records text (capture 0 p) ⟨i, []⟩ b

theorem withStart_ensures {p : Pattern} {ts : List Thread} (found : Option Marks)
    (hi : i ≤ text.length) (h : ∀ t ∈ ts, t.Ensures text i (Matched text p)) :
    ∀ t ∈ withStart p ts found, t.Ensures text i (Matched text p) := by
  intro t ht
  unfold withStart at ht
  split at ht
  · rcases List.mem_append.mp ht with ht | ht
    · exact h t ht
    · obtain rfl := List.mem_singleton.mp ht
      intro b hb
      rw [rowRecords_single] at hb
      exact ⟨i, hi, hb⟩
  · exact h t ht

/-- The spot behind a character. -/
theorem spotAt_succ {c : Char} {rest : List Char} (h : text.drop i = c :: rest) :
    spotAt text (i + 1) = ⟨some c, rest⟩ := by
  have hc : text[i]? = some c := getElem?_of_drop h 0
  have htake : text.take (i + 1) = text.take i ++ [c] := by rw [List.take_add_one, hc]; rfl
  rw [spotAt, htake, drop_of_drop h, List.getLast?_append]
  rfl

/-- What was found before and what is found now are both ends of matches. -/
theorem resolve_records {p : Pattern} {ts : List Thread} {found : Option Marks}
    (hts : ∀ t ∈ ts, t.Ensures text i (Matched text p))
    (hf : ∀ marks ∈ found, ∃ j, Matched text p ⟨j, marks⟩) :
    ∀ marks ∈ (Thread.resolve ((spotAt text i).gap i) ts).2.or found,
      ∃ j, Matched text p ⟨j, marks⟩ := by
  intro marks hm
  rcases Option.or_eq_some_iff.mp hm with h | ⟨-, h⟩
  · exact ⟨i, (Thread.resolve_ensures hts).1 marks h⟩
  · exact hf marks h

theorem searchFrom_records {p : Pattern} {ts : List Thread} {found : Option Marks} {s : Spot}
    (hi : i ≤ text.length) (hs : spotAt text i = s)
    (hts : ∀ t ∈ ts, t.Ensures text i (Matched text p))
    (hf : ∀ marks ∈ found, ∃ j, Matched text p ⟨j, marks⟩) :
    ∀ marks ∈ searchFrom p i s.before ts found s.after, ∃ j, Matched text p ⟨j, marks⟩ := by
  obtain ⟨before, after⟩ := s
  induction after generalizing i before ts found with
  | nil =>
    rw [searchFrom_nil, ← hs]
    exact resolve_records (withStart_ensures found hi hts) hf
  | cons c rest ih =>
    have hall := withStart_ensures found hi hts
    have hdrop : text.drop i = c :: rest := congrArg Spot.after hs
    have hc : text[i]? = some c := getElem?_of_drop hdrop 0
    have hlt : i < text.length := (List.getElem?_eq_some_iff.mp hc).1
    rw [searchFrom_cons, ← hs]
    have hfound := resolve_records hall hf
    simp only
    split
    · exact hfound
    · exact ih hlt (Thread.advance_ensures hc (Thread.resolve_ensures hall).2) hfound (some c)
        (spotAt_succ hdrop)

/-- **The marks found are those of a match**: on some way through the text the pattern makes them,
and a mark at each end. -/
theorem search_records {p : Pattern} {marks : Marks} (h : p.search text = some marks) :
    ∃ j, Matched text p ⟨j, marks⟩ :=
  searchFrom_records (s := ⟨none, text⟩) (Nat.zero_le _) rfl (by simp) (by simp) marks h

/-! ### What is recorded -/

theorem Copies.lift {α β : Type} {r : α → α → Prop} {r' : β → β → Prop} (f : α → β)
    (h : ∀ a b, r a b → r' (f a) (f b)) {n : Nat} {a b : α} (hab : Copies r n a b) :
    Copies r' n (f a) (f b) := by
  induction n generalizing a with
  | zero => exact congrArg f hab
  | succ n ih =>
    obtain ⟨c, hac, hcb⟩ := hab
    exact ⟨f c, h a c hac, ih hcb⟩

/-- **Without the marks, recording is matching.** -/
theorem Records.reaches {p : Pattern} (h : Records text p a b) :
    p.Reaches (spotAt text a.index) (spotAt text b.index) := by
  induction p generalizing a b with
  | empty => exact congrArg (fun s : Stand => spotAt text s.index) h
  | set cs =>
    obtain ⟨c, hc, hmem, rfl⟩ := h
    refine ⟨c, hmem, reads_cons.mpr ⟨text.drop (a.index + 1), drop_of_getElem? hc, ?_⟩⟩
    rw [reads_nil, spotAt_succ (drop_of_getElem? hc)]
  | look l =>
    obtain ⟨hl, rfl⟩ := h
    exact ⟨hl, rfl⟩
  | mark slot =>
    obtain rfl := h
    rfl
  | cat p q ihp ihq =>
    obtain ⟨c, h1, h2⟩ := h
    exact ⟨_, ihp h1, ihq h2⟩
  | alt p q ihp ihq => exact h.imp ihp ihq
  | opt greedy p ih =>
    rcases h with rfl | h
    · exact .inl rfl
    · exact .inr (ih h)
  | plus greedy p ih =>
    exact TransGen.lift (fun s : Stand => spotAt text s.index) (fun _ _ => ih) _ _ h
  | again greedy p ih =>
    exact ReflTransGen.lift (fun s : Stand => spotAt text s.index) (fun _ _ => ih) _ _ h
  | times p n ih => exact Copies.lift (fun s : Stand => spotAt text s.index) (fun _ _ => ih) h
  | upTo greedy p n ih =>
    obtain ⟨k, hk, h⟩ := h
    exact ⟨k, hk, Copies.lift (fun s : Stand => spotAt text s.index) (fun _ _ => ih) h⟩

/-- Every group of the pattern has a number that is no smaller than `low` and smaller than those of
the groups inside it, and `R` relates the number to what the group contains. -/
inductive Labelled (R : Nat → Pattern → Prop) : Nat → Pattern → Prop
  | empty {low} : Labelled R low empty
  | set {low cs} : Labelled R low (set cs)
  | look {low l} : Labelled R low (look l)
  | capture {low g q} : low ≤ g → R g q → Labelled R (g + 1) q → Labelled R low (capture g q)
  | cat {low p q} : Labelled R low p → Labelled R low q → Labelled R low (cat p q)
  | alt {low p q} : Labelled R low p → Labelled R low q → Labelled R low (alt p q)
  | opt {low greedy p} : Labelled R low p → Labelled R low (opt greedy p)
  | plus {low greedy p} : Labelled R low p → Labelled R low (plus greedy p)
  | times {low p n} : Labelled R low p → Labelled R low (times p n)
  | upTo {low greedy p n} : Labelled R low p → Labelled R low (upTo greedy p n)

/-- Two marks that a group has made: the text between them is a piece that `q` matches. -/
structure Delimits (text : List Char) (q : Pattern) (i j : Nat) : Prop where
  le : i ≤ j
  le_length : j ≤ text.length
  reaches : q.Reaches (spotAt text i) (spotAt text j)

/-- The marks of a match group. -/
def groupMarks (g : Nat) (marks : Marks) : Option Nat × Option Nat :=
  (Assoc.get? (2 * g) marks, Assoc.get? (2 * g + 1) marks)

/-- From the first stand to the second: the position does not move back or leave the text, groups
below `low` keep their marks, and all groups keep them or get new ones around a piece of the text that
they match. -/
structure Passes (R : Nat → Pattern → Prop) (text : List Char) (low : Nat) (a b : Stand) :
    Prop where
  le : a.index ≤ b.index
  le_length : a.index ≤ text.length → b.index ≤ text.length
  below : ∀ g < low, groupMarks g b.marks = groupMarks g a.marks
  group : a.index ≤ text.length → ∀ g, groupMarks g b.marks = groupMarks g a.marks ∨
    ∃ q i j, R g q ∧ groupMarks g b.marks = (some i, some j) ∧ Delimits text q i j

namespace Passes

variable {R : Nat → Pattern → Prop} {low : Nat}

theorem refl (a : Stand) : Passes R text low a a :=
  ⟨Nat.le_refl _, id, fun _ _ => rfl, fun _ _ => .inl rfl⟩

theorem trans {c : Stand} (h : Passes R text low a b) (h' : Passes R text low b c) :
    Passes R text low a c := by
  refine ⟨Nat.le_trans h.le h'.le, fun ha => h'.le_length (h.le_length ha), fun g hg => ?_,
    fun ha g => ?_⟩
  · rw [h'.below g hg, h.below g hg]
  · rcases h'.group (h.le_length ha) g with hsame | hnew
    · rw [hsame]
      exact h.group ha g
    · exact .inr hnew

theorem copies {r : Stand → Stand → Prop} (hr : ∀ a b, r a b → Passes R text low a b) {n : Nat}
    (h : Copies r n a b) : Passes R text low a b := by
  induction n generalizing a with
  | zero =>
    obtain rfl : a = b := h
    exact refl a
  | succ n ih =>
    obtain ⟨c, hac, hcb⟩ := h
    exact (hr a c hac).trans (ih hcb)

end Passes

theorem groupMarks_insert {g slot i : Nat} {marks : Marks} (h : slot ≠ 2 * g ∧ slot ≠ 2 * g + 1) :
    groupMarks g (Assoc.insert slot i marks) = groupMarks g marks := by
  simp only [groupMarks, Assoc.get?_insert, if_neg h.1, if_neg h.2]

/-- A group makes a mark, then what it contains is matched, then it makes another mark. -/
theorem records_capture {g : Nat} {q : Pattern} : Records text (capture g q) a b ↔
    ∃ d, Records text q ⟨a.index, Assoc.insert (2 * g) a.index a.marks⟩ d ∧
      b = ⟨d.index, Assoc.insert (2 * g + 1) d.index d.marks⟩ := by
  simp only [capture, Records, Comp]
  constructor
  · rintro ⟨c, rfl, d, hq, rfl⟩
    exact ⟨d, hq, rfl⟩
  · rintro ⟨d, hq, rfl⟩
    exact ⟨_, rfl, d, hq, rfl⟩

section Labelled

variable {R : Nat → Pattern → Prop} {low g : Nat} {p q : Pattern}

/-- If the groups inside it leave its first mark alone, a group has its two marks in the end. -/
theorem groupMarks_capture {i : Nat} {marks : Marks} {d : Stand}
    (h : Passes R text (g + 1) ⟨i, Assoc.insert (2 * g) i marks⟩ d) :
    groupMarks g (Assoc.insert (2 * g + 1) d.index d.marks) = (some i, some d.index) := by
  have hkeep := congrArg Prod.fst (h.below g (Nat.lt_succ_self g))
  simp only [groupMarks, Assoc.get?_insert, if_true] at hkeep ⊢
  rw [hkeep, if_neg (by omega)]

theorem Passes.capture (hR : R g q) (hlow : low ≤ g) {d : Stand}
    (h : Passes R text (g + 1) ⟨a.index, Assoc.insert (2 * g) a.index a.marks⟩ d)
    (hq : q.Reaches (spotAt text a.index) (spotAt text d.index)) :
    Passes R text low a ⟨d.index, Assoc.insert (2 * g + 1) d.index d.marks⟩ := by
  -- the marks of another group are as they are inside
  have hafter : ∀ g' ≠ g, groupMarks g' (Assoc.insert (2 * g + 1) d.index d.marks) =
      groupMarks g' d.marks := fun g' hg => groupMarks_insert (by omega)
  have hbefore : ∀ g' ≠ g, groupMarks g' (Assoc.insert (2 * g) a.index a.marks) =
      groupMarks g' a.marks := fun g' hg => groupMarks_insert (by omega)
  refine ⟨h.le, h.le_length, fun g' hg => ?_, fun ha g' => ?_⟩
  · rw [hafter g' (by omega), h.below g' (by omega), hbefore g' (by omega)]
  · by_cases hg : g' = g
    · subst hg
      exact .inr ⟨q, a.index, d.index, hR, groupMarks_capture h, h.le, h.le_length ha, hq⟩
    · rw [hafter g' hg, ← hbefore g' hg]
      exact h.group ha g'

/-- **What a pattern with known groups does to the marks.** -/
theorem Labelled.records (hp : Labelled R low p) (h : Records text p a b) :
    Passes R text low a b := by
  induction hp generalizing a b with
  | empty =>
    obtain rfl : a = b := h
    exact .refl a
  | set =>
    obtain ⟨c, hc, -, rfl⟩ := h
    have hlt : a.index < text.length := (List.getElem?_eq_some_iff.mp hc).1
    exact ⟨Nat.le_succ _, fun _ => hlt, fun _ _ => rfl, fun _ _ => .inl rfl⟩
  | look =>
    obtain ⟨-, rfl⟩ := h
    exact .refl a
  | capture hlow hR _ ih =>
    obtain ⟨d, hq, rfl⟩ := records_capture.mp h
    exact (ih hq).capture hR hlow hq.reaches
  | cat _ _ ihp ihq =>
    obtain ⟨c, h1, h2⟩ := h
    exact (ihp h1).trans (ihq h2)
  | alt _ _ ihp ihq => exact h.elim ihp ihq
  | opt _ ih =>
    rcases h with rfl | h
    · exact .refl a
    · exact ih h
  | plus _ ih =>
    obtain ⟨k, -, h⟩ := transGen_iff_copies.mp h
    exact .copies (fun _ _ => ih) h
  | times _ ih => exact .copies (fun _ _ => ih) h
  | upTo _ ih =>
    obtain ⟨k, -, h⟩ := h
    exact .copies (fun _ _ => ih) h

theorem Labelled.mono {low' : Nat} (hp : Labelled R low p) (hle : low' ≤ low) :
    Labelled R low' p := by
  induction hp with
  | empty => exact .empty
  | set => exact .set
  | look => exact .look
  | capture hlow hR hq => exact .capture (by omega) hR hq
  | cat _ _ ihp ihq => exact .cat (ihp hle) (ihq hle)
  | alt _ _ ihp ihq => exact .alt (ihp hle) (ihq hle)
  | opt _ ih => exact .opt (ih hle)
  | plus _ ih => exact .plus (ih hle)
  | times _ ih => exact .times (ih hle)
  | upTo _ ih => exact .upTo (ih hle)

theorem Labelled.imp {R' : Nat → Pattern → Prop} (hp : Labelled R low p)
    (h : ∀ g q, low ≤ g → R g q → R' g q) : Labelled R' low p := by
  induction hp with
  | empty => exact .empty
  | set => exact .set
  | look => exact .look
  | capture hlow hR _ ih =>
    exact .capture hlow (h _ _ hlow hR) (ih fun g q hg => h g q (by omega))
  | cat _ _ ihp ihq => exact .cat (ihp h) (ihq h)
  | alt _ _ ihp ihq => exact .alt (ihp h) (ihq h)
  | opt _ ih => exact .opt (ih h)
  | plus _ ih => exact .plus (ih h)
  | times _ ih => exact .times (ih h)
  | upTo _ ih => exact .upTo (ih h)

theorem Labelled.row {ps : List Pattern} (h : ∀ p ∈ ps, Labelled R low p) :
    Labelled R low (Pattern.row ps) := by
  induction ps with
  | nil => exact .empty
  | cons p ps ih =>
    rw [List.forall_mem_cons] at h
    cases ps with
    | nil => exact h.1
    | cons q qs => exact .cat h.1 (ih h.2)

theorem one_le_groupCount (p : Pattern) : 1 ≤ p.groupCount := by
  induction p with
  | empty | set _ | look _ => exact Nat.le_refl 1
  | mark slot => exact Nat.le_add_left 1 _
  | cat p q ihp _ | alt p q ihp _ => exact Nat.le_trans ihp (Nat.le_max_left _ _)
  | opt _ _ ih | plus _ _ ih | again _ _ ih | times _ _ ih | upTo _ _ _ ih => exact ih

theorem groupCount_capture (g : Nat) (p : Pattern) :
    (capture g p).groupCount = max (g + 1) p.groupCount := by
  simp only [capture, groupCount]
  omega

/-- The number of groups is bounded if the numbers are. -/
theorem Labelled.groupCount_le (hp : Labelled R low p) {n : Nat} (hn : 1 ≤ n)
    (h : ∀ g q, R g q → g < n) : p.groupCount ≤ n := by
  induction hp with
  | empty | set | look => exact hn
  | capture _ hR _ ih =>
    rw [groupCount_capture]
    exact Nat.max_le.mpr ⟨h _ _ hR, ih⟩
  | cat _ _ ihp ihq | alt _ _ ihp ihq => exact Nat.max_le.mpr ⟨ihp, ihq⟩
  | opt _ ih | plus _ ih | times _ ih | upTo _ ih => exact ih

end Labelled

/-! ### The groups of a match -/

/-- The pattern matches a piece of the text where it stands. -/
def MatchesPiece (q : Pattern) (text w : List Char) : Prop :=
  ∃ u v, text = u ++ w ++ v ∧ q.Reaches ⟨u.getLast?, w ++ v⟩ ⟨(u ++ w).getLast?, v⟩

theorem Delimits.matchesPiece {q : Pattern} {i j : Nat} (h : Delimits text q i j) :
    q.MatchesPiece text ((text.take j).drop i) := by
  have htake : text.take i ++ (text.take j).drop i = text.take j := by
    have := List.take_append_drop i (text.take j)
    rwa [List.take_take, Nat.min_eq_left h.le] at this
  have hdrop : (text.take j).drop i ++ text.drop j = text.drop i := by
    have := congrArg (List.drop i) (List.take_append_drop j text)
    have hle : i ≤ (text.take j).length := by
      rw [List.length_take]
      exact Nat.le_min.mpr ⟨h.le, Nat.le_trans h.le h.le_length⟩
    rwa [List.drop_append_of_le_length hle] at this
  refine ⟨text.take i, text.drop j, ?_, ?_⟩
  · rw [htake, List.take_append_drop]
  · rw [htake, hdrop]
    exact h.reaches

theorem groupText?_eq {g i j : Nat} {marks : Marks} (h : groupMarks g marks = (some i, some j)) :
    groupText? text marks g = some ((text.take j).drop i) := by
  obtain ⟨hi, hj⟩ := Prod.mk.inj h
  simp [groupText?, hi, hj]

theorem groupText?_eq_none {g : Nat} {marks : Marks} (h : groupMarks g marks = (none, none)) :
    groupText? text marks g = none := by
  simp [groupText?, (Prod.mk.inj h).1]

/-- The groups of a match by their marks. -/
theorem find_eq_some {p : Pattern} {groups : List (List Char)} (h : p.find text = some groups) :
    ∃ marks, p.search text = some marks ∧
      groups = (List.range p.groupCount).map fun g => (groupText? text marks g).getD [] := by
  obtain ⟨texts, hcap, rfl⟩ := Option.map_eq_some_iff.mp h
  obtain ⟨marks, hsearch, rfl⟩ := Option.map_eq_some_iff.mp hcap
  exact ⟨marks, hsearch, List.map_map⟩

/-- **What the groups of a match have taken.** The first text is that of the whole match, which the
pattern matches where it stands. The others belong to the groups by number, and a group that took
part has taken a piece of the text that its content matches there. -/
theorem find_groups {p : Pattern} {R : Nat → Pattern → Prop} (hp : Labelled R 1 p)
    {groups : List (List Char)} (h : p.find text = some groups) :
    groups.length = p.groupCount ∧ (∃ w, groups[0]? = some w ∧ p.MatchesPiece text w) ∧
      ∀ g, 0 < g → ∀ w ∈ groups[g]?, w = [] ∨ ∃ q, R g q ∧ q.MatchesPiece text w := by
  obtain ⟨marks, hsearch, rfl⟩ := find_eq_some h
  obtain ⟨j, i, hi, hrec⟩ := search_records hsearch
  obtain ⟨d, hd, heq⟩ := records_capture.mp hrec
  obtain ⟨rfl, rfl⟩ := Stand.mk.inj heq
  have hpass := hp.records hd
  refine ⟨by simp, ?_, fun g hg w hw => ?_⟩
  · have hwhole : groupMarks 0 (Assoc.insert 1 d.index d.marks) = (some i, some d.index) :=
      groupMarks_capture (g := 0) hpass
    have hpiece : Delimits text p i d.index := ⟨hpass.le, hpass.le_length hi, hd.reaches⟩
    refine ⟨(text.take d.index).drop i, ?_, hpiece.matchesPiece⟩
    have hpos : 0 < p.groupCount := one_le_groupCount p
    rw [List.getElem?_map, List.getElem?_range hpos, Option.map_some, groupText?_eq hwhole]
    rfl
  · rw [List.getElem?_map] at hw
    obtain ⟨g', hg', rfl⟩ := Option.map_eq_some_iff.mp hw
    obtain ⟨-, rfl⟩ := List.getElem?_eq_some_iff.mp hg'
    rw [List.getElem_range]
    -- the marks around the whole match belong to no other group
    have hafter : groupMarks g (Assoc.insert 1 d.index d.marks) = groupMarks g d.marks :=
      groupMarks_insert (by omega)
    have hbefore : groupMarks g (Assoc.insert 0 i []) = (none, none) :=
      groupMarks_insert (by omega)
    rcases hpass.group hi g with hsame | ⟨q, i', j', hR, hmarks, hpiece⟩
    · rw [groupText?_eq_none (by rw [hafter, hsame]; exact hbefore)]
      exact .inl rfl
    · rw [groupText?_eq (by rw [hafter, hmarks])]
      exact .inr ⟨q, hR, hpiece.matchesPiece⟩

/-- A pattern without groups has the whole match only. -/
theorem find_ungrouped {p : Pattern} (hp : Labelled (fun _ _ => False) 1 p)
    {groups : List (List Char)} (h : p.find text = some groups) :
    ∃ w, groups = [w] ∧ p.MatchesPiece text w := by
  obtain ⟨hlen, ⟨w, hw, hpiece⟩, -⟩ := find_groups hp h
  have hle : p.groupCount ≤ 1 := hp.groupCount_le (Nat.le_refl 1) fun g q h => h.elim
  refine ⟨w, ?_, hpiece⟩
  cases groups with
  | nil => simp at hw
  | cons w' rest =>
    have hrest : rest = [] := List.length_eq_zero_iff.mp (by rw [List.length_cons] at hlen; omega)
    rw [hrest, Option.some.inj hw]

end ShellExpr.Pattern
