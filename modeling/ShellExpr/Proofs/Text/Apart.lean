import ShellExpr.Proofs.Number.Reading
import ShellExpr.Value.Printer

/-!
# Texts told apart

A text is read from its start. It can be read in one way only if no text of its kind goes on where
another one ends, whatever follows: so what can follow is part of each statement here. Strings end
at their closing quote, integers where no digit follows, and rows of texts at what closes them.

* `ToldApart`: texts that differ, whatever follows, where what they say differs.
* `joinWith_apart`: a row of texts is told apart if its items are.
* `joinWith_apart_closed`: the same for items that anything can follow.
* `quoted_apart`, `Numeral.decimal_apart`: strings and integers are told apart.
-/

namespace ShellExpr

/-! ### Texts in a row -/

section Rows

variable {α β : Type} {Follows : List Char → Prop} {write : α → List Char} {meaning : α → β}
  {separator t u : List Char} {xs ys : List α}

/-- Where the two texts stand in front of what may follow them, one text has one reading. -/
def ToldApart (Follows : List Char → Prop) (write : α → List Char) (meaning : α → β) (x y : α) :
    Prop :=
  ∀ r s, Follows r → Follows s → write x ++ r = write y ++ s → meaning x = meaning y ∧ r = s

/-- What stands behind the first of some texts in a row, `t` behind the last one. -/
def following (separator t : List Char) : List (List Char) → List Char
  | [] => t
  | x :: rest => separator ++ (x ++ following separator t rest)

theorem joinWith_append (separator x : List Char) (rest : List (List Char)) (t : List Char) :
    joinWith separator (x :: rest) ++ t = x ++ following separator t rest := by
  induction rest generalizing x with
  | nil => rfl
  | cons y rest ih =>
    have hjoin : joinWith separator (x :: y :: rest) =
        x ++ separator ++ joinWith separator (y :: rest) := rfl
    rw [hjoin, List.append_assoc, ih, List.append_assoc]
    rfl

/-- What can close a row: it can follow an item, and it is not taken for another separator. -/
structure Closes (Follows : List Char → Prop) (separator t : List Char) : Prop where
  follows : Follows t
  notSeparator : ¬ separator <+: t

theorem Closes.follows_following (ht : Closes Follows separator t)
    (hseparator : ∀ r, Follows (separator ++ r)) (texts : List (List Char)) :
    Follows (following separator t texts) := by
  cases texts with
  | nil => exact ht.follows
  | cons x rest => exact hseparator _

theorem following_apart (hitems : ∀ x ∈ xs, ∀ y ∈ ys, ToldApart Follows write meaning x y)
    (hseparator : ∀ r, Follows (separator ++ r)) (ht : Closes Follows separator t)
    (hu : Closes Follows separator u)
    (h : following separator t (xs.map write) = following separator u (ys.map write)) :
    xs.map meaning = ys.map meaning ∧ t = u := by
  induction xs generalizing ys with
  | nil =>
    cases ys with
    | nil => exact ⟨rfl, h⟩
    | cons y ys => exact absurd ⟨_, h.symm⟩ ht.notSeparator
  | cons x xs ih =>
    cases ys with
    | nil => exact absurd ⟨_, h⟩ hu.notSeparator
    | cons y ys =>
      have hrow : write x ++ following separator t (xs.map write) =
          write y ++ following separator u (ys.map write) := List.append_cancel_left h
      have hfirst := hitems x List.mem_cons_self y List.mem_cons_self
      obtain ⟨hxy, hrest⟩ := hfirst _ _ (ht.follows_following hseparator _)
        (hu.follows_following hseparator _) hrow
      have hothers : ∀ x ∈ xs, ∀ y ∈ ys, ToldApart Follows write meaning x y :=
        fun x hx y hy => hitems x (List.mem_cons_of_mem _ hx) y (List.mem_cons_of_mem _ hy)
      obtain ⟨hmap, htu⟩ := ih hothers hrest
      exact ⟨by rw [List.map_cons, List.map_cons, hxy, hmap], htu⟩

/-- **A row is told apart if its items are**, and if what closes it is not taken for an item. -/
theorem joinWith_apart (hitems : ∀ x ∈ xs, ∀ y ∈ ys, ToldApart Follows write meaning x y)
    (hseparator : ∀ r, Follows (separator ++ r)) (ht : Closes Follows separator t)
    (hu : Closes Follows separator u) (hxu : ∀ x ∈ xs, ∀ r, Follows r → write x ++ r ≠ u)
    (hyt : ∀ y ∈ ys, ∀ r, Follows r → write y ++ r ≠ t)
    (h : joinWith separator (xs.map write) ++ t = joinWith separator (ys.map write) ++ u) :
    xs.map meaning = ys.map meaning ∧ t = u := by
  cases xs with
  | nil =>
    cases ys with
    | nil => exact ⟨rfl, h⟩
    | cons y ys =>
      rw [List.map_cons, joinWith_append] at h
      exact absurd h.symm (hyt y List.mem_cons_self _ (hu.follows_following hseparator _))
  | cons x xs =>
    cases ys with
    | nil =>
      rw [List.map_cons, joinWith_append] at h
      exact absurd h (hxu x List.mem_cons_self _ (ht.follows_following hseparator _))
    | cons y ys =>
      -- with a separator in front, the first item is like all others
      refine following_apart hitems hseparator ht hu (congrArg (separator ++ ·) ?_)
      rwa [List.map_cons, List.map_cons, joinWith_append, joinWith_append] at h

/-- Items that anything can follow, up to the character that closes the row. -/
theorem joinWith_apart_closed {close : Char} {r s : List Char} {xs ys : List α}
    (hitems : ∀ x y, ToldApart (fun _ => True) write id x y)
    (hseparator : ∀ v w, separator ++ v ≠ close :: w) (hstart : ∀ x v w, write x ++ v ≠ close :: w)
    (h : joinWith separator (xs.map write) ++ close :: r =
      joinWith separator (ys.map write) ++ close :: s) : xs = ys ∧ r = s := by
  have hcloses : ∀ v : List Char, Closes (fun _ => True) separator (close :: v) := by
    intro v
    refine ⟨trivial, ?_⟩
    rintro ⟨w, hw⟩
    exact hseparator w v hw
  obtain ⟨hxy, hrs⟩ := joinWith_apart (fun x _ y _ => hitems x y) (fun _ => trivial)
    (hcloses r) (hcloses s) (fun x _ v _ => hstart x v s) (fun y _ v _ => hstart y v r) h
  rw [List.map_id, List.map_id] at hxy
  exact ⟨hxy, (List.cons.inj hrs).2⟩

end Rows

/-! ### Strings and integers -/

namespace Quoted

theorem escape_cases (c : Char) : (c = '\'' ∨ c = '\\') ∧ escape c = ['\\', c] ∨
    c = '\n' ∧ escape c = ['\\', 'n'] ∨ (c ≠ '\'' ∧ c ≠ '\\') ∧ escape c = [c] := by
  unfold escape
  by_cases hmark : c = '\'' ∨ c = '\\'
  · exact .inl ⟨hmark, if_pos hmark⟩
  · rw [if_neg hmark]
    by_cases hline : c = '\n'
    · exact .inr (.inl ⟨hline, if_pos hline⟩)
    · exact .inr (.inr ⟨not_or.mp hmark, if_neg hline⟩)

/-- No character starts with the closing quote. -/
theorem escape_ne_quote (c : Char) (r s : List Char) : escape c ++ r ≠ '\'' :: s := by
  intro h
  rcases escape_cases c with ⟨-, he⟩ | ⟨-, he⟩ | ⟨hc, he⟩
  · rw [he] at h
    exact absurd (List.cons.inj h).1 (by decide)
  · rw [he] at h
    exact absurd (List.cons.inj h).1 (by decide)
  · rw [he] at h
    exact hc.1 (List.cons.inj h).1

/-- A backslash starts two characters, any other character stands for itself. -/
theorem escape_apart (c d : Char) {r s : List Char} (h : escape c ++ r = escape d ++ s) :
    c = d ∧ r = s := by
  rcases escape_cases c with ⟨hc, he⟩ | ⟨rfl, he⟩ | ⟨hc, he⟩ <;>
    rcases escape_cases d with ⟨hd, he'⟩ | ⟨rfl, he'⟩ | ⟨hd, he'⟩ <;>
    simp only [he, he', List.cons_append, List.nil_append, List.cons.injEq, true_and] at h
  · exact h
  · obtain ⟨rfl, -⟩ := h
    exact absurd hc (by decide)
  · exact absurd h.1.symm hd.2
  · obtain ⟨rfl, -⟩ := h
    exact absurd hd (by decide)
  · exact ⟨rfl, h⟩
  · exact absurd h.1.symm hd.2
  · exact absurd h.1 hc.2
  · exact absurd h.1 hc.2
  · exact h

/-- A quoted string ends at its closing quote. -/
theorem write_apart (a b : List Char) {r s : List Char} (h : write a ++ r = write b ++ s) :
    a = b ∧ r = s := by
  have hbody : a.flatMap escape ++ '\'' :: r = b.flatMap escape ++ '\'' :: s := by
    have htail := List.tail_eq_of_cons_eq h
    simpa using htail
  clear h
  induction a generalizing b with
  | nil =>
    cases b with
    | nil => exact ⟨rfl, (List.cons.inj hbody).2⟩
    | cons d b =>
      rw [List.flatMap_cons, List.append_assoc] at hbody
      exact absurd hbody.symm (escape_ne_quote d _ _)
  | cons c a ih =>
    cases b with
    | nil =>
      rw [List.flatMap_cons, List.append_assoc] at hbody
      exact absurd hbody (escape_ne_quote c _ _)
    | cons d b =>
      rw [List.flatMap_cons, List.flatMap_cons, List.append_assoc, List.append_assoc] at hbody
      obtain ⟨rfl, hrest⟩ := escape_apart c d hbody
      obtain ⟨rfl, htail⟩ := ih b hrest
      exact ⟨rfl, htail⟩

end Quoted

theorem quoted_apart {a b : String} {r s : List Char} (h : quoted a ++ r = quoted b ++ s) :
    a = b ∧ r = s := by
  obtain ⟨hab, hrs⟩ := Quoted.write_apart _ _ h
  exact ⟨String.toList_inj.mp hab, hrs⟩

namespace Numeral

/-- The characters of integers. -/
def isNumeric (c : Char) : Bool := isDecimalDigit c || c = '-'

theorem isNumeric_of_mem_decimal {n : Int} {c : Char} (h : c ∈ decimal n) : isNumeric c = true := by
  have hdigits : ∀ c ∈ digits 10 n.natAbs, isNumeric c = true := by
    intro c hc
    rw [isNumeric, isDecimalDigit_of_mem_digits hc]
    rfl
  unfold decimal at h
  split at h
  · rcases List.mem_cons.mp h with rfl | h
    · rfl
    · exact hdigits c h
  · exact hdigits c h

/-- An integer ends where no further digit stands. -/
theorem decimal_apart {m n : Int} {r s : List Char} (hr : ∀ c ∈ r.head?, isNumeric c = false)
    (hs : ∀ c ∈ s.head?, isNumeric c = false) (h : decimal m ++ r = decimal n ++ s) :
    m = n ∧ r = s := by
  have hspan : ∀ (k : Int) (t : List Char), (∀ c ∈ t.head?, isNumeric c = false) →
      (decimal k ++ t).takeWhile isNumeric = decimal k := by
    intro k t ht
    rw [List.takeWhile_append_of_pos fun c hc => isNumeric_of_mem_decimal hc]
    cases t with
    | nil => simp
    | cons c t => simp [ht c rfl]
  have htexts : decimal m = decimal n := by
    rw [← hspan m r hr, h, hspan n s hs]
  have hread : signed? 10 (decimal m) = signed? 10 (decimal n) := by rw [htexts]
  rw [signed?_decimal, signed?_decimal] at hread
  rw [htexts] at h
  exact ⟨Option.some.inj hread, List.append_cancel_left h⟩

end Numeral

end ShellExpr
