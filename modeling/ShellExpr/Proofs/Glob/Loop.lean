import ShellExpr.Proofs.Basics
import ShellExpr.Proofs.Glob.Matching

/-!
# The loop over positions

Matching as a loop over a position in the pattern and one in the text, with nothing read ahead of
time: a bracket expression is read anew whenever a character is tried on it. A position may run past
the end of the pattern here, so that it never does is something to prove.

* `Cursor.step`: one round of the loop.
* `Halts`: the loop comes to an end with an answer.
* `Cursor.Within.step`: positions stay inside the pattern and the text.
* `isMatch_complete`: **the loop ends, inside the pattern, and answers whether the text matches.**
-/

namespace ShellExpr.Glob

variable {p text cs rest : List Char} {c : Char} {i j : Nat}

/-! ### One element at a position -/

/-- Whether the character is listed from position `i` up to the closing bracket, and the position
behind that. The list begins at `start`, where a closing bracket is an ordinary character. -/
def listed? (p : List Char) (c : Char) (start i : Nat) (found : Bool) : Option (Bool × Nat) :=
  match _h : p[i]? with
  | none => none
  | some a =>
    if a = ']' ∧ start < i then some (found, i + 1)
    else
      match p[i + 1]?, p[i + 2]? with
      | some '-', some b =>
        if b ≠ ']' then listed? p c start (i + 3) (found || (a ≤ c && c ≤ b))
        else listed? p c start (i + 1) (found || a = c)
      | _, _ => listed? p c start (i + 1) (found || a = c)
termination_by p.length - i
decreasing_by
  all_goals
    have := (List.getElem?_eq_some_iff.mp _h).1
    omega

/-- Whether the character is one of the bracket expression whose opening bracket stands before the
position, and the position behind the expression; nothing if it is never closed. -/
def class? (p : List Char) (c : Char) (i : Nat) : Option (Bool × Nat) :=
  let negated := p[i]? = some '!' ∨ p[i]? = some '^'
  let start := if negated then i + 1 else i
  (listed? p c start start false).map fun (found, next) => (found != negated, next)

/-- The position behind the element at a position that accepts the character. -/
def next? (p : List Char) (c : Char) (i : Nat) : Option Nat :=
  match p[i]? with
  | none => none
  | some '?' => some (i + 1)
  | some '[' =>
    match class? p c (i + 1) with
    | some (true, next) => some next
    | some (false, _) => none
    | none => if c = '[' then some (i + 1) else none
  | some '\\' =>
    match p[i + 1]? with
    | some d => if d = c then some (i + 2) else none
    | none => if c = '\\' then some (i + 1) else none
  | some d => if d = c then some (i + 1) else none

/-! ### The loop -/

/-- Where the loop stands: a position in the pattern and one in the text, and for the most recent
star the position behind it and the position in the text from which the rest was last tried. -/
structure Cursor where
  pattern : Nat := 0
  text : Nat := 0
  star : Option (Nat × Nat) := none

/-- One round of the loop, which gives the next cursor or the answer. -/
def Cursor.step (p text : List Char) (s : Cursor) : Cursor ⊕ Bool :=
  match text[s.text]? with
  | none => .inr ((p.drop s.pattern).all (· = '*'))
  | some c =>
    if p[s.pattern]? = some '*' then
      .inl { s with pattern := s.pattern + 1, star := some (s.pattern + 1, s.text) }
    else
      match next? p c s.pattern with
      | some next => .inl { s with pattern := next, text := s.text + 1 }
      | none =>
        match s.star with
        | some (after, resume) => .inl ⟨after, resume + 1, some (after, resume + 1)⟩
        | none => .inr false

/-- The cursors that the loop comes to. -/
inductive Visits (p text : List Char) : Cursor → Prop
  | start : Visits p text {}
  | step {s s' : Cursor} : Visits p text s → s.step p text = .inl s' → Visits p text s'

/-- From a cursor on, the loop ends with an answer. -/
inductive Halts (p text : List Char) : Cursor → Bool → Prop
  | done {s : Cursor} {b : Bool} : s.step p text = .inr b → Halts p text s b
  | next {s s' : Cursor} {b : Bool} : s.step p text = .inl s' → Halts p text s' b → Halts p text s b

/-! ### Positions stay inside -/

theorem lt_of_getElem? {a : Char} (h : p[i]? = some a) : i < p.length :=
  (List.getElem?_eq_some_iff.mp h).1

theorem listed?_le {start : Nat} {found : Bool} {r : Bool × Nat}
    (h : listed? p c start i found = some r) : r.2 ≤ p.length := by
  fun_induction listed? p c start i found with
  | case1 => contradiction
  | case2 i found a ha _ =>
    obtain rfl := Option.some.inj h
    exact lt_of_getElem? ha
  | case3 i found a ha _ b _ _ _ ih => exact ih h
  | case4 i found a ha _ b _ _ _ ih => exact ih h
  | case5 i found a ha _ _ ih => exact ih h

theorem next?_le (h : next? p c i = some j) : j ≤ p.length := by
  unfold next? at h
  split at h
  · contradiction
  · rename_i ha
    have := lt_of_getElem? ha
    simp at h
    omega
  · rename_i ha
    have := lt_of_getElem? ha
    split at h
    · rename_i next hclass
      obtain rfl := Option.some.inj h
      obtain ⟨r, hr, heq⟩ := Option.map_eq_some_iff.mp hclass
      obtain rfl : r.2 = next := congrArg Prod.snd heq
      exact listed?_le hr
    · contradiction
    · simp at h
      omega
  · rename_i ha
    have := lt_of_getElem? ha
    split at h
    · rename_i d hd
      have := lt_of_getElem? hd
      simp at h
      omega
    · simp at h
      omega
  · rename_i ha
    have := lt_of_getElem? ha
    simp at h
    omega

/-- The positions are inside the pattern and the text, and the star does not resume behind the
position in the text. -/
structure Cursor.Within (p text : List Char) (s : Cursor) : Prop where
  pattern : s.pattern ≤ p.length
  text : s.text ≤ text.length
  star : ∀ r ∈ s.star, r.1 ≤ p.length ∧ r.2 ≤ s.text

/-- **A round keeps the positions inside.** -/
theorem Cursor.Within.step {s s' : Cursor} (h : s.Within p text)
    (hstep : s.step p text = .inl s') : s'.Within p text := by
  unfold Cursor.step at hstep
  split at hstep
  · contradiction
  rename_i c hc
  have ht : s.text < text.length := lt_of_getElem? hc
  split at hstep
  · rename_i ha
    have hp : s.pattern < p.length := lt_of_getElem? ha
    obtain rfl := Sum.inl.inj hstep
    refine ⟨hp, h.text, fun r hr => ?_⟩
    obtain rfl := Option.some.inj hr
    exact ⟨hp, Nat.le_refl _⟩
  split at hstep
  · rename_i next hnext
    obtain rfl := Sum.inl.inj hstep
    refine ⟨next?_le hnext, ht, fun r hr => ?_⟩
    have := h.star r hr
    exact ⟨this.1, by simp; omega⟩
  split at hstep
  · rename_i after resume hs
    obtain rfl := Sum.inl.inj hstep
    have hr := h.star (after, resume) hs
    simp only at hr
    refine ⟨hr.1, by simp only; omega, fun r hr' => ?_⟩
    obtain rfl := Option.some.inj hr'
    exact ⟨hr.1, Nat.le_refl _⟩
  · contradiction

theorem Visits.within {s : Cursor} (h : Visits p text s) : s.Within p text := by
  induction h with
  | start => exact ⟨Nat.zero_le _, Nat.zero_le _, by simp⟩
  | step _ hstep ih => exact ih.step hstep

/-! ### The loop goes by the same rules -/

/-- At a position that opens no range, a character is read for itself. -/
theorem ranges?_drop {a : Char} {start : Nat} (ha : p[i]? = some a) (hi : start ≤ i)
    (hopen : ¬ (a = ']' ∧ start < i))
    (halone : ∀ b rest, p.drop (i + 1) = '-' :: b :: rest → b = ']') :
    ranges? (.nothing (i = start)) (p.drop i) =
      (ranges? (.nothing (i + 1 = start)) (p.drop (i + 1))).map fun r => ((a, a) :: r.1, r.2) := by
  have hstart : decide (i = start) = false → a ≠ ']' := by
    intro h ha
    exact hopen ⟨ha, by simp at h; omega⟩
  have hlater : decide (i + 1 = start) = false := by
    rw [decide_eq_false_iff_not]
    omega
  rw [drop_of_getElem? ha, ranges?_open hstart, ranges?_single_alone halone, hlater]

/-- Listing from a position is reading the ranges there. -/
theorem listed?_eq {start : Nat} {found : Bool} (hi : start ≤ i) :
    listed? p c start i found = (ranges? (.nothing (i = start)) (p.drop i)).map fun r =>
      (found || r.1.any fun r => r.1 ≤ c && c ≤ r.2, p.length - r.2.length) := by
  have hself : ∀ a : Char, (decide (a ≤ c) && decide (c ≤ a)) = decide (a = c) := by
    intro a
    by_cases h : a = c
    · subst h
      simp
    · have : ¬ (a ≤ c ∧ c ≤ a) := fun hc => h (Char.le_antisymm hc.1 hc.2)
      simp [h]
      exact fun h1 => Char.not_le.mp fun h2 => this ⟨h1, h2⟩
  fun_induction listed? p c start i found with
  | case1 i found hnone =>
    have hnil : p.drop i = [] := List.drop_eq_nil_iff.mpr (List.getElem?_eq_none_iff.mp hnone)
    rw [hnil]
    rfl
  | case2 i found a ha hclose =>
    obtain ⟨rfl, hlt⟩ := hclose
    have hlen := lt_of_getElem? ha
    have hne : ¬ i = start := by omega
    have hpos : p.length - (p.length - (i + 1)) = i + 1 := by omega
    rw [drop_of_getElem? ha]
    simp [ranges?, hne, hpos]
  | case3 i found a ha hopen b hb hdash hne ih =>
    have hdrop : p.drop i = a :: '-' :: b :: p.drop (i + 3) := by
      rw [drop_of_getElem? ha, drop_of_getElem? hdash, drop_of_getElem? hb]
    have hstart : decide (i = start) = false → a ≠ ']' := by
      intro h ha
      exact hopen ⟨ha, by simp at h; omega⟩
    have hlater : ¬ i + 3 = start := by omega
    rw [ih (by omega), hdrop, ranges?_open hstart, ranges?_single_range hne, Option.map_map]
    simp [hlater, Function.comp_def, Bool.or_assoc]
  | case4 i found a ha hopen b hb hdash hbracket ih =>
    obtain rfl : b = ']' := not_not.mp hbracket
    have halone : ∀ b rest, p.drop (i + 1) = '-' :: b :: rest → b = ']' := by
      intro b rest heq
      have := getElem?_of_drop heq 1
      rw [Nat.add_assoc, hb] at this
      exact (Option.some.inj this).symm
    rw [ih (by omega), ranges?_drop ha hi hopen halone, Option.map_map]
    simp [Function.comp_def, Bool.or_assoc, hself]
  | case5 i found a ha hopen hno ih =>
    have halone : ∀ b rest, p.drop (i + 1) = '-' :: b :: rest → b = ']' := by
      intro b rest heq
      exact (hno b (getElem?_of_drop heq 0) (getElem?_of_drop heq 1)).elim
    rw [ih (by omega), ranges?_drop ha hi hopen halone, Option.map_map]
    simp [Function.comp_def, Bool.or_assoc, hself]

/-- What follows a bracket expression is the end of the pattern from some position on. -/
theorem suffix_of_bracket? {r : Element × List Char} (h : bracket? cs = some r) : r.2 <:+ cs := by
  obtain ⟨negated, body, henc, -⟩ := encloses_of_bracket? h
  generalize r.2 = rest at henc
  cases henc with
  | @plain first more => exact ⟨first :: more ++ [']'], by simp⟩
  | @negated sign first more => exact ⟨sign :: first :: more ++ [']'], by simp⟩

/-- A bracket expression at a position is the one read there. -/
theorem class?_eq (p : List Char) (c : Char) (i : Nat) : class? p c i =
    (bracket? (p.drop i)).map fun r => (r.1.accepts c, p.length - r.2.length) := by
  unfold class?
  cases hdrop : p.drop i with
  | nil =>
    have hnone : p[i]? = none := by simpa using getElem?_of_drop hdrop 0
    simp [hnone, listed?_eq, hdrop, ranges?, bracket?]
  | cons a cs =>
    have ha : p[i]? = some a := by simpa using getElem?_of_drop hdrop 0
    have hcs : p.drop (i + 1) = cs := drop_of_drop hdrop
    by_cases hsign : a = '!' ∨ a = '^'
    · have hbracket : bracket? (a :: cs) =
          (ranges? (.nothing true) cs).map fun r => (.set true r.1, r.2) := by
        rcases hsign with rfl | rfl <;> rfl
      simp only [ha, Option.some.injEq, hsign, decide_true, if_true, listed?_eq (Nat.le_refl _),
        hcs, hbracket, Option.map_map]
      rfl
    · have hbracket : bracket? (a :: cs) =
          (ranges? (.nothing true) (a :: cs)).map fun r => (.set false r.1, r.2) := by
        rw [not_or] at hsign
        unfold bracket?
        split
        · rename_i heq
          exact absurd (List.cons.inj heq).1 hsign.1
        · rename_i heq
          exact absurd (List.cons.inj heq).1 hsign.2
        · rfl
      simp only [ha, Option.some.injEq, hsign, decide_false, if_false,
        listed?_eq (Nat.le_refl _), decide_true, hdrop, hbracket, Option.map_map]
      rfl

/-- Behind a bracket expression the pattern goes on with what follows it. -/
theorem drop_of_bracket? {r : Element × List Char} (hdrop : p.drop i = cs)
    (h : bracket? cs = some r) : p.drop (p.length - r.2.length) = r.2 := by
  have hsuffix : r.2 <:+ p := (suffix_of_bracket? h).trans (hdrop ▸ List.drop_suffix i p)
  exact (List.suffix_iff_eq_drop.mp hsuffix).symm

/-- What is tried at a position is the first element there, and the others stand behind it. -/
theorem next?_elements {e : Element} {es : List Element} (h : elements (p.drop i) = e :: es)
    (he : e ≠ .star) :
    if e.accepts c then ∃ j, next? p c i = some j ∧ elements (p.drop j) = es
    else next? p c i = none := by
  generalize hdrop : p.drop i = cs at h
  have hread : Reads cs (e :: es) := reads_iff.mpr h
  have hhead : ∀ {a : Char} {ds : List Char}, cs = a :: ds →
      p[i]? = some a ∧ p[i + 1]? = ds[0]? ∧ p.drop (i + 1) = ds := by
    rintro a ds rfl
    exact ⟨by simpa using getElem?_of_drop hdrop 0, getElem?_of_drop hdrop 1, drop_of_drop hdrop⟩
  cases hread with
  | star => contradiction
  | one hes =>
    obtain ⟨ha, -, hds⟩ := hhead rfl
    simpa [Element.accepts, next?, ha, hds] using reads_iff.mp hes
  | @escaped d ds es hes =>
    obtain ⟨ha, hd, hds⟩ := hhead rfl
    have hds : p.drop (i + 2) = ds := drop_of_drop hds
    have hd : p[i + 1]? = some d := hd
    by_cases hc : d = c
    · simpa [Element.accepts, next?, ha, hd, hc, hds] using reads_iff.mp hes
    · simp [Element.accepts, next?, ha, hd, hc]
  | backslash =>
    obtain ⟨ha, hd, hds⟩ := hhead rfl
    have hd : p[i + 1]? = none := hd
    by_cases hc : c = '\\'
    · simp [Element.accepts, next?, ha, hd, hc, hds, elements]
    · simp [Element.accepts, next?, ha, hd, hc, Ne.symm hc]
  | @bracket ds negated body rest es henc hes =>
    obtain ⟨ha, -, hds⟩ := hhead rfl
    have hbracket := bracket?_of_encloses henc
    have hrest : p.drop (p.length - rest.length) = rest := drop_of_bracket? hds hbracket
    have hclass := class?_eq p c (i + 1)
    rw [hds, hbracket, Option.map_some] at hclass
    generalize Element.set negated (members body) = e at hclass
    cases hacc : e.accepts c with
    | true => simpa [next?, ha, hclass, hacc, hrest] using reads_iff.mp hes
    | false => simp [next?, ha, hclass, hacc]
  | @unclosed ds es hno hes =>
    obtain ⟨ha, -, hds⟩ := hhead rfl
    have hclass := class?_eq p c (i + 1)
    rw [hds, bracket?_eq_none_iff.mpr hno, Option.map_none] at hclass
    by_cases hc : c = '['
    · subst hc
      simpa [Element.accepts, next?, ha, hclass, hds] using reads_iff.mp hes
    · simp [Element.accepts, next?, ha, hclass, hc, Ne.symm hc]
  | @ordinary d ds es h1 h2 h3 h4 hes =>
    obtain ⟨ha, -, hds⟩ := hhead rfl
    by_cases hc : d = c
    · subst hc
      simpa [Element.accepts, next?, ha, h2, h3, h4, hds] using reads_iff.mp hes
    · simp [Element.accepts, next?, ha, hc]

/-- At the end of the pattern nothing is tried. -/
theorem next?_nil (h : elements (p.drop i) = []) : next? p c i = none := by
  have hread : Reads (p.drop i) [] := reads_iff.mpr h
  generalize hdrop : p.drop i = cs at hread
  cases hread with
  | nil =>
    have hnone : p[i]? = none := by simpa using getElem?_of_drop hdrop 0
    simp [next?, hnone]

/-- A star is read where a star stands. -/
theorem getElem?_eq_star {es : List Element} :
    elements (p.drop i) = .star :: es ↔ p[i]? = some '*' ∧ elements (p.drop (i + 1)) = es := by
  constructor
  · intro h
    have hread : Reads (p.drop i) (.star :: es) := reads_iff.mpr h
    generalize hdrop : p.drop i = cs at hread
    cases hread with
    | star hes =>
      refine ⟨by simpa using getElem?_of_drop hdrop 0, ?_⟩
      rw [drop_of_drop hdrop]
      exact reads_iff.mp hes
  · rintro ⟨ha, rfl⟩
    rw [drop_of_getElem? ha, elements]

/-- A pattern is read as stars alone if it is made of stars alone. -/
theorem all_isStar_elements (cs : List Char) :
    (elements cs).all Element.isStar = cs.all (· = '*') := by
  have hread := reads_elements cs
  generalize elements cs = es at hread
  induction hread with
  | nil => rfl
  | star _ ih => simp [Element.isStar, ih]
  | ordinary h1 => simp [Element.isStar, h1]
  | _ => simp [Element.isStar]

/-- Where the elements cannot go on, nothing is tried with success. -/
theorem next?_of_refuses (h : Refuses (elements (p.drop i)) c) :
    p[i]? ≠ some '*' ∧ next? p c i = none := by
  refine ⟨fun ha => ?_, ?_⟩
  · exact (h _ _ (getElem?_eq_star.mpr ⟨ha, rfl⟩)).1 rfl
  · cases hes : elements (p.drop i) with
    | nil => exact next?_nil hes
    | cons e es =>
      obtain ⟨he, hc⟩ := h e es hes
      simpa [hc] using @next?_elements _ c _ e es hes he

/-- The elements left, the text left and what to resume from, as a cursor has them. -/
structure Cursor.Shows (p text : List Char) (s : Cursor) (es : List Element) (t : List Char)
    (resume : Option Resume) : Prop where
  pattern : elements (p.drop s.pattern) = es
  rest : text.drop s.text = t
  star : (s.star.map fun r => (⟨elements (p.drop r.1), text.drop r.2⟩ : Resume)) = resume

/-- **The loop comes to the answer of the rules.** -/
theorem Runs.halts {es : List Element} {t : List Char} {resume : Option Resume} {b : Bool}
    (h : Runs es t resume b) :
    ∀ {s : Cursor}, s.Within p text → s.Shows p text es t resume → Halts p text s b := by
  have hchar : ∀ {s : Cursor} {c rest}, text.drop s.text = c :: rest → text[s.text]? = some c :=
    fun ht => by simpa using getElem?_of_drop ht 0
  induction h with
  | @finish es resume =>
    intro s _ hs
    have hnone : text[s.text]? = none := by simpa using getElem?_of_drop hs.rest 0
    refine .done ?_
    rw [Cursor.step, hnone, ← hs.pattern, all_isStar_elements]
  | @star tail c rest resume b _ ih =>
    intro s hw hs
    obtain ⟨ha, htail⟩ := getElem?_eq_star.mp hs.pattern
    have hstep : s.step p text =
        .inl { s with pattern := s.pattern + 1, star := some (s.pattern + 1, s.text) } := by
      rw [Cursor.step, hchar hs.rest]
      simp only [if_pos ha]
    refine .next hstep (ih (hw.step hstep) ⟨htail, hs.rest, ?_⟩)
    simp [htail, hs.rest]
  | @take e tail c rest resume b he hc _ ih =>
    intro s hw hs
    have ha : p[s.pattern]? ≠ some '*' := fun ha => by
      have hstar := getElem?_eq_star.mpr ⟨ha, rfl⟩
      rw [hs.pattern] at hstar
      exact he (List.cons.inj hstar).1
    have hnext := @next?_elements _ c _ e tail hs.pattern he
    rw [if_pos hc] at hnext
    obtain ⟨j, hj, htail⟩ := hnext
    have hstep : s.step p text = .inl { s with pattern := j, text := s.text + 1 } := by
      rw [Cursor.step, hchar hs.rest]
      simp only [if_neg ha, hj]
    exact .next hstep (ih (hw.step hstep) ⟨htail, drop_of_drop hs.rest, hs.star⟩)
  | @retry es c rest after d less b hc _ ih =>
    intro s hw hs
    have hes := hs.pattern
    subst hes
    obtain ⟨ha, hnone⟩ := next?_of_refuses hc
    obtain ⟨⟨i, j⟩, hstar, heq⟩ := Option.map_eq_some_iff.mp hs.star
    obtain ⟨hafter, hless⟩ := Resume.mk.inj heq
    have hless : text.drop (j + 1) = less := drop_of_drop hless
    have hstep : s.step p text = .inl ⟨i, j + 1, some (i, j + 1)⟩ := by
      rw [Cursor.step, hchar hs.rest]
      simp only [if_neg ha, hnone, hstar]
    refine .next hstep (ih (hw.step hstep) ⟨hafter, hless, ?_⟩)
    simp [hafter, hless]
  | @stuck es c rest resume hc hnil =>
    intro s hw hs
    have hes := hs.pattern
    subst hes
    obtain ⟨ha, hnone⟩ := next?_of_refuses hc
    have hlt : s.text < text.length := lt_of_getElem? (hchar hs.rest)
    have hstar : s.star = none := by
      cases hstar : s.star with
      | none => rfl
      | some r =>
        -- the star resumes no later than here, where there is text left
        have hle := (hw.star r hstar).2
        have := hnil _ (by rw [← hs.star, hstar]; rfl)
        rw [List.drop_eq_nil_iff] at this
        omega
    refine .done ?_
    rw [Cursor.step, hchar hs.rest]
    simp only [if_neg ha, hnone, hstar]

/-- **The loop comes to an end and never leaves the pattern, and it answers whether the text splits
into pieces that the elements of the pattern match.** -/
theorem isMatch_complete (pattern text : List Char) :
    Halts pattern text {} (isMatch pattern text) ∧
      (∀ s, Visits pattern text s → s.pattern ≤ pattern.length ∧ s.text ≤ text.length) ∧
      (isMatch pattern text = true ↔ Denotes pattern text) := by
  refine ⟨?_, fun s hs => ⟨hs.within.pattern, hs.within.text⟩, isMatch_iff⟩
  have hrun := runs_run (elements pattern) text none (by simp)
  exact hrun.halts Visits.start.within ⟨rfl, rfl, rfl⟩

end ShellExpr.Glob
