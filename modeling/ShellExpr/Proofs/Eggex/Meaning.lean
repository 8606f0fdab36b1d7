import ShellExpr.Proofs.Basics
import ShellExpr.Proofs.Eggex.Language
import ShellExpr.Proofs.Number.Numeral

/-!
# What a rendered eggex matches

The renderer puts parentheses around the child of a repetition where it takes it to be more than one
atom. It overlooks a child without any text and a sequence whose only item has several atoms.

* `reads`: a rendering is read as the factors of the tree.
* `render_keepsMeaning`: the renderer keeps the meaning of a tree, whatever the counts in it,
  exactly if every count in it counts the whole child.
-/

namespace ShellExpr

open Pattern Pattern.Assembly

/-! ### Counts -/

namespace Count

theorem not_blank_of_digit {c : Char} (h : Numeral.isDecimalDigit c = true) :
    Blank.isBlank c = false := by
  have hc : 48 ≤ c.toNat ∧ c.toNat ≤ 57 := by
    simpa [Numeral.isDecimalDigit, Char.le_def, UInt32.le_iff_toNat_le] using h
  simp [Blank.isBlank]
  omega

/-- A number is read as a bound if it fits into 32 bits. -/
theorem bound?_digits (n : Nat) {c : Char} (k : List Char)
    (hc : Numeral.isDecimalDigit c = false) (hb : Blank.isBlank c = false) :
    Lexeme.bound? (Numeral.digits 10 n ++ c :: k) =
      if n < 2 ^ 32 then some (n, c :: k) else none := by
  have hall : ∀ d ∈ Numeral.digits 10 n, Numeral.isDecimalDigit d = true :=
    fun d hd => Numeral.isDecimalDigit_of_mem_digits hd
  -- no blanks before the digits, and the digits end where they should
  have hblank : (Numeral.digits 10 n ++ c :: k).dropWhile Blank.isBlank =
      Numeral.digits 10 n ++ c :: k := by
    obtain ⟨d, ds, hds⟩ := List.exists_cons_of_ne_nil (Numeral.digits_ne_nil 10 n)
    have hd := not_blank_of_digit (hall d (by simp [hds]))
    rw [hds, List.cons_append, List.dropWhile_cons_of_neg (by simp [hd])]
  have hvalue : Numeral.value? 10 (Numeral.digits 10 n) = some n :=
    Numeral.value?_digits (by omega) (by omega) n
  unfold Lexeme.bound?
  simp only [hblank]
  rw [List.takeWhile_append_of_pos hall, List.dropWhile_append_of_pos hall,
    List.takeWhile_cons_of_neg (by simp [hc]), List.dropWhile_cons_of_neg (by simp [hc]),
    List.dropWhile_cons_of_neg (by simp [hb]), List.append_nil, hvalue, Option.filter_some]
  by_cases h : n < 2 ^ 32
  · rw [decide_eq_true h, if_pos h]
    rfl
  · rw [decide_eq_false h, if_neg h]
    rfl

theorem counted?_exactly (n : Nat) (k : List Char) :
    Lexeme.counted? (Numeral.digits 10 n ++ '\x7d' :: k) =
      if n < 2 ^ 32 then some (Lexeme.repetition n (some n) k) else none := by
  unfold Lexeme.counted?
  rw [bound?_digits n k rfl rfl]
  split <;> rfl

theorem counted?_atLeast (n : Nat) (k : List Char) :
    Lexeme.counted? (Numeral.digits 10 n ++ ',' :: '\x7d' :: k) =
      if n < 2 ^ 32 then some (Lexeme.repetition n none k) else none := by
  unfold Lexeme.counted?
  rw [bound?_digits n _ rfl rfl]
  split <;> rfl

theorem counted?_between (n m : Nat) (k : List Char) :
    Lexeme.counted? (Numeral.digits 10 n ++ ',' :: (Numeral.digits 10 m ++ '\x7d' :: k)) =
      if n < 2 ^ 32 ∧ n ≤ m ∧ m < 2 ^ 32 then some (Lexeme.repetition n (some m) k) else none := by
  unfold Lexeme.counted?
  rw [bound?_digits n _ rfl rfl]
  by_cases hn : n < 2 ^ 32
  · rw [if_pos hn]
    -- a digit stands behind the comma, no closing brace, so there is a second bound
    obtain ⟨d, ds, hds⟩ := List.exists_cons_of_ne_nil (Numeral.digits_ne_nil 10 m)
    have hd : d ≠ '\x7d' := by
      rintro rfl
      have := Numeral.isDecimalDigit_of_mem_digits (n := m) (c := '\x7d') (by simp [hds])
      simp [Numeral.isDecimalDigit] at this
    have hbound := bound?_digits m (c := '\x7d') k rfl rfl
    rw [hds, List.cons_append] at hbound ⊢
    simp only [Option.bind_eq_bind, Option.bind_some]
    split
    · rename_i heq
      simp at heq
    · rename_i heq
      exact absurd (List.cons.inj (List.cons.inj heq).2).1 hd
    · rename_i rest _ heq
      obtain rfl : d :: (ds ++ '\x7d' :: k) = rest := (List.cons.inj heq).2
      rw [hbound]
      by_cases hm : m < 2 ^ 32
      · by_cases hle : n ≤ m
        · rw [if_pos hm, if_pos ⟨hn, hle, hm⟩, Option.bind_some]
          exact if_pos hle
        · rw [if_pos hm, if_neg fun h => hle h.2.1, Option.bind_some]
          exact if_neg hle
      · rw [if_neg hm, if_neg fun h => hm h.2.2]
        rfl
    · rename_i hno
      exact absurd rfl (hno _)
  · rw [if_neg hn, if_neg fun h => hn h.1]
    rfl

/-- **A rendered count is read as its bounds** if they are in order, and is rejected if not. -/
theorem read?_render_eq (count : Count) (k : List Char) : Lexeme.read? (count.render ++ k) =
    if count.isOrdered then some (Lexeme.repetition count.bounds.1 count.bounds.2 k) else none := by
  cases count with
  | star | plus | question => rfl
  | exactly n =>
    have htext : (exactly n).render ++ k = '\x7b' :: (Numeral.digits 10 n ++ '\x7d' :: k) := by
      simp [render]
    have hordered : (exactly n).isOrdered = true ↔ n < 2 ^ 32 := by
      simp [isOrdered_iff, bounds]
    rw [htext]
    show Lexeme.counted? _ = _
    rw [counted?_exactly]
    simp only [hordered]
    rfl
  | between lower upper =>
    cases upper with
    | none =>
      have htext : (between lower none).render ++ k =
          '\x7b' :: (Numeral.digits 10 (lower.getD 0) ++ ',' :: '\x7d' :: k) := by
        simp [render]
      have hordered : (between lower none).isOrdered = true ↔ lower.getD 0 < 2 ^ 32 := by
        simp [isOrdered_iff, bounds]
      rw [htext]
      show Lexeme.counted? _ = _
      rw [counted?_atLeast]
      simp only [hordered]
      rfl
    | some m =>
      have htext : (between lower (some m)).render ++ k = '\x7b' ::
          (Numeral.digits 10 (lower.getD 0) ++ ',' :: (Numeral.digits 10 m ++ '\x7d' :: k)) := by
        simp [render]
      have hordered : (between lower (some m)).isOrdered = true ↔
          lower.getD 0 < 2 ^ 32 ∧ lower.getD 0 ≤ m ∧ m < 2 ^ 32 := by
        simp [isOrdered_iff, bounds]
      rw [htext]
      show Lexeme.counted? _ = _
      rw [counted?_between]
      simp only [hordered]
      rfl

theorem read?_render {count : Count} (h : count.isOrdered = true) (k : List Char) :
    Lexeme.read? (count.render ++ k) =
      some (Lexeme.repetition count.bounds.1 count.bounds.2 k) := by
  rw [read?_render_eq, if_pos h]

theorem render_eq_question {count : Count} : count.render = ['?'] ↔ count = question := by
  cases count <;> simp [render]

theorem render_ne_nil (count : Count) : count.render ≠ [] := by
  cases count <;> simp [render]

theorem render_head {count : Count} (h : count.render.head? = some '?') : count.render = ['?'] := by
  cases count <;> simp_all [render]

end Count

namespace Eggex

/-! ### Atoms -/

theorem isSpecial_iff {c : Char} : isSpecial c = true ↔ c = '.' ∨ c = '[' ∨ c = ']' ∨ c = '(' ∨
    c = ')' ∨ c = '\x7b' ∨ c = '\x7d' ∨ c = '*' ∨ c = '+' ∨ c = '?' ∨ c = '^' ∨ c = '$' ∨ c = '|' ∨
    c = '\\' := by
  simp [isSpecial]

/-- **An escaped or ordinary character stands for itself**, whatever follows it. -/
theorem read?_renderChar (c : Char) (k : List Char) :
    Lexeme.read? (renderChar c ++ k) = some (Lexeme.literal c, k) := by
  unfold renderChar
  cases h : isSpecial c with
  | true =>
    rw [if_pos rfl]
    obtain rfl | rfl | rfl | rfl | rfl | rfl | rfl | rfl | rfl | rfl | rfl | rfl | rfl | rfl :=
      isSpecial_iff.mp h <;> rfl
  | false =>
    rw [if_neg (by simp), List.singleton_append]
    unfold Lexeme.read?
    simp only
    split <;> simp_all [isSpecial]

theorem spells_renderChar (c : Char) : Spells (renderChar c) [⟨{[c]}, false⟩] := by
  refine spells_of_lexeme ?_ ?_ (read?_renderChar c) fun s hs => ?_
  · unfold renderChar
    split <;> simp
  · unfold renderChar
    cases h : isSpecial c with
    | true => simp
    | false =>
      rintro hc
      obtain rfl : c = '?' := by simpa using hc
      simp [isSpecial] at h
  · refine ⟨.set (.single c), 0, by simp [take?, Lexeme.literal, hs, CharSet.exact], ?_⟩
    have hmem : (CharSet.single c).mem = fun d => decide (c = d) := by
      funext d
      simp [CharSet.mem, eq_comm]
    rw [← oneOf_eq, ← hmem]
    exact denotes_set (.single c)

theorem spells_dot : Spells ['.'] [⟨oneOf (· ≠ '\n'), false⟩] := by
  refine spells_of_lexeme (by simp) (by simp) (fun k => rfl) fun s hs => ?_
  refine ⟨.set s.modes.dot, 0, rfl, ?_⟩
  have hmem : s.modes.dot.mem = fun c => decide (c ≠ '\n') := by
    funext c
    simp [hs, Modes.dot, CharSet.mem]
  rw [← hmem]
  exact denotes_set s.modes.dot

theorem spells_brackets {terms : List ClassTerm} (ht : terms.all ClassTerm.isOrderly = true)
    (hi : terms.any ClassTerm.isInhabited = true) {body : List Char}
    (h : ClassTerm.renderAll terms = .ok body) (negated : Bool) :
    Spells (brackets negated body)
      [⟨oneOf fun c => terms.any (·.denotes c) != negated, false⟩] := by
  obtain ⟨t, -, hread, hmem⟩ := ClassTerm.read?_brackets ht hi h negated
  have hlexeme : ∀ k, Lexeme.read? (brackets negated body ++ k) =
      some (.set t.set t.nesting, k) := by
    intro k
    have htext : brackets negated body ++ k =
        '[' :: ((if negated then ['^'] else []) ++ body ++ ']' :: k) := by
      simp [brackets]
    rw [htext]
    show (Brackets.read? _).map _ = _
    rw [hread]
    rfl
  refine spells_of_lexeme (by simp [brackets]) (by simp [brackets]) hlexeme fun s hs => ?_
  refine ⟨.set t.set.exact, t.nesting, by simp [take?, hs], ?_⟩
  rw [← funext hmem]
  exact denotes_set t.set.exact

/-! ### Trees -/

theorem allRepeated_cons {p : Eggex → Prop} {e : Eggex} {rest : List Eggex}
    (h : ∀ c ∈ allRepeated (e :: rest), p c) :
    (∀ c ∈ e.repeated, p c) ∧ ∀ c ∈ allRepeated rest, p c :=
  ⟨fun c hc => h c (List.mem_append_left _ hc), fun c hc => h c (List.mem_append_right _ hc)⟩

/-- A rendering of the tree, in a sequence and as the whole of a group. -/
structure Reads (e : Eggex) (cs : List Char) : Prop where
  spells : Spells (parens e.isAlt cs) e.factors
  fills : ∃ ls, Fills cs ls ∧ ls.sum = e.language

/-- What is no alternation is one branch. -/
theorem reads_of_spells {e : Eggex} {cs : List Char} (halt : e.isAlt = false) (he : e.Faithful)
    (h : Spells cs e.factors) : Reads e cs := by
  refine ⟨by rw [halt]; exact h, [(e.factors.map Factor.language).prod], h.fills, ?_⟩
  rw [List.sum_singleton, prod_factors e he]

/-- Branches of an alternation. -/
theorem reads_of_fills {items : List Eggex} {cs : List Char} {ls : List (Language Char)}
    (h : Fills cs ls) (hl : ls.sum = (languages items).sum) : Reads (alt items) cs := by
  have hlang : ls.sum = (alt items).language := by rw [hl, language]
  refine ⟨?_, ls, h, hlang⟩
  rw [factors, ← hlang]
  · exact h.capture
  all_goals simp

/-- A group around a tree. -/
theorem Reads.capture {e : Eggex} {cs : List Char} (h : Reads e cs) :
    Spells ('(' :: cs ++ [')']) [⟨e.language, false⟩] := by
  obtain ⟨ls, hf, hl⟩ := h.fills
  rw [← hl]
  exact hf.capture

/-- **A count behind a child** that takes it. -/
theorem Reads.count {child : Eggex} {cs : List Char} (h : Reads child cs)
    (htakes : child.TakesCounts) {count : Count} (hc : count.isOrdered = true) :
    Spells (parens child.needsGroup cs ++ count.render) (rep child count).factors := by
  have hle : ∀ m ∈ count.bounds.2, count.bounds.1 ≤ m :=
    fun m hm => ((Count.isOrdered_iff.mp hc).2 m hm).1
  have hmark : decide (count.render = ['?']) = decide (count = .question) :=
    decide_eq_decide.mpr Count.render_eq_question
  rw [factors]
  -- in parentheses the child is one factor; without them the count is behind its last one
  cases hg : child.needsGroup with
  | true =>
    have hs : Spells ('(' :: cs ++ [')']) ([] ++ [⟨child.language, false⟩]) := h.capture
    have := hs.count count.render_ne_nil hle (Count.read?_render hc) Count.render_head
    rw [hmark, ← countLast_append] at this
    exact this
  | false =>
    rcases htakes with hn | ⟨init, f, hf, -, -⟩
    · rw [hg] at hn
      contradiction
    have halt : child.isAlt = false := by
      cases child <;> first | rfl | simp [needsGroup] at hg
    have hs := h.spells
    rw [halt, hf] at hs
    have := hs.count count.render_ne_nil hle (Count.read?_render hc) Count.render_head
    rw [hmark, ← countLast_append, ← hf] at this
    exact this

theorem spells_literal (cs : List Char) :
    Spells (cs.flatMap renderChar) (cs.map fun c => ⟨{[c]}, false⟩) := by
  induction cs with
  | nil => exact spells_nil
  | cons c cs ih => exact (spells_renderChar c).append ih

mutual

/-- **A rendering is read as the factors of the tree** if every count counts its whole child. -/
theorem reads : (e : Eggex) → e.isRegular = true → e.Faithful → {cs : List Char} →
    e.render = .ok cs → Reads e cs
  | literal text span, _, he, cs, h => by
    obtain rfl := Except.ok.inj h
    exact reads_of_spells rfl he (spells_literal text.toList)
  | primitive .dot span, _, he, cs, h => by
    obtain rfl := Except.ok.inj h
    exact reads_of_spells rfl he spells_dot
  | charClass negated terms, hr, he, cs, h => by
    simp only [isRegular, Bool.and_eq_true] at hr
    obtain ⟨body, hbody, rfl⟩ := ok_of_map h
    exact reads_of_spells rfl he (spells_brackets hr.1 hr.2 hbody negated)
  | seq items, hr, he, cs, h => by
    exact reads_of_spells rfl he (spells_seq items hr he h)
  | alt [], hr, _, cs, h => by
    simp [isRegular] at hr
  | alt (e :: rest), hr, he, cs, h => by
    simp only [isRegular, allRegular, Bool.and_eq_true] at hr
    obtain ⟨xs, hx, h⟩ := ok_of_bind h
    obtain ⟨ys, hy, h⟩ := ok_of_bind h
    obtain rfl := Except.ok.inj h
    have hfaith := allRepeated_cons he
    obtain ⟨ls, hf, hl⟩ := (reads e hr.2.1 hfaith.1 hx).fills
    obtain ⟨ms, hm, hrest⟩ := fills_branches rest hr.2.2 hfaith.2 hy
    refine reads_of_fills (hrest xs ls hf) ?_
    rw [List.sum_append, hl, hm, languages, List.sum_cons]
  | rep child count, hr, he, cs, h => by
    simp only [isRegular, Bool.and_eq_true] at hr
    obtain ⟨xs, hx, rfl⟩ := ok_of_map h
    have hchild : child.Faithful := fun c hc => he c (List.mem_cons_of_mem child hc)
    have htakes : child.TakesCounts := he child List.mem_cons_self
    exact reads_of_spells rfl he ((reads child hr.1 hchild hx).count htakes hr.2)
  | group child, hr, he, cs, h => by
    obtain ⟨xs, hx, rfl⟩ := ok_of_map h
    exact reads_of_spells rfl he (reads child hr he hx).capture
  | capture child name, hr, he, cs, h => by
    obtain ⟨xs, hx, rfl⟩ := ok_of_map h
    exact reads_of_spells rfl he (reads child hr he hx).capture
  | speck .., hr, _, _, _ | token _, hr, _, _, _ | word _, hr, _, _, _ | splice _, hr, _, _, _
  | posix .., hr, _, _, _ | perl .., hr, _, _, _ | primitive .start _, hr, _, _, _
  | primitive .stop _, hr, _, _, _ => by
    simp [isRegular] at hr

/-- Trees in a row. -/
theorem spells_seq : (es : List Eggex) → allRegular es = true →
    (∀ c ∈ allRepeated es, c.TakesCounts) → {cs : List Char} → renderSeq es = .ok cs →
    Spells cs (allFactors es)
  | [], _, _, cs, h => by
    obtain rfl := Except.ok.inj h
    exact spells_nil
  | e :: rest, hr, he, cs, h => by
    simp only [allRegular, Bool.and_eq_true] at hr
    obtain ⟨xs, hx, h⟩ := ok_of_bind h
    obtain ⟨ys, hy, h⟩ := ok_of_bind h
    obtain rfl := Except.ok.inj h
    have hfaith := allRepeated_cons he
    exact (reads e hr.1 hfaith.1 hx).spells.append (spells_seq rest hr.2 hfaith.2 hy)

/-- Further branches, each after a bar. -/
theorem fills_branches : (es : List Eggex) → allRegular es = true →
    (∀ c ∈ allRepeated es, c.TakesCounts) → {ds : List Char} → renderBranches es = .ok ds →
    ∃ ms, ms.sum = (languages es).sum ∧
      ∀ cs ls, Fills cs ls → Fills (cs ++ ds) (ls ++ ms)
  | [], _, _, ds, h => by
    obtain rfl := Except.ok.inj h
    exact ⟨[], rfl, fun cs ls hf => by simpa using hf⟩
  | e :: rest, hr, he, ds, h => by
    simp only [allRegular, Bool.and_eq_true] at hr
    obtain ⟨xs, hx, h⟩ := ok_of_bind h
    obtain ⟨ys, hy, h⟩ := ok_of_bind h
    obtain rfl := Except.ok.inj h
    have hfaith := allRepeated_cons he
    obtain ⟨ls, hf, hl⟩ := (reads e hr.1 hfaith.1 hx).fills
    obtain ⟨ms, hm, hrest⟩ := fills_branches rest hr.2 hfaith.2 hy
    refine ⟨ls ++ ms, ?_, fun cs ks hk => ?_⟩
    · rw [List.sum_append, hl, hm, languages, List.sum_cons]
    · have := hrest _ _ (hk.bar hf)
      simpa using this

end

/-! ### Meaning -/

/-- Whether the rendering of the tree, if it has one, matches the words of the tree and no
others. -/
def KeepsMeaning (e : Eggex) : Prop :=
  ∀ cs, e.render = .ok cs → ∀ text : String, Hits (whole cs) text ↔ text.toList ∈ e.language

/-- Whether the rendering of the tree, if it has one, is not nested too deeply for the matcher. -/
def IsWithinLimit (e : Eggex) : Prop := ∀ cs, e.render = .ok cs → isTooDeep (whole cs) = false

/-- The tree and the children of its repetitions under all counts. -/
def Recounts (e u : Eggex) : Prop :=
  u = e ∨ ∃ c ∈ e.repeated, ∃ count, Count.isOrdered count = true ∧ u = rep c count

/-- A faithful tree keeps its meaning. -/
theorem keepsMeaning_of_faithful {e : Eggex} (hr : e.isRegular = true) (he : e.Faithful)
    (hd : e.IsWithinLimit) : e.KeepsMeaning := by
  intro cs h text
  obtain ⟨ls, hf, hl⟩ := (reads e hr he h).fills
  rw [hf.hits_iff (hd cs h), hl]

/-- A text that hits the words of a language, the empty one among them, denotes that language. -/
theorem prod_of_hits {cs : List Char} {fs : List Factor} {l : Language Char} (hs : Spells cs fs)
    (h : ∀ text : String, Hits (whole cs) text ↔ text.toList ∈ l) (hnil : [] ∈ l) :
    (fs.map Factor.language).prod = l := by
  have hd : isTooDeep (whole cs) = false := by
    by_contra hd
    rw [Bool.not_eq_false] at hd
    have hempty : Hits (whole cs) "" := (h "").mpr hnil
    exact not_hits_of_parse? (parse?_of_isTooDeep hd) "" hempty
  -- word by word, as texts are words
  ext w
  have hw := h (String.ofList w)
  rw [hs.fills.hits_iff hd, List.sum_singleton, String.toList_ofList] at hw
  exact hw

/-- A count without anything before it is rejected. -/
theorem parse?_star : parse? (whole ['*']) = none := by
  rw [parse?_eq, whole, readOn?_of_read (t := .caret) (k := ['(', '*', ')', '$']) rfl (by simp)]
  show ((readOn? _ ['(', '*', ')', '$']).bind _) = none
  rw [readOn?_of_read (t := .openCapture none) (k := ['*', ')', '$']) rfl (by simp)]
  show ((readOn? _ ['*', ')', '$']).bind _) = none
  rw [readOn?_of_read (t := .rep 0 none true) (k := [')', '$']) rfl (by simp)]
  rfl

theorem nil_mem_powers {n : Count} (h : n.bounds.1 = 0) (l : Language Char) :
    [] ∈ n.powers l := by
  refine ⟨0, ⟨by omega, fun m _ => Nat.zero_le m⟩, ?_⟩
  rw [pow_zero]
  exact Language.nil_mem_one

/-- **Where all counts keep their meaning, the child takes them.** -/
theorem takesCounts_of_keepsMeaning {c : Eggex} (hr : c.isRegular = true) (hc : c.Faithful)
    {cs : List Char} (h : c.render = .ok cs)
    (hk : ∀ count : Count, count.isOrdered = true → (rep c count).KeepsMeaning) : c.TakesCounts := by
  by_cases hg : c.needsGroup = true
  · exact .inl hg
  rw [Bool.not_eq_true] at hg
  have halt : c.isAlt = false := by
    cases c <;> first | rfl | simp [needsGroup] at hg
  have hs : Spells cs c.factors := by
    have := (reads c hr hc h).spells
    rwa [halt] at this
  have hrender : ∀ count, (rep c count).render = .ok (cs ++ count.render) := by
    intro count
    rw [render, h, hg]
    rfl
  cases hfs : c.factors.getLast? with
  | none =>
    -- there is nothing that a star could repeat
    rw [List.getLast?_eq_none_iff] at hfs
    obtain rfl : cs = [] := hs.nil_iff.mpr hfs
    have hstar := (hk .star rfl _ (hrender .star) "").mpr (nil_mem_powers rfl _)
    exact absurd hstar (not_hits_of_parse? parse?_star "")
  | some f =>
    obtain ⟨init, hinit⟩ := List.getLast?_eq_some_iff.mp hfs
    rw [hinit] at hs
    have hprod : ∀ count : Count, count.isOrdered = true → count.bounds.1 = 0 →
        (init.map Factor.language).prod *
          (f.repeated (count = .question) count.bounds.1 count.bounds.2).language =
            count.powers c.language := by
      intro count ho h0
      have hle : ∀ m ∈ count.bounds.2, count.bounds.1 ≤ m := by simp [h0]
      have hcount := hs.count count.render_ne_nil hle (Count.read?_render ho) Count.render_head
      rw [decide_eq_decide.mpr Count.render_eq_question] at hcount
      have := prod_of_hits hcount (hk count ho _ (hrender count)) (nil_mem_powers h0 _)
      simpa [language] using this
    -- no copy at all leaves what stands before the last factor
    have hone : (init.map Factor.language).prod = 1 := by
      have := hprod (.exactly 0) rfl rfl
      rw [powers_exactly_zero, Factor.repeated] at this
      have hzero : powers f.language 0 (some 0) = 1 := powers_exactly_zero f.language
      simpa [Count.bounds, hzero] using this
    refine .inr ⟨init, f, hinit, hone, fun hf => ?_⟩
    -- a question mark behind a count is read with it, so the child must allow no copy itself
    have := hprod .question rfl rfl
    rw [hone, one_mul, Factor.repeated, hf] at this
    have hnil := nil_mem_powers (n := .question) rfl c.language
    rw [← this] at hnil
    exact hnil

/-- If trees in a row have a rendering, each of them has one. -/
theorem ok_of_renderSeq {es : List Eggex} {cs : List Char} (h : renderSeq es = .ok cs) :
    ∀ e ∈ es, ∃ xs, e.render = .ok xs := by
  induction es generalizing cs with
  | nil => simp
  | cons e rest ih =>
    obtain ⟨xs, hx, h⟩ := ok_of_bind h
    obtain ⟨ys, hy, -⟩ := ok_of_bind h
    exact List.forall_mem_cons.mpr ⟨⟨xs, hx⟩, ih hy⟩

theorem ok_of_renderBranches {es : List Eggex} {cs : List Char} (h : renderBranches es = .ok cs) :
    ∀ e ∈ es, ∃ xs, e.render = .ok xs := by
  induction es generalizing cs with
  | nil => simp
  | cons e rest ih =>
    obtain ⟨xs, hx, h⟩ := ok_of_bind h
    obtain ⟨ys, hy, -⟩ := ok_of_bind h
    exact List.forall_mem_cons.mpr ⟨⟨xs, hx⟩, ih hy⟩

mutual

/-- Where all children of repetitions keep their meaning under all counts, they take them. -/
theorem faithful_of_keepsMeaning : (e : Eggex) → e.isRegular = true → {cs : List Char} →
    e.render = .ok cs → (∀ c ∈ e.repeated, ∀ count : Count, count.isOrdered = true →
      (rep c count).KeepsMeaning) → e.Faithful
  | literal .., _, _, _, _ | primitive .., _, _, _, _ | charClass .., _, _, _, _
  | speck .., _, _, _, _ | token _, _, _, _, _ | word _, _, _, _, _ | splice _, _, _, _, _
  | posix .., _, _, _, _ | perl .., _, _, _, _ => by
    simp [Faithful, repeated]
  | seq items, hr, cs, h, hk => faithful_all items hr (ok_of_renderSeq h) hk
  | alt [], _, _, _, _ => by
    simp [Faithful, repeated, allRepeated]
  | alt (e :: rest), hr, cs, h, hk => by
    simp only [isRegular, Bool.and_eq_true] at hr
    obtain ⟨xs, hx, h⟩ := ok_of_bind h
    obtain ⟨ys, hy, h⟩ := ok_of_bind h
    have hok : ∀ d ∈ e :: rest, ∃ xs, d.render = .ok xs :=
      List.forall_mem_cons.mpr ⟨⟨xs, hx⟩, ok_of_renderBranches hy⟩
    exact faithful_all (e :: rest) hr.2 hok hk
  | rep child count, hr, cs, h, hk => by
    simp only [isRegular, Bool.and_eq_true] at hr
    obtain ⟨xs, hx, rfl⟩ := ok_of_map h
    have hchild := faithful_of_keepsMeaning child hr.1 hx
      fun c hc => hk c (List.mem_cons_of_mem child hc)
    have htakes := takesCounts_of_keepsMeaning hr.1 hchild hx (hk child List.mem_cons_self)
    exact List.forall_mem_cons.mpr ⟨htakes, hchild⟩
  | group child, hr, cs, h, hk => by
    obtain ⟨xs, hx, rfl⟩ := ok_of_map h
    exact faithful_of_keepsMeaning child hr hx hk
  | capture child name, hr, cs, h, hk => by
    obtain ⟨xs, hx, rfl⟩ := ok_of_map h
    exact faithful_of_keepsMeaning child hr hx hk

/-- The same for several trees. -/
theorem faithful_all : (es : List Eggex) → allRegular es = true →
    (∀ e ∈ es, ∃ cs, e.render = .ok cs) → (∀ c ∈ allRepeated es, ∀ count : Count,
      count.isOrdered = true → (rep c count).KeepsMeaning) → ∀ c ∈ allRepeated es, c.TakesCounts
  | [], _, _, _ => by
    simp [allRepeated]
  | e :: rest, hr, h, hk => by
    simp only [allRegular, Bool.and_eq_true] at hr
    obtain ⟨⟨xs, hx⟩, hrest⟩ := List.forall_mem_cons.mp h
    have hkeep := allRepeated_cons hk
    have he := faithful_of_keepsMeaning e hr.1 hx hkeep.1
    have hes := faithful_all rest hr.2 hrest hkeep.2
    exact fun c hc => (List.mem_append.mp hc).elim (he c) (hes c)

end

mutual

/-- What stands under a count is regular, and all that stands under counts in it does so here. -/
theorem of_mem_repeated : (e : Eggex) → e.isRegular = true → ∀ c ∈ e.repeated,
    c.isRegular = true ∧ ∀ d ∈ c.repeated, d ∈ e.repeated
  | literal .., _ | primitive .., _ | charClass .., _ | speck .., _ | token _, _ | word _, _
  | splice _, _ | posix .., _ | perl .., _ => by
    simp [repeated]
  | seq items, hr => of_mem_allRepeated items hr
  | alt items, hr => by
    simp only [isRegular, Bool.and_eq_true] at hr
    exact of_mem_allRepeated items hr.2
  | rep child count, hr => by
    simp only [isRegular, Bool.and_eq_true] at hr
    refine List.forall_mem_cons.mpr ⟨⟨hr.1, fun d hd => List.mem_cons_of_mem child hd⟩, ?_⟩
    intro c hc
    obtain ⟨hcr, hsub⟩ := of_mem_repeated child hr.1 c hc
    exact ⟨hcr, fun d hd => List.mem_cons_of_mem child (hsub d hd)⟩
  | group child, hr => of_mem_repeated child hr
  | capture child name, hr => of_mem_repeated child hr

/-- The same for several trees. -/
theorem of_mem_allRepeated : (es : List Eggex) → allRegular es = true → ∀ c ∈ allRepeated es,
    c.isRegular = true ∧ ∀ d ∈ c.repeated, d ∈ allRepeated es
  | [], _ => by
    simp [allRepeated]
  | e :: rest, hr => by
    simp only [allRegular, Bool.and_eq_true] at hr
    intro c hc
    rcases List.mem_append.mp hc with hc | hc
    · obtain ⟨hcr, hsub⟩ := of_mem_repeated e hr.1 c hc
      exact ⟨hcr, fun d hd => List.mem_append_left _ (hsub d hd)⟩
    · obtain ⟨hcr, hsub⟩ := of_mem_allRepeated rest hr.2 c hc
      exact ⟨hcr, fun d hd => List.mem_append_right _ (hsub d hd)⟩

end

/-- **When the renderer keeps the meaning** of a tree that it renders, whatever the counts in it. If
every count in the tree counts the whole child it is written behind, the tree and the children of
its repetitions under any other count keep their meaning, as far as the matcher takes patterns of
their depth. If they all keep it, every count does count the whole child. -/
theorem render_keepsMeaning {e : Eggex} (hr : e.isRegular = true) {cs : List Char}
    (h : e.render = .ok cs) :
    (e.Faithful → ∀ u, e.Recounts u → u.IsWithinLimit → u.KeepsMeaning) ∧
      ((∀ u, e.Recounts u → u.KeepsMeaning) → e.Faithful) := by
  refine ⟨fun he u hu hd => ?_, fun hk => ?_⟩
  · rcases hu with rfl | ⟨c, hc, count, ho, rfl⟩
    · exact keepsMeaning_of_faithful hr he hd
    · obtain ⟨hcr, hsub⟩ := of_mem_repeated e hr c hc
      have hreg : (rep c count).isRegular = true := by simp [isRegular, hcr, ho]
      have hfaith : (rep c count).Faithful :=
        List.forall_mem_cons.mpr ⟨he c hc, fun d hd => he d (hsub d hd)⟩
      exact keepsMeaning_of_faithful hreg hfaith hd
  · exact faithful_of_keepsMeaning e hr h fun c hc count ho => hk _ (.inr ⟨c, hc, count, ho, rfl⟩)

/-- A group under a star is a tree of this kind. -/
theorem render_keepsMeaning_group :
    let e := rep (group (literal "ab" .dummy)) .star
    e.isRegular = true ∧ e.render = .ok "(ab)*".toList ∧
      (e.Faithful → ∀ u, e.Recounts u → u.IsWithinLimit → u.KeepsMeaning) ∧
        ((∀ u, e.Recounts u → u.KeepsMeaning) → e.Faithful) :=
  ⟨rfl, rfl, render_keepsMeaning rfl rfl⟩

/-- A star behind a sequence with one literal counts the last character only. -/
theorem star_counts_last_character :
    let e := rep (seq [literal "ab" .dummy]) .star
    e.isRegular = true ∧ e.render = .ok "ab*".toList ∧ e.IsWithinLimit ∧ ¬ e.KeepsMeaning := by
  refine ⟨rfl, rfl, ?_, fun h => ?_⟩
  · rintro cs hcs
    obtain rfl : "ab*".toList = cs := Except.ok.inj hcs
    decide +kernel
  · -- two copies of the child are a word of the tree, but the pattern misses it
    have hab : "ab".toList ∈ ({"ab".toList} : Language Char) := rfl
    have hlang : "abab".toList ∈ (rep (seq [literal "ab" .dummy]) .star).language := by
      refine ⟨2, ⟨Nat.zero_le 2, fun m hm => by simp [Count.bounds] at hm⟩, ?_⟩
      rw [language, languages, languages, language, List.prod_singleton, pow_two]
      exact Language.append_mem_mul hab hab
    obtain ⟨groups, hv⟩ := (h "ab*".toList rfl "abab").mpr hlang
    have hmiss : Verdict.of (String.ofList (whole "ab*".toList)) "abab" = .miss := by
      decide +kernel
    rw [hmiss] at hv
    contradiction

end Eggex

end ShellExpr
