import ShellExpr.Proofs.Eggex.Meaning

/-!
# Opening parentheses of a rendered eggex

The renderer puts parentheses around the content of every group, and around an alternation in a row and
a repeated tree of more than one atom. All other parentheses in a rendering are escaped or stand in
brackets.

* `Eggex.contents`: the trees that stand in parentheses, from left to right.
* `openings`: the opening parentheses of a pattern that are neither escaped nor in brackets.
* `closesBrackets`: the brackets of the rendering are closed where they should be.
* `opens_render`: **the renderer opens one parenthesis for each of these trees.**
-/

namespace ShellExpr

/-! ### Trees in parentheses -/

/-- Whether the name of a class is made of letters and digits. -/
def isPlainName (name : String) : Bool := name.toList.all Char.isAlphanum

/-- Whether the term, if it is a class by name, has a plain one. -/
def ClassTerm.isPlainNamed : ClassTerm → Bool
  | posix _ name => isPlainName name
  | _ => true

namespace Eggex

mutual

/-- The trees that stand in parentheses, from left to right: the contents of groups and, if `wraps`,
alternations in a row and repeated trees of more than one atom. -/
def contents (wraps : Bool) : Eggex → List Eggex
  | seq items => itemContents wraps items
  | alt items => branchContents wraps items
  | rep child _ =>
    if wraps && child.needsGroup then child :: child.contents wraps else child.contents wraps
  | group child => child :: child.contents wraps
  | capture child _ => child :: child.contents wraps
  | _ => []

/-- The same for several trees in a row. -/
def itemContents (wraps : Bool) : List Eggex → List Eggex
  | [] => []
  | e :: rest =>
    (if wraps && e.isAlt then e :: e.contents wraps else e.contents wraps) ++
      itemContents wraps rest

/-- The same for several branches. -/
def branchContents (wraps : Bool) : List Eggex → List Eggex
  | [] => []
  | e :: rest => e.contents wraps ++ branchContents wraps rest

end

mutual

/-- Whether all brackets of a rendering are closed where they should be: no class literal is empty, so
that its closing bracket would be taken for a character, and no name of a class closes or opens
brackets. -/
def closesBrackets : Eggex → Bool
  | posix _ name => isPlainName name
  | charClass _ terms => terms.all ClassTerm.isPlainNamed && terms.any ClassTerm.isInhabited
  | seq items => allCloseBrackets items
  | alt items => allCloseBrackets items
  | rep child _ => child.closesBrackets
  | group child => child.closesBrackets
  | capture child _ => child.closesBrackets
  | _ => true

/-- The same for several trees. -/
def allCloseBrackets : List Eggex → Bool
  | [] => true
  | e :: rest => e.closesBrackets && allCloseBrackets rest

end

end Eggex

/-! ### Scanning a pattern -/

/-- What the characters before decide about the next one. -/
inductive Phase where
  | plain
  /-- Behind a backslash. -/
  | escaped
  /-- Behind an opening bracket. -/
  | opened
  /-- Behind an opening bracket and a caret. -/
  | careted
deriving DecidableEq

/-- Where a scan of a pattern stands: in how many brackets, and behind what. -/
structure Scan where
  depth : Nat := 0
  phase : Phase := .plain
deriving DecidableEq

namespace Scan

/-- The scan behind one character more. A closing bracket that comes first in brackets stands for
itself. -/
def next (s : Scan) (c : Char) : Scan :=
  match s.phase, c with
  | .escaped, _ => ⟨s.depth, .plain⟩
  | _, '\\' => ⟨s.depth, .escaped⟩
  | _, '[' => ⟨s.depth + 1, .opened⟩
  | .opened, '^' => ⟨s.depth, .careted⟩
  | .opened, ']' | .careted, ']' => ⟨s.depth, .plain⟩
  | _, ']' => ⟨s.depth - 1, .plain⟩
  | _, _ => ⟨s.depth, .plain⟩

/-- The scan behind a text. -/
def after (s : Scan) (cs : List Char) : Scan := cs.foldl next s

end Scan

/-- How many parentheses of a pattern open a group: those that are not escaped and not in brackets. -/
def openings (s : Scan) : List Char → Nat
  | [] => 0
  | c :: rest => (if s = {} ∧ c = '(' then 1 else 0) + openings (s.next c) rest

theorem openings_append (s : Scan) (cs ds : List Char) :
    openings s (cs ++ ds) = openings s cs + openings (s.after cs) ds := by
  induction cs generalizing s with
  | nil => simp [openings, Scan.after]
  | cons c cs ih =>
    rw [List.cons_append, openings, openings, ih, Nat.add_assoc]
    rfl

theorem Scan.after_append (s : Scan) (cs ds : List Char) :
    s.after (cs ++ ds) = (s.after cs).after ds := List.foldl_append

/-- A text that opens a number of groups and leaves no brackets open. -/
structure Opens (cs : List Char) (n : Nat) : Prop where
  after : Scan.after {} cs = {}
  count : openings {} cs = n

/-- A text that may stand first in brackets, and stays in them. -/
structure StaysInside (cs : List Char) : Prop where
  head : ∀ c ∈ cs.head?, c ≠ '^' ∧ c ≠ ']'
  after : ∀ d, Scan.after ⟨d + 1, .plain⟩ cs = ⟨d + 1, .plain⟩
  count : ∀ d, openings ⟨d + 1, .plain⟩ cs = 0

section Opens

variable {cs ds : List Char} {m n : Nat} {c : Char}

theorem opens_nil : Opens [] 0 := ⟨rfl, rfl⟩

theorem Opens.append (h : Opens cs m) (h' : Opens ds n) : Opens (cs ++ ds) (m + n) := by
  refine ⟨?_, ?_⟩
  · rw [Scan.after_append, h.after, h'.after]
  · rw [openings_append, h.after, h.count, h'.count]

/-- A character without a meaning for the scan. -/
theorem opens_ordinary (h1 : c ≠ '\\') (h2 : c ≠ '[') (h3 : c ≠ '(') : Opens [c] 0 := by
  have hnext : Scan.next {} c = {} := by
    unfold Scan.next
    split <;> simp_all
  refine ⟨hnext, ?_⟩
  simp [openings, h3]

theorem opens_escaped (c : Char) : Opens ['\\', c] 0 := by
  refine ⟨rfl, ?_⟩
  have hnext : Scan.next {} '\\' = ⟨0, .escaped⟩ := rfl
  simp [openings, hnext]

theorem opens_ordinaries (h : ∀ c ∈ cs, c ≠ '\\' ∧ c ≠ '[' ∧ c ≠ '(') : Opens cs 0 := by
  induction cs with
  | nil => exact opens_nil
  | cons c cs ih =>
    rw [List.forall_mem_cons] at h
    exact (opens_ordinary h.1.1 h.1.2.1 h.1.2.2).append (ih h.2)

/-- Parentheses around a text. -/
theorem Opens.parens (h : Opens cs n) : Opens ('(' :: cs ++ [')']) (n + 1) := by
  have hopen : Opens ['('] 1 := ⟨rfl, rfl⟩
  have hclose : Opens [')'] 0 := ⟨rfl, rfl⟩
  have := (hopen.append h).append hclose
  rwa [Nat.add_zero, Nat.add_comm] at this

theorem StaysInside.append (h : StaysInside cs) (h' : StaysInside ds) : StaysInside (cs ++ ds) := by
  refine ⟨forall_head?_append h.head h'.head, fun d => ?_, fun d => ?_⟩
  · rw [Scan.after_append, h.after, h'.after]
  · rw [openings_append, h.after, h.count, h'.count]

theorem staysInside_nil : StaysInside [] := ⟨by simp, fun _ => rfl, fun _ => rfl⟩

theorem staysInside_ordinary (h1 : c ≠ '\\') (h2 : c ≠ '[') (h3 : c ≠ ']') (h4 : c ≠ '^') :
    StaysInside [c] := by
  have hnext : ∀ d, Scan.next ⟨d + 1, .plain⟩ c = ⟨d + 1, .plain⟩ := by
    intro d
    unfold Scan.next
    split <;> simp_all
  refine ⟨by simp [h3, h4], hnext, fun d => ?_⟩
  simp [openings]

theorem staysInside_escaped (c : Char) : StaysInside ['\\', c] := by
  refine ⟨by simp, fun d => rfl, fun d => ?_⟩
  simp [openings, Scan.next]

/-- In brackets, a text that stays in them opens nothing. -/
theorem StaysInside.opens_brackets (h : StaysInside cs) (hne : cs ≠ []) (negated : Bool) :
    Opens (Eggex.brackets negated cs) 0 := by
  obtain ⟨c, rest, rfl⟩ := List.exists_cons_of_ne_nil hne
  obtain ⟨h1, h2⟩ := h.head c rfl
  -- behind the bracket or the caret, the first character is like any other
  have hfirst : Scan.next ⟨1, .opened⟩ c = Scan.next ⟨1, .plain⟩ c ∧
      Scan.next ⟨1, .careted⟩ c = Scan.next ⟨1, .plain⟩ c := by
    constructor <;> unfold Scan.next <;> split <;> simp_all
  have hafter : Scan.after (Scan.next ⟨1, .plain⟩ c) (rest ++ [']']) = {} := by
    have := h.after 0
    rw [Scan.after_append]
    exact congrArg (fun s => Scan.after s [']']) this
  have hcount : openings (Scan.next ⟨1, .plain⟩ c) (rest ++ [']']) = 0 := by
    have hc := h.count 0
    have ha : Scan.after (Scan.next ⟨1, .plain⟩ c) rest = ⟨1, .plain⟩ := h.after 0
    rw [openings, Nat.add_eq_zero_iff] at hc
    rw [openings_append, ha, hc.2]
    rfl
  cases negated with
  | false =>
    have htext : Eggex.brackets false (c :: rest) = '[' :: c :: (rest ++ [']']) := rfl
    rw [htext]
    refine ⟨?_, ?_⟩
    · show Scan.after (Scan.next ⟨1, .opened⟩ c) (rest ++ [']']) = {}
      rw [hfirst.1, hafter]
    · show 0 + (openings ⟨1, .opened⟩ (c :: (rest ++ [']']))) = 0
      rw [openings, hfirst.1, hcount]
      simp
  | true =>
    have htext : Eggex.brackets true (c :: rest) = '[' :: '^' :: c :: (rest ++ [']']) := rfl
    rw [htext]
    refine ⟨?_, ?_⟩
    · show Scan.after (Scan.next ⟨1, .careted⟩ c) (rest ++ [']']) = {}
      rw [hfirst.2, hafter]
    · show 0 + (0 + openings ⟨1, .careted⟩ (c :: (rest ++ [']']))) = 0
      rw [openings, hfirst.2, hcount]
      simp

end Opens

/-! ### Brackets -/

namespace ClassTerm

variable {cs : List Char}

/-- A letter or digit has no meaning in a pattern. -/
theorem ne_of_isAlphanum {c d : Char} (h : c.isAlphanum = true) (hd : d.isAlphanum = false) :
    c ≠ d := by
  rintro rfl
  rw [h] at hd
  contradiction

theorem staysInside_renderChar (c : Char) : StaysInside (renderChar c) := by
  rcases renderChar_cases c with ⟨hr, -⟩ | ⟨hr, h⟩
  · rw [hr]
    exact staysInside_escaped c
  · have hno : ∀ d, isSpecial d = true → c ≠ d := by
      rintro d hd rfl
      rw [h] at hd
      contradiction
    rw [hr]
    exact staysInside_ordinary (hno _ rfl) (hno _ rfl) (hno _ rfl) (hno _ rfl)

theorem staysInside_plain (h : cs.all Char.isAlphanum = true) : StaysInside cs := by
  induction cs with
  | nil => exact staysInside_nil
  | cons c cs ih =>
    rw [List.all_cons, Bool.and_eq_true] at h
    have hc := fun d hd => ne_of_isAlphanum (d := d) h.1 hd
    exact (staysInside_ordinary (hc _ rfl) (hc _ rfl) (hc _ rfl) (hc _ rfl)).append (ih h.2)

theorem staysInside_posix {name : String} (h : isPlainName name = true) :
    StaysInside (renderPosix name) := by
  have hname := staysInside_plain h
  -- inside the brackets around the name
  have hafter : ∀ d, Scan.after ⟨d + 1, .plain⟩ (renderPosix name) =
      Scan.after ⟨d + 2, .plain⟩ (name.toList ++ [':', ']']) := fun d => rfl
  have hcount : ∀ d, openings ⟨d + 1, .plain⟩ (renderPosix name) =
      openings ⟨d + 2, .plain⟩ (name.toList ++ [':', ']']) := by
    intro d
    show 0 + (0 + openings ⟨d + 2, .plain⟩ (name.toList ++ [':', ']'])) = _
    omega
  refine ⟨by simp [renderPosix], fun d => ?_, fun d => ?_⟩
  · rw [hafter, Scan.after_append, hname.after]
    rfl
  · rw [hcount, openings_append, hname.after, hname.count]
    rfl

theorem staysInside_perl {name : String} (h : renderPerl name = .ok cs) :
    StaysInside cs ∧ cs ≠ [] := by
  unfold renderPerl at h
  split at h
  · obtain rfl : renderPosix "digit" = cs := Except.ok.inj h
    exact ⟨staysInside_posix (by decide), by simp [renderPosix]⟩
  split at h
  · obtain rfl : renderPosix "alnum" ++ renderChar '_' = cs := Except.ok.inj h
    exact ⟨(staysInside_posix (by decide)).append (staysInside_renderChar '_'),
      by simp [renderPosix]⟩
  split at h
  · obtain rfl : renderPosix "space" = cs := Except.ok.inj h
    exact ⟨staysInside_posix (by decide), by simp [renderPosix]⟩
  · contradiction

theorem staysInside_chars (ds : List Char) : StaysInside (ds.flatMap renderChar) := by
  induction ds with
  | nil => exact staysInside_nil
  | cons d ds ih => exact (staysInside_renderChar d).append ih

/-- What a term is rendered to stays in brackets, and is empty only if the term is. -/
theorem staysInside_render {t : ClassTerm} (ht : t.isPlainNamed = true) (h : t.render = .ok cs) :
    StaysInside cs ∧ (cs = [] → t.isInhabited = false) := by
  cases t with
  | word w => cases h
  | charLiteral tok => cases h
  | range a b =>
    obtain rfl := Except.ok.inj h
    have hdash : StaysInside ['-'] :=
      staysInside_ordinary (by decide) (by decide) (by decide) (by decide)
    exact ⟨(staysInside_renderChar a).append (hdash.append (staysInside_renderChar b)), by simp⟩
  | posix negated name =>
    cases negated with
    | true => cases h
    | false =>
      obtain rfl := Except.ok.inj h
      exact ⟨staysInside_posix ht, by simp [renderPosix]⟩
  | perl negated name =>
    cases negated with
    | true => cases h
    | false =>
      obtain ⟨hs, hne⟩ := staysInside_perl h
      exact ⟨hs, fun hnil => absurd hnil hne⟩
  | bytes bs span =>
    obtain rfl := Except.ok.inj h
    refine ⟨staysInside_chars _, fun hnil => ?_⟩
    have : Bytes.characters bs = [] := by
      refine List.eq_nil_iff_forall_not_mem.mpr fun c hc => ?_
      exact renderChar_ne_nil c (List.flatMap_eq_nil_iff.mp hnil c hc)
    simp [isInhabited, this]
  | codePoint code span =>
    cases hc : Bytes.scalar? code with
    | none => simp [render, hc] at h
    | some c =>
      obtain rfl : renderChar c = cs := by simpa [render, hc] using h
      exact ⟨staysInside_renderChar c, fun hnil => absurd hnil (renderChar_ne_nil c)⟩

theorem staysInside_renderAll {terms : List ClassTerm} (ht : terms.all isPlainNamed = true)
    (h : renderAll terms = .ok cs) :
    StaysInside cs ∧ (cs = [] → terms.any isInhabited = false) := by
  induction terms generalizing cs with
  | nil =>
    obtain rfl := Except.ok.inj h
    exact ⟨staysInside_nil, fun _ => rfl⟩
  | cons t terms ih =>
    rw [List.all_cons, Bool.and_eq_true] at ht
    obtain ⟨xs, hx, h⟩ := ok_of_bind h
    obtain ⟨ys, hy, h⟩ := ok_of_bind h
    obtain rfl := Except.ok.inj h
    obtain ⟨hs, hne⟩ := staysInside_render ht.1 hx
    obtain ⟨hs', hne'⟩ := ih ht.2 hy
    refine ⟨hs.append hs', fun hnil => ?_⟩
    obtain ⟨h1, h2⟩ := List.append_eq_nil_iff.mp hnil
    rw [List.any_cons, hne h1, hne' h2]
    rfl

end ClassTerm

/-! ### Trees -/

namespace Eggex

variable {cs : List Char}

theorem opens_renderChar (c : Char) : Opens (renderChar c) 0 := by
  unfold renderChar
  cases h : isSpecial c with
  | true => exact opens_escaped c
  | false =>
    have hno : ∀ d, isSpecial d = true → c ≠ d := by
      rintro d hd rfl
      rw [h] at hd
      contradiction
    exact opens_ordinary (hno _ rfl) (hno _ rfl) (hno _ rfl)

theorem opens_chars (ds : List Char) : Opens (ds.flatMap renderChar) 0 := by
  induction ds with
  | nil => exact opens_nil
  | cons d ds ih => exact (opens_renderChar d).append ih

theorem opens_digits (n : Nat) : Opens (Numeral.digits 10 n) 0 := by
  refine opens_ordinaries fun c hc => ?_
  have hdigit := Numeral.isDecimalDigit_of_mem_digits hc
  refine ⟨?_, ?_, ?_⟩ <;> rintro rfl <;> simp [Numeral.isDecimalDigit] at hdigit

theorem opens_count (count : Count) : Opens count.render 0 := by
  have hbrace : Opens ['\x7b'] 0 := ⟨rfl, rfl⟩
  have hcomma : Opens [','] 0 := ⟨rfl, rfl⟩
  have hend : Opens ['\x7d'] 0 := ⟨rfl, rfl⟩
  cases count with
  | star | plus | question => exact ⟨rfl, rfl⟩
  | exactly n => exact (hbrace.append (opens_digits n)).append hend
  | between lower upper =>
    have hlower := hbrace.append (opens_digits (lower.getD 0))
    cases upper with
    | none => exact (hlower.append hcomma).append hend
    | some m =>
      have := (hlower.append (hcomma.append (opens_digits m))).append hend
      simpa [Count.render] using this

theorem opens_parens {es : List Eggex} (h : Opens cs es.length) (wanted : Bool) (e : Eggex) :
    Opens (parens wanted cs) (if wanted then e :: es else es).length := by
  cases wanted
  · exact h
  · exact h.parens

mutual

/-- **The renderer opens one parenthesis for each tree that stands in parentheses.** -/
theorem opens_render : (e : Eggex) → e.closesBrackets = true → {cs : List Char} →
    e.render = .ok cs → Opens cs (e.contents true).length
  | primitive id _, _, cs, h => by
    obtain rfl := Except.ok.inj h
    cases id <;> exact ⟨rfl, rfl⟩
  | literal text _, _, cs, h => by
    obtain rfl := Except.ok.inj h
    exact opens_chars text.toList
  | posix negated name, hb, cs, h => by
    obtain rfl := Except.ok.inj h
    exact (ClassTerm.staysInside_posix hb).opens_brackets (by simp [ClassTerm.renderPosix]) negated
  | perl negated name, _, cs, h => by
    obtain ⟨body, hbody, rfl⟩ := ok_of_map h
    obtain ⟨hs, hne⟩ := ClassTerm.staysInside_perl hbody
    exact hs.opens_brackets hne negated
  | charClass negated terms, hb, cs, h => by
    simp only [closesBrackets, Bool.and_eq_true] at hb
    obtain ⟨body, hbody, rfl⟩ := ok_of_map h
    obtain ⟨hs, hne⟩ := ClassTerm.staysInside_renderAll hb.1 hbody
    refine hs.opens_brackets (fun hnil => ?_) negated
    rw [hne hnil] at hb
    simp at hb
  | seq items, hb, cs, h => opens_renderSeq items hb h
  | alt [], _, cs, h => by
    obtain rfl := Except.ok.inj h
    exact opens_nil
  | alt (e :: rest), hb, cs, h => by
    simp only [closesBrackets, allCloseBrackets, Bool.and_eq_true] at hb
    obtain ⟨xs, hx, h⟩ := ok_of_bind h
    obtain ⟨ys, hy, h⟩ := ok_of_bind h
    obtain rfl := Except.ok.inj h
    have := (opens_render e hb.1 hx).append (opens_renderBranches rest hb.2 hy)
    rwa [contents, branchContents, List.length_append]
  | rep child count, hb, cs, h => by
    obtain ⟨xs, hx, rfl⟩ := ok_of_map h
    have hchild := opens_parens (opens_render child hb hx) child.needsGroup child
    rw [contents, Bool.true_and]
    exact hchild.append (opens_count count)
  | group child, hb, cs, h => by
    obtain ⟨xs, hx, rfl⟩ := ok_of_map h
    exact (opens_render child hb hx).parens
  | capture child name, hb, cs, h => by
    obtain ⟨xs, hx, rfl⟩ := ok_of_map h
    exact (opens_render child hb hx).parens
  | speck .., _, _, h | token _, _, _, h | word _, _, _, h | splice _, _, _, h => by
    cases h

/-- The same for trees in a row. -/
theorem opens_renderSeq : (es : List Eggex) → allCloseBrackets es = true → {cs : List Char} →
    renderSeq es = .ok cs → Opens cs (itemContents true es).length
  | [], _, cs, h => by
    obtain rfl := Except.ok.inj h
    exact opens_nil
  | e :: rest, hb, cs, h => by
    simp only [allCloseBrackets, Bool.and_eq_true] at hb
    obtain ⟨xs, hx, h⟩ := ok_of_bind h
    obtain ⟨ys, hy, h⟩ := ok_of_bind h
    obtain rfl := Except.ok.inj h
    have hitem := opens_parens (opens_render e hb.1 hx) e.isAlt e
    rw [itemContents, Bool.true_and, List.length_append]
    exact hitem.append (opens_renderSeq rest hb.2 hy)

/-- The same for further branches. -/
theorem opens_renderBranches : (es : List Eggex) → allCloseBrackets es = true →
    {cs : List Char} → renderBranches es = .ok cs → Opens cs (branchContents true es).length
  | [], _, cs, h => by
    obtain rfl := Except.ok.inj h
    exact opens_nil
  | e :: rest, hb, cs, h => by
    simp only [allCloseBrackets, Bool.and_eq_true] at hb
    obtain ⟨xs, hx, h⟩ := ok_of_bind h
    obtain ⟨ys, hy, h⟩ := ok_of_bind h
    obtain rfl := Except.ok.inj h
    have hbar : Opens ['|'] 0 := ⟨rfl, rfl⟩
    have := (hbar.append (opens_render e hb.1 hx)).append (opens_renderBranches rest hb.2 hy)
    rwa [Nat.zero_add, ← List.length_append] at this

end

end Eggex

end ShellExpr
