import ShellExpr.Proofs.Pattern.Search

/-!
# Reading patterns piece by piece

A pattern is read from left to right, so what a piece of its text adds can be said without the rest:
factors of the branch at hand, or further branches. Only a question mark looks back, as it belongs
to the count before it.

* `readOn?`: reading a text from a state on.
* `takenMark`, `behindMark`: a question mark that a count takes, and what is left behind it.
* `Spells`: the text of some factors, wherever it stands in a branch.
* `Fills`: the text of some branches, wherever they stand in a group.
* `Fills.capture`: in parentheses, branches are one factor.
* `Fills.hits_iff`: in parentheses and between the ends of the text, branches match their words.
-/

namespace ShellExpr.Pattern

open Assembly

/-- Reads a text on from a state. -/
def readOn? (s : State) (cs : List Char) : Option State := (lexemes? cs).bind (takeAll? s)

theorem readOn?_nil (s : State) : readOn? s [] = some s := by
  simp [readOn?, lexemes?, takeAll?]

/-- The first lexeme and those behind it. -/
theorem lexemes?_of_read {cs k : List Char} {t : Lexeme} (h : Lexeme.read? cs = some (t, k))
    (hl : k.length < cs.length) : lexemes? cs = (lexemes? k).map (t :: ·) := by
  have hne : cs.isEmpty = false := by cases cs <;> simp_all
  rw [lexemes?, hne, h]
  simp [hl]

/-- **One lexeme after the other**: reading takes the first one and goes on behind it. -/
theorem readOn?_of_read {s : State} {cs k : List Char} {t : Lexeme}
    (h : Lexeme.read? cs = some (t, k)) (hl : k.length < cs.length) :
    readOn? s cs = (take? s t).bind fun s => readOn? s k := by
  unfold readOn?
  rw [lexemes?_of_read h hl]
  cases lexemes? k with
  | none => cases take? s t <;> rfl
  | some ts => rfl

/-! ### The question mark behind a count -/

/-- The question mark behind a text, if the text ends in a count and takes it. -/
def takenMark (counted : Bool) (k : List Char) : List Char :=
  if counted && k.head? = some '?' then ['?'] else []

/-- What is left behind that question mark. -/
def behindMark (counted : Bool) (k : List Char) : List Char :=
  if counted && k.head? = some '?' then k.tail else k

theorem takenMark_of_head {k : List Char} (h : k.head? ≠ some '?') (counted : Bool) :
    takenMark counted k = [] ∧ behindMark counted k = k := by
  simp [takenMark, behindMark, h]

@[simp] theorem takenMark_false (k : List Char) : takenMark false k = [] := rfl

@[simp] theorem behindMark_false (k : List Char) : behindMark false k = k := rfl

/-- A repetition is lazy if a question mark follows, and takes it. -/
theorem repetition_mark (min : Nat) (max : Option Nat) (k : List Char) : ∃ greedy,
    Lexeme.repetition min max k = (.rep min max greedy, behindMark true k) ∧
      Lexeme.repetition min max (takenMark true k) = (.rep min max greedy, []) := by
  by_cases h : k.head? = some '?'
  · obtain ⟨rest, rfl⟩ := List.head?_eq_some_iff.mp h
    exact ⟨false, rfl, rfl⟩
  · rw [(takenMark_of_head h true).1, (takenMark_of_head h true).2]
    refine ⟨true, ?_, rfl⟩
    unfold Lexeme.repetition
    split
    · exact absurd rfl h
    · rfl

theorem length_behindMark_le (counted : Bool) (k : List Char) :
    (behindMark counted k).length ≤ k.length := by
  unfold behindMark
  split
  · rw [List.length_tail]
    omega
  · exact Nat.le_refl _

/-! ### Factors -/

/-- What stands between two other factors of a branch. -/
structure Factor where
  language : Language Char
  /-- Whether a question mark after it would be taken as part of it. -/
  counted : Bool := false

/-- Whether a question mark would be taken as part of the last factor. -/
def endsCounted (fs : List Factor) : Bool := fs.getLast?.any Factor.counted

/-- What is left of the text behind the factors. -/
def behind (fs : List Factor) (k : List Char) : List Char :=
  if endsCounted fs && k.head? = some '?' then k.tail else k

theorem behind_eq (fs : List Factor) (k : List Char) :
    behind fs k = behindMark (endsCounted fs) k := rfl

theorem behind_of_head (fs : List Factor) {k : List Char} (h : k.head? ≠ some '?') :
    behind fs k = k := (takenMark_of_head h (endsCounted fs)).2

theorem behind_of_not_counted {fs : List Factor} (h : endsCounted fs = false) (k : List Char) :
    behind fs k = k := by
  simp [behind, h]

/-- A repetition takes the question mark behind it. -/
theorem repetition_eq {fs : List Factor} (h : endsCounted fs = true) (min : Nat)
    (max : Option Nat) (k : List Char) :
    ∃ greedy, Lexeme.repetition min max k = (.rep min max greedy, behind fs k) := by
  obtain ⟨greedy, hrep, -⟩ := repetition_mark min max k
  exact ⟨greedy, by rw [hrep, behind_eq, h]⟩

theorem length_behind_le (fs : List Factor) (k : List Char) : (behind fs k).length ≤ k.length :=
  length_behindMark_le (endsCounted fs) k

/-- An item that matches the words of a language and may be repeated. -/
structure Shows (i : Item) (l : Language Char) : Prop where
  denotes : i.pattern.Denotes l
  repeatable : i.repeatable = true

/-- The second state has read some more items of the branch at hand. -/
structure Extends (s : State) (ls : List (Language Char)) (s' : State) : Prop where
  items : ∃ is, s'.level.items = is ++ s.level.items ∧ List.Forall₂ Shows is ls.reverse
  branches : s'.level.branches = s.level.branches
  outer : s'.outer = s.outer
  modes : s'.modes = s.modes

theorem Extends.refl (s : State) : Extends s [] s := ⟨⟨[], rfl, .nil⟩, rfl, rfl, rfl⟩

theorem Extends.trans {s s' s'' : State} {ls ms : List (Language Char)} (h : Extends s ls s')
    (h' : Extends s' ms s'') : Extends s (ls ++ ms) s'' := by
  obtain ⟨is, hi, hl⟩ := h.items
  obtain ⟨js, hj, hm⟩ := h'.items
  refine ⟨⟨js ++ is, ?_, ?_⟩, ?_, ?_, ?_⟩
  · rw [hj, hi, List.append_assoc]
  · rw [List.reverse_append]
    exact List.rel_append hm hl
  · rw [h'.branches, h.branches]
  · rw [h'.outer, h.outer]
  · rw [h'.modes, h.modes]

theorem extends_push {p : Pattern} {l : Language Char} (h : p.Denotes l) (s : State)
    (nesting : Nat) : Extends s [l] (s.push p nesting) :=
  ⟨⟨[{ pattern := p, nesting }], rfl, .cons ⟨h, rfl⟩ .nil⟩, rfl, rfl, rfl⟩

/-- A repetition takes the last item, whatever else has been read. -/
theorem Extends.repeat? {s s' : State} {ls : List (Language Char)} {l : Language Char} {min : Nat}
    {max : Option Nat} (he : Extends s (ls ++ [l]) s') (h : ∀ m ∈ max, min ≤ m) (greedy : Bool) :
    ∃ s'', s'.repeat? min max greedy = some s'' ∧ Extends s (ls ++ [powers l min max]) s'' := by
  obtain ⟨is, hi, hf⟩ := he.items
  rw [List.reverse_append, List.reverse_singleton, List.singleton_append] at hf
  -- items stand in reverse, so the first one is the last that was read
  cases hf with
  | @cons i _ is _ hlast hinit =>
    have hrep : s'.repeat? min max greedy = some { s' with level.items :=
        { pattern := repeated (greedy != s'.modes.swapGreed) i.pattern min max
          nesting := i.nesting + 1 } :: (is ++ s.level.items) } := by
      rw [State.repeat?, hi, List.cons_append]
      simp only [hlast.repeatable, if_true]
    refine ⟨_, hrep, ⟨_ :: is, rfl, ?_⟩, he.branches, he.outer, he.modes⟩
    rw [List.reverse_append, List.reverse_singleton, List.singleton_append]
    exact .cons ⟨denotes_repeated hlast.denotes _ h, rfl⟩ hinit

/-- The text of some factors. Where it stands in a branch they are added, and a question mark behind
it is taken if it belongs to the last of them. -/
structure Spells (cs : List Char) (fs : List Factor) : Prop where
  nil_iff : cs = [] ↔ fs = []
  head : cs.head? ≠ some '?'
  read : ∀ s k, s.modes = {} → ∃ s',
    readOn? s (cs ++ k) = readOn? s' (behind fs k) ∧ Extends s (fs.map Factor.language) s'

theorem spells_nil : Spells [] [] :=
  ⟨by simp, by simp, fun s k _ => ⟨s, by rw [behind_of_not_counted rfl]; rfl, .refl s⟩⟩

theorem endsCounted_append {gs : List Factor} (fs : List Factor) (h : gs ≠ []) :
    endsCounted (fs ++ gs) = endsCounted gs := by
  obtain ⟨g, hg⟩ := Option.ne_none_iff_exists'.mp (mt List.getLast?_eq_none_iff.mp h)
  simp only [endsCounted, List.getLast?_append, hg, Option.some_or]

theorem Spells.append {cs ds : List Char} {fs gs : List Factor} (h : Spells cs fs)
    (h' : Spells ds gs) : Spells (cs ++ ds) (fs ++ gs) := by
  by_cases hd : ds = []
  · obtain rfl := h'.nil_iff.mp hd
    subst hd
    simpa using h
  have hne : gs ≠ [] := fun he => hd (h'.nil_iff.mpr he)
  -- the second text starts with no question mark, so the first one takes nothing of it
  refine ⟨by simp [hd, hne], ?_, fun s k hs => ?_⟩
  · by_cases hc : cs = []
    · simpa [hc] using h'.head
    · rw [List.head?_append_of_ne_nil _ hc]
      exact h.head
  · have hhead : (ds ++ k).head? ≠ some '?' := by
      rw [List.head?_append_of_ne_nil _ hd]
      exact h'.head
    obtain ⟨s₁, h1, he1⟩ := h.read s (ds ++ k) hs
    obtain ⟨s₂, h2, he2⟩ := h'.read s₁ k (by rw [he1.modes, hs])
    refine ⟨s₂, ?_, ?_⟩
    · rw [List.append_assoc, h1, behind_of_head fs hhead, h2]
      simp only [behind, endsCounted_append fs hne]
    · rw [List.map_append]
      exact he1.trans he2

/-- A text of one lexeme that adds a pattern. -/
theorem spells_of_lexeme {cs : List Char} {t : Lexeme} {l : Language Char} (hne : cs ≠ [])
    (hhead : cs.head? ≠ some '?') (hread : ∀ k, Lexeme.read? (cs ++ k) = some (t, k))
    (htake : ∀ s : State, s.modes = {} → ∃ p n, take? s t = some (s.push p n) ∧ p.Denotes l) :
    Spells cs [⟨l, false⟩] := by
  refine ⟨by simp [hne], hhead, fun s k hs => ?_⟩
  obtain ⟨p, n, ht, hp⟩ := htake s hs
  refine ⟨s.push p n, ?_, extends_push hp s n⟩
  have hl : 0 < cs.length := List.length_pos_iff.mpr hne
  rw [readOn?_of_read (hread k) (by simp; omega), ht, behind_of_not_counted rfl]
  rfl

/-! ### Counts -/

/-- A factor with a count after it. A question mark that follows another count is no count of its
own. -/
def Factor.repeated (f : Factor) (isMark : Bool) (min : Nat) (max : Option Nat) : Factor :=
  if isMark && f.counted then ⟨f.language, false⟩ else ⟨powers f.language min max, true⟩

/-- **A count takes the last factor** of the text before it, and no other. -/
theorem Spells.count {cs sign : List Char} {init : List Factor} {f : Factor} {min : Nat}
    {max : Option Nat} (hs : Spells cs (init ++ [f])) (hsign : sign ≠ []) (h : ∀ m ∈ max, min ≤ m)
    (hread : ∀ k, Lexeme.read? (sign ++ k) = some (Lexeme.repetition min max k))
    (hmark : sign.head? = some '?' → sign = ['?']) :
    Spells (cs ++ sign) (init ++ [f.repeated (sign = ['?']) min max]) := by
  have hne : cs ≠ [] := fun he => by simp [hs.nil_iff] at he
  refine ⟨by simp [hne], by rw [List.head?_append_of_ne_nil _ hne]; exact hs.head, ?_⟩
  intro s k hmodes
  obtain ⟨s₁, h1, he1⟩ := hs.read s (sign ++ k) hmodes
  rw [List.map_append, List.map_singleton] at he1
  rw [List.append_assoc, h1, List.map_append, List.map_singleton]
  by_cases hq : sign = ['?'] ∧ f.counted = true
  · -- the question mark has gone with the count before it, and nothing is left to read
    obtain ⟨rfl, hc⟩ := hq
    have hf : f.repeated (['?'] = ['?']) min max = ⟨f.language, false⟩ := by
      simp [Factor.repeated, hc]
    have hleft : behind (init ++ [f]) (['?'] ++ k) = k := by simp [behind, endsCounted, hc]
    have hright : behind (init ++ [⟨f.language, false⟩]) k = k :=
      behind_of_not_counted (by simp [endsCounted]) k
    rw [hf, hleft, hright]
    exact ⟨s₁, rfl, he1⟩
  · have hf : f.repeated (sign = ['?']) min max = ⟨powers f.language min max, true⟩ := by
      simp only [Factor.repeated, Bool.and_eq_true, decide_eq_true_eq, hq, if_false]
    have hkeep : behind (init ++ [f]) (sign ++ k) = sign ++ k := by
      by_cases hc : f.counted = true
      · refine behind_of_head _ ?_
        rw [List.head?_append_of_ne_nil _ hsign]
        exact fun he => hq ⟨hmark he, hc⟩
      · exact behind_of_not_counted (by simp [endsCounted, hc]) _
    rw [hf, hkeep]
    -- the sign is one lexeme, and it repeats the item of the last factor
    have hcounted : endsCounted (init ++ [⟨powers f.language min max, true⟩]) = true := by
      simp [endsCounted]
    obtain ⟨greedy, hrep⟩ := repetition_eq hcounted min max k
    obtain ⟨s₂, h2, he2⟩ := he1.repeat? h greedy
    refine ⟨s₂, ?_, he2⟩
    have hlen : (behind (init ++ [⟨powers f.language min max, true⟩]) k).length <
        (sign ++ k).length := by
      have hpos : 0 < sign.length := List.length_pos_iff.mpr hsign
      have hle := length_behind_le (init ++ [⟨powers f.language min max, true⟩]) k
      rw [List.length_append]
      omega
    rw [readOn?_of_read (by rw [hread k, hrep]) hlen]
    show (s₁.repeat? min max greedy).bind _ = _
    rw [h2, Option.bind_some]

/-! ### Branches and groups -/

/-- All branches of a group so far, the last one first. -/
def Assembly.Level.all (l : Level) : List Item := l.branch :: l.branches

/-- The text of some branches. At the start of a branch it adds them, the last of them still open. -/
structure Fills (cs : List Char) (ls : List (Language Char)) : Prop where
  ne_nil : ls ≠ []
  head : cs.head? ≠ some '?'
  read : ∀ s k, s.modes = {} → s.level.items = [] → k.head? ≠ some '?' → ∃ s' bs,
    readOn? s (cs ++ k) = readOn? s' k ∧ s'.level.all = bs ++ s.level.branches ∧
      List.Forall₂ (fun i l => i.pattern.Denotes l) bs ls.reverse ∧ s'.outer = s.outer ∧
      s'.modes = s.modes

/-- Factors in a row are one branch. -/
theorem Spells.fills {cs : List Char} {fs : List Factor} (h : Spells cs fs) :
    Fills cs [(fs.map Factor.language).prod] := by
  refine ⟨by simp, h.head, fun s k hs hi hk => ?_⟩
  obtain ⟨s', hread, he⟩ := h.read s k hs
  obtain ⟨is, his, hf⟩ := he.items
  rw [behind_of_head fs hk] at hread
  rw [hi, List.append_nil] at his
  refine ⟨s', [s'.level.branch], hread, ?_, .cons ?_ .nil, he.outer, he.modes⟩
  · rw [Level.all, he.branches]
    rfl
  · have hrow := List.rel_reverse hf
    rw [List.reverse_reverse] at hrow
    show (row (s'.level.items.reverse.map Item.pattern)).Denotes _
    rw [his]
    refine denotes_row (List.forall₂_map_left_iff.mpr ?_)
    exact hrow.imp fun i l hil => hil.denotes

/-- Branches with a bar between them. -/
theorem Fills.bar {cs ds : List Char} {ls ms : List (Language Char)} (h : Fills cs ls)
    (h' : Fills ds ms) : Fills (cs ++ '|' :: ds) (ls ++ ms) := by
  refine ⟨by simp [h.ne_nil], ?_, fun s k hs hi hk => ?_⟩
  · cases cs with
    | nil => simp
    | cons c cs => exact h.head
  obtain ⟨s₁, bs, h1, hb1, hf1, ho1, hm1⟩ := h.read s ('|' :: (ds ++ k)) hs hi (by simp)
  obtain ⟨s₂, bs', h2, hb2, hf2, ho2, hm2⟩ :=
    h'.read { s₁ with level := s₁.level.bar } k (hm1.trans hs) rfl hk
  refine ⟨s₂, bs' ++ bs, ?_, ?_, ?_, ho2.trans ho1, hm2.trans hm1⟩
  · rw [List.append_assoc, List.cons_append, h1, readOn?_of_read (k := ds ++ k) rfl (by simp)]
    exact h2
  · rw [hb2, List.append_assoc, ← hb1]
    rfl
  · rw [List.reverse_append]
    exact List.rel_append hf2 hf1

/-- A parenthesis without a question mark opens a match group. -/
theorem read?_paren {cs : List Char} (h : cs.head? ≠ some '?') :
    Lexeme.read? ('(' :: cs) = some (.openCapture none, cs) := by
  show Lexeme.group? cs = _
  unfold Lexeme.group?
  split
  all_goals first
    | exact absurd rfl h
    | rfl

/-- The branches read so far as one pattern. -/
theorem content_denotes {l : Level} {ls : List (Language Char)} (hne : ls ≠ [])
    (h : List.Forall₂ (fun i l => i.pattern.Denotes l) l.all ls.reverse) :
    l.content.pattern.Denotes ls.sum := by
  have hrev := List.rel_reverse h
  rw [List.reverse_reverse] at hrev
  refine denotes_choice (fun hnil => hne ?_) (List.forall₂_map_left_iff.mpr hrev)
  rw [List.map_eq_nil_iff] at hnil
  exact List.forall₂_nil_left_iff.mp (hnil ▸ hrev)

/-- **Branches in parentheses are one factor.** -/
theorem Fills.capture {cs : List Char} {ls : List (Language Char)} (h : Fills cs ls) :
    Spells ('(' :: cs ++ [')']) [⟨ls.sum, false⟩] := by
  refine ⟨by simp, by simp, fun s k hs => ?_⟩
  -- the branches are read on a level of their own, from which one item comes back
  set inner : State := { s with next := s.next + 1 }.descend (some s.next) with hinner
  obtain ⟨s', bs, hread, hb, hf, ho, hm⟩ := h.read inner (')' :: k) hs rfl (by simp)
  have hopen : Lexeme.read? ('(' :: (cs ++ ')' :: k)) =
      some (.openCapture none, cs ++ ')' :: k) := by
    refine read?_paren ?_
    cases cs with
    | nil => simp
    | cons c cs => exact h.head
  have hcontent : s'.level.content.pattern.Denotes ls.sum := by
    refine content_denotes h.ne_nil ?_
    rw [hb]
    exact (List.append_nil bs).symm ▸ hf
  let item : Item :=
    { pattern := Pattern.capture s.next s'.level.content.pattern
      nesting := s'.level.content.nesting + 1 }
  let closed : State :=
    { s' with level := s.level.push item, outer := s.outer, modes := s.modes }
  have hclose : s'.ascend? = some closed := by
    rw [State.ascend?, ho]
    rfl
  refine ⟨closed, ?_, ⟨[item], rfl, .cons ⟨denotes_capture s.next hcontent, rfl⟩ .nil⟩, rfl, rfl, rfl⟩
  have htext : '(' :: cs ++ [')'] ++ k = '(' :: (cs ++ ')' :: k) := by simp
  rw [htext, behind_of_not_counted rfl, readOn?_of_read hopen (by simp)]
  show readOn? inner (cs ++ ')' :: k) = _
  rw [hread, readOn?_of_read (k := k) rfl (by simp)]
  show s'.ascend?.bind _ = _
  rw [hclose]
  rfl

/-! ### The whole text -/

/-- The pattern that asks the whole text to match. -/
def whole (cs : List Char) : List Char := '^' :: ('(' :: cs ++ [')']) ++ ['$']

/-- Whether a text is rejected for nothing but its nesting. -/
def isTooDeep (cs : List Char) : Bool :=
  match readOn? {} cs with
  | some s => s.outer.isEmpty && nestingLimit < s.level.content.nesting
  | none => false

theorem parse?_eq (cs : List Char) : parse? cs = (readOn? {} cs).bind finish? := by
  unfold parse? readOn?
  rw [Option.bind_assoc]

/-- A text in parentheses is read between the conditions for the ends. -/
theorem Spells.readOn?_whole {cs : List Char} {l : Language Char}
    (h : Spells ('(' :: cs ++ [')']) [⟨l, false⟩]) :
    ∃ s p, readOn? {} (whole cs) = some s ∧ s.outer = [] ∧ p.Denotes l ∧
      s.level.content.pattern = row [look .textStart, p, look .textEnd] := by
  -- the state behind the first condition
  obtain ⟨s, hread, he⟩ := h.read (({} : State).push (look .textStart) 0) ['$'] rfl
  obtain ⟨is, hi, hf⟩ := he.items
  rw [List.map_singleton, List.reverse_singleton] at hf
  cases hf with
  | @cons i _ _ _ hs hnil =>
    cases hnil
    refine ⟨s.push (look .textEnd) 0, i.pattern, ?_, he.outer, hs.denotes, ?_⟩
    · have hstart : readOn? {} (whole cs) =
          readOn? (({} : State).push (look .textStart) 0) ('(' :: cs ++ [')'] ++ ['$']) :=
        readOn?_of_read (t := .caret) rfl (by simp [whole])
      rw [hstart, hread, behind_of_not_counted rfl,
        readOn?_of_read (t := .dollar) (k := []) rfl (by simp)]
      show readOn? _ [] = _
      rw [readOn?_nil, he.modes]
      rfl
    · have hb : s.level.branches = [] := he.branches
      simp only [State.push, Level.push, Level.content, Level.branch, hb, hi]
      rfl

/-- Whether a text matches a pattern. -/
def Hits (cs : List Char) (text : String) : Prop :=
  ∃ groups, Verdict.of (String.ofList cs) text = .hit groups

theorem not_hits_of_parse? {cs : List Char} (h : parse? cs = none) (text : String) :
    ¬ Hits cs text := by
  rintro ⟨groups, hv⟩
  rw [Verdict.of, String.toList_ofList, h] at hv
  contradiction

theorem parse?_of_isTooDeep {cs : List Char} (h : isTooDeep cs = true) : parse? cs = none := by
  unfold isTooDeep at h
  rw [parse?_eq]
  cases hs : readOn? {} cs with
  | none => rfl
  | some s =>
    rw [hs] at h
    simp only [Bool.and_eq_true, decide_eq_true_eq] at h
    rw [Option.bind_some, finish?]
    simp [h.1, h.2]

/-- **The whole text matches if it is a word of some branch.** -/
theorem Fills.hits_iff {cs : List Char} {ls : List (Language Char)} (h : Fills cs ls)
    (hd : isTooDeep (whole cs) = false) (text : String) :
    Hits (whole cs) text ↔ text.toList ∈ ls.sum := by
  obtain ⟨s, p, hread, ho, hp, hc⟩ := h.capture.readOn?_whole
  have hparse : parse? (whole cs) = some (row [look .textStart, p, look .textEnd]) := by
    rw [parse?_eq, hread, Option.bind_some, finish?, ← hc]
    simp only [isTooDeep, hread, ho, List.isEmpty_nil, Bool.true_and, decide_eq_false_iff_not,
      not_lt] at hd
    simp [ho, hd]
  rw [← find_whole hp text.toList, Hits, Verdict.of, String.toList_ofList, hparse]
  simp only [Verdict.search]
  cases (row [look .textStart, p, look .textEnd]).find text.toList <;> simp

end ShellExpr.Pattern
