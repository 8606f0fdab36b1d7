import ShellExpr.Proofs.Eggex.Meaning
import ShellExpr.Proofs.Pattern.Marks

/-!
# Characters in a rendered eggex

No character of a literal or of a class literal is ever read as syntax, whatever stands next to it.

* `literal_matches_itself`: **between the ends of the text, a literal matches itself and nothing
  else.**
* `ClassTerm.Holds`: the characters that a compiled class term stands for.
* `charClass_matches_iff`: **a class literal matches the characters of its terms**, or all others.
-/

namespace ShellExpr

open Pattern Pattern.Assembly Spot

/-! ### Literals -/

namespace Pattern

/-- One pattern for each character. -/
def chars (cs : List Char) : List Pattern := cs.map fun c => set (.single c)

/-- Between the ends of the text, the characters in a row. -/
def anchored (cs : List Char) : Pattern :=
  row (look .textStart :: chars cs ++ [look .textEnd])

theorem rowReaches_chars {cs : List Char} {s t : Spot} :
    RowReaches (chars cs) s t ↔ Spot.Reads cs s t := by
  induction cs generalizing s with
  | nil => exact reads_nil.symm
  | cons c cs ih =>
    have happend : Spot.Reads (c :: cs) s t ↔ ∃ u, Spot.Reads [c] s u ∧ Spot.Reads cs u t :=
      reads_append (v := [c])
    rw [happend]
    refine exists_congr fun u => and_congr ?_ ih
    simp [Reaches, CharSet.mem]

theorem anchored_reaches {cs : List Char} {s t : Spot} : (anchored cs).Reaches s t ↔
    s.before = none ∧ Spot.Reads cs s t ∧ t.after = [] := by
  have hends : ∀ u v : Spot, Look.holds (u.gap 0) .textStart = u.before.isNone ∧
      Look.holds (v.gap 0) .textEnd = v.after.head?.isNone := fun u v => ⟨rfl, rfl⟩
  rw [anchored, row_reaches, List.cons_append, RowReaches, rowReaches_append, rowReaches_single]
  constructor
  · rintro ⟨u, ⟨hs, rfl⟩, v, hr, ht, rfl⟩
    rw [(hends s v).1, Option.isNone_iff_eq_none] at hs
    rw [(hends s v).2, Option.isNone_iff_eq_none, List.head?_eq_none_iff] at ht
    exact ⟨hs, rowReaches_chars.mp hr, ht⟩
  · rintro ⟨hs, hr, ht⟩
    refine ⟨s, ⟨?_, rfl⟩, t, rowReaches_chars.mpr hr, ?_, rfl⟩
    · rw [(hends s t).1, hs]
      rfl
    · rw [(hends s t).2, ht]
      rfl

theorem labelled_anchored (cs : List Char) : Labelled (fun _ _ => False) 1 (anchored cs) := by
  refine Labelled.row fun p hp => ?_
  simp only [List.mem_append, List.mem_cons, chars, List.mem_map, List.not_mem_nil, or_false] at hp
  rcases hp with (rfl | ⟨c, -, rfl⟩) | rfl
  · exact .look
  · exact .set
  · exact .look

/-- The characters match themselves only, and there are no further groups. -/
theorem find_anchored (cs text : List Char) :
    (anchored cs).find text = if text = cs then some [cs] else none := by
  have hsome : ((anchored cs).find text).isSome ↔ text = cs := by
    rw [find_isSome]
    constructor
    · rintro ⟨w, u, t, hw, ht⟩
      obtain ⟨hu, hread, hend⟩ := anchored_reaches.mp ht
      -- nothing stands before the start of the match
      have hnil : w = [] := by
        have := hw.2
        rw [hu] at this
        simpa using this.symm
      subst hnil
      obtain rfl := reads_nil.mp hw
      have := hread.1
      rwa [hend, List.append_nil] at this
    · rintro rfl
      refine ⟨[], ⟨none, text⟩, ⟨text.getLast?, []⟩, reads_nil.mpr rfl, ?_⟩
      exact anchored_reaches.mpr ⟨rfl, ⟨by simp, by simp⟩, rfl⟩
  cases hf : (anchored cs).find text with
  | none =>
    rw [hf] at hsome
    rw [if_neg fun h => by simpa using hsome.mpr h]
  | some groups =>
    have htext : text = cs := hsome.mp (by rw [hf]; rfl)
    obtain ⟨w, rfl, u, v, heq, hreach⟩ := find_ungrouped (labelled_anchored cs) hf
    obtain ⟨-, hread, hv⟩ := anchored_reaches.mp hreach
    have hw : w = cs := by
      have := hread.1
      obtain rfl : v = [] := hv
      simpa using this
    rw [if_pos htext, hw]

end Pattern

/-- A branch is nested no deeper than its items, but for the row that it puts them in. -/
theorem Pattern.Assembly.Level.nesting_le {items : List Item} {n : Nat}
    (h : ∀ i ∈ items, i.nesting ≤ n) : Level.nesting items ≤ n + 1 := by
  unfold Level.nesting
  split
  · omega
  · exact Nat.le_succ_of_le (h _ List.mem_cons_self)
  · have := Pattern.Brackets.foldl_max_le (items.map Item.nesting) (Nat.zero_le n)
      (by simpa using h)
    omega

/-- A pattern of one branch whose items are not nested is finished. -/
theorem Pattern.Assembly.finish?_of_items {s : State} {ps : List Pattern} {n : Nat}
    (ho : s.outer = []) (hb : s.level.branches = [])
    (hp : s.level.items.reverse.map Item.pattern = ps)
    (hn : ∀ i ∈ s.level.items, i.nesting ≤ n) (hle : n < nestingLimit) :
    finish? s = some (row ps) := by
  -- one branch is all there is
  have hcontent : s.level.content =
      { pattern := row ps, nesting := Level.nesting s.level.items } := by
    simp only [Level.content, hb, Level.branch, hp]
    rfl
  have hlimit : Level.nesting s.level.items ≤ nestingLimit :=
    Nat.le_trans (Level.nesting_le hn) hle
  rw [finish?, hcontent]
  simp [ho, hlimit]

namespace Eggex

/-- **Characters are read one by one**, each as itself. -/
theorem readOn?_chars {s : State} (hs : s.modes = {}) (cs k : List Char) :
    readOn? s (cs.flatMap renderChar ++ k) =
      readOn? { s with level.items :=
        ((chars cs).map fun p => { pattern := p, nesting := 0 }).reverse ++ s.level.items } k := by
  induction cs generalizing s with
  | nil => rfl
  | cons c cs ih =>
    have hne : 0 < (renderChar c).length := List.length_pos_iff.mpr <| by
      unfold renderChar
      split <;> simp
    rw [List.flatMap_cons, List.append_assoc,
      readOn?_of_read (read?_renderChar c _) (by simp only [List.length_append]; omega)]
    have htake : take? s (Lexeme.literal c) = some (s.push (.set (.single c)) 0) := by
      simp [take?, Lexeme.literal, hs, CharSet.exact]
    rw [htake, Option.bind_some, ih (s := s.push (.set (.single c)) 0) hs]
    simp [State.push, Level.push, chars]

/-- The text of a literal between the ends is read as its characters. -/
theorem parse?_literal (cs : List Char) :
    parse? ('^' :: cs.flatMap renderChar ++ ['$']) = some (anchored cs) := by
  have hread : readOn? {} ('^' :: cs.flatMap renderChar ++ ['$']) =
      some { level := { items := { pattern := look .textEnd, nesting := 0 } ::
        (((chars cs).map fun p => { pattern := p, nesting := 0 }).reverse ++
          [{ pattern := look .textStart, nesting := 0 }]) } } := by
    rw [List.cons_append, readOn?_of_read (t := .caret) (k := cs.flatMap renderChar ++ ['$']) rfl
      (by simp)]
    show readOn? _ _ = _
    rw [readOn?_chars rfl, readOn?_of_read (t := .dollar) (k := []) rfl (by simp)]
    exact readOn?_nil _
  rw [parse?_eq, hread, Option.bind_some]
  refine finish?_of_items (n := 0) rfl rfl ?_ ?_ (by decide)
  · simp [Function.comp_def]
  · intro i hi
    simp only [List.mem_cons, List.mem_append, List.mem_reverse, List.mem_map, List.not_mem_nil,
      or_false] at hi
    rcases hi with rfl | ⟨p, -, rfl⟩ | rfl <;> exact Nat.le_refl 0

/-- **Between the ends of the text, a literal matches itself and nothing else.** Its rendering is read
as its characters, one after the other, so none of them is syntax; the one group of a match is the
literal. -/
theorem literal_matches_itself (s t : String) (a b c : Span) :
    ∃ cs, (seq [primitive .start a, literal s b, primitive .stop c]).render = .ok cs ∧
      parse? cs = some (anchored s.toList) ∧
      Verdict.of (String.ofList cs) t = if t = s then .hit [s] else .miss := by
  refine ⟨'^' :: s.toList.flatMap renderChar ++ ['$'], rfl, parse?_literal s.toList, ?_⟩
  rw [Verdict.of, String.toList_ofList, parse?_literal]
  simp only [Verdict.search, find_anchored, String.toList_inj]
  by_cases h : t = s
  · simp [h]
  · simp [h]

end Eggex

/-! ### Class literals -/

namespace ClassTerm

/-- The characters that a compiled term stands for: those of a range, those that bytes encode in
UTF-8 or otherwise those with the bytes as code points, and the one of a code point. -/
def Holds : ClassTerm → Char → Prop
  | range first last, c => first ≤ c ∧ c ≤ last
  | bytes bs _, c =>
    (∃ s, Bytes.encode s = bs ∧ c ∈ s.toList) ∨
      ((∀ s, Bytes.encode s ≠ bs) ∧ ∃ b ∈ bs, c.toNat = b.toNat)
  | codePoint code _, c => c.toNat = code
  | _, _ => False

/-- Whether the term is a range with its bounds in order, bytes, or a code point of a character. -/
def IsPlain : ClassTerm → Prop
  | range first last => first ≤ last
  | bytes .. => True
  | codePoint code _ => code.isValidChar
  | _ => False

theorem encode_of_decode? {bs : List UInt8} {s : String} (h : Bytes.decode? bs = some s) :
    Bytes.encode s = bs := by
  unfold Bytes.decode? String.fromUTF8? at h
  split at h
  · obtain rfl := Option.some.inj h
    rfl
  · contradiction

/-- A byte is the code point of a character. -/
theorem toNat_ofNat_byte (b : UInt8) : (Char.ofNat b.toNat).toNat = b.toNat := by
  have hlt : b.toNat < 256 := b.toNat_lt
  have hvalid : b.toNat.isValidChar := .inl (by omega)
  exact Bytes.scalar?_eq_some_iff.mp (if_pos hvalid)

theorem mem_characters {bs : List UInt8} {c : Char} : c ∈ Bytes.characters bs ↔
    (∃ s, Bytes.encode s = bs ∧ c ∈ s.toList) ∨
      ((∀ s, Bytes.encode s ≠ bs) ∧ ∃ b ∈ bs, c.toNat = b.toNat) := by
  unfold Bytes.characters
  cases hd : Bytes.decode? bs with
  | some s =>
    have hs : Bytes.encode s = bs := encode_of_decode? hd
    constructor
    · intro hc
      exact .inl ⟨s, hs, hc⟩
    · rintro (⟨s', hs', hc⟩ | ⟨hno, -⟩)
      · -- bytes encode one text only
        rw [← hs', Bytes.decode?_encode] at hd
        obtain rfl := Option.some.inj hd
        exact hc
      · exact absurd hs (hno s)
  | none =>
    have hno : ∀ s, Bytes.encode s ≠ bs := by
      rintro s rfl
      rw [Bytes.decode?_encode] at hd
      contradiction
    simp only [List.mem_map]
    constructor
    · rintro ⟨b, hb, rfl⟩
      exact .inr ⟨hno, b, hb, toNat_ofNat_byte b⟩
    · rintro (⟨s, hs, -⟩ | ⟨-, b, hb, hc⟩)
      · exact absurd hs (hno s)
      · refine ⟨b, hb, Char.toNat_inj.mp ?_⟩
        rw [toNat_ofNat_byte, hc]

/-- The characters of a term are those it is rendered to. -/
theorem holds_iff {t : ClassTerm} (ht : t.IsPlain) (c : Char) : t.Holds c ↔ t.denotes c = true := by
  cases t with
  | range first last => simp [Holds, denotes]
  | bytes bs span =>
    rw [Holds, ← mem_characters, denotes, List.contains_iff_mem]
  | codePoint code span =>
    rw [Holds, denotes, decide_eq_true_iff, Bytes.scalar?_eq_some_iff]
  | word _ | charLiteral _ | posix _ _ | perl _ _ => exact ht.elim

theorem IsPlain.isOrderly {t : ClassTerm} (ht : t.IsPlain) : t.isOrderly = true := by
  cases t with
  | range first last => exact decide_eq_true ht
  | bytes _ _ | codePoint _ _ => rfl
  | word _ | charLiteral _ | posix _ _ | perl _ _ => exact ht.elim

theorem isInhabited_of_denotes {t : ClassTerm} {c : Char} (h : t.denotes c = true) :
    t.isInhabited = true := by
  cases t with
  | bytes bs span =>
    rw [denotes, List.contains_iff_mem] at h
    simp [isInhabited, List.ne_nil_of_mem h]
  | _ => rfl

theorem IsPlain.render {t : ClassTerm} (ht : t.IsPlain) : ∃ cs, t.render = .ok cs := by
  cases t with
  | range _ _ | bytes _ _ => exact ⟨_, rfl⟩
  | codePoint code span =>
    have hcode : Bytes.scalar? code = some (Char.ofNat code) := if_pos ht
    exact ⟨renderChar (Char.ofNat code), by rw [ClassTerm.render, hcode]⟩
  | word _ | charLiteral _ | posix _ _ | perl _ _ => exact ht.elim

theorem renderAll_ok {terms : List ClassTerm} (h : ∀ t ∈ terms, t.IsPlain) :
    ∃ body, renderAll terms = .ok body := by
  induction terms with
  | nil => exact ⟨[], rfl⟩
  | cons t terms ih =>
    rw [List.forall_mem_cons] at h
    obtain ⟨xs, hx⟩ := h.1.render
    obtain ⟨ys, hy⟩ := ih h.2
    exact ⟨xs ++ ys, by rw [renderAll, hx, hy]; rfl⟩

end ClassTerm

namespace Pattern

/-- A set matches a text of one character that is in it, and then all of it. -/
theorem find_set (s : CharSet) (c : Char) :
    (set s).find [c] = if s.mem c then some [[c]] else none := by
  have hsome : ((set s).find [c]).isSome ↔ s.mem c = true := by
    rw [find_isSome]
    constructor
    · rintro ⟨w, u, t, hw, d, hd, ht⟩
      have hafter : u.after = d :: t.after := ht.1
      have htext : [c] = w ++ d :: t.after := hafter ▸ hw.1
      cases w with
      | nil => rwa [(List.cons.inj htext).1]
      | cons e w => simp at htext
    · intro hc
      exact ⟨[], ⟨none, [c]⟩, ⟨some c, []⟩, reads_nil.mpr rfl, c, hc, rfl, rfl⟩
  cases hf : (set s).find [c] with
  | none =>
    rw [hf] at hsome
    rw [if_neg fun h => by simpa using hsome.mpr h]
  | some groups =>
    have hc : s.mem c = true := hsome.mp (by rw [hf]; rfl)
    obtain ⟨w, rfl, u, v, heq, d, -, hread⟩ := find_ungrouped .set hf
    have hw : w = [d] := List.append_cancel_right hread.1
    subst hw
    obtain rfl : d = c := by
      have : d ∈ [c] := by rw [heq]; simp
      exact List.mem_singleton.mp this
    rw [if_pos hc]

end Pattern

namespace Eggex

/-- A class literal is read as a set, which holds the characters of its terms or all others. -/
theorem parse?_charClass {terms : List ClassTerm} (ht : terms.all ClassTerm.isOrderly = true)
    (hi : terms.any ClassTerm.isInhabited = true) {body : List Char}
    (h : ClassTerm.renderAll terms = .ok body) (negated : Bool) :
    ∃ s : CharSet, parse? (brackets negated body) = some (.set s) ∧
      ∀ c, s.mem c = (terms.any (·.denotes c) != negated) := by
  obtain ⟨t, hnest, hread, hmem⟩ := ClassTerm.read?_brackets ht hi h negated
  have hlexeme : Lexeme.read? (brackets negated body) = some (.set t.set t.nesting, []) := by
    have htext : brackets negated body =
        '[' :: ((if negated then ['^'] else []) ++ body ++ [']']) := rfl
    rw [htext]
    show (Brackets.read? _).map _ = _
    rw [hread []]
    rfl
  refine ⟨t.set.exact, ?_, hmem⟩
  rw [parse?_eq, readOn?_of_read hlexeme (by simp [brackets])]
  show (readOn? _ []).bind finish? = _
  rw [readOn?_nil, Option.bind_some]
  refine finish?_of_items (n := 2) rfl rfl rfl (fun i hi => ?_) (by decide)
  obtain rfl := List.mem_singleton.mp hi
  exact hnest

/-- **A class literal matches the characters of its terms**, or all others if it is negated. It has a
rendering, and no term changes what the terms next to it stand for. -/
theorem charClass_matches_iff {terms : List ClassTerm} (ht : ∀ t ∈ terms, t.IsPlain)
    (hi : ∃ t ∈ terms, ∃ d, t.Holds d) (negated : Bool) (c : Char) :
    ∃ cs, (charClass negated terms).render = .ok cs ∧
      (Xor (∃ t ∈ terms, t.Holds c) (negated = true) →
        Verdict.of (String.ofList cs) (String.singleton c) = .hit [String.singleton c]) ∧
      (¬ Xor (∃ t ∈ terms, t.Holds c) (negated = true) →
        Verdict.of (String.ofList cs) (String.singleton c) = .miss) := by
  have horderly : terms.all ClassTerm.isOrderly = true :=
    List.all_eq_true.mpr fun t h => (ht t h).isOrderly
  have hinhabited : terms.any ClassTerm.isInhabited = true := by
    obtain ⟨t, h, d, hd⟩ := hi
    exact List.any_eq_true.mpr
      ⟨t, h, ClassTerm.isInhabited_of_denotes ((ClassTerm.holds_iff (ht t h) d).mp hd)⟩
  obtain ⟨body, hbody⟩ := ClassTerm.renderAll_ok ht
  obtain ⟨s, hparse, hmem⟩ := parse?_charClass horderly hinhabited hbody negated
  have hany : terms.any (·.denotes c) = true ↔ ∃ t ∈ terms, t.Holds c := by
    rw [List.any_eq_true]
    exact exists_congr fun t => and_congr_right fun h => (ClassTerm.holds_iff (ht t h) c).symm
  have hsel : s.mem c = true ↔ Xor (∃ t ∈ terms, t.Holds c) (negated = true) := by
    rw [hmem, ← hany]
    cases terms.any (·.denotes c) <;> cases negated <;> simp [Xor]
  have hverdict : Verdict.of (String.ofList (brackets negated body)) (String.singleton c) =
      if s.mem c then .hit [String.singleton c] else .miss := by
    rw [Verdict.of, String.toList_ofList, hparse]
    simp only [Verdict.search, String.toList_singleton, find_set]
    by_cases hc : s.mem c = true
    · simp [hc]
    · simp [hc]
  refine ⟨brackets negated body, by rw [render, hbody]; rfl, fun h => ?_, fun h => ?_⟩
  · rw [hverdict, if_pos (hsel.mpr h)]
  · rw [hverdict, if_neg fun hc => h (hsel.mp hc)]

/-- A closing bracket and a dash before a range are characters like any others. -/
theorem charClass_matches_iff_dash :
    let terms := [ClassTerm.bytes [93, 45] .dummy, .range 'a' 'c', .codePoint 94 .dummy]
    (∀ t ∈ terms, t.IsPlain) ∧ (∃ t ∈ terms, ∃ d, t.Holds d) ∧
      ∃ cs, (charClass false terms).render = .ok cs ∧
        Verdict.of (String.ofList cs) (String.singleton '-') = .hit [String.singleton '-'] := by
  intro terms
  have hplain : ∀ t ∈ terms, t.IsPlain := by
    have hrange : 'a' ≤ 'c' := by decide
    have hcode : Nat.isValidChar 94 := by decide
    simp [terms, ClassTerm.IsPlain, hrange, hcode]
  have hdash : ∃ t ∈ terms, t.Holds '-' :=
    ⟨_, List.mem_cons_self, .inl ⟨"]-", by decide +kernel, by decide⟩⟩
  have hinhabited : ∃ t ∈ terms, ∃ d, t.Holds d := by
    obtain ⟨t, ht, hd⟩ := hdash
    exact ⟨t, ht, '-', hd⟩
  obtain ⟨cs, hcs, hhit, -⟩ := charClass_matches_iff hplain hinhabited false '-'
  exact ⟨hplain, hinhabited, cs, hcs, hhit (.inl ⟨hdash, by simp⟩)⟩

end Eggex

end ShellExpr
