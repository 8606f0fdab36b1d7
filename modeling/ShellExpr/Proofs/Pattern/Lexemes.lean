import ShellExpr.Proofs.Pattern.Numbering

/-!
# The groups of a text

A text falls into lexemes before anything is assembled. What a piece of it falls into does not depend on
what follows, but for a question mark behind a count, so the groups of a match can be told by the texts
between the parentheses.

* `LexesItems`, `LexesBranches`: texts that fall into well-formed lexemes wherever they stand.
* `LexesItems.count`, `LexesBranches.group`: a count behind a text, and a text in parentheses.
* `LexesBranches.find`: **what the groups of a match have taken**, by the texts that they contain.
-/

namespace ShellExpr.Pattern

open Assembly

variable {full : Prop} {ts : List Lexeme}

/-- The pattern of a text whose groups are numbered from `n` on. -/
def patternFrom? (n : Nat) (cs : List Char) : Option Pattern := (lexemes? cs).bind (patternOf? n)

/-- Every text has its lexemes. -/
def AreLexemes (bodies : List (List Char)) (tss : List (List Lexeme)) : Prop :=
  List.Forall₂ (fun cs ts => lexemes? cs = some ts) bodies tss

/-- The text of some items and the texts of their groups. Wherever it stands in a branch it falls into
lexemes of its own, or is rejected; only a question mark behind a count at its end is taken too. -/
structure LexesItems (full : Prop) (cs : List Char) (bodies : List (List Char))
    (counted : Bool) : Prop where
  head : cs.head? ≠ some '?'
  split : ∀ k, lexemes? (cs ++ k) = (lexemes? (cs ++ takenMark counted k)).bind fun ts =>
    (lexemes? (behindMark counted k)).map (ts ++ ·)
  items : ∀ k ts, lexemes? (cs ++ takenMark counted k) = some ts →
    ∃ tss, AreLexemes bodies tss ∧ Items full ts tss

/-- The text of some branches and the texts of their groups. -/
structure LexesBranches (full : Prop) (cs : List Char) (bodies : List (List Char)) : Prop where
  head : cs.head? ≠ some '?'
  split : ∀ k, k.head? ≠ some '?' →
    lexemes? (cs ++ k) = (lexemes? cs).bind fun ts => (lexemes? k).map (ts ++ ·)
  branches : ∀ ts, lexemes? cs = some ts → ∃ tss, AreLexemes bodies tss ∧ Branches full ts tss

theorem lexemes?_nil : lexemes? [] = some [] := by
  rw [lexemes?]
  rfl

theorem lexemes?_eq_none {cs : List Char} (hne : cs ≠ []) (h : Lexeme.read? cs = none) :
    lexemes? cs = none := by
  rw [lexemes?, h]
  simp [hne]

theorem lexemes?_ne_nil {cs : List Char} (hne : cs ≠ []) (h : lexemes? cs = some ts) : ts ≠ [] := by
  rintro rfl
  rw [lexemes?] at h
  simp only [List.isEmpty_iff, hne, if_false] at h
  split at h
  · contradiction
  · split at h
    · obtain ⟨_, -, heq⟩ := Option.map_eq_some_iff.mp h
      contradiction
    · contradiction

section Lexes

variable {cs ds : List Char} {texts texts' : List (List Char)} {counted counted' : Bool}

theorem lexesItems_nil : LexesItems full [] [] false := by
  refine ⟨by simp, fun k => ?_, fun k ts h => ?_⟩
  · simp [lexemes?_nil]
  · rw [takenMark_false, List.append_nil, lexemes?_nil] at h
    obtain rfl := Option.some.inj h
    exact ⟨[], .nil, .nil⟩

/-- The lexemes go on behind a text that takes no mark of what follows. -/
theorem LexesItems.split_of_kept (h : LexesItems full cs texts counted) {k : List Char}
    (hk : takenMark counted k = [] ∧ behindMark counted k = k) :
    lexemes? (cs ++ k) = (lexemes? cs).bind fun ts => (lexemes? k).map (ts ++ ·) := by
  have := h.split k
  rwa [hk.1, hk.2, List.append_nil] at this

theorem LexesItems.items_self (h : LexesItems full cs texts counted) (hts : lexemes? cs = some ts) :
    ∃ tss, AreLexemes texts tss ∧ Items full ts tss :=
  h.items [] ts (by rw [(takenMark_of_head (by simp) counted).1, List.append_nil, hts])

theorem LexesItems.append_of_ne_nil (h : LexesItems full cs texts counted)
    (h' : LexesItems full ds texts' counted') (hne : ds ≠ []) :
    LexesItems full (cs ++ ds) (texts ++ texts') counted' := by
  have hfirst : ∀ k, lexemes? (cs ++ (ds ++ k)) =
      (lexemes? cs).bind fun ts => (lexemes? (ds ++ k)).map (ts ++ ·) := by
    intro k
    refine h.split_of_kept (takenMark_of_head ?_ counted)
    rw [List.head?_append_of_ne_nil _ hne]
    exact h'.head
  refine ⟨?_, fun k => ?_, fun k ts hts => ?_⟩
  · by_cases hcs : cs = []
    · subst hcs
      exact h'.head
    · rw [List.head?_append_of_ne_nil _ hcs]
      exact h.head
  · rw [List.append_assoc, List.append_assoc, hfirst, hfirst, h'.split k]
    cases lexemes? cs with
    | none => rfl
    | some ts =>
      cases lexemes? (ds ++ takenMark counted' k) with
      | none => rfl
      | some us => cases lexemes? (behindMark counted' k) <;> simp
  · rw [List.append_assoc, hfirst] at hts
    obtain ⟨ts₁, h1, hts⟩ := Option.bind_eq_some_iff.mp hts
    obtain ⟨ts₂, h2, rfl⟩ := Option.map_eq_some_iff.mp hts
    obtain ⟨tss, hb, hi⟩ := h.items_self h1
    obtain ⟨tss', hb', hi'⟩ := h'.items k ts₂ h2
    exact ⟨tss ++ tss', List.rel_append hb hb', .append hi hi'⟩

/-- An empty text has no groups. -/
theorem LexesItems.texts_eq_nil (h : LexesItems full [] texts counted) : texts = [] := by
  obtain ⟨tss, hb, hi⟩ := h.items_self lexemes?_nil
  have hlen : tss.length ≤ 0 := hi.length_le
  obtain rfl : tss = [] := List.length_eq_zero_iff.mp (by omega)
  exact List.forall₂_nil_right_iff.mp hb

/-- Items in a row. -/
theorem LexesItems.append (h : LexesItems full cs texts counted)
    (h' : LexesItems full ds texts' counted') :
    ∃ counted'', LexesItems full (cs ++ ds) (texts ++ texts') counted'' := by
  by_cases hne : ds = []
  · subst hne
    rw [h'.texts_eq_nil, List.append_nil, List.append_nil]
    exact ⟨counted, h⟩
  · exact ⟨counted', h.append_of_ne_nil h' hne⟩

/-- A text that is one atom, or is rejected wherever it stands. -/
theorem lexesItems_atom (hne : cs ≠ []) (hhead : cs.head? ≠ some '?')
    (h : (∀ k, Lexeme.read? (cs ++ k) = none) ∨
      ∃ t, t.isAtom = true ∧ ∀ k, Lexeme.read? (cs ++ k) = some (t, k)) :
    LexesItems full cs [] false := by
  have hlt : ∀ k, k.length < (cs ++ k).length := by
    intro k
    have := List.length_pos_iff.mpr hne
    rw [List.length_append]
    omega
  rcases h with hnone | ⟨t, ht, hread⟩
  · have hrej : ∀ k, lexemes? (cs ++ k) = none :=
      fun k => lexemes?_eq_none (by simp [hne]) (hnone k)
    refine ⟨hhead, fun k => ?_, fun k ts hts => ?_⟩
    · rw [hrej, hrej]
      rfl
    · rw [hrej] at hts
      contradiction
  · have hone : lexemes? cs = some [t] := by
      have := lexemes?_of_read (hread []) (hlt [])
      rwa [List.append_nil, lexemes?_nil] at this
    refine ⟨hhead, fun k => ?_, fun k ts hts => ?_⟩
    · rw [lexemes?_of_read (hread k) (hlt k), takenMark_false, List.append_nil, hone]
      rfl
    · rw [takenMark_false, List.append_nil, hone] at hts
      obtain rfl := Option.some.inj hts
      exact ⟨[], .nil, .atom ht⟩

/-- Items are one branch. -/
theorem LexesItems.branches (h : LexesItems full cs texts counted) :
    LexesBranches full cs texts := by
  refine ⟨h.head, fun k hk => h.split_of_kept (takenMark_of_head hk counted), fun ts hts => ?_⟩
  obtain ⟨tss, hb, hi⟩ := h.items_self hts
  exact ⟨tss, hb, .items hi⟩

theorem LexesBranches.bar (h : LexesBranches full cs texts) (h' : LexesBranches full ds texts') :
    LexesBranches full (cs ++ '|' :: ds) (texts ++ texts') := by
  have hbar : ∀ k, lexemes? ('|' :: k) = (lexemes? k).map (.bar :: ·) :=
    fun k => lexemes?_of_read rfl (by simp)
  refine ⟨?_, fun k hk => ?_, fun ts hts => ?_⟩
  · cases cs with
    | nil => simp
    | cons c cs => exact h.head
  · rw [List.append_assoc, List.cons_append, h.split _ (by simp), h.split _ (by simp), hbar, hbar,
      h'.split k hk]
    cases lexemes? cs with
    | none => rfl
    | some ts =>
      cases lexemes? ds with
      | none => rfl
      | some us => cases lexemes? k <;> simp
  · rw [h.split _ (by simp), hbar] at hts
    obtain ⟨ts₁, h1, hts⟩ := Option.bind_eq_some_iff.mp hts
    obtain ⟨ts₂, h2, rfl⟩ := Option.map_eq_some_iff.mp hts
    obtain ⟨us, h3, rfl⟩ := Option.map_eq_some_iff.mp h2
    obtain ⟨tss, hb, hi⟩ := h.branches ts₁ h1
    obtain ⟨tss', hb', hi'⟩ := h'.branches us h3
    exact ⟨tss ++ tss', List.rel_append hb hb', .bar hi hi'⟩

/-- **Branches in parentheses are one item**, a group that contains their text. -/
theorem LexesBranches.group (h : LexesBranches full cs texts) :
    LexesItems full ('(' :: cs ++ [')']) (cs :: texts) false := by
  have hopen : ∀ k, lexemes? ('(' :: (cs ++ ')' :: k)) =
      (lexemes? (cs ++ ')' :: k)).map (.openCapture none :: ·) := by
    intro k
    refine lexemes?_of_read (read?_paren ?_) (by simp)
    cases cs with
    | nil => simp
    | cons c cs => exact h.head
  have hclose : ∀ k, lexemes? (')' :: k) = (lexemes? k).map (.close :: ·) :=
    fun k => lexemes?_of_read rfl (by simp)
  have hread : ∀ k, lexemes? ('(' :: cs ++ [')'] ++ k) = (lexemes? cs).bind fun ts =>
      (lexemes? k).map fun us => .openCapture none :: (ts ++ [.close]) ++ us := by
    intro k
    have htext : '(' :: cs ++ [')'] ++ k = '(' :: (cs ++ ')' :: k) := by simp
    rw [htext, hopen, h.split _ (by simp), hclose]
    cases lexemes? cs with
    | none => rfl
    | some ts => cases lexemes? k <;> simp
  have hself : lexemes? ('(' :: cs ++ [')']) =
      (lexemes? cs).map fun ts => .openCapture none :: (ts ++ [.close]) := by
    have := hread []
    rw [List.append_nil, lexemes?_nil] at this
    rw [this]
    cases lexemes? cs <;> simp
  refine ⟨by simp, fun k => ?_, fun k ts hts => ?_⟩
  · rw [hread, takenMark_false, List.append_nil, hself]
    cases lexemes? cs <;> rfl
  · rw [takenMark_false, List.append_nil, hself] at hts
    obtain ⟨us, hus, rfl⟩ := Option.map_eq_some_iff.mp hts
    obtain ⟨tss, hb, hi⟩ := h.branches us hus
    exact ⟨us :: tss, .cons hus hb, .group hi⟩

/-- A question mark behind a count goes with it, and nothing of it is left for the text behind. -/
theorem LexesItems.append_mark (h : LexesItems full cs texts true) (hne : cs ≠ []) :
    LexesItems full (cs ++ ['?']) texts false := by
  refine ⟨?_, fun k => ?_, fun k ts hts => ?_⟩
  · rw [List.head?_append_of_ne_nil _ hne]
    exact h.head
  · have := h.split ('?' :: k)
    simpa [takenMark, behindMark] using this
  · rw [takenMark_false, List.append_nil] at hts
    exact h.items ['?'] ts (by simpa [takenMark] using hts)

/-- The sign of a count is one lexeme, with the question mark behind it. -/
theorem lexemes?_sign {sign : List Char} {min : Nat} {max : Option Nat} (hsign : sign ≠ [])
    (hread : ∀ k, Lexeme.read? (sign ++ k) = some (Lexeme.repetition min max k)) (k : List Char) :
    ∃ greedy, lexemes? (sign ++ k) =
        (lexemes? (behindMark true k)).map (.rep min max greedy :: ·) ∧
      lexemes? (sign ++ takenMark true k) = some [.rep min max greedy] := by
  have hpos := List.length_pos_iff.mpr hsign
  obtain ⟨greedy, hk, hmark⟩ := repetition_mark min max k
  refine ⟨greedy, lexemes?_of_read (by rw [hread, hk]) ?_, ?_⟩
  · have hle := length_behindMark_le true k
    rw [List.length_append]
    omega
  · rw [lexemes?_of_read (k := []) (by rw [hread, hmark]) (by simp; omega), lexemes?_nil]
    rfl

/-- A sign behind items that is rejected wherever it stands. -/
theorem LexesItems.append_rejected {sign : List Char} (hsign : sign ≠ [])
    (hhead : (cs ++ sign).head? ≠ some '?')
    (hfirst : ∀ k, lexemes? (cs ++ (sign ++ k)) =
      (lexemes? cs).bind fun ts => (lexemes? (sign ++ k)).map (ts ++ ·))
    (hnone : ∀ k, Lexeme.read? (sign ++ k) = none) : LexesItems full (cs ++ sign) texts false := by
  have hrej : ∀ k, lexemes? (cs ++ (sign ++ k)) = none := by
    intro k
    rw [hfirst, lexemes?_eq_none (by simp [hsign]) (hnone k)]
    cases lexemes? cs <;> rfl
  refine ⟨hhead, fun k => ?_, fun k ts hts => ?_⟩
  · rw [List.append_assoc, List.append_assoc, hrej, hrej]
    rfl
  · rw [List.append_assoc, hrej] at hts
    contradiction

/-- **A count behind items** repeats the last of them. -/
theorem LexesItems.count (h : LexesItems full cs texts counted) (hne : cs ≠ []) {sign : List Char}
    {min : Nat} {max : Option Nat} (hsign : sign ≠ []) (hmax : full → max ≠ some 0)
    (hread : (∀ k, Lexeme.read? (sign ++ k) = none) ∨
      ∀ k, Lexeme.read? (sign ++ k) = some (Lexeme.repetition min max k))
    (hmark : sign.head? = some '?' → sign = ['?']) :
    ∃ counted', LexesItems full (cs ++ sign) texts counted' := by
  by_cases hq : sign = ['?'] ∧ counted = true
  · obtain ⟨rfl, rfl⟩ := hq
    exact ⟨false, h.append_mark hne⟩
  have hhead : (cs ++ sign).head? ≠ some '?' := by
    rw [List.head?_append_of_ne_nil _ hne]
    exact h.head
  have hfirst : ∀ k, lexemes? (cs ++ (sign ++ k)) =
      (lexemes? cs).bind fun ts => (lexemes? (sign ++ k)).map (ts ++ ·) := by
    intro k
    refine h.split_of_kept ?_
    cases counted with
    | false => exact ⟨rfl, rfl⟩
    | true =>
      refine takenMark_of_head ?_ true
      rw [List.head?_append_of_ne_nil _ hsign]
      exact fun he => hq ⟨hmark he, rfl⟩
  rcases hread with hnone | hread
  · exact ⟨false, .append_rejected hsign hhead hfirst hnone⟩
  refine ⟨true, hhead, fun k => ?_, fun k ts hts => ?_⟩
  · obtain ⟨greedy, h1, h2⟩ := lexemes?_sign hsign hread k
    rw [List.append_assoc, List.append_assoc, hfirst, hfirst, h1, h2]
    cases lexemes? cs with
    | none => rfl
    | some ts => cases lexemes? (behindMark true k) <;> simp
  · obtain ⟨greedy, -, h2⟩ := lexemes?_sign hsign hread k
    rw [List.append_assoc, hfirst, h2] at hts
    obtain ⟨ts₁, h1, hts⟩ := Option.bind_eq_some_iff.mp hts
    obtain rfl := Option.some.inj hts
    obtain ⟨tss, hb, hi⟩ := h.items_self h1
    exact ⟨tss, hb, .rep hi (lexemes?_ne_nil hne h1) hmax⟩

/-- **What the groups of a match have taken.** There are no more groups than parentheses, and as many if
none of them is repeated for no times at all. The group behind the `i`-th parenthesis has taken
nothing, or a piece of the text that its own text, read as a pattern, matches there. -/
theorem LexesBranches.find (h : LexesBranches full cs texts) {p : Pattern} (hp : parse? cs = some p)
    {text : List Char} {groups : List (List Char)} (hf : p.find text = some groups) :
    groups.length ≤ texts.length + 1 ∧ (full → groups.length = texts.length + 1) ∧
      ∀ (i : Nat) (w body : List Char), groups[i + 1]? = some w → texts[i]? = some body →
        w = [] ∨ ∃ q, patternFrom? (i + 2) body = some q ∧ q.MatchesPiece text w := by
  obtain ⟨ts, hts, hp⟩ := Option.bind_eq_some_iff.mp hp
  obtain ⟨tss, hb, hbranches⟩ := h.branches ts hts
  obtain ⟨hl, hc⟩ := hbranches.finish hp
  obtain ⟨hlen, -, hgroup⟩ := find_groups hl hf
  have hsame : tss.length = texts.length := hb.length_eq.symm
  have hle : p.groupCount ≤ texts.length + 1 :=
    hl.groupCount_le (by omega) fun g q hg => by have := hg.lt; omega
  refine ⟨by omega, fun hfull => ?_, fun i w body hw hbody => ?_⟩
  · have hone := one_le_groupCount p
    by_cases hnil : texts.length = 0
    · omega
    · have := hc hfull texts.length (by omega) (by omega)
      omega
  · refine (hgroup (i + 1) (Nat.succ_pos i) w hw).imp_right ?_
    rintro ⟨q, ⟨j, us, hj, hij, hq⟩, hpiece⟩
    obtain rfl : j = i := by omega
    have hus : lexemes? body = some us := by
      obtain ⟨hi, rfl⟩ := List.getElem?_eq_some_iff.mp hbody
      obtain ⟨hi', rfl⟩ := List.getElem?_eq_some_iff.mp hj
      exact hb.get hi hi'
    refine ⟨q, ?_, hpiece⟩
    rw [patternFrom?, hus, Option.bind_some, ← hq]

end Lexes

end ShellExpr.Pattern
