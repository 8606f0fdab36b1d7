import Mathlib.Data.List.Forall2
import ShellExpr.Proofs.Glob.Reading

/-!
# What a glob matches

A text matches a pattern if it splits into consecutive pieces, one for each element. Matching tries
only one way to split it: every star but the most recent one keeps what it has taken.

* `Matches`: a text falls into pieces that the elements match.
* `Runs`: how matching goes on from step to step, by rules.
* `Runs.iff`: an earlier star never has to take more, since the most recent one can take it instead.
* `isMatch_iff`: **matching finds a split if there is one.**
-/

namespace ShellExpr.Glob

/-! ### Pieces of a text -/

/-- Whether an element matches a piece of text. -/
def Element.Takes : Element → List Char → Prop
  | star, _ => True
  | one, w => ∃ c, w = [c]
  | literal d, w => w = [d]
  | set negated ranges, w => ∃ c, w = [c] ∧ ((∃ r ∈ ranges, r.1 ≤ c ∧ c ≤ r.2) ↔ negated = false)

/-- The text falls into consecutive pieces that the elements match in order. -/
def Matches (es : List Element) (text : List Char) : Prop :=
  ∃ pieces, List.Forall₂ Element.Takes es pieces ∧ pieces.flatten = text

/-- The text matches the pattern: it matches the elements that the pattern is read as. -/
def Denotes (pattern text : List Char) : Prop := ∃ es, Reads pattern es ∧ Matches es text

variable {e : Element} {es tail : List Element} {c : Char} {text rest : List Char}

/-- All elements but stars take one character. -/
theorem takes_iff (h : e ≠ .star) {w : List Char} : e.Takes w ↔ ∃ c, w = [c] ∧ e.accepts c := by
  cases e with
  | star => contradiction
  | one => simp [Element.Takes, Element.accepts]
  | literal d => simp [Element.Takes, Element.accepts]
  | set negated ranges =>
    refine exists_congr fun c => and_congr_right fun _ => ?_
    have hany : (ranges.any fun r => r.1 ≤ c && c ≤ r.2) = true ↔
        ∃ r ∈ ranges, r.1 ≤ c ∧ c ≤ r.2 := by
      simp [List.any_eq_true]
    rw [← hany, Element.accepts]
    cases negated <;> simp

theorem matches_nil : Matches [] text ↔ text = [] := by
  constructor
  · rintro ⟨pieces, hp, rfl⟩
    cases hp
    rfl
  · rintro rfl
    exact ⟨[], .nil, rfl⟩

/-- A star takes some of the text and leaves the rest. -/
theorem matches_star : Matches (.star :: es) text ↔ ∃ u v, text = u ++ v ∧ Matches es v := by
  constructor
  · rintro ⟨pieces, hp, rfl⟩
    cases hp with
    | @cons _ u _ pieces _ hp => exact ⟨u, pieces.flatten, rfl, pieces, hp, rfl⟩
  · rintro ⟨u, v, rfl, pieces, hp, rfl⟩
    exact ⟨u :: pieces, .cons trivial hp, rfl⟩

/-- Any other element takes the first character. -/
theorem matches_cons (h : e ≠ .star) :
    Matches (e :: es) text ↔ ∃ c rest, text = c :: rest ∧ e.accepts c ∧ Matches es rest := by
  constructor
  · rintro ⟨pieces, hp, rfl⟩
    cases hp with
    | @cons _ w _ pieces hw hp =>
      obtain ⟨c, rfl, hc⟩ := (takes_iff h).mp hw
      exact ⟨c, pieces.flatten, rfl, hc, pieces, hp, rfl⟩
  · rintro ⟨c, rest, rfl, hc, pieces, hp, rfl⟩
    exact ⟨[c] :: pieces, .cons ((takes_iff h).mpr ⟨c, rfl, hc⟩) hp, rfl⟩

/-- What a star can do with a text it can do with a longer one. -/
theorem matches_star_append (u : List Char) (h : Matches (.star :: es) text) :
    Matches (.star :: es) (u ++ text) := by
  obtain ⟨v, w, rfl, hw⟩ := matches_star.mp h
  exact matches_star.mpr ⟨u ++ v, w, by rw [List.append_assoc], hw⟩

/-- Only stars match nothing. -/
theorem matches_nil_iff : Matches es [] ↔ es.all Element.isStar = true := by
  induction es with
  | nil => simp [matches_nil]
  | cons e es ih =>
    by_cases he : e = .star
    · subst he
      have hall : (Element.star :: es).all Element.isStar = es.all Element.isStar := rfl
      rw [matches_star, hall, ← ih]
      constructor
      · rintro ⟨u, v, huv, hv⟩
        obtain ⟨-, rfl⟩ := List.append_eq_nil_iff.mp huv.symm
        exact hv
      · intro h
        exact ⟨[], [], rfl, h⟩
    · simp [matches_cons he, Element.isStar, he]

/-- Elements that are no stars take as many characters as they are. -/
theorem matches_append {before : List Element} (hb : ∀ e ∈ before, e ≠ .star)
    (h : Matches (before ++ es) text) :
    ∃ w v, text = w ++ v ∧ w.length = before.length ∧ Matches es v := by
  induction before generalizing text with
  | nil => exact ⟨[], text, rfl, rfl, h⟩
  | cons e before ih =>
    rw [List.forall_mem_cons] at hb
    obtain ⟨c, rest, rfl, -, hrest⟩ := (matches_cons hb.1).mp h
    obtain ⟨w, v, rfl, hw, hv⟩ := ih hb.2 hrest
    exact ⟨c :: w, v, rfl, by simp [hw], hv⟩

/-! ### Steps of matching -/

/-- The elements cannot go on with the character: there are none, or the first one is no star and
does not accept it. -/
def Refuses (es : List Element) (c : Char) : Prop :=
  ∀ e tail, es = e :: tail → e ≠ .star ∧ e.accepts c = false

/-- Matching of elements against a text, given what to resume from, comes to an answer. -/
inductive Runs : List Element → List Char → Option Resume → Bool → Prop
  | finish {es resume} : Runs es [] resume (es.all Element.isStar)
  | star {tail c rest resume b} : Runs tail (c :: rest) (some ⟨tail, c :: rest⟩) b →
    Runs (.star :: tail) (c :: rest) resume b
  | take {e tail c rest resume b} : e ≠ .star → e.accepts c → Runs tail rest resume b →
    Runs (e :: tail) (c :: rest) resume b
  /-- The most recent star takes one character more. -/
  | retry {es c rest after d less b} : Refuses es c → Runs after less (some ⟨after, less⟩) b →
    Runs es (c :: rest) (some ⟨after, d :: less⟩) b
  | stuck {es c rest resume} : Refuses es c → (∀ s ∈ resume, s.text = []) →
    Runs es (c :: rest) resume false

theorem refuses_nil (c : Char) : Refuses [] c := fun _ _ h => by contradiction

theorem refuses_cons (he : e ≠ .star) (hc : ¬ e.accepts c = true) : Refuses (e :: tail) c := by
  rintro _ _ ⟨rfl, rfl⟩
  exact ⟨he, eq_false_of_ne_true hc⟩

theorem Refuses.not_matches (h : Refuses es c) : ¬ Matches es (c :: rest) := by
  intro hm
  cases es with
  | nil => simp [matches_nil] at hm
  | cons e tail =>
    obtain ⟨he, hc⟩ := h e tail rfl
    obtain ⟨c', rest', heq, hacc, -⟩ := (matches_cons he).mp hm
    obtain ⟨rfl, -⟩ := List.cons.inj heq
    rw [hc] at hacc
    contradiction

/-- **Matching goes by these rules.** -/
theorem runs_run (es : List Element) (text : List Char) (resume : Option Resume)
    (h : ∀ s ∈ resume, es.length ≤ s.elements.length) :
    Runs es text resume (run es text resume h) := by
  fun_induction run es text resume h with
  | case1 es resume h => exact .finish
  | case2 resume c rest tail h _ ih => exact .star ih
  | case3 resume c rest e tail h he hc _ ih => exact .take he hc ih
  | case4 c rest e tail he hc after head less h _ ih => exact .retry (refuses_cons he hc) ih
  | case5 resume c rest e tail he hc h hno _ =>
    refine .stuck (refuses_cons he hc) fun s hs => ?_
    obtain rfl := Option.mem_def.mp hs
    obtain ⟨after, text⟩ := s
    cases text with
    | nil => rfl
    | cons d less => exact (hno after d less h rfl HEq.rfl).elim
  | case6 c rest after head less h _ ih => exact .retry (refuses_nil c) ih
  | case7 resume c rest h hno _ =>
    refine .stuck (refuses_nil c) fun s hs => ?_
    obtain rfl := Option.mem_def.mp hs
    obtain ⟨after, text⟩ := s
    cases text with
    | nil => rfl
    | cons d less => exact (hno after d less h rfl HEq.rfl).elim

/-! ### Only the most recent star matters -/

/-- From where the most recent star left off, elements that are no stars have taken the text up to
here, one character each. -/
def Resume.Reaches (s : Resume) (es : List Element) (text : List Char) : Prop :=
  ∃ before w, s.elements = before ++ es ∧ s.text = w ++ text ∧ w.length = before.length ∧
    ∀ e ∈ before, e ≠ .star

/-- There is a match if the star takes at least one character more. -/
def Resume.Hopes (s : Resume) : Prop := ∃ u v, u ≠ [] ∧ s.text = u ++ v ∧ Matches s.elements v

theorem Resume.reaches_self (es : List Element) (text : List Char) :
    (⟨es, text⟩ : Resume).Reaches es text :=
  ⟨[], [], rfl, rfl, rfl, by simp⟩

theorem Resume.Reaches.take {s : Resume} (h : s.Reaches (e :: tail) (c :: rest))
    (he : e ≠ .star) : s.Reaches tail rest := by
  obtain ⟨before, w, h1, h2, hlen, hb⟩ := h
  refine ⟨before ++ [e], w ++ [c], by simp [h1], by simp [h2], by simp [hlen], ?_⟩
  intro e' he'
  rcases List.mem_append.mp he' with h | h
  · exact hb e' h
  · obtain rfl := List.mem_singleton.mp h
    exact he

/-- One character more, or more than that. -/
theorem Resume.hopes_cons {after : List Element} {d : Char} {less : List Char} :
    (⟨after, d :: less⟩ : Resume).Hopes ↔ Matches after less ∨ (⟨after, less⟩ : Resume).Hopes := by
  constructor
  · rintro ⟨u, v, hu, huv, hv⟩
    cases u with
    | nil => contradiction
    | cons d' u =>
      obtain ⟨-, rfl⟩ := List.cons.inj huv
      by_cases hnil : u = []
      · subst hnil
        exact .inl hv
      · exact .inr ⟨u, v, hnil, rfl, hv⟩
  · rintro (h | ⟨u, v, -, huv, hv⟩)
    · exact ⟨[d], less, by simp, rfl, h⟩
    · obtain rfl : less = u ++ v := huv
      exact ⟨d :: u, v, by simp, rfl, hv⟩

/-- What the earlier star could still get by taking more, the elements here get from a text that
lacks its beginning. -/
theorem Resume.Hopes.here {s : Resume} (h : s.Hopes) (hr : s.Reaches es text) :
    ∃ u v, u ≠ [] ∧ text = u ++ v ∧ Matches es v := by
  obtain ⟨u, v, hu, huv, hv⟩ := h
  obtain ⟨before, w, h1, h2, hlen, hb⟩ := hr
  rw [h1] at hv
  obtain ⟨w', v', rfl, hlen', hv'⟩ := matches_append hb hv
  -- both splits of the star's text leave their last part behind equally many elements
  have hsplit : w ++ text = (u ++ w') ++ v' := by rw [← h2, huv, List.append_assoc]
  have hdrop : text = (u ++ w').drop w.length ++ v' := by
    have hle : w.length ≤ (u ++ w').length := by simp; omega
    have := congrArg (List.drop w.length) hsplit
    rwa [List.drop_left, List.drop_append_of_le_length hle] at this
  refine ⟨(u ++ w').drop w.length, v', ?_, hdrop, hv'⟩
  have hpos : 0 < u.length := List.length_pos_iff.mpr hu
  intro hnil
  have := congrArg List.length hnil
  simp at this
  omega

/-- **Only the most recent star matters.** Matching succeeds if the elements match the text or the
most recent star can help by taking more. -/
theorem Runs.iff {resume : Option Resume} {b : Bool} (h : Runs es text resume b)
    (hr : ∀ s ∈ resume, s.Reaches es text) :
    b = true ↔ Matches es text ∨ ∃ s ∈ resume, s.Hopes := by
  induction h with
  | @finish es resume =>
    rw [← matches_nil_iff]
    refine ⟨.inl, fun h => h.resolve_right ?_⟩
    rintro ⟨s, hs, hh⟩
    -- the star would leave less text than none
    obtain ⟨u, v, hu, huv, -⟩ := hh.here (hr s hs)
    exact hu (List.append_eq_nil_iff.mp huv.symm).1
  | @star tail c rest resume b _ ih =>
    have hnew := ih fun s hs => by
      obtain rfl := Option.some.inj hs
      exact Resume.reaches_self tail (c :: rest)
    have hsame : Matches (.star :: tail) (c :: rest) ↔
        Matches tail (c :: rest) ∨ (⟨tail, c :: rest⟩ : Resume).Hopes := by
      rw [matches_star]
      constructor
      · rintro ⟨u, v, huv, hv⟩
        by_cases hu : u = []
        · subst hu
          exact .inl (by rwa [huv])
        · exact .inr ⟨u, v, hu, huv, hv⟩
      · rintro (h | ⟨u, v, -, huv, hv⟩)
        · exact ⟨[], c :: rest, rfl, h⟩
        · exact ⟨u, v, huv, hv⟩
    have hold : (∃ s ∈ resume, s.Hopes) → Matches (.star :: tail) (c :: rest) := by
      rintro ⟨s, hs, hh⟩
      obtain ⟨u, v, -, huv, hv⟩ := hh.here (hr s hs)
      rw [huv]
      exact matches_star_append u hv
    rw [hnew, or_iff_left_of_imp hold, hsame]
    simp
  | @take e tail c rest resume b he hc _ ih =>
    have hrest := ih fun s hs => (hr s hs).take he
    have hsame : Matches (e :: tail) (c :: rest) ↔ Matches tail rest := by
      rw [matches_cons he]
      constructor
      · rintro ⟨c', rest', heq, -, h⟩
        obtain ⟨-, rfl⟩ := List.cons.inj heq
        exact h
      · intro h
        exact ⟨c, rest, rfl, hc, h⟩
    rw [hrest, hsame]
  | @retry es c rest after d less b hc _ ih =>
    have hless := ih fun s hs => by
      obtain rfl := Option.some.inj hs
      exact Resume.reaches_self after less
    have hno : ¬ Matches es (c :: rest) := hc.not_matches
    simp only [Option.mem_def, Option.some.injEq, exists_eq_left'] at hless ⊢
    rw [hless, Resume.hopes_cons, or_iff_right hno]
  | @stuck es c rest resume hc hnil =>
    have hno : ¬ Matches es (c :: rest) := hc.not_matches
    refine ⟨fun h => by contradiction, fun h => (h.resolve_left hno).elim ?_⟩
    rintro s ⟨hs, -⟩
    -- a star that reaches a character has text left
    obtain ⟨before, w, -, htext, -⟩ := hr s hs
    rw [hnil s hs] at htext
    simp at htext

/-- **Matching finds a split of the text if there is one.** -/
theorem isMatch_iff {pattern text : List Char} :
    isMatch pattern text = true ↔ Denotes pattern text := by
  have hrun := (runs_run (elements pattern) text none (by simp)).iff (by simp)
  have hread : Matches (elements pattern) text ↔ Denotes pattern text := by
    simp only [Denotes, reads_iff, exists_eq_left']
  rw [isMatch, hrun, ← hread]
  simp

end ShellExpr.Glob
