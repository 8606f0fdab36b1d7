import Mathlib.Data.List.Basic
import ShellExpr.Glob

/-!
# How a glob is read

A pattern falls into elements from left to right, and there is no choice in it: each character that
is not special stands for itself, and a bracket that is never closed is not special.

* `Encloses`: where a bracket expression ends, and what it encloses.
* `members`: the ranges that are listed between brackets.
* `Reads`: the elements of a pattern, by rules.
* `reads_iff`: **every pattern is read in exactly one way**, which `elements` computes.
-/

namespace ShellExpr.Glob

/-- The ranges listed between brackets: two characters with a dash between them are one, and any
other character is a range of its own. -/
def members : List Char → List (Char × Char)
  | a :: '-' :: b :: rest => (a, b) :: members rest
  | a :: rest => (a, a) :: members rest
  | [] => []

/-- The text after an opening bracket, if the bracket is closed: a sign if it is negated, the
characters it encloses, the closing bracket and a rest. A closing bracket that is enclosed comes
first of all. -/
inductive Encloses : List Char → Bool → List Char → List Char → Prop
  | plain {first : Char} {more rest : List Char} :
    first ≠ '!' → first ≠ '^' → ']' ∉ more →
    Encloses (first :: more ++ ']' :: rest) false (first :: more) rest
  | negated {sign first : Char} {more rest : List Char} :
    sign = '!' ∨ sign = '^' → ']' ∉ more →
    Encloses (sign :: first :: more ++ ']' :: rest) true (first :: more) rest

/-- The elements that a pattern is read as. -/
inductive Reads : List Char → List Element → Prop
  | nil : Reads [] []
  | star {cs es} : Reads cs es → Reads ('*' :: cs) (.star :: es)
  | one {cs es} : Reads cs es → Reads ('?' :: cs) (.one :: es)
  | escaped {c cs es} : Reads cs es → Reads ('\\' :: c :: cs) (.literal c :: es)
  /-- A backslash at the end stands for itself. -/
  | backslash : Reads ['\\'] [.literal '\\']
  | bracket {cs negated body rest es} :
    Encloses cs negated body rest → Reads rest es →
    Reads ('[' :: cs) (.set negated (members body) :: es)
  /-- A bracket that is not closed stands for itself. -/
  | unclosed {cs es} :
    (∀ negated body rest, ¬ Encloses cs negated body rest) → Reads cs es →
    Reads ('[' :: cs) (.literal '[' :: es)
  | ordinary {c cs es} :
    c ≠ '*' → c ≠ '?' → c ≠ '\\' → c ≠ '[' → Reads cs es → Reads (c :: cs) (.literal c :: es)

/-! ### Between brackets -/

/-- A closing bracket at the very start is a character like any other. -/
theorem ranges?_open {atStart : Bool} {a : Char} (h : atStart = false → a ≠ ']')
    (cs : List Char) : ranges? (.nothing atStart) (a :: cs) = ranges? (.single a) cs := by
  have hno : ¬ (a = ']' ∧ atStart = false) := fun hc => h hc.2 hc.1
  rw [ranges?, if_neg hno]

/-- Without a closing bracket nothing is enclosed. -/
theorem ranges?_eq_none {p : Pending} {cs : List Char} (h : ']' ∉ cs) : ranges? p cs = none := by
  induction cs generalizing p with
  | nil => cases p <;> rfl
  | cons c cs ih =>
    obtain ⟨hc, hcs⟩ := List.ne_and_not_mem_of_not_mem_cons h
    cases p <;> simp [ranges?, Ne.symm hc, ih hcs]

/-- After a character, a dash and a further one make a range. -/
theorem ranges?_single_range {a b : Char} (hb : b ≠ ']') (cs : List Char) :
    ranges? (.single a) ('-' :: b :: cs) =
      (ranges? (.nothing false) cs).map fun r => ((a, b) :: r.1, r.2) := by
  simp [ranges?, hb]

/-- Any other character stands for itself. -/
theorem ranges?_single_alone {a : Char} {cs : List Char}
    (h : ∀ b rest, cs = '-' :: b :: rest → b = ']') :
    ranges? (.single a) cs = (ranges? (.nothing false) cs).map fun r => ((a, a) :: r.1, r.2) := by
  cases cs with
  | nil => rfl
  | cons c cs =>
    by_cases hc : c = ']'
    · simp [ranges?, hc]
    by_cases hdash : c = '-'
    · subst hdash
      -- the dash is the last character between the brackets, if they are closed at all
      cases cs with
      | nil => rfl
      | cons b rest =>
        obtain rfl := h b rest rfl
        simp [ranges?]
    · simp [ranges?, hc, hdash]

/-- Up to the closing bracket, the members are listed. -/
theorem ranges?_members {body : List Char} {atStart : Bool} (hne : body ≠ [] ∨ atStart = false)
    (hstart : atStart = false → ']' ∉ body) (h : ']' ∉ body.tail) (rest : List Char) :
    ranges? (.nothing atStart) (body ++ ']' :: rest) = some (members body, rest) := by
  fun_induction members body generalizing atStart with
  | case1 a b more ih =>
    rw [List.tail_cons, List.mem_cons, List.mem_cons, not_or, not_or] at h
    have ha : atStart = false → a ≠ ']' := fun hs he => hstart hs (by simp [he])
    have hmore : ']' ∉ more.tail := fun hm => h.2.2 (List.mem_of_mem_tail hm)
    have hrest := @ih false (.inr rfl) (fun _ => h.2.2) hmore
    rw [List.cons_append, List.cons_append, List.cons_append, ranges?_open ha,
      ranges?_single_range (Ne.symm h.2.1), hrest, Option.map_some]
  | case2 a more hno ih =>
    rw [List.tail_cons] at h
    have ha : atStart = false → a ≠ ']' := fun hs he => hstart hs (by simp [he])
    have hmore : ']' ∉ more.tail := fun hm => h (List.mem_of_mem_tail hm)
    have hrest := @ih false (.inr rfl) (fun _ => h) hmore
    have halone : ∀ b rest', more ++ ']' :: rest = '-' :: b :: rest' → b = ']' := by
      intro b rest' heq
      match more, hno with
      | [], _ => simp at heq
      | [d], _ => simp at heq; exact heq.2.1.symm
      | d :: e :: more', hno =>
        obtain ⟨rfl, heq⟩ := List.cons.inj heq
        exact absurd rfl (hno e more')
    rw [List.cons_append, ranges?_open ha, ranges?_single_alone halone, hrest, Option.map_some]
  | case3 =>
    obtain rfl : atStart = false := hne.resolve_left (fun h => h rfl)
    simp [ranges?]

/-- What is enclosed after a first character is read as its members. -/
theorem ranges?_enclosed {first : Char} {more : List Char} (h : ']' ∉ more) (rest : List Char) :
    ranges? (.nothing true) (first :: more ++ ']' :: rest) = some (members (first :: more), rest) :=
  ranges?_members (.inl (List.cons_ne_nil first more)) (fun h => by contradiction) h rest

theorem bracket?_of_encloses {cs body rest : List Char} {negated : Bool}
    (h : Encloses cs negated body rest) :
    bracket? cs = some (.set negated (members body), rest) := by
  cases h with
  | @plain first more _ h1 h2 hmore =>
    unfold bracket?
    split
    · rename_i heq
      exact absurd (List.cons.inj heq).1 h1
    · rename_i heq
      exact absurd (List.cons.inj heq).1 h2
    · rw [ranges?_enclosed hmore, Option.map_some]
  | @negated sign first more _ hsign hmore =>
    rcases hsign with rfl | rfl
    · show (ranges? _ (first :: more ++ ']' :: rest)).map _ = _
      rw [ranges?_enclosed hmore, Option.map_some]
    · show (ranges? _ (first :: more ++ ']' :: rest)).map _ = _
      rw [ranges?_enclosed hmore, Option.map_some]

/-- Of the characters after an opening bracket, one that is not the first has to close it. -/
theorem mem_of_ranges? {c : Char} {cs : List Char} {r : List (Char × Char) × List Char}
    (h : ranges? (.nothing true) (c :: cs) = some r) : ']' ∈ cs := by
  by_contra hno
  rw [ranges?_open (fun h => by contradiction), ranges?_eq_none hno] at h
  contradiction

theorem encloses_of_bracket? {cs : List Char} {r : Element × List Char}
    (h : bracket? cs = some r) :
    ∃ negated body, Encloses cs negated body r.2 ∧ r.1 = .set negated (members body) := by
  -- it is enough to find what is enclosed, since that is what is read
  suffices hex : ∃ negated body rest, Encloses cs negated body rest by
    obtain ⟨negated, body, rest, henc⟩ := hex
    rw [bracket?_of_encloses henc] at h
    obtain rfl := Option.some.inj h
    exact ⟨negated, body, henc, rfl⟩
  have hsome : ∀ {ds : List Char} {f : List (Char × Char) × List Char → Element × List Char},
      (ranges? (.nothing true) ds).map f = some r →
        ∃ first more rest, ds = first :: more ++ ']' :: rest ∧ ']' ∉ more := by
    intro ds f hf
    obtain ⟨q, hq, -⟩ := Option.map_eq_some_iff.mp hf
    cases ds with
    | nil => simp [ranges?] at hq
    | cons first ds =>
      obtain ⟨more, rest, rfl, hmore⟩ := List.eq_append_cons_of_mem (mem_of_ranges? hq)
      exact ⟨first, more, rest, rfl, hmore⟩
  unfold bracket? at h
  split at h
  · obtain ⟨first, more, rest, rfl, hmore⟩ := hsome h
    exact ⟨true, first :: more, rest, .negated (.inl rfl) hmore⟩
  · obtain ⟨first, more, rest, rfl, hmore⟩ := hsome h
    exact ⟨true, first :: more, rest, .negated (.inr rfl) hmore⟩
  · rename_i h1 h2
    obtain ⟨first, more, rest, rfl, hmore⟩ := hsome h
    exact ⟨false, first :: more, rest,
      .plain (fun he => h1 _ (by rw [he]; rfl)) (fun he => h2 _ (by rw [he]; rfl)) hmore⟩

theorem bracket?_eq_none_iff {cs : List Char} :
    bracket? cs = none ↔ ∀ negated body rest, ¬ Encloses cs negated body rest := by
  constructor
  · intro h negated body rest henc
    rw [bracket?_of_encloses henc] at h
    contradiction
  · intro h
    by_contra hne
    obtain ⟨r, hr⟩ := Option.ne_none_iff_exists'.mp hne
    obtain ⟨negated, body, henc, -⟩ := encloses_of_bracket? hr
    exact h negated body r.2 henc

/-! ### Whole patterns -/

theorem elements_bracket {cs : List Char} {r : Element × List Char} (h : bracket? cs = some r) :
    elements ('[' :: cs) = r.1 :: elements r.2 := by
  rw [elements]
  split
  · rename_i r' hr
    obtain rfl : r = r' := Option.some.inj (h.symm.trans hr)
    rfl
  · rename_i hr
    rw [h] at hr
    contradiction

theorem elements_unclosed {cs : List Char} (h : bracket? cs = none) :
    elements ('[' :: cs) = .literal '[' :: elements cs := by
  rw [elements]
  split
  · rename_i r hr
    rw [h] at hr
    contradiction
  · rfl

theorem elements_ordinary {c : Char} (h1 : c ≠ '*') (h2 : c ≠ '?') (h3 : c ≠ '\\') (h4 : c ≠ '[')
    (cs : List Char) : elements (c :: cs) = .literal c :: elements cs := by
  rw [elements] <;> simp_all

theorem reads_elements (cs : List Char) : Reads cs (elements cs) := by
  fun_induction elements cs with
  | case1 => exact .nil
  | case2 rest ih => exact .star ih
  | case3 rest ih => exact .one ih
  | case4 c rest ih => exact .escaped ih
  | case5 rest r hr ih =>
    obtain ⟨negated, body, henc, he⟩ := encloses_of_bracket? hr
    rw [he]
    exact .bracket henc ih
  | case6 rest hr ih => exact .unclosed (bracket?_eq_none_iff.mp hr) ih
  | case7 c rest h1 h2 h3 h4 ih =>
    by_cases hc : c = '\\'
    · subst hc
      -- only a backslash at the end is left
      cases rest with
      | nil =>
        rw [elements]
        exact .backslash
      | cons d rest => exact absurd rfl (h3 d rest rfl)
    · exact .ordinary h1 h2 hc h4 ih

/-- **Every pattern is read in exactly one way.** -/
theorem reads_iff {cs : List Char} {es : List Element} : Reads cs es ↔ elements cs = es := by
  constructor
  · intro h
    induction h with
    | nil => rw [elements]
    | star _ ih => rw [elements, ih]
    | one _ ih => rw [elements, ih]
    | escaped _ ih => rw [elements, ih]
    | backslash => simp [elements]
    | bracket henc _ ih => rw [elements_bracket (bracket?_of_encloses henc), ih]
    | unclosed hno _ ih => rw [elements_unclosed (bracket?_eq_none_iff.mpr hno), ih]
    | ordinary h1 h2 h3 h4 _ ih => rw [elements_ordinary h1 h2 h3 h4, ih]
  · rintro rfl
    exact reads_elements cs

end ShellExpr.Glob
