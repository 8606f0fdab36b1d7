/-!
# Glob patterns

A pattern is a row of elements: `*` for any run of characters, `?` for one character, a bracket
expression for one character in or not in a set, and otherwise a character for itself. A backslash
takes the next character literally; a bracket that is never closed and a last lone backslash stand
for themselves. Matching remembers only the most recent `*` and lets it take one character more
whenever the rest fails.

* `Glob.elements`: the elements of a pattern.
* `Glob.isMatch`: whether a text matches a pattern.
-/

namespace ShellExpr.Glob

/-- Part of a pattern. -/
inductive Element where
  /-- Any run of characters. -/
  | star
  /-- Any one character. -/
  | one
  | literal (c : Char)
  /-- One character in some range, or in none of them. -/
  | set (negated : Bool) (ranges : List (Char × Char))
deriving DecidableEq, Inhabited

namespace Element

def isStar (e : Element) : Bool := e = star

/-- Whether the element, not being a star, takes the character. -/
def accepts : Element → Char → Bool
  | star, _ => false
  | one, _ => true
  | literal d, c => d = c
  | set negated ranges, c => (ranges.any fun r => r.1 ≤ c && c ≤ r.2) != negated

end Element

/-- What has been read of the next range of a bracket expression. -/
inductive Pending where
  /-- Nothing; at the very start a closing bracket is an ordinary character. -/
  | nothing (atStart : Bool)
  | single (c : Char)
  /-- A character and the dash after it. -/
  | upTo (c : Char)

/-- The ranges up to the closing bracket, and what follows it. A dash before the closing bracket is
an ordinary character. -/
def ranges? : Pending → List Char → Option (List (Char × Char) × List Char)
  | _, [] => none
  | .nothing atStart, c :: rest =>
    if c = ']' ∧ atStart = false then some ([], rest) else ranges? (.single c) rest
  | .single p, c :: rest =>
    if c = ']' then some ([(p, p)], rest)
    else if c = '-' then ranges? (.upTo p) rest
    else (ranges? (.single c) rest).map fun r => ((p, p) :: r.1, r.2)
  | .upTo p, c :: rest =>
    if c = ']' then some ([(p, p), ('-', '-')], rest)
    else (ranges? (.nothing false) rest).map fun r => ((p, c) :: r.1, r.2)

/-- The bracket expression after an opening bracket, and what follows it. -/
def bracket? : List Char → Option (Element × List Char)
  | '!' :: rest => (ranges? (.nothing true) rest).map fun r => (.set true r.1, r.2)
  | '^' :: rest => (ranges? (.nothing true) rest).map fun r => (.set true r.1, r.2)
  | cs => (ranges? (.nothing true) cs).map fun r => (.set false r.1, r.2)

theorem length_of_ranges? {p : Pending} {cs : List Char} {r : List (Char × Char) × List Char}
    (h : ranges? p cs = some r) : r.2.length < cs.length := by
  induction cs generalizing p r with
  | nil => cases p <;> simp [ranges?] at h
  | cons c rest ih =>
    have step : ∀ {q : Pending} {f : List (Char × Char) → List (Char × Char)},
        (ranges? q rest).map (fun s => (f s.1, s.2)) = some r → r.2.length < rest.length + 1 := by
      intro q f hq
      obtain ⟨s, hs, rfl⟩ := Option.map_eq_some_iff.1 hq
      have := ih hs
      exact Nat.lt_succ_of_lt this
    have done : ∀ {xs : List (Char × Char)}, some (xs, rest) = some r →
        r.2.length < rest.length + 1 := by
      rintro xs ⟨rfl⟩; exact Nat.lt_succ_self _
    cases p <;> simp only [ranges?] at h <;> split at h
    · exact done h
    · exact Nat.lt_succ_of_lt (ih h)
    · exact done h
    · split at h
      · exact Nat.lt_succ_of_lt (ih h)
      · exact step h
    · exact done h
    · exact step h

theorem length_of_bracket? {cs : List Char} {r : Element × List Char}
    (h : bracket? cs = some r) : r.2.length < cs.length := by
  unfold bracket? at h
  split at h <;> obtain ⟨q, hq, rfl⟩ := Option.map_eq_some_iff.1 h <;>
    have := length_of_ranges? hq <;> simp <;> omega

/-- The elements of a pattern. -/
def elements : List Char → List Element
  | [] => []
  | '*' :: rest => .star :: elements rest
  | '?' :: rest => .one :: elements rest
  | '\\' :: c :: rest => .literal c :: elements rest
  | '[' :: rest =>
    match _h : bracket? rest with
    | some r => r.1 :: elements r.2
    | none => .literal '[' :: elements rest
  | c :: rest => .literal c :: elements rest
termination_by cs => cs.length
decreasing_by
  all_goals first
    | (have shorter := length_of_bracket? ‹_›; simp; omega)
    | (simp only [List.length_cons]; omega)

/-- The elements after the most recent star, and the text that the star left to them. -/
structure Resume where
  elements : List Element
  text : List Char

/-- Whether the text matches the elements, or can be made to by the star to resume from. -/
def run (elements : List Element) (text : List Char) (resume : Option Resume)
    (h : ∀ s ∈ resume, elements.length ≤ s.elements.length) : Bool :=
  match text with
  | [] => elements.all Element.isStar
  | c :: rest =>
    match elements with
    | .star :: tail => run tail (c :: rest) (some ⟨tail, c :: rest⟩) (by simp)
    | e :: tail =>
      if e.accepts c then run tail rest resume (fun s hs => by have := h s hs; simp at this; omega)
      else
        match resume with
        | some ⟨after, _ :: less⟩ => run after less (some ⟨after, less⟩) (by simp)
        | _ => false
    | [] =>
      match resume with
      | some ⟨after, _ :: less⟩ => run after less (some ⟨after, less⟩) (by simp)
      | _ => false
termination_by
  ((resume.map (·.elements.length)).getD (elements.length + 1),
    (resume.map (·.text.length)).getD 0, text.length)
decreasing_by
  · cases resume with
    | none => simp; apply Prod.Lex.left; omega
    | some s =>
      have := h s rfl
      apply Prod.Lex.left
      simp at this ⊢; omega
  · cases resume with
    | none => apply Prod.Lex.left; simp
    | some s => simp; apply Prod.Lex.right; apply Prod.Lex.right; omega
  · simp; apply Prod.Lex.right; apply Prod.Lex.left; omega
  · simp; apply Prod.Lex.right; apply Prod.Lex.left; omega

/-- Whether the whole text matches the pattern. -/
def isMatch (pattern text : List Char) : Bool := run (elements pattern) text none (by simp)

end ShellExpr.Glob
