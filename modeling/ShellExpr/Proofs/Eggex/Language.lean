import ShellExpr.Proofs.Eggex.ClassLiteral
import ShellExpr.Proofs.Pattern.Reading

/-!
# The language of an eggex

A tree denotes a language by its structure: sequences are products, alternations sums, repetitions
unions of powers of the whole child. What its rendering falls into are factors, and a count written
behind several factors reaches the last one only.

* `Eggex.language`: the words that a tree denotes.
* `Eggex.TakesCounts`: whether the rendering of a tree may stand before a count.
* `Eggex.Faithful`: whether the child of every repetition may stand before its count.
-/

namespace ShellExpr

open Pattern

/-- How many times a repetition allows, at least and at most. -/
def Count.bounds : Count → Nat × Option Nat
  | star => (0, none)
  | plus => (1, none)
  | question => (0, some 1)
  | exactly n => (n, some n)
  | between lower upper => (lower.getD 0, upper)

/-- Whether the bounds are in order and fit into 32 bits. -/
def Count.isOrdered (count : Count) : Bool :=
  count.bounds.1 < 2 ^ 32 && count.bounds.2.all fun m => count.bounds.1 ≤ m && m < 2 ^ 32

theorem Count.isOrdered_iff {count : Count} : count.isOrdered = true ↔
    count.bounds.1 < 2 ^ 32 ∧ ∀ m ∈ count.bounds.2, count.bounds.1 ≤ m ∧ m < 2 ^ 32 := by
  unfold isOrdered
  rw [Bool.and_eq_true, decide_eq_true_iff]
  cases count.bounds.2 <;> simp

/-- The words that a count makes of the words of a language. -/
def Count.powers (count : Count) (l : Language Char) : Language Char :=
  Pattern.powers l count.bounds.1 count.bounds.2

namespace Eggex

mutual

/-- The words that a tree denotes by its structure. -/
def language : Eggex → Language Char
  | literal text _ => {text.toList}
  | primitive .dot _ => oneOf (· ≠ '\n')
  | charClass negated terms => oneOf fun c => terms.any (·.denotes c) != negated
  | seq items => (languages items).prod
  | alt items => (languages items).sum
  | rep child count => count.powers child.language
  | group child => child.language
  | capture child _ => child.language
  | _ => 0

/-- The same for several trees. -/
def languages : List Eggex → List (Language Char)
  | [] => []
  | e :: rest => e.language :: languages rest

end

mutual

/-- Whether the tree is built from literals, dots, class literals of at least one character,
sequences, alternations of at least one branch, repetitions with bounds in order, and groups. -/
def isRegular : Eggex → Bool
  | literal .. | primitive .dot _ => true
  | charClass _ terms => terms.all ClassTerm.isOrderly && terms.any ClassTerm.isInhabited
  | seq items => allRegular items
  | alt items => !items.isEmpty && allRegular items
  | rep child count => child.isRegular && count.isOrdered
  | group child => child.isRegular
  | capture child _ => child.isRegular
  | _ => false

/-- Whether every tree of the list is regular. -/
def allRegular : List Eggex → Bool
  | [] => true
  | e :: rest => e.isRegular && allRegular rest

end

mutual

/-- The trees below that stand under a count. -/
def repeated : Eggex → List Eggex
  | rep child _ => child :: child.repeated
  | seq items => allRepeated items
  | alt items => allRepeated items
  | group child => child.repeated
  | capture child _ => child.repeated
  | _ => []

/-- The same for several trees. -/
def allRepeated : List Eggex → List Eggex
  | [] => []
  | e :: rest => e.repeated ++ allRepeated rest

end

/-! ### Factors of a rendering -/

/-- A count behind several factors. -/
def countLast (count : Count) (fs : List Factor) : List Factor :=
  fs.dropLast ++ (fs.getLast?.map fun f =>
    f.repeated (count = .question) count.bounds.1 count.bounds.2).toList

mutual

/-- The factors that the rendering of a tree falls into, an alternation being in parentheses. -/
def factors : Eggex → List Factor
  | literal text _ => text.toList.map fun c => ⟨{[c]}, false⟩
  | seq items => allFactors items
  | rep child count =>
    countLast count (if child.needsGroup then [⟨child.language, false⟩] else child.factors)
  | e => [⟨e.language, false⟩]

/-- The factors of several trees in a row. -/
def allFactors : List Eggex → List Factor
  | [] => []
  | e :: rest => e.factors ++ allFactors rest

end

/-- Whether a count behind the rendering of the tree counts the whole tree: the tree is put in
parentheses, or it is a single factor but for some that match nothing but the empty word. If the
factor has a count of its own, a question mark behind it is lost, which makes no difference only if
the factor may be empty. -/
def TakesCounts (e : Eggex) : Prop :=
  e.needsGroup = true ∨ ∃ init f, e.factors = init ++ [f] ∧ (init.map Factor.language).prod = 1 ∧
    (f.counted = true → [] ∈ f.language)

/-- Whether every count in the tree counts the whole child it is written behind. -/
def Faithful (e : Eggex) : Prop := ∀ c ∈ e.repeated, c.TakesCounts

theorem countLast_append (count : Count) (init : List Factor) (f : Factor) :
    countLast count (init ++ [f]) =
      init ++ [f.repeated (count = .question) count.bounds.1 count.bounds.2] := by
  simp [countLast]

/-- No copy is the empty word. -/
theorem powers_exactly_zero (l : Language Char) : (Count.exactly 0).powers l = 1 := by
  ext w
  constructor
  · rintro ⟨k, ⟨-, hk⟩, hw⟩
    obtain rfl : k = 0 := Nat.le_zero.mp (hk 0 rfl)
    rwa [pow_zero] at hw
  · intro hw
    exact ⟨0, ⟨by simp [Count.bounds], by simp [Count.bounds]⟩, by rwa [pow_zero]⟩

/-- At most one copy of what may be empty is one copy. -/
theorem powers_question {l : Language Char} (h : [] ∈ l) : Count.question.powers l = l := by
  ext w
  constructor
  · rintro ⟨k, ⟨-, hk⟩, hw⟩
    have hle : k ≤ 1 := hk 1 rfl
    obtain rfl | rfl : k = 0 ∨ k = 1 := by omega
    · rw [pow_zero, Language.mem_one] at hw
      exact hw ▸ h
    · rwa [pow_one] at hw
  · intro hw
    exact ⟨1, ⟨by simp [Count.bounds], by simp [Count.bounds]⟩, by rwa [pow_one]⟩

/-- The words of a counted factor, where a question mark that is lost makes no difference. -/
theorem language_repeated {f : Factor} (h : f.counted = true → [] ∈ f.language) (count : Count) :
    (f.repeated (count = .question) count.bounds.1 count.bounds.2).language =
      count.powers f.language := by
  unfold Factor.repeated
  split
  · rename_i hq
    simp only [Bool.and_eq_true, decide_eq_true_eq] at hq
    obtain ⟨rfl, hc⟩ := hq
    exact (powers_question (h hc)).symm
  · rfl

/-- Characters in a row make up their string. -/
theorem prod_chars (cs : List Char) :
    (cs.map fun c => ({[c]} : Language Char)).prod = {cs} := by
  induction cs with
  | nil => rfl
  | cons c cs ih =>
    rw [List.map_cons, List.prod_cons, ih]
    ext w
    constructor
    · intro hw
      obtain ⟨_, rfl, _, rfl, rfl⟩ := Language.mem_mul.mp hw
      rfl
    · rintro rfl
      exact Language.append_mem_mul (a := [c]) rfl rfl

/-- The factors of a counted child that takes counts. -/
theorem prod_countLast {e : Eggex} (he : (e.factors.map Factor.language).prod = e.language)
    (h : e.TakesCounts) (count : Count) :
    ((rep e count).factors.map Factor.language).prod = count.powers e.language := by
  rw [factors]
  rcases h with hg | ⟨init, f, hf, hinit, hmark⟩
  · rw [hg, if_pos rfl]
    have := language_repeated (f := ⟨e.language, false⟩) (by simp) count
    rw [← List.nil_append [_], countLast_append]
    simpa using this
  · rw [hf, List.map_append, List.prod_append, hinit, one_mul] at he
    split
    · rw [← List.nil_append [_], countLast_append]
      simpa using language_repeated (f := ⟨e.language, false⟩) (by simp) count
    · rw [hf, countLast_append, List.map_append, List.prod_append, hinit, one_mul]
      simp only [List.map_singleton, List.prod_singleton] at he ⊢
      rw [language_repeated hmark, he]

mutual

/-- **The factors make up the words of the tree** if every count counts the whole child. -/
theorem prod_factors : (e : Eggex) → e.Faithful → (e.factors.map Factor.language).prod = e.language
  | literal text span, _ => by
    rw [factors, language, List.map_map]
    exact prod_chars text.toList
  | seq items, h => by
    rw [factors, language]
    exact prod_allFactors items h
  | rep child count, h => by
    rw [language]
    have hchild : child.TakesCounts := h child (by simp [repeated])
    exact prod_countLast (prod_factors child fun c hc => h c (by simp [repeated, hc])) hchild count
  | speck .., _ | token _, _ | word _, _ | splice _, _ | posix .., _ | perl .., _ | alt _, _
  | group _, _ | capture .., _ | charClass .., _ | primitive .., _ => by
    simp [factors]

/-- The same for several trees in a row. -/
theorem prod_allFactors : (es : List Eggex) → (∀ c ∈ allRepeated es, c.TakesCounts) →
    ((allFactors es).map Factor.language).prod = (languages es).prod
  | [], _ => rfl
  | e :: rest, h => by
    rw [allFactors, languages, List.map_append, List.prod_append, List.prod_cons,
      prod_factors e fun c hc => h c (by simp [allRepeated, hc]),
      prod_allFactors rest fun c hc => h c (by simp [allRepeated, hc])]

end

end Eggex

end ShellExpr
