import ShellExpr.Proofs.Pattern.Marks
import ShellExpr.Proofs.Pattern.Reading

/-!
# How match groups are numbered

Groups are numbered by their opening parentheses, and what stands between two parentheses is assembled
as it would be on its own, with its groups numbered from there on.

* `Items`, `Branches`: lexemes that are well formed, and the contents of the groups in them from left
  to right.
* `Numbered`: the groups have consecutive numbers, and each of them contains what its lexemes mean.
* `Branches.takeAll`: well-formed lexemes are assembled wherever they stand.
* `Branches.finish`: **a finished pattern has its groups numbered from left to right.**
-/

namespace ShellExpr.Pattern

open Assembly

/-! ### Well-formed lexemes -/

/-- Whether a lexeme is an item by itself. -/
def Lexeme.isAtom : Lexeme → Bool
  | set .. | dot | caret | dollar | look _ => true
  | _ => false

mutual

/-- Items of a branch, with the contents of their groups. A repetition has an item before it; if
`full`, none of them is for no times at all. -/
inductive Items (full : Prop) : List Lexeme → List (List Lexeme) → Prop
  | nil : Items full [] []
  | atom {t} : t.isAtom = true → Items full [t] []
  | group {ts bodies} : Branches full ts bodies →
    Items full (.openCapture none :: (ts ++ [.close])) (ts :: bodies)
  | append {ts us bodies bodies'} : Items full ts bodies → Items full us bodies' →
    Items full (ts ++ us) (bodies ++ bodies')
  | rep {ts bodies min max greedy} : Items full ts bodies → ts ≠ [] → (full → max ≠ some 0) →
    Items full (ts ++ [.rep min max greedy]) bodies

/-- Branches of a group, with the contents of their groups. -/
inductive Branches (full : Prop) : List Lexeme → List (List Lexeme) → Prop
  | items {ts bodies} : Items full ts bodies → Branches full ts bodies
  | bar {ts us bodies bodies'} : Branches full ts bodies → Branches full us bodies' →
    Branches full (ts ++ .bar :: us) (bodies ++ bodies')

end

mutual

/-- Every group takes lexemes. -/
theorem Items.length_le {full : Prop} {ts : List Lexeme} {bodies : List (List Lexeme)} :
    Items full ts bodies → bodies.length ≤ ts.length
  | .nil => Nat.le_refl 0
  | .atom _ => Nat.zero_le _
  | .group h => by
    have := h.length_le
    simp only [List.length_cons, List.length_append]
    omega
  | .append h h' => by
    have := h.length_le
    have := h'.length_le
    simp only [List.length_append]
    omega
  | .rep h _ _ => by
    have := h.length_le
    simp only [List.length_append]
    omega

theorem Branches.length_le {full : Prop} {ts : List Lexeme} {bodies : List (List Lexeme)} :
    Branches full ts bodies → bodies.length ≤ ts.length
  | .items h => h.length_le
  | .bar h h' => by
    have := h.length_le
    have := h'.length_le
    simp only [List.length_append, List.length_cons]
    omega

end

/-- The pattern of some lexemes whose groups are numbered from `n` on. -/
def patternOf? (n : Nat) (ts : List Lexeme) : Option Pattern :=
  (takeAll? { next := n } ts).bind fun s =>
    if s.outer.isEmpty then some s.level.content.pattern else none

/-- The groups with these contents are numbered from `n` on: one with number `g` contains the pattern
of its lexemes, whose groups have larger numbers. -/
def Numbered (n : Nat) (bodies : List (List Lexeme)) (g : Nat) (q : Pattern) : Prop :=
  ∃ i ts, bodies[i]? = some ts ∧ g = n + i ∧ patternOf? (g + 1) ts = some q

variable {full : Prop} {n : Nat} {ts us : List Lexeme} {bodies bodies' : List (List Lexeme)}

theorem Numbered.append_left {g : Nat} {q : Pattern} (h : Numbered n bodies g q) :
    Numbered n (bodies ++ bodies') g q := by
  obtain ⟨i, ts, hi, hg, hq⟩ := h
  exact ⟨i, ts, List.getElem?_append_left (List.getElem?_eq_some_iff.mp hi).1 ▸ hi, hg, hq⟩

theorem Numbered.append_right {g : Nat} {q : Pattern}
    (h : Numbered (n + bodies.length) bodies' g q) : Numbered n (bodies ++ bodies') g q := by
  obtain ⟨i, ts, hi, hg, hq⟩ := h
  refine ⟨bodies.length + i, ts, ?_, by omega, hq⟩
  rw [List.getElem?_append_right (by omega), Nat.add_sub_cancel_left, hi]

theorem Numbered.lt {g : Nat} {q : Pattern} (h : Numbered n bodies g q) :
    g < n + bodies.length := by
  obtain ⟨i, ts, hi, rfl, -⟩ := h
  have := (List.getElem?_eq_some_iff.mp hi).1
  omega

/-! ### Groups of composed patterns -/

section Labelled

variable {R : Nat → Pattern → Prop} {low : Nat} {p : Pattern}

theorem Labelled.choice {ps : List Pattern} (h : ∀ p ∈ ps, Labelled R low p) :
    Labelled R low (Pattern.choice ps) := by
  induction ps with
  | nil => exact .empty
  | cons p ps ih =>
    rw [List.forall_mem_cons] at h
    cases ps with
    | nil => exact h.1
    | cons q qs => exact .alt h.1 (ih h.2)

theorem Labelled.repeated (h : Labelled R low p) (greedy : Bool) (min : Nat) (max : Option Nat) :
    Labelled R low (Pattern.repeated greedy p min max) := by
  unfold Pattern.repeated
  split
  split
  · exact .empty
  · exact h
  · exact .opt h
  · exact .opt (.plus h)
  · exact .plus h
  · exact .cat (.times h) (.plus h)
  · split
    · exact .times h
    split
    · exact .upTo h
    · exact .cat (.times h) (.upTo h)

theorem groupCount_le_row {ps : List Pattern} (h : p ∈ ps) :
    p.groupCount ≤ (row ps).groupCount := by
  induction ps with
  | nil => contradiction
  | cons q ps ih =>
    cases ps with
    | nil =>
      obtain rfl := List.mem_singleton.mp h
      exact Nat.le_refl _
    | cons r rs =>
      rcases List.mem_cons.mp h with rfl | h
      · exact Nat.le_max_left _ _
      · exact Nat.le_trans (ih h) (Nat.le_max_right _ _)

theorem groupCount_le_choice {ps : List Pattern} (h : p ∈ ps) :
    p.groupCount ≤ (choice ps).groupCount := by
  induction ps with
  | nil => contradiction
  | cons q ps ih =>
    cases ps with
    | nil =>
      obtain rfl := List.mem_singleton.mp h
      exact Nat.le_refl _
    | cons r rs =>
      rcases List.mem_cons.mp h with rfl | h
      · exact Nat.le_max_left _ _
      · exact Nat.le_trans (ih h) (Nat.le_max_right _ _)

/-- A repetition has the groups of the pattern, unless it is for no times at all. -/
theorem groupCount_repeated {max : Option Nat} (h : max ≠ some 0) (greedy : Bool) (min : Nat) :
    p.groupCount ≤ (repeated greedy p min max).groupCount := by
  unfold repeated
  split
  rename_i min' max' heq
  have hmax : max' ≠ some 0 := by
    split at heq
    · obtain ⟨-, rfl⟩ := Prod.mk.inj heq
      cases max with
      | none => simp
      | some m =>
        have hm : m ≠ 0 := fun h0 => h (by rw [h0])
        have hpos : 0 < Nat.min m 1 := Nat.lt_min.mpr ⟨by omega, by omega⟩
        simp only [Option.getD_some, ne_eq, Option.some.injEq]
        omega
    · obtain ⟨-, rfl⟩ := Prod.mk.inj heq
      exact h
  split
  · exact absurd rfl hmax
  · exact Nat.le_refl _
  · exact Nat.le_refl _
  · exact Nat.le_refl _
  · exact Nat.le_refl _
  · exact Nat.le_max_left _ _
  · split
    · exact Nat.le_refl _
    split
    · exact Nat.le_refl _
    · exact Nat.le_max_left _ _

end Labelled

/-! ### Assembling -/

theorem takeAll?_append (s : State) (ts us : List Lexeme) :
    takeAll? s (ts ++ us) = (takeAll? s ts).bind fun s => takeAll? s us := by
  induction ts generalizing s with
  | nil => rfl
  | cons t ts ih =>
    rw [List.cons_append, takeAll?, takeAll?, Option.bind_assoc]
    exact congrArg _ (funext ih)

/-- Items whose groups are numbered from `n` on; if `full`, all of them are there. -/
structure Assembled (full : Prop) (n : Nat) (bodies : List (List Lexeme)) (is : List Item) :
    Prop where
  labelled : ∀ i ∈ is, Labelled (Numbered n bodies) n i.pattern
  counted : full → ∀ g, n ≤ g → g < n + bodies.length → ∃ i ∈ is, g < i.pattern.groupCount

namespace Assembled

variable {is js : List Item}

theorem append (h : Assembled full n bodies is)
    (h' : Assembled full (n + bodies.length) bodies' js) :
    Assembled full n (bodies ++ bodies') (js ++ is) := by
  refine ⟨fun i hi => ?_, fun hf g hn hg => ?_⟩
  · rcases List.mem_append.mp hi with hi | hi
    · exact ((h'.labelled i hi).imp fun _ _ _ => .append_right).mono (Nat.le_add_right _ _)
    · exact (h.labelled i hi).imp fun _ _ _ => .append_left
  · rw [List.length_append] at hg
    by_cases hlt : g < n + bodies.length
    · obtain ⟨i, hi, hc⟩ := h.counted hf g hn hlt
      exact ⟨i, List.mem_append_right _ hi, hc⟩
    · obtain ⟨i, hi, hc⟩ := h'.counted hf g (by omega) (by omega)
      exact ⟨i, List.mem_append_left _ hi, hc⟩

/-- Items put together in one that has all their groups. -/
theorem join (h : Assembled full n bodies is) {i : Item}
    (hl : (∀ j ∈ is, Labelled (Numbered n bodies) n j.pattern) →
      Labelled (Numbered n bodies) n i.pattern)
    (hc : ∀ j ∈ is, j.pattern.groupCount ≤ i.pattern.groupCount) :
    Assembled full n bodies [i] := by
  refine ⟨fun j hj => ?_, fun hf g hn hg => ?_⟩
  · obtain rfl := List.mem_singleton.mp hj
    exact hl h.labelled
  · obtain ⟨j, hj, hlt⟩ := h.counted hf g hn hg
    exact ⟨i, List.mem_cons_self, Nat.lt_of_lt_of_le hlt (hc j hj)⟩

/-- The items of a branch in a row. -/
theorem row (h : Assembled full n bodies is) {i : Item}
    (hi : i.pattern = Pattern.row (is.reverse.map Item.pattern)) : Assembled full n bodies [i] := by
  refine h.join (fun hl => ?_) fun j hj => ?_
  · rw [hi]
    refine Labelled.row fun p hp => ?_
    obtain ⟨j, hj, rfl⟩ := List.mem_map.mp hp
    exact hl j (List.mem_reverse.mp hj)
  · rw [hi]
    exact groupCount_le_row (List.mem_map_of_mem (List.mem_reverse.mpr hj))

/-- The branches of a group as a choice. -/
theorem choice (h : Assembled full n bodies is) {i : Item}
    (hi : i.pattern = Pattern.choice (is.reverse.map Item.pattern)) :
    Assembled full n bodies [i] := by
  refine h.join (fun hl => ?_) fun j hj => ?_
  · rw [hi]
    refine Labelled.choice fun p hp => ?_
    obtain ⟨j, hj, rfl⟩ := List.mem_map.mp hp
    exact hl j (List.mem_reverse.mp hj)
  · rw [hi]
    exact groupCount_le_choice (List.mem_map_of_mem (List.mem_reverse.mpr hj))

end Assembled

/-- An atom adds a pattern without groups. -/
theorem take?_atom {t : Lexeme} (h : t.isAtom = true) :
    ∃ p k, (∀ R low, Labelled R low p) ∧
      ∀ s : State, s.modes = {} → take? s t = some (s.push p k) := by
  cases t with
  | set cs k => exact ⟨.set cs.exact, k, fun _ _ => .set, fun s hs => by simp [take?, hs]⟩
  | dot => exact ⟨.set ({} : Modes).dot, 0, fun _ _ => .set, fun s hs => by rw [take?, hs]⟩
  | caret => exact ⟨.look .textStart, 0, fun _ _ => .look, fun s hs => by simp [take?, hs]⟩
  | dollar => exact ⟨.look .textEnd, 0, fun _ _ => .look, fun s hs => by simp [take?, hs]⟩
  | look l => exact ⟨.look l, 0, fun _ _ => .look, fun s hs => rfl⟩
  | openCapture _ | openGroup _ | modes _ | close | bar | rep _ _ _ => simp [Lexeme.isAtom] at h

/-- The state after some items. -/
def Assembly.State.reads (s : State) (is : List Item) (next : Nat) : State :=
  { s with level.items := is ++ s.level.items, next }

/-- The state after some branches, the last of them still open. -/
def Assembly.State.fills (s : State) (l : Level) (next : Nat) : State := { s with level := l, next }

/-- Reading the content of a group and closing it adds the group. -/
theorem takeAll?_group {s : State} {l : Level} {next : Nat}
    (h : takeAll? ({ s with next := s.next + 1 }.descend (some s.next)) ts =
      some (({ s with next := s.next + 1 }.descend (some s.next)).fills l next)) :
    takeAll? s (.openCapture none :: (ts ++ [.close])) =
      some (s.reads [{ pattern := capture s.next l.content.pattern
                       nesting := l.content.nesting + 1 }] next) := by
  rw [takeAll?, take?, Option.bind_some, takeAll?_append, h]
  rfl

theorem Assembled.nil (n : Nat) : Assembled full n [] [] :=
  ⟨by simp, fun _ g hn hg => absurd hg (by simp; omega)⟩

theorem Assembled.atom {i : Item} (h : ∀ R low, Labelled R low i.pattern) :
    Assembled full n [] [i] :=
  ⟨by simpa using h _ _, fun _ g hn hg => absurd hg (by simp; omega)⟩

/-- A group around branches. -/
theorem Assembled.group {bs : List Item} (h : Assembled full (n + 1) bodies bs) {content : Pattern}
    (hc : content = Pattern.choice (bs.reverse.map Item.pattern))
    (hq : patternOf? (n + 1) ts = some content) (nesting : Nat) :
    Assembled full n (ts :: bodies) [{ pattern := capture n content, nesting }] := by
  have hj := h.choice (i := { pattern := content, nesting }) hc
  have hl := hj.labelled _ List.mem_cons_self
  refine ⟨fun i hi => ?_, fun hf g hn hg => ⟨_, List.mem_cons_self, ?_⟩⟩
  · obtain rfl := List.mem_singleton.mp hi
    refine .capture (Nat.le_refl n) ⟨0, ts, rfl, rfl, hq⟩ (hl.imp ?_)
    rintro g q - ⟨i, us, hi, rfl, hq⟩
    exact ⟨i + 1, us, hi, by omega, hq⟩
  · rw [groupCount_capture]
    by_cases hg0 : g = n
    · omega
    · obtain ⟨i, hi, hlt⟩ := hj.counted hf g (by omega) (by rw [List.length_cons] at hg; omega)
      obtain rfl := List.mem_singleton.mp hi
      exact Nat.lt_of_lt_of_le hlt (Nat.le_max_right _ _)

/-- A count behind the last item. -/
theorem Assembled.rep {i : Item} {is : List Item} (h : Assembled full n bodies (i :: is))
    {max : Option Nat} (hmax : full → max ≠ some 0) (greedy : Bool) (min nesting : Nat) :
    Assembled full n bodies
      ({ pattern := repeated greedy i.pattern min max, nesting } :: is) := by
  refine ⟨fun j hj => ?_, fun hf g hn hg => ?_⟩
  · rcases List.mem_cons.mp hj with rfl | hj
    · exact (h.labelled i List.mem_cons_self).repeated greedy min max
    · exact h.labelled j (List.mem_cons_of_mem i hj)
  · obtain ⟨j, hj, hlt⟩ := h.counted hf g hn hg
    rcases List.mem_cons.mp hj with rfl | hj
    · exact ⟨_, List.mem_cons_self,
        Nat.lt_of_lt_of_le hlt (groupCount_repeated (hmax hf) greedy min)⟩
    · exact ⟨j, List.mem_cons_of_mem _ hj, hlt⟩

mutual

/-- **Items are added to the branch at hand**, whatever is around it. -/
theorem Items.takeAll {ts : List Lexeme} {bodies : List (List Lexeme)} :
    Items full ts bodies → ∀ n, ∃ is : List Item, (ts ≠ [] → is ≠ []) ∧
      (∀ i ∈ is, i.repeatable = true) ∧ Assembled full n bodies is ∧
      ∀ s : State, s.modes = {} → s.next = n →
        takeAll? s ts = some (s.reads is (n + bodies.length))
  | .nil, n => by
    refine ⟨[], by simp, by simp, .nil n, fun s _ hn => ?_⟩
    subst hn
    rfl
  | .atom ht, n => by
    obtain ⟨p, k, hl, htake⟩ := take?_atom ht
    refine ⟨[{ pattern := p, nesting := k }], by simp, by simp, .atom hl, fun s hs hn => ?_⟩
    subst hn
    rw [takeAll?, htake s hs]
    rfl
  | @Items.group _ ts bodies h, n => by
    obtain ⟨bs, hbs, htake⟩ := h.takeAll (n + 1)
    -- the content is the same with nothing around it
    obtain ⟨l, hl, halone⟩ := htake { next := n + 1 } rfl rfl rfl
    have hpattern : patternOf? (n + 1) ts = some l.content.pattern := by
      rw [patternOf?, halone]
      rfl
    have hall : l.all = bs := by simpa using hl
    have hcontent : l.content.pattern = Pattern.choice (bs.reverse.map Item.pattern) := by
      rw [← hall]
      rfl
    refine ⟨[{ pattern := capture n l.content.pattern, nesting := l.content.nesting + 1 }],
      by simp, by simp, hbs.group hcontent hpattern _, fun s hs hn => ?_⟩
    subst hn
    obtain ⟨l', hl', hinside⟩ :=
      htake ({ s with next := s.next + 1 }.descend (some s.next)) hs rfl rfl
    have hsame : l'.content = l.content := by
      have : l'.all = l.all := by rw [hl, hl']; rfl
      simp only [Level.content]
      exact congrArg (fun is : List Item =>
        ({ pattern := Pattern.choice (is.reverse.map Item.pattern)
           nesting := Level.nesting is } : Item)) this
    rw [takeAll?_group hinside, hsame]
    congr 2
    rw [List.length_cons]
    omega
  | @Items.append _ ts us bodies bodies' h h', n => by
    obtain ⟨is, hne, hr, ha, htake⟩ := h.takeAll n
    obtain ⟨js, hne', hr', ha', htake'⟩ := h'.takeAll (n + bodies.length)
    refine ⟨js ++ is, fun hts => ?_, List.forall_mem_append.mpr ⟨hr', hr⟩, ha.append ha',
      fun s hs hn => ?_⟩
    · intro hnil
      obtain ⟨hjs, his⟩ := List.append_eq_nil_iff.mp hnil
      have hts' : ts = [] := by_contra fun h => hne h his
      have hus' : us = [] := by_contra fun h => hne' h hjs
      exact hts (by rw [hts', hus', List.nil_append])
    · rw [takeAll?_append, htake s hs hn, Option.bind_some, htake' (s.reads is _) hs rfl]
      simp [State.reads, List.append_assoc, Nat.add_assoc]
  | @Items.rep _ ts bodies min max greedy h hne hmax, n => by
    obtain ⟨is, his, hr, ha, htake⟩ := h.takeAll n
    obtain ⟨i, is, rfl⟩ := List.exists_cons_of_ne_nil (his hne)
    refine ⟨{ pattern := repeated greedy i.pattern min max, nesting := i.nesting + 1 } :: is,
      by simp, ?_, ha.rep hmax greedy min _, fun s hs hn => ?_⟩
    · rw [List.forall_mem_cons] at hr ⊢
      exact ⟨rfl, hr.2⟩
    · have hrepeat : i.repeatable = true := hr i List.mem_cons_self
      have hmodes : (s.reads (i :: is) (n + bodies.length)).modes.swapGreed = false := by
        show s.modes.swapGreed = false
        rw [hs]
      rw [takeAll?_append, htake s hs hn, Option.bind_some]
      simp only [takeAll?, take?, State.repeat?, hmodes]
      simp [State.reads, hrepeat]

/-- **Branches are added to the group at hand**, the last one of them still open. -/
theorem Branches.takeAll {ts : List Lexeme} {bodies : List (List Lexeme)} :
    Branches full ts bodies → ∀ n, ∃ bs : List Item, Assembled full n bodies bs ∧
      ∀ s : State, s.modes = {} → s.next = n → s.level.items = [] →
        ∃ l : Level, l.all = bs ++ s.level.branches ∧
          takeAll? s ts = some (s.fills l (n + bodies.length))
  | .items h, n => by
    obtain ⟨is, -, -, ha, htake⟩ := h.takeAll n
    refine ⟨[{ pattern := Pattern.row (is.reverse.map Item.pattern), nesting := Level.nesting is }],
      ha.row rfl, fun s hs hn hi => ?_⟩
    refine ⟨(s.reads is (n + bodies.length)).level, ?_, htake s hs hn⟩
    simp [Level.all, Level.branch, State.reads, hi]
  | @Branches.bar _ ts us bodies bodies' h h', n => by
    obtain ⟨bs, ha, htake⟩ := h.takeAll n
    obtain ⟨bs', ha', htake'⟩ := h'.takeAll (n + bodies.length)
    refine ⟨bs' ++ bs, ha.append ha', fun s hs hn hi => ?_⟩
    obtain ⟨l, hl, hfirst⟩ := htake s hs hn hi
    obtain ⟨l', hl', hsecond⟩ := htake' (s.fills l.bar (n + bodies.length)) hs rfl rfl
    refine ⟨l', ?_, ?_⟩
    · rw [hl', List.append_assoc, ← hl]
      rfl
    · rw [takeAll?_append, hfirst, Option.bind_some]
      show takeAll? (s.fills l.bar (n + bodies.length)) us = _
      rw [hsecond, List.length_append, ← Nat.add_assoc]
      rfl

end

/-- **A finished pattern has numbered groups**; if `full`, all of them. -/
theorem Branches.finish (h : Branches full ts bodies) {p : Pattern}
    (hp : (takeAll? {} ts).bind finish? = some p) :
    Labelled (Numbered 1 bodies) 1 p ∧
      (full → ∀ g, 1 ≤ g → g < 1 + bodies.length → g < p.groupCount) := by
  obtain ⟨bs, ha, htake⟩ := h.takeAll 1
  obtain ⟨l, hl, hread⟩ := htake {} rfl rfl rfl
  have hall : l.all = bs := by simpa using hl
  have hcontent : l.content.pattern = p := by
    rw [hread, Option.bind_some, finish?] at hp
    split at hp
    · exact Option.some.inj hp
    · contradiction
  have hj := ha.choice (i := l.content) (by rw [← hall]; rfl)
  rw [← hcontent]
  refine ⟨hj.labelled _ List.mem_cons_self, fun hf g h1 hg => ?_⟩
  obtain ⟨i, hi, hlt⟩ := hj.counted hf g h1 hg
  obtain rfl := List.mem_singleton.mp hi
  exact hlt

end ShellExpr.Pattern
