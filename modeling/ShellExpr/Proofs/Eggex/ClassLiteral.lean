import ShellExpr.Eggex.Render
import ShellExpr.Pattern.Assembly
import ShellExpr.Proofs.Basics

/-!
# Class literals between brackets

A rendered class literal is read back as the set of characters that its terms denote.

* `ClassTerm.denotes`: the characters of a term.
* `read?_brackets`: the bracket expression of a class literal holds the characters of its terms, or
  all others if it is negated.
-/

namespace ShellExpr

open Pattern Pattern.Brackets

namespace Pattern.Brackets

theorem readFrom?_of_next {outer outer' : List Open} {inner inner' : Open} {cs rest : List Char}
    (h : step? outer inner cs = some (.next outer' inner' rest)) (hl : rest.length < cs.length) :
    readFrom? outer inner cs = readFrom? outer' inner' rest := by
  rw [readFrom?, h]
  simp only [hl, dite_true]

theorem readFrom?_of_done {inner : Open} {outer : List Open} {cs rest : List Char} {t : Term}
    (h : step? outer inner cs = some (.done t rest)) : readFrom? outer inner cs = some (t, rest) := by
  rw [readFrom?, h]

/-- A text that adds terms to a bracket expression, wherever it stands in it. -/
structure Lists (cs : List Char) (ts : List Term) : Prop where
  /-- It may stand first. -/
  head : ∀ c ∈ cs.head?, c ≠ '^' ∧ c ≠ '-' ∧ c ≠ ']'
  read : ∀ outer inner k, k ≠ [] → k.head? ≠ some '-' →
    readFrom? outer inner (cs ++ k) = readFrom? outer (ts.foldl Open.add inner) k

theorem lists_nil : Lists [] [] := ⟨by simp, fun _ _ _ _ _ => rfl⟩

theorem Lists.append {cs ds : List Char} {ts us : List Term} (h : Lists cs ts) (h' : Lists ds us) :
    Lists (cs ++ ds) (ts ++ us) := by
  refine ⟨forall_head?_append h.head h'.head, fun outer inner k hk hd => ?_⟩
  have hne : (ds ++ k).head? ≠ some '-' := head?_append_ne (fun c hc => (h'.head c hc).2.1) hd
  rw [List.append_assoc, h.read outer inner _ (by simp [hk]) hne, h'.read outer _ k hk hd,
    List.foldl_append]

end Pattern.Brackets

namespace ClassTerm

theorem isSpecial_iff {c : Char} : isSpecial c = true ↔
    c = '\\' ∨ c = ']' ∨ c = '[' ∨ c = '^' ∨ c = '-' ∨ c = '&' ∨ c = '~' := by
  simp [isSpecial]

/-- A character inside brackets is one that needs no escape, or an escaped one. -/
theorem renderChar_cases (c : Char) :
    (renderChar c = ['\\', c] ∧ isSpecial c = true) ∨ (renderChar c = [c] ∧ isSpecial c = false) := by
  cases h : isSpecial c <;> simp [renderChar, h]

/-- An escaped or ordinary character is read as itself. -/
theorem item?_renderChar (c : Char) (k : List Char) :
    item? (renderChar c ++ k) = some (.char c, k) := by
  rcases renderChar_cases c with ⟨hr, h⟩ | ⟨hr, h⟩
  · rw [hr]
    obtain rfl | rfl | rfl | rfl | rfl | rfl | rfl := isSpecial_iff.mp h <;> rfl
  · rw [hr, List.cons_append, List.nil_append]
    unfold item?
    split
    · contradiction
    · simp_all [isSpecial]
    · simp_all

theorem step?_renderChar (outer : List Open) (inner : Open) (c : Char) (k : List Char) :
    step? outer inner (renderChar c ++ k) =
      (range? (renderChar c ++ k)).map fun (t, rest) => .next outer (inner.add t) rest := by
  rcases renderChar_cases c with ⟨hr, h⟩ | ⟨hr, h⟩
  · rw [hr]; rfl
  · rw [hr, List.cons_append, List.nil_append]
    unfold step?
    split <;> simp_all [isSpecial]

theorem renderChar_head (c : Char) (k : List Char) :
    ∀ d ∈ (renderChar c ++ k).head?, d ≠ '^' ∧ d ≠ '-' ∧ d ≠ ']' := by
  rcases renderChar_cases c with ⟨hr, h⟩ | ⟨hr, h⟩
  · rw [hr]; simp
  · rw [hr]
    simp [isSpecial] at h
    simp [h]

theorem lists_renderChar (c : Char) : Lists (renderChar c) [literal c] := by
  refine ⟨fun d hd => renderChar_head c [] d (by simpa using hd), fun outer inner k hk hd => ?_⟩
  have hrange : range? (renderChar c ++ k) = some (literal c, k) := by
    simp only [range?, item?_renderChar, bind, Option.bind]
    split
    · contradiction
    · simp at hd
    · rfl
  refine readFrom?_of_next ?_ (by simp [renderChar]; split <;> simp)
  rw [step?_renderChar, hrange]
  rfl

theorem lists_range {a b : Char} (h : a ≤ b) :
    Lists (renderChar a ++ '-' :: renderChar b) [⟨.range a b, 0⟩] := by
  refine ⟨renderChar_head a _, fun outer inner k hk hd => ?_⟩
  have hb := renderChar_head b k
  have hrange : range? (renderChar a ++ ('-' :: (renderChar b ++ k))) =
      some (⟨.range a b, 0⟩, k) := by
    have h1 : (renderChar b ++ k).head? ≠ some ']' := fun he => (hb _ he).2.2 rfl
    have h2 : (renderChar b ++ k).head? ≠ some '-' := fun he => (hb _ he).2.1 rfl
    simp only [range?, item?_renderChar, bind, Option.bind, h1, h2, or_self, if_false, h, if_true]
  rw [List.append_assoc, List.cons_append]
  refine readFrom?_of_next ?_ (by simp only [List.length_append, List.length_cons]; omega)
  rw [step?_renderChar, hrange]
  rfl

theorem lists_chars (cs : List Char) : Lists (cs.flatMap renderChar) (cs.map literal) := by
  induction cs with
  | nil => exact lists_nil
  | cons c cs ih => exact (lists_renderChar c).append ih

/-! ### Named classes -/

theorem named?_of_ascii {name : String} {s : CharSet} (h : CharSet.ascii? name = some s)
    (k : List Char) : named? (':' :: (name.toList ++ ':' :: ']' :: k)) = some (⟨s, 0⟩, k) := by
  unfold CharSet.ascii? at h
  split at h
  all_goals first
    | contradiction
    | (obtain rfl := Option.some.inj h; rfl)

theorem lists_posix {name : String} {s : CharSet} (h : CharSet.ascii? name = some s) :
    Lists (renderPosix name) [⟨s, 0⟩] := by
  refine ⟨by simp [renderPosix], fun outer inner k _ _ => ?_⟩
  have htext : renderPosix name ++ k = '[' :: ':' :: (name.toList ++ ':' :: ']' :: k) := by
    simp [renderPosix]
  rw [htext]
  refine readFrom?_of_next ?_ (by simp; omega)
  simp only [step?, named?_of_ascii h]
  rfl

/-! ### The characters of a term -/

/-- Whether a character is among those of the term. -/
def denotes : ClassTerm → Char → Bool
  | range first last, c => first ≤ c && c ≤ last
  | posix negated name, c => (CharSet.ascii? name).any (·.mem c) != negated
  | perl negated name, c =>
    (if name = "d" then c.isDigit
      else if name = "w" then c.isAlphanum || c = '_'
      else name = "s" && (('\t' ≤ c && c ≤ '\r') || c = ' ')) != negated
  | bytes bs _, c => (Bytes.characters bs).contains c
  | codePoint code _, c => Bytes.scalar? code = some c
  | word _, _ | charLiteral _, _ => false

/-- Whether the bounds of a range are in order and a named class is one that exists. -/
def isOrderly : ClassTerm → Bool
  | range first last => first ≤ last
  | posix _ name => (CharSet.ascii? name).isSome
  | _ => true

/-- Whether the term stands for some character. Only a run of bytes may be empty. -/
def isInhabited : ClassTerm → Bool
  | bytes bs _ => !(Bytes.characters bs).isEmpty
  | _ => true

/-- The terms are no bracket expressions of their own. -/
theorem flat_literals (cs : List Char) : ∀ t ∈ cs.map literal, t.nesting = 0 := by
  intro t ht
  obtain ⟨c, -, rfl⟩ := List.mem_map.mp ht
  rfl

/-- Whether a character is in one of the sets read. -/
def inSome (ts : List Term) (c : Char) : Bool := ts.any fun t => t.set.exact.mem c

theorem inSome_append (ts us : List Term) (c : Char) :
    inSome (ts ++ us) c = (inSome ts c || inSome us c) := List.any_append

theorem inSome_literals (cs : List Char) (c : Char) :
    inSome (cs.map literal) c = cs.contains c := by
  rw [inSome, List.any_map, List.contains_eq_any_beq]
  rfl

/-- The named classes hold no marks for folding. -/
theorem exact_of_ascii {name : String} {s : CharSet} (h : CharSet.ascii? name = some s) :
    s.exact = s := by
  unfold CharSet.ascii? at h
  split at h
  all_goals first
    | contradiction
    | (obtain rfl := Option.some.inj h; rfl)

theorem renderChar_ne_nil (c : Char) : renderChar c ≠ [] := by
  unfold renderChar
  split <;> simp

/-- A shorthand class lists the characters that it stands for. -/
theorem lists_renderPerl {name : String} {cs : List Char} (h : renderPerl name = .ok cs) :
    ∃ ts, Lists cs ts ∧ (∀ t ∈ ts, t.nesting = 0) ∧ cs ≠ [] ∧
      ∀ c, inSome ts c = (perl false name).denotes c := by
  unfold renderPerl at h
  split at h
  · subst name
    obtain rfl : renderPosix "digit" = cs := Except.ok.inj h
    refine ⟨_, lists_posix rfl, by simp, by simp [renderPosix], fun c => ?_⟩
    simp only [inSome, List.any_cons, List.any_nil, Bool.or_false, denotes, if_true, Bool.bne_false]
    rfl
  split at h
  · subst name
    obtain rfl : renderPosix "alnum" ++ renderChar '_' = cs := Except.ok.inj h
    refine ⟨_, (lists_posix rfl).append (lists_renderChar '_'), by simp [literal],
      by simp [renderPosix], fun c => ?_⟩
    have hword : ((CharSet.range '0' '9').mem c ||
        ((CharSet.range 'A' 'Z').mem c || (CharSet.range 'a' 'z').mem c)) = c.isAlphanum := by
      have hdef : c.isAlphanum = (decide (c.val ≥ 'A'.val ∧ c.val ≤ 'Z'.val) ||
          (decide (c.val ≥ 'a'.val) && decide (c.val ≤ 'z'.val)) ||
          (decide (c.val ≥ '0'.val) && decide (c.val ≤ '9'.val))) := rfl
      simp [hdef, CharSet.mem, Char.le_def, Bool.or_comm]
    rw [denotes, ← hword]
    simp [inSome, literal, CharSet.unions, CharSet.exact, CharSet.mem]
  split at h
  · subst name
    obtain rfl : renderPosix "space" = cs := Except.ok.inj h
    refine ⟨_, lists_posix rfl, by simp, by simp [renderPosix], fun c => ?_⟩
    simp [inSome, denotes, CharSet.unions, CharSet.exact, CharSet.mem]
  · contradiction

/-- What a term of a class literal is rendered to lists the characters that it stands for. -/
theorem lists_render {t : ClassTerm} (ht : t.isOrderly = true) {cs : List Char}
    (h : t.render = .ok cs) :
    ∃ ts, Lists cs ts ∧ (∀ u ∈ ts, u.nesting = 0) ∧ (cs = [] → t.isInhabited = false) ∧
      ∀ c, inSome ts c = t.denotes c := by
  cases t with
  | word w => cases h
  | charLiteral tok => cases h
  | range a b =>
    obtain rfl := Except.ok.inj h
    refine ⟨_, lists_range (by simpa [isOrderly] using ht), by simp, by simp, fun c => ?_⟩
    simp [inSome, CharSet.exact, CharSet.mem, denotes]
  | posix negated name =>
    cases negated with
    | true => cases h
    | false =>
      obtain rfl := Except.ok.inj h
      obtain ⟨s, hs⟩ := Option.isSome_iff_exists.mp ht
      refine ⟨_, lists_posix hs, by simp, by simp [renderPosix], fun c => ?_⟩
      simp [inSome, exact_of_ascii hs, denotes, hs]
  | perl negated name =>
    cases negated with
    | true => cases h
    | false =>
      obtain ⟨ts, hl, hflat, hne, hmem⟩ := lists_renderPerl h
      exact ⟨ts, hl, hflat, fun hnil => absurd hnil hne, hmem⟩
  | bytes bs span =>
    obtain rfl := Except.ok.inj h
    refine ⟨_, lists_chars _, flat_literals _, fun hnil => ?_, fun c => inSome_literals _ c⟩
    have : Bytes.characters bs = [] := by
      refine List.eq_nil_iff_forall_not_mem.mpr fun c hc => ?_
      exact renderChar_ne_nil c (List.flatMap_eq_nil_iff.mp hnil c hc)
    simp [isInhabited, this]
  | codePoint code span =>
    cases hc : Bytes.scalar? code with
    | none => simp [render, hc] at h
    | some c =>
      obtain rfl : renderChar c = cs := by simpa [render, hc] using h
      refine ⟨_, lists_renderChar c, flat_literals [c],
        fun hnil => absurd hnil (renderChar_ne_nil c), fun d => ?_⟩
      simp [inSome, literal, CharSet.exact, CharSet.mem, denotes, hc, eq_comm]

theorem lists_renderAll {terms : List ClassTerm} (ht : terms.all isOrderly = true)
    {cs : List Char} (h : renderAll terms = .ok cs) :
    ∃ ts, Lists cs ts ∧ (∀ t ∈ ts, t.nesting = 0) ∧ (cs = [] → terms.any isInhabited = false) ∧
      ∀ c, inSome ts c = terms.any (·.denotes c) := by
  induction terms generalizing cs with
  | nil =>
    obtain rfl := Except.ok.inj h
    exact ⟨[], lists_nil, by simp, fun _ => rfl, fun _ => rfl⟩
  | cons t terms ih =>
    simp only [List.all_cons, Bool.and_eq_true] at ht
    cases hr : t.render with
    | error f => simp [renderAll, hr, bind, Except.bind] at h
    | ok xs =>
      cases hrs : renderAll terms with
      | error f => simp [renderAll, hr, hrs, bind, Except.bind] at h
      | ok ys =>
        obtain rfl : xs ++ ys = cs := by
          simpa [renderAll, hr, hrs, bind, Except.bind, pure, Except.pure] using h
        obtain ⟨ts, hl, hflat, hne, hmem⟩ := lists_render ht.1 hr
        obtain ⟨us, hl', hflat', hne', hmem'⟩ := ih ht.2 hrs
        refine ⟨ts ++ us, hl.append hl', List.forall_mem_append.mpr ⟨hflat, hflat'⟩,
          fun hnil => ?_, fun c => ?_⟩
        · obtain ⟨h1, h2⟩ := List.append_eq_nil_iff.mp hnil
          simp [hne h1, hne' h2]
        · rw [inSome_append, hmem, hmem', List.any_cons]

end ClassTerm

/-! ### The whole bracket expression -/

namespace Pattern.Brackets

theorem foldl_add (ts : List Term) (b : Open) :
    ts.foldl Open.add b = { b with terms := ts.reverse ++ b.terms } := by
  induction ts generalizing b with
  | nil => rfl
  | cons t ts ih => simp [ih, Open.add]

theorem mem_unions (ss : List CharSet) (c : Char) :
    (CharSet.unions ss).exact.mem c = ss.any fun s => s.exact.mem c := by
  induction ss with
  | nil => rfl
  | cons s ss ih =>
    cases ss with
    | nil => simp [CharSet.unions]
    | cons s' ss => rw [CharSet.unions, List.any_cons, ← ih] <;> simp [CharSet.exact, CharSet.mem]

/-- The set of a list is the union of its terms in order, also if there is one term only. -/
theorem list_set (b : Open) : b.list.set = CharSet.unions (b.terms.reverse.map Term.set) := by
  rw [Open.list]
  split
  · rename_i t ht
    rw [ht]
    rfl
  · rfl

/-- The set of a bracket expression without operators. -/
theorem mem_close (ts : List Term) (negated : Bool) (c : Char) :
    (ts.foldl Open.add ⟨negated, [], none⟩).close.set.exact.mem c =
      (ClassTerm.inSome ts c != negated) := by
  have hlist : (ts.foldl Open.add ⟨negated, [], none⟩).list.set.exact.mem c =
      ClassTerm.inSome ts c := by
    rw [list_set, foldl_add, List.append_nil, List.reverse_reverse, mem_unions, List.any_map]
    rfl
  have hopen : ts.foldl Open.add ⟨negated, [], none⟩ = ⟨negated, ts.reverse, none⟩ := by
    rw [foldl_add, List.append_nil]
  rw [← hlist, hopen]
  cases negated <;> simp [Open.close, Open.content, CharSet.exact, CharSet.mem]

theorem foldl_max_le (ns : List Nat) {m n : Nat} (hm : m ≤ n) (h : ∀ k ∈ ns, k ≤ n) :
    ns.foldl max m ≤ n := by
  induction ns generalizing m with
  | nil => exact hm
  | cons k ns ih =>
    rw [List.forall_mem_cons] at h
    exact ih (Nat.max_le.mpr ⟨hm, h.1⟩) h.2

/-- A bracket expression is nested no deeper than its terms, but for a list and its brackets. -/
theorem nesting_close {ts : List Term} {n : Nat} (h : ∀ t ∈ ts, t.nesting ≤ n) (negated : Bool) :
    (ts.foldl Open.add ⟨negated, [], none⟩).close.nesting ≤ n + 2 := by
  have hlist : (ts.foldl Open.add ⟨negated, [], none⟩).list.nesting ≤ n + 1 := by
    rw [foldl_add, Open.list, List.append_nil]
    split
    · rename_i t ht
      obtain rfl : ts = [t] := by simpa using ht
      exact Nat.le_succ_of_le (h t List.mem_cons_self)
    · simp only
      split
      · omega
      · have := foldl_max_le (ts.reverse.map Term.nesting) (Nat.zero_le n) (by simpa using h)
        omega
  have hopen : ts.foldl Open.add ⟨negated, [], none⟩ = ⟨negated, ts.reverse, none⟩ := by
    rw [foldl_add, List.append_nil]
  rw [hopen] at hlist ⊢
  simp only [Open.close, Open.content]
  omega

/-- The start of a bracket expression takes the caret and nothing else. -/
theorem start_body (negated : Bool) {cs : List Char} (k : List Char) (hne : cs ≠ [])
    (h : ∀ c ∈ cs.head?, c ≠ '^' ∧ c ≠ '-' ∧ c ≠ ']') :
    start ((if negated then ['^'] else []) ++ cs ++ k) = (⟨negated, [], none⟩, cs ++ k) := by
  obtain ⟨c, cs, rfl⟩ := List.exists_cons_of_ne_nil hne
  obtain ⟨h1, h2, h3⟩ := h c rfl
  cases negated <;> simp [start, leadingDashes, h1, h2, h3]

end Pattern.Brackets

namespace ClassTerm

/-- **A class literal is read back as its characters**, or as all others if it is negated. -/
theorem read?_brackets {terms : List ClassTerm} (ht : terms.all isOrderly = true)
    (hi : terms.any isInhabited = true) {body : List Char} (h : renderAll terms = .ok body)
    (negated : Bool) : ∃ t, t.nesting ≤ 2 ∧
      (∀ k, Brackets.read? ((if negated then ['^'] else []) ++ body ++ ']' :: k) = some (t, k)) ∧
        ∀ c, t.set.exact.mem c = (terms.any (·.denotes c) != negated) := by
  obtain ⟨ts, hl, hflat, hne, hmem⟩ := lists_renderAll ht h
  have hbody : body ≠ [] := fun hnil => by simp [hne hnil] at hi
  refine ⟨(ts.foldl Open.add ⟨negated, [], none⟩).close,
    nesting_close (fun t ht => Nat.le_of_eq (hflat t ht)) negated, fun k => ?_, fun c => ?_⟩
  · rw [Brackets.read?, start_body negated _ hbody hl.head]
    simp only
    rw [hl.read [] _ _ (by simp) (by simp)]
    exact readFrom?_of_done rfl
  · rw [mem_close, hmem]

end ClassTerm

end ShellExpr
