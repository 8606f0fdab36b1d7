import ShellExpr.Proofs.Eggex.Openings
import ShellExpr.Proofs.Eval.Trace
import ShellExpr.Proofs.Pattern.Lexemes

/-!
# Match groups of a rendered eggex

The matcher numbers groups by the parentheses that the renderer opens, so what a group of a match has
taken is a piece of the text that the tree in the parentheses matches, as far as the rendering of that
tree is read.

* `Brackets.Settles`: a text that adds terms to a bracket expression, or is rejected in every one.
* `Rendered`: the text of a tree as items and as branches.
* `regexMatch_groups`: **the groups that a match leaves behind belong to the trees in parentheses**, in
  their order.
-/

namespace ShellExpr

open Pattern Pattern.Assembly

/-! ### Brackets that may be rejected -/

namespace Pattern.Brackets

theorem readFrom?_of_fail {outer : List Open} {inner : Open} {cs : List Char}
    (h : step? outer inner cs = none) : readFrom? outer inner cs = none := by
  rw [readFrom?, h]

/-- A text that may stand first in brackets and either adds terms wherever it stands in a bracket
expression, or is rejected wherever it does. -/
structure Settles (cs : List Char) : Prop where
  head : ∀ c ∈ cs.head?, c ≠ '^' ∧ c ≠ '-' ∧ c ≠ ']'
  read : (∃ ts, Lists cs ts) ∨ ∀ outer inner k, k ≠ [] → k.head? ≠ some '-' →
    readFrom? outer inner (cs ++ k) = none

theorem Lists.settles {cs : List Char} {ts : List Term} (h : Lists cs ts) : Settles cs :=
  ⟨h.head, .inl ⟨ts, h⟩⟩

theorem Settles.append {cs ds : List Char} (h : Settles cs) (h' : Settles ds) :
    Settles (cs ++ ds) := by
  have hhead : ∀ k, k.head? ≠ some '-' → (ds ++ k).head? ≠ some '-' :=
    fun k hk => head?_append_ne (fun c hc => (h'.head c hc).2.1) hk
  refine ⟨forall_head?_append h.head h'.head, ?_⟩
  rcases h.read with ⟨ts, hl⟩ | hrej
  · rcases h'.read with ⟨us, hl'⟩ | hrej'
    · exact .inl ⟨ts ++ us, hl.append hl'⟩
    · refine .inr fun outer inner k hne hk => ?_
      rw [List.append_assoc, hl.read outer inner _ (by simp [hne]) (hhead k hk),
        hrej' outer _ k hne hk]
  · refine .inr fun outer inner k hne hk => ?_
    rw [List.append_assoc, hrej outer inner _ (by simp [hne]) (hhead k hk)]

/-- A bracket expression is read to its end, or is rejected whatever follows it. -/
theorem Settles.read?_brackets {cs : List Char} (h : Settles cs) (hne : cs ≠ []) (negated : Bool) :
    (∀ k, read? ((if negated then ['^'] else []) ++ cs ++ ']' :: k) = none) ∨
      ∃ t, ∀ k, read? ((if negated then ['^'] else []) ++ cs ++ ']' :: k) = some (t, k) := by
  rcases h.read with ⟨ts, hl⟩ | hrej
  · refine .inr ⟨(ts.foldl Open.add ⟨negated, [], none⟩).close, fun k => ?_⟩
    rw [read?, start_body negated _ hne h.head]
    simp only
    rw [hl.read [] _ _ (by simp) (by simp)]
    exact readFrom?_of_done rfl
  · refine .inl fun k => ?_
    rw [read?, start_body negated _ hne h.head]
    exact hrej [] _ _ (by simp) (by simp)

end Pattern.Brackets

namespace ClassTerm

open Pattern.Brackets

/-- A range whose bounds are out of order is rejected. -/
theorem settles_range (a b : Char) : Settles (renderChar a ++ '-' :: renderChar b) := by
  by_cases h : a ≤ b
  · exact (lists_range h).settles
  · refine ⟨renderChar_head a _, .inr fun outer inner k hk hd => ?_⟩
    have hb := renderChar_head b k
    have hrange : range? (renderChar a ++ ('-' :: (renderChar b ++ k))) = none := by
      have h1 : (renderChar b ++ k).head? ≠ some ']' := fun he => (hb _ he).2.2 rfl
      have h2 : (renderChar b ++ k).head? ≠ some '-' := fun he => (hb _ he).2.1 rfl
      simp only [range?, item?_renderChar, bind, Option.bind, h1, h2, or_self, if_false, h]
    rw [List.append_assoc, List.cons_append]
    exact readFrom?_of_fail (by rw [step?_renderChar, hrange]; rfl)

/-- A name that no class has is no class. -/
theorem named?_of_unknown {name : String} (h : isPlainName name = true)
    (hs : CharSet.ascii? name = none) (k : List Char) :
    named? (':' :: (name.toList ++ ':' :: ']' :: k)) = none := by
  have halnum : ∀ c ∈ name.toList, c.isAlphanum = true := List.all_eq_true.mp h
  have hcolon : ∀ c ∈ name.toList, decide (c ≠ ':') = true :=
    fun c hc => decide_eq_true (ne_of_isAlphanum (halnum c hc) rfl)
  have hsign : ∀ rest, name.toList ++ ':' :: ']' :: k ≠ '^' :: rest := by
    intro rest he
    cases hn : name.toList with
    | nil =>
      rw [hn] at he
      simp at he
    | cons c cs =>
      rw [hn] at he halnum
      exact ne_of_isAlphanum (halnum c List.mem_cons_self) rfl (List.cons.inj he).1
  have hdrop : (name.toList ++ ':' :: ']' :: k).dropWhile (· ≠ ':') = ':' :: ']' :: k := by
    rw [List.dropWhile_append_of_pos hcolon]
    simp
  have htake : (name.toList ++ ':' :: ']' :: k).takeWhile (· ≠ ':') = name.toList := by
    rw [List.takeWhile_append_of_pos hcolon]
    simp
  unfold named?
  split
  · rename_i cs heq
    obtain rfl := (List.cons.inj heq).2
    split
    rename_i negated cs' heq
    split at heq
    · rename_i rest hrest
      exact absurd hrest (hsign rest)
    · obtain ⟨rfl, rfl⟩ := Prod.mk.inj heq
      rw [hdrop, htake, String.ofList_toList, hs]
      rfl
  · rfl

theorem flatMap_renderChar {cs : List Char} (h : ∀ c ∈ cs, isSpecial c = false) :
    cs.flatMap renderChar = cs := by
  induction cs with
  | nil => rfl
  | cons c cs ih =>
    rw [List.forall_mem_cons] at h
    rw [List.flatMap_cons, ih h.2, renderChar, if_neg (by simp [h.1])]
    rfl

/-- The name of a class that there is none of is a bracket expression of its own, for its characters
and colons. -/
theorem lists_unknown {name : String} (h : isPlainName name = true)
    (hs : CharSet.ascii? name = none) : ∃ t, Lists (renderPosix name) [t] := by
  have halnum : ∀ c ∈ name.toList, c.isAlphanum = true := List.all_eq_true.mp h
  set chars := ':' :: (name.toList ++ [':']) with hchars
  have hplain : ∀ c ∈ chars, isSpecial c = false := by
    intro c hc
    simp only [hchars, List.mem_cons, List.mem_append, List.not_mem_nil, or_false] at hc
    rcases hc with rfl | hc | rfl
    · rfl
    · by_contra hsp
      rw [Bool.not_eq_false, isSpecial_iff] at hsp
      rcases hsp with rfl | rfl | rfl | rfl | rfl | rfl | rfl <;> simpa using halnum _ hc
    · rfl
  have hinner : Lists chars (chars.map literal) := by
    have := lists_chars chars
    rwa [flatMap_renderChar hplain] at this
  refine ⟨((chars.map literal).foldl Open.add ⟨false, [], none⟩).close,
    by simp [renderPosix], fun outer inner k hk hd => ?_⟩
  have htext : renderPosix name ++ k = '[' :: ':' :: (name.toList ++ ':' :: ']' :: k) := by
    simp [renderPosix]
  have hopen : step? outer inner ('[' :: ':' :: (name.toList ++ ':' :: ']' :: k)) =
      some (.next (inner :: outer) ⟨false, [], none⟩
        (':' :: (name.toList ++ ':' :: ']' :: k))) := by
    simp only [step?, named?_of_unknown h hs]
    rfl
  have hclose : ':' :: (name.toList ++ ':' :: ']' :: k) = chars ++ ']' :: k := by simp [hchars]
  rw [htext, readFrom?_of_next hopen (by simp), hclose, hinner.read _ _ _ (by simp) (by simp),
    readFrom?_of_next (h := rfl) (by simp)]
  rfl

theorem settles_posix {name : String} (h : isPlainName name = true) :
    Settles (renderPosix name) := by
  cases hs : CharSet.ascii? name with
  | some s => exact (lists_posix hs).settles
  | none =>
    obtain ⟨t, ht⟩ := lists_unknown h hs
    exact ht.settles

/-- What a term is rendered to adds terms to brackets, or is rejected in them. -/
theorem settles_render {t : ClassTerm} (ht : t.isPlainNamed = true) {cs : List Char}
    (h : t.render = .ok cs) : Settles cs := by
  by_cases horderly : t.isOrderly = true
  · obtain ⟨ts, hl, -⟩ := lists_render horderly h
    exact hl.settles
  · cases t with
    | range a b =>
      obtain rfl := Except.ok.inj h
      exact settles_range a b
    | posix negated name =>
      cases negated with
      | true => cases h
      | false =>
        obtain rfl := Except.ok.inj h
        exact settles_posix ht
    | _ => exact absurd rfl horderly

theorem settles_renderAll {terms : List ClassTerm} (ht : terms.all isPlainNamed = true)
    {cs : List Char} (h : renderAll terms = .ok cs) : Settles cs := by
  induction terms generalizing cs with
  | nil =>
    obtain rfl := Except.ok.inj h
    exact lists_nil.settles
  | cons t terms ih =>
    rw [List.all_cons, Bool.and_eq_true] at ht
    obtain ⟨xs, hx, h⟩ := ok_of_bind h
    obtain ⟨ys, hy, h⟩ := ok_of_bind h
    obtain rfl := Except.ok.inj h
    exact (settles_render ht.1 hx).append (ih ht.2 hy)

end ClassTerm

/-! ### Renderings as items and branches -/

namespace Eggex

variable {full : Prop}

theorem lexesItems_brackets {body : List Char} (h : Brackets.Settles body) (hne : body ≠ [])
    (negated : Bool) : LexesItems full (brackets negated body) [] false := by
  have htext : ∀ k, brackets negated body ++ k =
      '[' :: ((if negated then ['^'] else []) ++ body ++ ']' :: k) := by
    intro k
    simp [brackets]
  refine lexesItems_atom (by simp [brackets]) (by simp [brackets]) ?_
  rcases h.read?_brackets hne negated with hnone | ⟨t, ht⟩
  · refine .inl fun k => ?_
    rw [htext]
    show (Brackets.read? _).map _ = _
    rw [hnone]
    rfl
  · refine .inr ⟨.set t.set t.nesting, rfl, fun k => ?_⟩
    rw [htext]
    show (Brackets.read? _).map _ = _
    rw [ht]
    rfl

theorem lexesItems_chars (cs : List Char) :
    LexesItems full (cs.flatMap renderChar) [] false := by
  induction cs with
  | nil => exact lexesItems_nil
  | cons c cs ih =>
    have hne : renderChar c ≠ [] := by
      unfold renderChar
      split <;> simp
    have hchar : LexesItems full (renderChar c) [] false :=
      lexesItems_atom hne (spells_renderChar c).head
        (.inr ⟨Lexeme.literal c, rfl, read?_renderChar c⟩)
    by_cases hnil : cs.flatMap renderChar = []
    · simpa [hnil] using hchar
    · exact hchar.append_of_ne_nil ih hnil

/-- The trees have these renderings. -/
def AreRendered (es : List Eggex) (texts : List (List Char)) : Prop :=
  List.Forall₂ (fun e cs => e.render = .ok cs) es texts

mutual

/-- The repetitions in a tree, each with its count. -/
def repetitions : Eggex → List (Eggex × Count)
  | rep child count => (child, count) :: child.repetitions
  | seq items => allRepetitions items
  | alt items => allRepetitions items
  | group child => child.repetitions
  | capture child _ => child.repetitions
  | _ => []

/-- The same for several trees. -/
def allRepetitions : List Eggex → List (Eggex × Count)
  | [] => []
  | e :: rest => e.repetitions ++ allRepetitions rest

end

/-- Whether every count is written behind something. -/
def CountsSomething (e : Eggex) : Prop :=
  ∀ r ∈ e.repetitions, r.1.needsGroup = true ∨ r.1.render ≠ .ok []

/-- Whether no tree is repeated for no times at all. -/
def KeepsAll (e : Eggex) : Prop := ∀ r ∈ e.repetitions, r.2.bounds.2 ≠ some 0

/-- A repetition that counts something and, if `full`, keeps it. -/
def IsSound (full : Prop) (r : Eggex × Count) : Prop :=
  (r.1.needsGroup = true ∨ r.1.render ≠ .ok []) ∧ (full → r.2.bounds.2 ≠ some 0)

/-- A rendering of the tree, as items and as branches, with the trees in parentheses. -/
structure Rendered (full : Prop) (e : Eggex) (cs : List Char) : Prop where
  items : ∃ texts counted,
    AreRendered (if e.isAlt then e :: e.contents true else e.contents true) texts ∧
      LexesItems full (parens e.isAlt cs) texts counted
  branches : ∃ texts, AreRendered (e.contents true) texts ∧ LexesBranches full cs texts

section Rendered

variable {e : Eggex} {cs : List Char} {texts : List (List Char)}

/-- What is no alternation is one branch. -/
theorem rendered_of_items (halt : e.isAlt = false) (hr : AreRendered (e.contents true) texts)
    {counted : Bool} (h : LexesItems full cs texts counted) : Rendered full e cs := by
  refine ⟨⟨texts, counted, ?_, ?_⟩, texts, hr, h.branches⟩
  · rwa [halt]
  · rwa [halt]

theorem rendered_of_branches (halt : e.isAlt = true) (hcs : e.render = .ok cs)
    (hr : AreRendered (e.contents true) texts) (h : LexesBranches full cs texts) :
    Rendered full e cs := by
  refine ⟨⟨cs :: texts, false, ?_, ?_⟩, texts, hr, h⟩
  · rw [halt]
    exact .cons hcs hr
  · rw [halt]
    exact h.group

/-- A tree in parentheses, if they are wanted. -/
theorem Rendered.parens (h : Rendered full e cs) (hcs : e.render = .ok cs) (wanted : Bool)
    (hw : wanted = false → e.isAlt = false) :
    ∃ texts counted,
      AreRendered (if wanted then e :: e.contents true else e.contents true) texts ∧
        LexesItems full (Eggex.parens wanted cs) texts counted := by
  cases wanted with
  | true =>
    obtain ⟨texts, hr, hb⟩ := h.branches
    exact ⟨cs :: texts, false, .cons hcs hr, hb.group⟩
  | false =>
    have hitems := h.items
    rwa [hw rfl] at hitems

end Rendered

theorem parens_ne_nil {wanted : Bool} {cs : List Char} (h : wanted = true ∨ cs ≠ []) :
    parens wanted cs ≠ [] := by
  cases wanted with
  | true => simp [parens]
  | false =>
    rcases h with h | h
    · contradiction
    · exact h

mutual

/-- **A rendering falls into items and branches with the trees in parentheses**, if no count is
written behind nothing. -/
theorem rendered : (e : Eggex) → e.closesBrackets = true → (∀ r ∈ e.repetitions, IsSound full r) →
    {cs : List Char} → e.render = .ok cs → Rendered full e cs
  | primitive id _, _, _, cs, h => by
    obtain rfl := Except.ok.inj h
    have hread : ∃ t, t.isAtom = true ∧ ∀ k, Lexeme.read? ([id.render] ++ k) = some (t, k) := by
      cases id with
      | dot => exact ⟨.dot, rfl, fun k => rfl⟩
      | start => exact ⟨.caret, rfl, fun k => rfl⟩
      | stop => exact ⟨.dollar, rfl, fun k => rfl⟩
    have hhead : [id.render].head? ≠ some '?' := by cases id <;> simp [Primitive.render]
    exact rendered_of_items rfl .nil (lexesItems_atom (by simp) hhead (.inr hread))
  | literal text _, _, _, cs, h => by
    obtain rfl := Except.ok.inj h
    exact rendered_of_items rfl .nil (lexesItems_chars text.toList)
  | posix negated name, hb, _, cs, h => by
    obtain rfl := Except.ok.inj h
    exact rendered_of_items rfl .nil
      (lexesItems_brackets (ClassTerm.settles_posix hb) (by simp [ClassTerm.renderPosix]) negated)
  | perl negated name, _, _, cs, h => by
    obtain ⟨body, hbody, rfl⟩ := ok_of_map h
    obtain ⟨ts, hl, -, hne, -⟩ := ClassTerm.lists_renderPerl hbody
    exact rendered_of_items rfl .nil (lexesItems_brackets hl.settles hne negated)
  | charClass negated terms, hb, _, cs, h => by
    simp only [closesBrackets, Bool.and_eq_true] at hb
    obtain ⟨body, hbody, rfl⟩ := ok_of_map h
    have hne : body ≠ [] := by
      intro hnil
      have := (ClassTerm.staysInside_renderAll hb.1 hbody).2 hnil
      rw [hb.2] at this
      contradiction
    exact rendered_of_items rfl .nil
      (lexesItems_brackets (ClassTerm.settles_renderAll hb.1 hbody) hne negated)
  | seq items, hb, hs, cs, h => by
    obtain ⟨texts, counted, hr, hl⟩ := rendered_seq items hb hs h
    exact rendered_of_items rfl hr hl
  | alt [], _, _, cs, h => by
    have hcs := h
    obtain rfl := Except.ok.inj h
    exact rendered_of_branches rfl hcs .nil lexesItems_nil.branches
  | alt (e :: rest), hb, hs, cs, h => by
    have hcs := h
    simp only [closesBrackets, allCloseBrackets, Bool.and_eq_true] at hb
    obtain ⟨xs, hx, h⟩ := ok_of_bind h
    obtain ⟨ys, hy, h⟩ := ok_of_bind h
    obtain rfl := Except.ok.inj h
    obtain ⟨hs1, hs2⟩ := List.forall_mem_append.mp hs
    obtain ⟨texts, hr, hl⟩ := (rendered e hb.1 hs1 hx).branches
    obtain ⟨texts', hr', hl'⟩ := rendered_branches rest hb.2 hs2 hy
    exact rendered_of_branches rfl hcs (List.rel_append hr hr') (hl' xs texts hl)
  | rep child count, hb, hs, cs, h => by
    obtain ⟨xs, hx, rfl⟩ := ok_of_map h
    obtain ⟨⟨hsome, hkeep⟩, hs'⟩ := List.forall_mem_cons.mp hs
    have halt : child.needsGroup = false → child.isAlt = false := by
      intro hn
      cases child <;> first | rfl | simp [needsGroup] at hn
    obtain ⟨texts, counted, hr, hl⟩ :=
      (rendered child hb hs' hx).parens hx child.needsGroup halt
    have hne : parens child.needsGroup xs ≠ [] :=
      parens_ne_nil (hsome.imp_right fun hx' hnil => hx' (by rw [hx, hnil]))
    have hread : (∀ k, Lexeme.read? (count.render ++ k) = none) ∨ ∀ k,
        Lexeme.read? (count.render ++ k) =
          some (Lexeme.repetition count.bounds.1 count.bounds.2 k) := by
      cases ho : count.isOrdered with
      | false => exact .inl fun k => by rw [Count.read?_render_eq, ho]; rfl
      | true => exact .inr fun k => by rw [Count.read?_render_eq, ho]; rfl
    obtain ⟨counted', hl'⟩ := hl.count hne count.render_ne_nil hkeep hread Count.render_head
    refine rendered_of_items rfl ?_ hl'
    rw [contents, Bool.true_and]
    exact hr
  | group child, hb, hs, cs, h => by
    obtain ⟨xs, hx, rfl⟩ := ok_of_map h
    obtain ⟨texts, counted, hr, hl⟩ := (rendered child hb hs hx).parens hx true (by simp)
    exact rendered_of_items rfl hr hl
  | capture child name, hb, hs, cs, h => by
    obtain ⟨xs, hx, rfl⟩ := ok_of_map h
    obtain ⟨texts, counted, hr, hl⟩ := (rendered child hb hs hx).parens hx true (by simp)
    exact rendered_of_items rfl hr hl
  | speck .., _, _, _, h | token _, _, _, _, h | word _, _, _, _, h | splice _, _, _, _, h => by
    cases h

/-- Trees in a row. -/
theorem rendered_seq : (es : List Eggex) → allCloseBrackets es = true →
    (∀ r ∈ allRepetitions es, IsSound full r) → {cs : List Char} → renderSeq es = .ok cs →
    ∃ texts counted, AreRendered (itemContents true es) texts ∧ LexesItems full cs texts counted
  | [], _, _, cs, h => by
    obtain rfl := Except.ok.inj h
    exact ⟨[], false, .nil, lexesItems_nil⟩
  | e :: rest, hb, hs, cs, h => by
    simp only [allCloseBrackets, Bool.and_eq_true] at hb
    obtain ⟨xs, hx, h⟩ := ok_of_bind h
    obtain ⟨ys, hy, h⟩ := ok_of_bind h
    obtain rfl := Except.ok.inj h
    obtain ⟨hs1, hs2⟩ := List.forall_mem_append.mp hs
    obtain ⟨texts, counted, hr, hl⟩ := (rendered e hb.1 hs1 hx).items
    obtain ⟨texts', counted', hr', hl'⟩ := rendered_seq rest hb.2 hs2 hy
    obtain ⟨counted'', hl''⟩ := hl.append hl'
    exact ⟨texts ++ texts', counted'', List.rel_append hr hr', hl''⟩

/-- Further branches, each after a bar. -/
theorem rendered_branches : (es : List Eggex) → allCloseBrackets es = true →
    (∀ r ∈ allRepetitions es, IsSound full r) → {ds : List Char} → renderBranches es = .ok ds →
    ∃ texts', AreRendered (branchContents true es) texts' ∧
      ∀ cs texts, LexesBranches full cs texts → LexesBranches full (cs ++ ds) (texts ++ texts')
  | [], _, _, ds, h => by
    obtain rfl := Except.ok.inj h
    exact ⟨[], .nil, fun cs texts hl => by simpa using hl⟩
  | e :: rest, hb, hs, ds, h => by
    simp only [allCloseBrackets, Bool.and_eq_true] at hb
    obtain ⟨xs, hx, h⟩ := ok_of_bind h
    obtain ⟨ys, hy, h⟩ := ok_of_bind h
    obtain rfl := Except.ok.inj h
    obtain ⟨hs1, hs2⟩ := List.forall_mem_append.mp hs
    obtain ⟨texts, hr, hl⟩ := (rendered e hb.1 hs1 hx).branches
    obtain ⟨texts', hr', hl'⟩ := rendered_branches rest hb.2 hs2 hy
    refine ⟨texts ++ texts', List.rel_append hr hr', fun cs us hu => ?_⟩
    have := hl' _ _ (hu.bar hl)
    simpa using this

end

/-! ### What a match leaves behind -/

/-- The groups of a match by a rendered tree. -/
theorem groups_of_hit {e : Eggex} {cs : List Char} (hcs : e.render = .ok cs)
    (hb : e.closesBrackets = true) (hsound : ∀ r ∈ e.repetitions, IsSound full r) {text : String}
    {groups : List String} (h : Verdict.of (String.ofList cs) text = .hit groups) :
    groups.length ≤ (e.contents true).length + 1 ∧
      (full → groups.length = (e.contents true).length + 1) ∧
      ∀ (n : Nat) (g : Eggex) (taken : String), (e.contents true)[n]? = some g →
        groups[n + 1]? = some taken → taken = "" ∨ ∃ body q, g.render = .ok body ∧
          patternFrom? (n + 2) body = some q ∧ q.MatchesPiece text.toList taken.toList := by
  obtain ⟨texts, hr, hl⟩ := (rendered e hb hsound hcs).branches
  have hlen : (e.contents true).length = texts.length := hr.length_eq
  rw [Verdict.of, String.toList_ofList] at h
  cases hp : parse? cs with
  | none =>
    rw [hp] at h
    contradiction
  | some p =>
    rw [hp] at h
    simp only [Verdict.search] at h
    cases hf : p.find text.toList with
    | none =>
      rw [hf] at h
      contradiction
    | some found =>
      rw [hf] at h
      obtain rfl := Verdict.hit.inj h
      obtain ⟨hle, hfull, hgroup⟩ := hl.find hp hf
      rw [List.length_map, hlen]
      refine ⟨hle, hfull, fun n g taken hg ht => ?_⟩
      rw [List.getElem?_map] at ht
      obtain ⟨w, hw, rfl⟩ := Option.map_eq_some_iff.mp ht
      obtain ⟨hn, rfl⟩ := List.getElem?_eq_some_iff.mp hg
      have ht : n < texts.length := hlen ▸ hn
      rcases hgroup n w _ hw (List.getElem?_eq_getElem ht) with rfl | ⟨q, hq, hpiece⟩
      · exact .inl rfl
      · refine .inr ⟨_, q, hr.get hn ht, hq, ?_⟩
        rwa [String.toList_ofList]

/-- A text matches a rendered tree if the engine finds a match, and then the match groups of the store
become those of the match. -/
theorem regexMatch_iff {e : Eggex} {cs : List Char} (hcs : e.render = .ok cs) {opSpan : Span}
    {i j : Handle} {text : String} {flags : List String} {w w' : World} :
    (Eval.regexMatch true opSpan (.str i text) (.eggex j ⟨e, flags⟩)).outcome w = (.ok true, w') ↔
      ∃ groups, Verdict.of (String.ofList cs) text = .hit groups ∧ w' = w.withGroups groups := by
  have hpattern : (Eval.patternOf opSpan (.eggex j ⟨e, flags⟩)).outcome w =
      (.ok (String.ofList cs), w) := by
    rw [Eval.patternOf, hcs]
    rfl
  unfold Eval.regexMatch
  rw [Eval.outcome_bind, hpattern]
  simp only
  constructor
  · intro h
    cases hv : Verdict.of (String.ofList cs) text with
    | rejected =>
      rw [hv] at h
      cases h
    | miss =>
      rw [hv] at h
      cases h
    | hit groups =>
      rw [hv] at h
      cases h
      exact ⟨groups, rfl, rfl⟩
  · rintro ⟨groups, hv, rfl⟩
    rw [hv]
    rfl

/-- **The groups that a match leaves behind belong to the trees in parentheses.** The rendering opens
one parenthesis for each of them. After a match there is a group for each of them, unless some are
repeated for no times at all, and no other; the group of the `n`-th tree, counted from one, has number
`n`: it is empty or a piece of the text that the rendering of this tree, read on its own with its own
groups numbered on from `n`, matches where it stands. -/
theorem regexMatch_groups {e : Eggex} {cs : List Char} (hcs : e.render = .ok cs)
    (hb : e.closesBrackets = true) :
    openings {} cs = (e.contents true).length ∧
      (e.CountsSomething → ∀ (opSpan : Span) (i j : Handle) (text : String) (flags : List String)
        (w w' : World),
        (Eval.regexMatch true opSpan (.str i text) (.eggex j ⟨e, flags⟩)).outcome w =
          (.ok true, w') →
        w'.store.groups.length ≤ (e.contents true).length + 1 ∧
        (e.KeepsAll → w'.store.groups.length = (e.contents true).length + 1) ∧
        ∀ (n : Nat) (g : Eggex) (taken : String), (e.contents true)[n]? = some g →
          w'.store.groups[n + 1]? = some taken → taken = "" ∨ ∃ body q, g.render = .ok body ∧
            patternFrom? (n + 2) body = some q ∧ q.MatchesPiece text.toList taken.toList) := by
  refine ⟨(opens_render e hb hcs).count, fun hsome opSpan i j text flags w w' h => ?_⟩
  have hsound : ∀ r ∈ e.repetitions, IsSound e.KeepsAll r :=
    fun r hr => ⟨hsome r hr, fun hkeep => hkeep r hr⟩
  obtain ⟨groups, hv, rfl⟩ := (regexMatch_iff hcs).mp h
  exact groups_of_hit hcs hb hsound hv

/-- An alternation in a row takes the first number, the group behind it the second. -/
theorem regexMatch_groups_row :
    let e := seq [alt [literal "a" .dummy, literal "b" .dummy], group (literal "c" .dummy)]
    e.render = .ok "(a|b)(c)".toList ∧ e.closesBrackets = true ∧ e.CountsSomething ∧ e.KeepsAll ∧
      openings {} "(a|b)(c)".toList = 2 ∧
      ∀ (w : World) (opSpan : Span) (i j : Handle), ∃ w',
        (Eval.regexMatch true opSpan (.str i "ac") (.eggex j ⟨e, []⟩)).outcome w = (.ok true, w') ∧
          w'.store.groups = ["ac", "a", "c"] ∧ w'.store.groups.length = 3 := by
  intro e
  have hcs : e.render = .ok "(a|b)(c)".toList := rfl
  have hsome : e.CountsSomething := by simp [e, CountsSomething, repetitions, allRepetitions]
  have hkeep : e.KeepsAll := by simp [e, KeepsAll, repetitions, allRepetitions]
  have hgroups := regexMatch_groups hcs rfl
  refine ⟨hcs, rfl, hsome, hkeep, hgroups.1, fun w opSpan i j => ?_⟩
  have hv : Verdict.of (String.ofList "(a|b)(c)".toList) "ac" = .hit ["ac", "a", "c"] := by
    decide +kernel
  have hrun : (Eval.regexMatch true opSpan (.str i "ac") (.eggex j ⟨e, []⟩)).outcome w =
      (.ok true, w.withGroups ["ac", "a", "c"]) := (regexMatch_iff hcs).mpr ⟨_, hv, rfl⟩
  exact ⟨_, hrun, rfl, (hgroups.2 hsome opSpan i j "ac" [] w _ hrun).2.1 hkeep⟩

/-- The groups of a tree alone do not tell its parentheses: an alternation in a row opens one of its
own. Neither do they where a name closes the brackets around it, where a class literal is empty, or
where a count is written behind nothing and makes a parenthesis open no group. -/
theorem parentheses_of_row :
    let row := seq [alt [literal "a" .dummy, literal "b" .dummy], group (literal "c" .dummy)]
    let named := posix false "]](a)[[:b"
    let hollow := seq [charClass false [], group (literal "c" .dummy), literal "A-" .dummy,
      charClass false [.codePoint 98 .dummy]]
    let lost := group (seq [rep (literal "" .dummy) .question, literal ":a" .dummy])
    (row.isCanonical = true ∧ row.render = .ok "(a|b)(c)".toList ∧
        openings {} "(a|b)(c)".toList ≠ (row.contents false).length ∧
        Verdict.of "(a|b)(c)" "ac" = .hit ["ac", "a", "c"]) ∧
      (named.isCanonical = true ∧ named.render = .ok "[[:]](a)[[:b:]]".toList ∧
        openings {} "[[:]](a)[[:b:]]".toList ≠ (named.contents false).length) ∧
      (hollow.isCanonical = true ∧ hollow.render = .ok "[](c)A-[b]".toList ∧
        openings {} "[](c)A-[b]".toList ≠ (hollow.contents false).length) ∧
      (lost.isCanonical = true ∧ lost.render = .ok "(?:a)".toList ∧
        (lost.contents false).length = 1 ∧ Verdict.of "(?:a)" "a" = .hit ["a"]) := by
  exact ⟨⟨rfl, rfl, by decide, by decide +kernel⟩, ⟨rfl, rfl, by decide⟩, ⟨rfl, rfl, by decide⟩,
    ⟨rfl, rfl, rfl, by decide +kernel⟩⟩

end Eggex

end ShellExpr
