import ShellExpr.Eggex.Render
import ShellExpr.Proofs.Eggex.Canonical

/-!
# Leaves of eggexes

Compiling and rendering go through a tree from left to right and do their work at its leaves: the
first leaf that fails makes the whole fail. Whether the two agree is therefore decided leaf by leaf.

* `Eggex.leaves`: the leaves of a tree.
* `Eggex.error_of_compile`, `Eggex.leaves_of_compile`: compilation is compilation of the leaves.
* `Eggex.error_of_render`, `Eggex.forall_leaves_of_render`: so is rendering.
* `Eggex.unsupported_of_render`: a canonical tree has no fault but that of a missing feature.
* `Eggex.compile_isOk_iff`: **what compiles**: leaves that become canonical, and tokens of character
  classes that spell no character. These pass.
* `Eggex.fault_of_render`, `Eggex.error_of_not_spelled`: what is wrong with the pattern of a compiled
  tree. Where such a token has passed, there is none.
-/

namespace ShellExpr

/-! ### Rows of computations -/

namespace ClassTerm

theorem compileAll_eq (words : Words) (ts : List ClassTerm) :
    compileAll words ts = ts.mapM (compile words) := by
  induction ts with
  | nil => rfl
  | cons t rest ih => rw [compileAll, ih, List.mapM_cons]

theorem renderAll_eq (ts : List ClassTerm) : renderAll ts = (ts.mapM render).map List.flatten := by
  induction ts with
  | nil => rfl
  | cons t rest ih =>
    rw [renderAll, ih, List.mapM_cons]
    cases render t with
    | error f => rfl
    | ok s => cases rest.mapM render <;> rfl

theorem unsupported_of_renderPerl {name : String} {f : Fault} (h : renderPerl name = .error f) :
    ∃ feature, f = .unsupported feature := by
  unfold renderPerl at h
  split_ifs at h
  exact ⟨_, (Except.error.inj h).symm⟩

/-- A canonical term has no fault but that of a missing feature. -/
theorem unsupported_of_render {t : ClassTerm} (hc : t.isCanonical = true) {f : Fault}
    (h : t.render = .error f) : ∃ feature, f = .unsupported feature := by
  cases t with
  | word w | charLiteral tok => contradiction
  | range first last | bytes bs span => contradiction
  | posix negated name =>
    simp only [render] at h
    split_ifs at h
    exact ⟨_, (Except.error.inj h).symm⟩
  | perl negated name =>
    simp only [render] at h
    split_ifs at h
    · exact ⟨_, (Except.error.inj h).symm⟩
    · exact unsupported_of_renderPerl h
  | codePoint code span =>
    simp only [render] at h
    split at h
    · contradiction
    · exact ⟨_, (Except.error.inj h).symm⟩

end ClassTerm

namespace Eggex

theorem compileAll_eq (scope : EggexScope) (ts : List Eggex) :
    compileAll scope ts = ts.mapM (compile scope) := by
  induction ts with
  | nil => rfl
  | cons t rest ih => rw [compileAll, ih, List.mapM_cons]

/-- An item of a sequence, in parentheses if it has branches. -/
def renderItem (t : Eggex) : Except Fault (List Char) := t.render.map (parens t.isAlt)

theorem renderSeq_eq (ts : List Eggex) :
    renderSeq ts = (ts.mapM renderItem).map List.flatten := by
  induction ts with
  | nil => rfl
  | cons t rest ih =>
    rw [renderSeq, ih, List.mapM_cons, renderItem]
    cases render t with
    | error f => rfl
    | ok s => cases rest.mapM renderItem <;> rfl

theorem renderBranches_eq (ts : List Eggex) : renderBranches ts =
    (ts.mapM render).map fun ss => ss.flatMap fun s => '|' :: s := by
  induction ts with
  | nil => rfl
  | cons t rest ih =>
    rw [renderBranches, ih, List.mapM_cons]
    cases render t with
    | error f => rfl
    | ok s => cases rest.mapM render <;> rfl

theorem allCanonical_iff (ts : List Eggex) : allCanonical ts ↔ ∀ t ∈ ts, t.isCanonical := by
  induction ts with
  | nil => simp [allCanonical]
  | cons t rest ih => rw [allCanonical, Bool.and_eq_true, ih, List.forall_mem_cons]

theorem classTokensAll_eq (ts : List Eggex) : classTokensAll ts = ts.flatMap classTokens := by
  induction ts with
  | nil => rfl
  | cons t rest ih => rw [classTokensAll, ih, List.flatMap_cons]

/-! ### Leaves -/

/-- Whether a node has no parts. -/
def isLeaf : Eggex → Bool
  | seq _ | alt _ | rep .. | group _ | capture .. | charClass .. => false
  | _ => true

mutual

/-- The leaves of a tree, from left to right. A character class has one for each of its terms: the
class of that term alone. -/
def leaves : Eggex → List Eggex
  | seq items => leavesAll items
  | alt items => leavesAll items
  | rep child _ => child.leaves
  | group child => child.leaves
  | capture child _ => child.leaves
  | charClass negated terms => terms.map fun t => charClass negated [t]
  | leaf => [leaf]

/-- The same for several trees. -/
def leavesAll : List Eggex → List Eggex
  | [] => []
  | t :: rest => t.leaves ++ leavesAll rest

end

theorem leavesAll_eq (ts : List Eggex) : leavesAll ts = ts.flatMap leaves := by
  induction ts with
  | nil => rfl
  | cons t rest ih => rw [leavesAll, ih, List.flatMap_cons]

theorem leaves_of_isLeaf {t : Eggex} (h : t.isLeaf = true) : t.leaves = [t] := by
  cases t <;> first | rfl | contradiction

theorem mem_leavesAll {l : Eggex} {ts : List Eggex} :
    l ∈ leavesAll ts ↔ ∃ t ∈ ts, l ∈ t.leaves := by
  rw [leavesAll_eq, List.mem_flatMap]

theorem mem_leaves_charClass {negated : Bool} {terms : List ClassTerm} {l : Eggex} :
    l ∈ (charClass negated terms).leaves ↔ ∃ t ∈ terms, l = charClass negated [t] := by
  rw [leaves, List.mem_map]
  exact exists_congr fun t => and_congr_right fun _ => eq_comm

/-- Induction over a tree down to its leaves. -/
@[elab_as_elim]
theorem leafInduction {motive : Eggex → Prop} (leaf : ∀ t, t.isLeaf = true → motive t)
    (charClass : ∀ negated terms, motive (charClass negated terms))
    (seq : ∀ items, (∀ t ∈ items, motive t) → motive (seq items))
    (alt : ∀ items, (∀ t ∈ items, motive t) → motive (alt items))
    (rep : ∀ child count, motive child → motive (rep child count))
    (group : ∀ child, motive child → motive (group child))
    (capture : ∀ child name, motive child → motive (capture child name)) (t : Eggex) :
    motive t :=
  @Eggex.rec motive (fun ts => ∀ t ∈ ts, motive t)
    (fun _ _ => leaf _ rfl) (fun _ => leaf _ rfl) (fun _ => leaf _ rfl) (fun _ => leaf _ rfl)
    (fun _ _ => leaf _ rfl) (fun _ _ => leaf _ rfl) seq alt rep group capture charClass
    (fun _ _ => leaf _ rfl) (fun _ _ => leaf _ rfl) (by simp)
    (fun _ _ h hrest => List.forall_mem_cons.mpr ⟨h, hrest⟩) t

/-- A leaf is a node without parts or a class of one term. -/
theorem isLeaf_or_charClass_of_mem {t l : Eggex} (h : l ∈ t.leaves) :
    l.isLeaf = true ∨ ∃ negated term, l = charClass negated [term] := by
  induction t using leafInduction with
  | leaf t ht =>
    rw [leaves_of_isLeaf ht, List.mem_singleton] at h
    exact .inl (h ▸ ht)
  | charClass negated terms =>
    obtain ⟨term, -, rfl⟩ := mem_leaves_charClass.mp h
    exact .inr ⟨negated, term, rfl⟩
  | seq items ih | alt items ih =>
    obtain ⟨t, ht, hl⟩ := mem_leavesAll.mp h
    exact ih t ht hl
  | rep child count ih => exact ih h
  | group child ih => exact ih h
  | capture child name ih => exact ih h

/-- A tree is canonical leaf by leaf. -/
theorem isCanonical_iff (t : Eggex) : t.isCanonical ↔ ∀ l ∈ t.leaves, l.isCanonical := by
  induction t using leafInduction with
  | leaf t h => simp [leaves_of_isLeaf h]
  | charClass negated terms => simp [leaves, isCanonical]
  | seq items ih | alt items ih =>
    rw [isCanonical, allCanonical_iff, leaves, leavesAll_eq, List.forall_mem_flatMap]
    exact forall₂_congr ih
  | rep child count ih => exact ih
  | group child ih => exact ih
  | capture child name ih => exact ih

/-- So are its tokens spelled. -/
theorem spelled_iff (t : Eggex) : t.Spelled ↔ ∀ l ∈ t.leaves, l.Spelled := by
  induction t using leafInduction with
  | leaf t h => simp [leaves_of_isLeaf h]
  | charClass negated terms =>
    constructor
    · intro h l hl
      obtain ⟨t, ht, rfl⟩ := mem_leaves_charClass.mp hl
      intro tok htok
      obtain ⟨u, hu, hspells⟩ := List.mem_filterMap.mp htok
      obtain rfl := List.mem_singleton.mp hu
      exact h tok (List.mem_filterMap.mpr ⟨u, ht, hspells⟩)
    · intro h tok htok
      obtain ⟨t, ht, htok⟩ := List.mem_filterMap.mp htok
      refine h _ (mem_leaves_charClass.mpr ⟨t, ht, rfl⟩) tok ?_
      exact List.mem_filterMap.mpr ⟨t, List.mem_cons_self, htok⟩
  | seq items ih | alt items ih =>
    rw [Spelled, classTokens, classTokensAll_eq, List.forall_mem_flatMap, leaves, leavesAll_eq,
      List.forall_mem_flatMap]
    exact forall₂_congr ih
  | rep child count ih => exact ih
  | group child ih => exact ih
  | capture child name ih => exact ih

/-! ### Compiling -/

section Compiling

variable {scope : EggexScope}

theorem leavesAll_append (ts us : List Eggex) :
    leavesAll (ts ++ us) = leavesAll ts ++ leavesAll us := by
  rw [leavesAll_eq, leavesAll_eq, leavesAll_eq, List.flatMap_append]

/-- The classes of single terms, each with its compiled term. -/
theorem mapM_compile_terms (negated : Bool) (terms : List ClassTerm) :
    (terms.map fun t => charClass negated [t]).mapM (compile scope) =
      (terms.mapM (ClassTerm.compile scope.words)).map
        (List.map fun u => charClass negated [u]) := by
  induction terms with
  | nil => rfl
  | cons t rest ih =>
    rw [List.map_cons, List.mapM_cons, List.mapM_cons, ih, compile, ClassTerm.compileAll,
      ClassTerm.compileAll]
    cases t.compile scope.words with
    | error e => rfl
    | ok u => cases rest.mapM (ClassTerm.compile scope.words) <;> rfl

theorem compileAll_leaves {ts : List Eggex}
    (ih : ∀ t ∈ ts, (t.compile scope).map leaves = (t.leaves.mapM (compile scope)).map leavesAll) :
    (compileAll scope ts).map leavesAll =
      ((leavesAll ts).mapM (compile scope)).map leavesAll := by
  induction ts with
  | nil => rfl
  | cons t rest ih' =>
    rw [List.forall_mem_cons] at ih
    -- the leaves of the first tree come before those of the others on both sides
    have hleft : (compileAll scope (t :: rest)).map leavesAll = do
        let ls ← (t.compile scope).map leaves
        let ls' ← (compileAll scope rest).map leavesAll
        return ls ++ ls' := by
      rw [compileAll]
      cases t.compile scope with
      | error e => rfl
      | ok c => cases compileAll scope rest <;> rfl
    have hright : ((leavesAll (t :: rest)).mapM (compile scope)).map leavesAll = do
        let ls ← (t.leaves.mapM (compile scope)).map leavesAll
        let ls' ← ((leavesAll rest).mapM (compile scope)).map leavesAll
        return ls ++ ls' := by
      rw [leavesAll, List.mapM_append]
      cases t.leaves.mapM (compile scope) with
      | error e => rfl
      | ok ds =>
        cases (leavesAll rest).mapM (compile scope) with
        | error e => rfl
        | ok ds' => exact congrArg Except.ok (leavesAll_append ds ds')
    rw [hleft, hright, ih.1, ih' ih.2]

/-- **A tree is compiled leaf by leaf.** -/
theorem compile_leaves (scope : EggexScope) (t : Eggex) :
    (t.compile scope).map leaves = (t.leaves.mapM (compile scope)).map leavesAll := by
  induction t using leafInduction with
  | leaf t ht =>
    rw [leaves_of_isLeaf ht, List.mapM_cons, List.mapM_nil]
    cases t.compile scope with
    | error e => rfl
    | ok c => exact congrArg Except.ok (List.append_nil c.leaves).symm
  | charClass negated terms =>
    rw [leaves, mapM_compile_terms, compile, ClassTerm.compileAll_eq]
    cases terms.mapM (ClassTerm.compile scope.words) with
    | error e => rfl
    | ok us =>
      -- the leaves of a class are leaves of their own
      show Except.ok (us.map fun u => charClass negated [u]) =
        Except.ok (leavesAll (us.map fun u => charClass negated [u]))
      rw [leavesAll_eq, List.flatMap_map, List.map_eq_flatMap]
      rfl
  | seq items ih =>
    rw [leaves, ← compileAll_leaves ih, compile]
    cases compileAll scope items <;> rfl
  | alt items ih =>
    rw [leaves, ← compileAll_leaves ih, compile]
    cases compileAll scope items <;> rfl
  | rep child count ih =>
    rw [leaves, ← ih, compile]
    cases child.compile scope <;> rfl
  | group child ih =>
    rw [leaves, ← ih, compile]
    cases child.compile scope <;> rfl
  | capture child name ih =>
    rw [leaves, ← ih, compile]
    cases child.compile scope <;> rfl

/-- The first leaf that fails makes the tree fail, with its error. -/
theorem error_of_compile {t : Eggex} {e : EvalError} (h : t.compile scope = .error e) :
    ∃ l ∈ t.leaves, l.compile scope = .error e := by
  have hl := compile_leaves scope t
  rw [h] at hl
  exact error_of_mapM (error_of_map hl.symm)

/-- The leaves of a compiled tree are those of its compiled leaves. -/
theorem leaves_of_compile {t c : Eggex} (h : t.compile scope = .ok c) :
    ∃ ds, t.leaves.mapM (compile scope) = .ok ds ∧ leavesAll ds = c.leaves := by
  have hl := compile_leaves scope t
  rw [h] at hl
  exact ok_of_map hl.symm

end Compiling

/-! ### Rendering -/

theorem discard_map {α β ε : Type} (x : Except ε α) (f : α → β) :
    discard (x.map f) = discard x := by
  cases x <;> rfl

/-- The classes of single terms fail as the terms do. -/
theorem discard_mapM_terms (negated : Bool) (terms : List ClassTerm) :
    discard ((terms.map fun t => charClass negated [t]).mapM render) =
      discard (ClassTerm.renderAll terms) := by
  induction terms with
  | nil => rfl
  | cons t rest ih =>
    have hright : discard (ClassTerm.renderAll (t :: rest)) =
        discard t.render *> discard (ClassTerm.renderAll rest) := by
      rw [ClassTerm.renderAll]
      cases t.render with
      | error f => rfl
      | ok s => cases ClassTerm.renderAll rest <;> rfl
    rw [hright, ← ih, List.map_cons, List.mapM_cons, render, ClassTerm.renderAll]
    cases t.render with
    | error f => rfl
    | ok s => cases (rest.map fun t => Eggex.charClass negated [t]).mapM render <;> rfl

/-- The leaves of several trees fail as the trees do, if those of each tree do. -/
theorem discard_mapM_leaves {f : Eggex → Except Fault (List Char)} {ts : List Eggex}
    (ih : ∀ t ∈ ts, discard (f t) = discard (t.leaves.mapM render)) :
    discard (ts.mapM f) = discard ((leavesAll ts).mapM render) := by
  induction ts with
  | nil => rfl
  | cons t rest ih' =>
    rw [List.forall_mem_cons] at ih
    have hleft : discard ((t :: rest).mapM f) = discard (f t) *> discard (rest.mapM f) := by
      rw [List.mapM_cons]
      cases f t with
      | error e => rfl
      | ok s => cases rest.mapM f <;> rfl
    have hright : discard ((leavesAll (t :: rest)).mapM render) =
        discard (t.leaves.mapM render) *> discard ((leavesAll rest).mapM render) := by
      rw [leavesAll, List.mapM_append]
      cases t.leaves.mapM render with
      | error e => rfl
      | ok ss => cases (leavesAll rest).mapM render <;> rfl
    rw [hleft, hright, ih.1, ih' ih.2]

/-- **A tree is rendered leaf by leaf**, as far as faults go. -/
theorem render_leaves (t : Eggex) : discard t.render = discard (t.leaves.mapM render) := by
  induction t using leafInduction with
  | leaf t ht =>
    rw [leaves_of_isLeaf ht, List.mapM_cons, List.mapM_nil]
    cases t.render <;> rfl
  | charClass negated terms =>
    rw [leaves, render, discard_map, discard_mapM_terms]
  | seq items ih =>
    rw [leaves, render, renderSeq_eq, discard_map]
    refine discard_mapM_leaves fun t ht => ?_
    rw [renderItem, discard_map, ih t ht]
  | alt items ih =>
    rw [leaves, ← discard_mapM_leaves ih]
    cases items with
    | nil => rfl
    | cons t rest =>
      rw [render, renderBranches_eq, List.mapM_cons]
      cases t.render with
      | error f => rfl
      | ok s => cases rest.mapM render <;> rfl
  | rep child count ih => rw [leaves, ← ih, render, discard_map]
  | group child ih => rw [leaves, ← ih, render, discard_map]
  | capture child name ih => rw [leaves, ← ih, render, discard_map]

theorem error_of_render {c : Eggex} {f : Fault} (h : c.render = .error f) :
    ∃ l ∈ c.leaves, l.render = .error f := by
  have hl := render_leaves c
  rw [h] at hl
  exact error_of_mapM (error_of_map hl.symm)

/-- What has a pattern has no leaf without one. -/
theorem forall_leaves_of_render {c : Eggex} {s : List Char} (h : c.render = .ok s) :
    ∀ l ∈ c.leaves, ∃ s', l.render = .ok s' := by
  have hl := render_leaves c
  rw [h] at hl
  obtain ⟨ss, hss, -⟩ := ok_of_map hl.symm
  intro l hmem
  obtain ⟨s', -, hs'⟩ := (mem_of_mapM hss).1 l hmem
  exact ⟨s', hs'⟩

/-- A canonical tree has no fault but that of a missing feature. -/
theorem unsupported_of_render {c : Eggex} (hc : c.isCanonical = true) {f : Fault}
    (h : c.render = .error f) : ∃ feature, f = .unsupported feature := by
  obtain ⟨l, hl, hf⟩ := error_of_render h
  have hcanonical : l.isCanonical = true := (isCanonical_iff c).mp hc l hl
  rcases isLeaf_or_charClass_of_mem hl with hleaf | ⟨negated, t, rfl⟩
  · cases l with
    | perl negated name => exact ClassTerm.unsupported_of_renderPerl (error_of_map hf)
    | _ => contradiction
  · have hterms : ClassTerm.renderAll [t] = .error f := error_of_map hf
    rw [ClassTerm.renderAll_eq] at hterms
    obtain ⟨u, hu, hrender⟩ := error_of_mapM (error_of_map hterms)
    obtain rfl := List.mem_singleton.mp hu
    have hterm : u.isCanonical = true := by simpa [isCanonical] using hcanonical
    exact ClassTerm.unsupported_of_render hterm hrender

/-! ### Tokens that spell nothing -/

/-- Whether a leaf is compiled to something that needs no further evaluation. -/
def Resolves (scope : EggexScope) (l : Eggex) : Prop :=
  ∃ d, l.compile scope = .ok d ∧ d.isCanonical = true

/-- Whether a leaf is a token of a character class that spells no character. -/
def IsStuck (l : Eggex) : Prop :=
  ∃ negated tok, l = charClass negated [.charLiteral tok] ∧ ¬ tok.Spells

theorem classTerm?_of_not_spells {tok : Token} (h : ¬ tok.Spells) :
    Literal.classTerm? tok = .ok none := by
  obtain ⟨kind, text, span⟩ := tok
  cases kind <;> first | rfl | exact absurd (by simp [Token.Spells, TokenKind.isChar]) h

namespace IsStuck

variable {l : Eggex}

theorem compile (h : l.IsStuck) (scope : EggexScope) : l.compile scope = .ok l := by
  obtain ⟨negated, tok, rfl, hs⟩ := h
  rw [Eggex.compile, ClassTerm.compileAll, ClassTerm.compile, classTerm?_of_not_spells hs]
  rfl

theorem render (h : l.IsStuck) : l.render = .error (ClassTerm.notCompiled "CharLiteral") := by
  obtain ⟨negated, tok, rfl, -⟩ := h
  rfl

theorem leaves (h : l.IsStuck) : l.leaves = [l] := by
  obtain ⟨negated, tok, rfl, -⟩ := h
  rfl

theorem not_canonical (h : l.IsStuck) : ¬ l.isCanonical = true := by
  obtain ⟨negated, tok, rfl, -⟩ := h
  simp [isCanonical, ClassTerm.isCanonical]

end IsStuck

theorem spelled_or_isStuck {t l : Eggex} (h : l ∈ t.leaves) : l.Spelled ∨ l.IsStuck := by
  rcases isLeaf_or_charClass_of_mem h with hleaf | ⟨negated, term, rfl⟩
  · refine .inl ?_
    cases l <;> first | contradiction | simp [Spelled, classTokens]
  · cases term with
    | charLiteral tok =>
      by_cases hs : tok.Spells
      · refine .inl fun tok' htok => ?_
        obtain rfl := List.mem_singleton.mp htok
        exact hs
      · exact .inr ⟨negated, tok, rfl, hs⟩
    | _ => exact .inl (by simp [Spelled, classTokens, ClassTerm.token?])

theorem exists_isStuck {t : Eggex} (h : ¬ t.Spelled) : ∃ l ∈ t.leaves, l.IsStuck := by
  rw [spelled_iff] at h
  push Not at h
  obtain ⟨l, hl, hs⟩ := h
  exact ⟨l, hl, (spelled_or_isStuck hl).resolve_left hs⟩

/-- Whether each leaf is resolved, or is a token that spells nothing. -/
def IsCompilable (scope : EggexScope) (t : Eggex) : Prop :=
  ∀ l ∈ t.leaves, l.Resolves scope ∨ l.IsStuck

section Agreement

variable {scope : EggexScope}

/-- What compilation makes of a leaf it lets pass. -/
theorem canonical_or_isStuck (hc : scope.Canonical) {t l d : Eggex} (hl : l ∈ t.leaves)
    (h : l.compile scope = .ok d) : d.isCanonical = true ∨ l.IsStuck ∧ d = l := by
  rcases spelled_or_isStuck hl with hs | hstuck
  · exact .inl (isCanonical_of_compile hc l d h hs)
  · rw [hstuck.compile scope] at h
    exact .inr ⟨hstuck, (Except.ok.inj h).symm⟩

/-- **What compiles**: a tree each of whose leaves is resolved or spells nothing. -/
theorem compile_isOk_iff (hc : scope.Canonical) (t : Eggex) :
    (∃ c, t.compile scope = .ok c) ↔ t.IsCompilable scope := by
  constructor
  · rintro ⟨c, h⟩ l hl
    obtain ⟨ds, hds, -⟩ := leaves_of_compile h
    obtain ⟨d, -, hd⟩ := (mem_of_mapM hds).1 l hl
    rcases canonical_or_isStuck hc hl hd with hcanonical | ⟨hstuck, -⟩
    · exact .inl ⟨d, hd, hcanonical⟩
    · exact .inr hstuck
  · intro h
    cases hcompile : t.compile scope with
    | ok c => exact ⟨c, rfl⟩
    | error e =>
      obtain ⟨l, hl, he⟩ := error_of_compile hcompile
      rcases h l hl with ⟨d, hd, -⟩ | hstuck
      · rw [hd] at he
        contradiction
      · rw [hstuck.compile scope] at he
        contradiction

/-- A leaf that spells nothing is still there after compilation. -/
theorem mem_leaves_of_isStuck {t c l : Eggex} (h : t.compile scope = .ok c) (hl : l ∈ t.leaves)
    (hs : l.IsStuck) : l ∈ c.leaves := by
  obtain ⟨ds, hds, hleaves⟩ := leaves_of_compile h
  obtain ⟨d, hd, hcompile⟩ := (mem_of_mapM hds).1 l hl
  rw [hs.compile scope] at hcompile
  obtain rfl := Except.ok.inj hcompile
  rw [← hleaves]
  exact mem_leavesAll.mpr ⟨l, hd, by simp [hs.leaves]⟩

/-- A compiled tree is canonical if all its tokens spell characters, and only then. -/
theorem isCanonical_iff_spelled (hc : scope.Canonical) {t c : Eggex}
    (h : t.compile scope = .ok c) : c.isCanonical = true ↔ t.Spelled := by
  constructor
  · intro hcanonical
    by_contra hs
    obtain ⟨l, hl, hstuck⟩ := exists_isStuck hs
    have hmem : l ∈ c.leaves := mem_leaves_of_isStuck h hl hstuck
    exact hstuck.not_canonical ((isCanonical_iff c).mp hcanonical l hmem)
  · exact isCanonical_of_compile hc t c h

/-- The faults of a compiled tree. -/
theorem fault_of_render (hc : scope.Canonical) {t c : Eggex} (h : t.compile scope = .ok c)
    {f : Fault} (hf : c.render = .error f) :
    f = ClassTerm.notCompiled "CharLiteral" ∨ ∃ feature, f = .unsupported feature := by
  obtain ⟨l, hl, hf⟩ := error_of_render hf
  obtain ⟨ds, hds, hleaves⟩ := leaves_of_compile h
  rw [← hleaves] at hl
  obtain ⟨d, hd, hl⟩ := mem_leavesAll.mp hl
  obtain ⟨l', hl', hcompile⟩ := (mem_of_mapM hds).2 d hd
  rcases canonical_or_isStuck hc hl' hcompile with hcanonical | ⟨hstuck, rfl⟩
  · exact .inr (unsupported_of_render ((isCanonical_iff d).mp hcanonical l hl) hf)
  · rw [hstuck.leaves, List.mem_singleton] at hl
    rw [hl, hstuck.render] at hf
    exact .inl (Except.error.inj hf).symm

/-- A tree with a token that spells nothing has no pattern. -/
theorem error_of_not_spelled {t c : Eggex} (h : t.compile scope = .ok c) (hs : ¬ t.Spelled) :
    ∃ f, c.render = .error f := by
  obtain ⟨l, hl, hstuck⟩ := exists_isStuck hs
  cases hrender : c.render with
  | error f => exact ⟨f, rfl⟩
  | ok s =>
    obtain ⟨s', hs'⟩ := forall_leaves_of_render hrender l (mem_leaves_of_isStuck h hl hstuck)
    rw [hstuck.render] at hs'
    contradiction

end Agreement

end Eggex

end ShellExpr
