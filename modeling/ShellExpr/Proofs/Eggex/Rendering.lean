import ShellExpr.Proofs.Eggex.Leaves

/-!
# What has a pattern

Rendering never asks whether a tree is canonical, and yet it decides it: each leaf of syntax stops
it. Beside these it stops only at a class that brackets cannot say.

* `Eggex.nodes`: the nodes of a tree.
* `Eggex.isUnsupported`: a node without a pattern of which nothing is to be evaluated.
* `Eggex.render_isOk_iff`: **a tree has a pattern just if it is canonical and has no such node.**
* `Eggex.canonical_render`: the same, seen from rendering and from canonical trees.
-/

namespace ShellExpr

/-- The shorthand classes there are. -/
def shorthands : List String := ["d", "w", "s"]

/-! ### Terms -/

namespace ClassTerm

/-- Whether nothing of the term is to be evaluated, and still it cannot be said inside brackets: a
negated class, a shorthand that is none, or a code point that is no character. -/
def isUnsupported : ClassTerm → Bool
  | posix negated _ => negated
  | perl negated name => negated || !shorthands.contains name
  | codePoint code _ => !decide code.isValidChar
  | _ => false

theorem renderPerl_isOk_iff (name : String) :
    (∃ s, renderPerl name = .ok s) ↔ shorthands.contains name = true := by
  rw [shorthands, List.contains_iff_mem]
  unfold renderPerl
  split_ifs with hd hw hs <;> simp_all

theorem scalar?_isSome_iff (code : Nat) :
    (∃ c, Bytes.scalar? code = some c) ↔ code.isValidChar := by
  unfold Bytes.scalar?
  split_ifs with h <;> simp [h]

/-- A term can be said inside brackets just if it is canonical and supported. -/
theorem render_isOk_iff (t : ClassTerm) :
    (∃ s, t.render = .ok s) ↔ t.isCanonical = true ∧ t.isUnsupported = false := by
  cases t with
  | word w | charLiteral tok => simp [render, isCanonical]
  | range first last | bytes bs span => simp [render, isCanonical, isUnsupported]
  | posix negated name => cases negated <;> simp [render, isCanonical, isUnsupported]
  | perl negated name =>
    cases negated with
    | true => simp [render, isCanonical, isUnsupported]
    | false =>
      have h := renderPerl_isOk_iff name
      simp only [render, isCanonical, isUnsupported, Bool.false_eq_true, if_false, Bool.false_or,
        Bool.not_eq_false', true_and]
      exact h
  | codePoint code span =>
    have h := scalar?_isSome_iff code
    cases hc : Bytes.scalar? code <;> simp_all [render, isCanonical, isUnsupported]

end ClassTerm

/-! ### Trees -/

namespace Eggex

mutual

/-- The nodes of a tree, itself first. -/
def nodes (t : Eggex) : List Eggex :=
  t :: match t with
    | seq items => nodesAll items
    | alt items => nodesAll items
    | rep child _ => child.nodes
    | group child => child.nodes
    | capture child _ => child.nodes
    | speck .. | token _ | word _ | splice _ | posix .. | perl .. => []
    | charClass .. | primitive .. | literal .. => []
termination_by structural t

/-- The same for several trees. -/
def nodesAll : List Eggex → List Eggex
  | [] => []
  | t :: rest => t.nodes ++ nodesAll rest
termination_by structural ts => ts

end

/-- Whether nothing of the node is to be evaluated, and still it has no pattern. -/
def isUnsupported : Eggex → Bool
  | perl _ name => !shorthands.contains name
  | charClass _ terms => terms.any ClassTerm.isUnsupported
  | _ => false

theorem nodesAll_eq (ts : List Eggex) : nodesAll ts = ts.flatMap nodes := by
  induction ts with
  | nil => rfl
  | cons t rest ih => rw [nodesAll, ih, List.flatMap_cons]

/-- What is unsupported in a tree is so in one of its leaves. -/
theorem exists_unsupported_iff (t : Eggex) :
    (∃ n ∈ t.nodes, n.isUnsupported = true) ↔ ∃ l ∈ t.leaves, l.isUnsupported = true := by
  induction t using leafInduction with
  | leaf t h =>
    have hn : t.nodes = [t] := by cases t <;> first | rfl | contradiction
    rw [hn, leaves_of_isLeaf h]
  | charClass negated terms => simp [nodes, leaves, isUnsupported]
  | seq items ih | alt items ih =>
    have hitems : (∃ n ∈ nodesAll items, n.isUnsupported = true) ↔
        ∃ l ∈ leavesAll items, l.isUnsupported = true := by
      rw [nodesAll_eq, leavesAll_eq]
      simp only [List.mem_flatMap]
      constructor
      · rintro ⟨n, ⟨t, ht, hn⟩, hu⟩
        obtain ⟨l, hl, hu⟩ := (ih t ht).mp ⟨n, hn, hu⟩
        exact ⟨l, ⟨t, ht, hl⟩, hu⟩
      · rintro ⟨l, ⟨t, ht, hl⟩, hu⟩
        obtain ⟨n, hn, hu⟩ := (ih t ht).mpr ⟨l, hl, hu⟩
        exact ⟨n, ⟨t, ht, hn⟩, hu⟩
    simpa [nodes, leaves, isUnsupported] using hitems
  | rep child count ih => simpa [nodes, leaves, isUnsupported] using ih
  | group child ih => simpa [nodes, leaves, isUnsupported] using ih
  | capture child name ih => simpa [nodes, leaves, isUnsupported] using ih

/-- A tree has a pattern just if each of its leaves has one. -/
theorem render_isOk_iff_leaves (t : Eggex) :
    (∃ s, t.render = .ok s) ↔ ∀ l ∈ t.leaves, ∃ s, l.render = .ok s := by
  constructor
  · rintro ⟨s, hs⟩
    exact forall_leaves_of_render hs
  · intro h
    cases hr : t.render with
    | ok s => exact ⟨s, rfl⟩
    | error f =>
      obtain ⟨l, hl, hf⟩ := error_of_render hr
      obtain ⟨s, hs⟩ := h l hl
      rw [hf] at hs
      contradiction

theorem render_isOk_iff_of_leaf {t l : Eggex} (h : l ∈ t.leaves) :
    (∃ s, l.render = .ok s) ↔ l.isCanonical = true ∧ l.isUnsupported = false := by
  rcases isLeaf_or_charClass_of_mem h with hleaf | ⟨negated, term, rfl⟩
  · cases l with
    | perl negated name =>
      have hname := ClassTerm.renderPerl_isOk_iff name
      cases hr : ClassTerm.renderPerl name <;>
        simp_all [render, isCanonical, isUnsupported, Except.map]
    | posix negated name | primitive id span | literal text span =>
      simp [render, isCanonical, isUnsupported]
    | speck id span | token tok | word w | splice name => simp [render, isCanonical]
    | _ => contradiction
  · have hterm := term.render_isOk_iff
    simp only [render, ClassTerm.renderAll, isCanonical, isUnsupported, List.all_cons,
      List.all_nil, List.any_cons, List.any_nil, Bool.and_true, Bool.or_false]
    rw [← hterm]
    cases term.render with
    | error f => simp [bind, Except.bind, Except.map]
    | ok s => simp [bind, Except.bind, Except.map, pure, Except.pure]

/-- **What has a pattern**: the canonical trees in which everything is supported. -/
theorem render_isOk_iff (t : Eggex) : (∃ s, t.render = .ok s) ↔
    t.isCanonical = true ∧ ¬ ∃ n ∈ t.nodes, n.isUnsupported = true := by
  rw [render_isOk_iff_leaves, isCanonical_iff, exists_unsupported_iff]
  push Not
  rw [← forall₂_and]
  exact forall₂_congr fun l hl => by
    rw [render_isOk_iff_of_leaf hl, ne_eq, Bool.not_eq_true]

/-- **Rendering decides canonical form.** What has a pattern is canonical. A canonical tree has one,
or its fault is a missing feature; and it has none just if some node is unsupported: a shorthand
that is none, or a class that holds such a shorthand, a negated class or a code point that is no
character. -/
theorem canonical_render (t : Eggex) :
    (∀ s, t.render = .ok s → t.isCanonical = true) ∧
    (t.isCanonical = true →
      ((∃ s, t.render = .ok s) ∨ ∃ feature, t.render = .error (.unsupported feature)) ∧
      ((∃ f, t.render = .error f) ↔ ∃ n ∈ t.nodes, n.isUnsupported = true)) := by
  have hok := render_isOk_iff t
  refine ⟨fun s hs => (hok.mp ⟨s, hs⟩).1, fun hc => ?_⟩
  cases hr : t.render with
  | ok s =>
    have hsupported := (hok.mp ⟨s, hr⟩).2
    exact ⟨.inl ⟨s, rfl⟩, fun ⟨f, hf⟩ => by contradiction, fun h => absurd h hsupported⟩
  | error f =>
    obtain ⟨feature, rfl⟩ := unsupported_of_render hc hr
    refine ⟨.inr ⟨feature, rfl⟩, fun _ => ?_, fun _ => ⟨_, rfl⟩⟩
    by_contra hsupported
    obtain ⟨s, hs⟩ := hok.mpr ⟨hc, hsupported⟩
    rw [hr] at hs
    contradiction

/-- A repeated digit and then a class that holds a surrogate. -/
def surrogateRow : Eggex :=
  .seq [.rep (.perl false "d") .plus, .charClass true [.range 'a' 'z', .codePoint 0xD800 .dummy]]

theorem canonical_render_surrogate : surrogateRow.isCanonical = true ∧
    ∃ feature, surrogateRow.render = .error (.unsupported feature) := by
  have hc : surrogateRow.isCanonical = true := by decide
  obtain ⟨hcases, hiff⟩ := (canonical_render surrogateRow).2 hc
  have hu : ∃ n ∈ surrogateRow.nodes, n.isUnsupported = true := by
    refine ⟨.charClass true [.range 'a' 'z', .codePoint 0xD800 .dummy], ?_, by decide⟩
    simp [surrogateRow, nodes, nodesAll]
  obtain ⟨f, hf⟩ := hiff.mpr hu
  refine ⟨hc, hcases.resolve_left ?_⟩
  rintro ⟨s, hs⟩
  rw [hf] at hs
  contradiction

end Eggex

end ShellExpr
