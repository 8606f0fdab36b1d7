import ShellExpr.Proofs.Eggex.Leaves
import ShellExpr.Proofs.Syntax.Nodes

/-!
# The places of an expression

All spans written in a tree: those of its nodes, operators, tokens and words, and those in its eggex
literals. What a variable holds is no part of the tree, so the spans of an eggex that is spliced in
are not among them.

* `Eggex.spans`: the places in an eggex literal.
* `Expr.spansHere`: the places of a single node.
* `Expr.spans`: the places in an expression.
-/

namespace ShellExpr

/-! ### Words -/

def WordPart.spans : WordPart → List Span
  | literal tok => [tok.span]
  | simple sub => [sub.name.span]
  | braced sub => [sub.span, sub.name.span]

/-- The places in a string in double quotes. -/
def DoubleQuoted.spans (w : DoubleQuoted) : List Span := w.span :: w.parts.flatMap WordPart.spans

/-- The places in a string in single quotes. -/
def SingleQuoted.spans (w : SingleQuoted) : List Span := w.span :: w.tokens.map Token.span

def CompoundWord.spans (w : CompoundWord) : List Span := w.parts.flatMap WordPart.spans

def BracedVarSub.spans (sub : BracedVarSub) : List Span := [sub.span, sub.name.span]

def StringWord.spans : StringWord → List Span
  | single w => w.spans
  | double w => w.spans
  | braced sub => sub.spans
  | simple sub => [sub.name.span]

theorem StringWord.span_mem_spans (w : StringWord) : w.span ∈ w.spans := by
  cases w <;> exact List.mem_cons_self

theorem SingleQuoted.mem_spans {w : SingleQuoted} {tok : Token} (h : tok ∈ w.tokens) :
    tok.span ∈ w.spans := List.mem_cons_of_mem _ (List.mem_map_of_mem h)

/-! ### Eggexes -/

def ClassTerm.spans : ClassTerm → List Span
  | word w => w.spans
  | charLiteral tok => [tok.span]
  | bytes _ span | codePoint _ span => [span]
  | range .. | posix .. | perl .. => []

namespace Eggex

mutual

/-- The places in an eggex. -/
def spans : Eggex → List Span
  | speck _ span | primitive _ span | literal _ span => [span]
  | token tok => [tok.span]
  | word w => w.spans
  | splice name => [name.span]
  | seq items => spansAll items
  | alt items => spansAll items
  | rep child _ => child.spans
  | group child => child.spans
  | capture child name => child.spans ++ name.toList.map Token.span
  | charClass _ terms => terms.flatMap ClassTerm.spans
  | posix .. | perl .. => []

/-- The same for several eggexes. -/
def spansAll : List Eggex → List Span
  | [] => []
  | e :: rest => e.spans ++ spansAll rest

end

theorem mem_spansAll {t : Eggex} {ts : List Eggex} (ht : t ∈ ts) {s : Span} (hs : s ∈ t.spans) :
    s ∈ spansAll ts := by
  induction ts with
  | nil => contradiction
  | cons u rest ih =>
    rw [spansAll, List.mem_append]
    rcases List.mem_cons.mp ht with rfl | ht
    · exact .inl hs
    · exact .inr (ih ht)

/-- The places in a leaf are places in the tree. -/
theorem mem_spans_of_leaf {t l : Eggex} (hl : l ∈ t.leaves) {s : Span} (hs : s ∈ l.spans) :
    s ∈ t.spans := by
  induction t using leafInduction with
  | leaf t ht =>
    rw [leaves_of_isLeaf ht, List.mem_singleton] at hl
    exact hl ▸ hs
  | charClass negated terms =>
    obtain ⟨term, hterm, rfl⟩ := mem_leaves_charClass.mp hl
    rw [spans, List.flatMap_singleton] at hs
    exact List.mem_flatMap.mpr ⟨term, hterm, hs⟩
  | seq items ih | alt items ih =>
    obtain ⟨t, ht, hl⟩ := mem_leavesAll.mp hl
    exact mem_spansAll ht (ih t ht hl)
  | rep child count ih => exact ih hl
  | group child ih => exact ih hl
  | capture child name ih => exact List.mem_append_left _ (ih hl)

end Eggex

/-! ### Expressions -/

namespace Expr

/-- The places that a node has apart from those of its operands. -/
def spansHere (e : Expr) : List Span :=
  e.span :: match e with
    | const tok _ | var tok _ => [tok.span]
    | commandSub sub _ => [sub.span]
    | array words _ => words.flatMap CompoundWord.spans
    | word w _ => w.spans
    | unary _ opSpan _ _ | binary _ opSpan _ _ _ => [opSpan]
    | compare _ links _ => links.map fun link => link.1.2
    | call _ _ named _ => (named.filterMap Prod.fst).map Token.span
    | member _ _ opSpan attr _ => [opSpan, attr.span]
    | eggex tree flags _ => tree.spans ++ flags.map Token.span
    | range .. | slice .. | ifExp .. | list .. | tuple .. | dict .. | implicit _ | reserved ..
    | subscript .. | spread .. => []

/-- The places in an expression. -/
def spans (e : Expr) : List Span := e.nodes.flatMap spansHere

theorem mem_spans_of_node {e n : Expr} (hn : n ∈ e.nodes) {s : Span} (hs : s ∈ n.spansHere) :
    s ∈ e.spans := List.mem_flatMap.mpr ⟨n, hn, hs⟩

/-! ### Nodes of nodes -/

section Nodes

variable {n k : Expr}

mutual

/-- The nodes of a node are nodes of the expression. -/
theorem mem_nodes_trans (hk : k ∈ n.nodes) (e : Expr) (h : n ∈ e.nodes) : k ∈ e.nodes := by
  rw [nodes.eq_def] at h ⊢
  rcases List.mem_cons.mp h with rfl | h
  · rw [nodes.eq_def] at hk
    exact hk
  refine List.mem_cons_of_mem _ ?_
  cases e with
  | unary _ _ child _ | member child _ _ _ _ | spread child _ => exact mem_nodes_trans hk child h
  | binary _ _ left right _ | range left right _ =>
    exact List.mem_append.mpr
      ((List.mem_append.mp h).imp (mem_nodes_trans hk left) (mem_nodes_trans hk right))
  | slice lower upper _ =>
    exact List.mem_append.mpr ((List.mem_append.mp h).imp (mem_nodesOption_trans hk lower)
      (mem_nodesOption_trans hk upper))
  | compare left links _ =>
    exact List.mem_append.mpr
      ((List.mem_append.mp h).imp (mem_nodes_trans hk left) (mem_nodesLinks_trans hk links))
  | ifExp test body orElse _ =>
    refine List.mem_append.mpr ((List.mem_append.mp h).imp (mem_nodes_trans hk test) fun h => ?_)
    exact List.mem_append.mpr
      ((List.mem_append.mp h).imp (mem_nodes_trans hk body) (mem_nodes_trans hk orElse))
  | list items _ | tuple items _ | reserved _ items _ => exact mem_nodesAll_trans hk items h
  | dict keys values _ =>
    exact List.mem_append.mpr
      ((List.mem_append.mp h).imp (mem_nodesAll_trans hk keys) (mem_nodesAll_trans hk values))
  | call func positional named _ =>
    refine List.mem_append.mpr ((List.mem_append.mp h).imp (mem_nodes_trans hk func) fun h => ?_)
    exact List.mem_append.mpr ((List.mem_append.mp h).imp (mem_nodesAll_trans hk positional)
      (mem_nodesNamed_trans hk named))
  | subscript obj indices _ =>
    exact List.mem_append.mpr
      ((List.mem_append.mp h).imp (mem_nodes_trans hk obj) (mem_nodesAll_trans hk indices))
  | _ => contradiction
termination_by structural e

theorem mem_nodesAll_trans (hk : k ∈ n.nodes) (es : List Expr) (h : n ∈ nodesAll es) :
    k ∈ nodesAll es := by
  cases es with
  | nil => contradiction
  | cons e rest =>
    exact List.mem_append.mpr
      ((List.mem_append.mp h).imp (mem_nodes_trans hk e) (mem_nodesAll_trans hk rest))
termination_by structural es

theorem mem_nodesOption_trans (hk : k ∈ n.nodes) (e : Option Expr) (h : n ∈ nodesOption e) :
    k ∈ nodesOption e := by
  cases e with
  | none => contradiction
  | some e => exact mem_nodes_trans hk e h
termination_by structural e

theorem mem_nodesLinks_trans (hk : k ∈ n.nodes) (links : List ((CompareOp × Span) × Expr))
    (h : n ∈ nodesLinks links) : k ∈ nodesLinks links := by
  match links, h with
  | (_, e) :: rest, h =>
    exact List.mem_append.mpr
      ((List.mem_append.mp h).imp (mem_nodes_trans hk e) (mem_nodesLinks_trans hk rest))
termination_by structural links

theorem mem_nodesNamed_trans (hk : k ∈ n.nodes) (args : List (Option Token × Expr))
    (h : n ∈ nodesNamed args) : k ∈ nodesNamed args := by
  match args, h with
  | (_, e) :: rest, h =>
    exact List.mem_append.mpr
      ((List.mem_append.mp h).imp (mem_nodes_trans hk e) (mem_nodesNamed_trans hk rest))
termination_by structural args

end

end Nodes

end Expr

end ShellExpr
