import Mathlib.Data.List.Forall2
import ShellExpr.Proofs.Operation.Renaming
import ShellExpr.Proofs.Syntax.Nodes

/-!
# Two runs of one expression

An expression is evaluated twice, in worlds that differ in what it does not look at: variables it
does not name, and the numbers of allocations. Whatever relates the two runs of each single step
relates the two runs of the whole. With each relation goes the list of the commands that may run on
the way, all of which do if no operand is skipped.

* `Eval.Gives`: the results that a computation may have.
* `Corresponds`: a relation between two runs that the single steps satisfy.
* `Corresponds.eval`: evaluation satisfies it, with the commands of the expression in order.
-/

namespace ShellExpr

open Assoc

/-! ### Possible results -/

namespace Eval

variable {α β : Type}

/-- Whether a computation has a result in some world. -/
def Gives (x : Eval α) (a : α) : Prop := ∃ w, (x.outcome w).1 = .ok a

theorem eq_of_gives_pure {a b : α} (h : (pure a : Eval α).Gives b) : a = b := by
  obtain ⟨w, hw⟩ := h
  exact Except.ok.inj hw

theorem Gives.of_bind {x : Eval α} {f : α → Eval β} {b : β} (h : (x >>= f).Gives b) :
    ∃ a, x.Gives a ∧ (f a).Gives b := by
  obtain ⟨w, hw⟩ := h
  rw [outcome_bind] at hw
  rcases hx : x.outcome w with ⟨r, w'⟩
  rw [hx] at hw
  cases r with
  | error e => contradiction
  | ok a => exact ⟨a, ⟨w, by rw [hx]⟩, w', hw⟩

theorem Gives.of_nested {limit : Option Nat} {span : Span} {x : Eval α} {a : α}
    (h : (nested limit span x).Gives a) : x.Gives a := by
  obtain ⟨w, hw⟩ := h
  cases limit with
  | none => exact ⟨_, hw⟩
  | some n =>
    unfold nested at hw
    simp only [outcome_mk] at hw
    split at hw
    · contradiction
    · exact ⟨_, hw⟩

theorem Gives.isProper {h : Handle} (hh : fresh.Gives h) : h.IsProper := by
  obtain ⟨w, hw⟩ := hh
  obtain rfl := Except.ok.inj hw
  exact List.cons_ne_nil _ _

end Eval

namespace Expr

open Eval

variable {host : Host}

/-- A constant that is a name gives its text. -/
theorem str?_of_gives {e : Expr} {name : String} {v : Value} (hc : e.constName? = some name)
    (hv : (e.eval host : Eval Value).Gives v) : v.str? = some name := by
  cases e with
  | const tok span =>
    have hk : tok.kind = .name ∧ tok.text = name := by
      simpa [constName?] using hc
    simp only [Expr.eval] at hv
    obtain ⟨h, -, hv⟩ := hv.of_nested.of_bind
    have hl : Literal.constant h tok = .ok (.str h name) := by
      simp only [Literal.constant, hk]
    change Gives (of (Literal.constant h tok)) v at hv
    rw [hl] at hv
    obtain rfl := eq_of_gives_pure hv
    rfl
  | _ => contradiction

theorem forall₂_of_gives {es : List Expr} {vs : List Value}
    (h : (Expr.evalAll host es : Eval (List Value)).Gives vs) :
    List.Forall₂ (fun e v => (e.eval host : Eval Value).Gives v) es vs := by
  induction es generalizing vs with
  | nil =>
    simp only [Expr.evalAll] at h
    obtain rfl := eq_of_gives_pure h
    exact .nil
  | cons e rest ih =>
    simp only [Expr.evalAll] at h
    obtain ⟨v, hv, h⟩ := h.of_bind
    obtain ⟨vs', hvs, h⟩ := h.of_bind
    obtain rfl := eq_of_gives_pure h
    exact .cons hv (ih hvs)

/-! ### What a node reads -/

variable {N : String → Prop}

/-- Whether the variable that a key stands for is visible. A key that is no name may stand for any
variable. -/
def StandsIn (N : String → Prop) (key : Expr) : Prop :=
  match key.constName? with
  | some name => N name
  | none => ∀ name, N name

/-- Whether a node reads none but visible variables. -/
def ReadsIn (N : String → Prop) : Expr → Prop
  | var tok _ => N tok.text
  | eggex tree _ _ => ∀ name ∈ tree.splices, N name
  | e => ∀ key ∈ e.implicitKeys, key.StandsIn N

/-- Whether a node reads none but visible variables and, if the whole expression is to be gone
through, skips no operand. -/
structure IsAdmitted (N : String → Prop) (whole : Prop) (e : Expr) : Prop where
  reads : e.ReadsIn N
  through : whole → e.goesThrough = true

theorem readsIn_true (e : Expr) : e.ReadsIn fun _ => True := by
  have hstands : ∀ key : Expr, key.StandsIn fun _ => True := by
    intro key
    unfold StandsIn
    split <;> simp
  cases e with
  | var tok span => trivial
  | eggex tree flags span => exact fun _ _ => trivial
  | _ => exact fun key _ => hstands key

/-- The variable of a value that a dict leaves out is visible. -/
def Shows (N : String → Prop) (key : Value × Span) (e : Expr) : Prop :=
  e.isImplicit = true → ∀ name, key.1.str? = some name → N name

theorem StandsIn.visible {key : Expr} {v : Value} {name : String} (hk : key.StandsIn N)
    (hv : (key.eval host : Eval Value).Gives v) (hn : v.str? = some name) : N name := by
  unfold StandsIn at hk
  split at hk
  · rename_i name' hc
    rw [str?_of_gives hc hv] at hn
    exact Option.some.inj hn ▸ hk
  · exact hk name

/-- What the keys of a dict say of its variables holds of their values. -/
theorem shows_of_gives {keys values : List Expr} {vs : List Value}
    (hvs : List.Forall₂ (fun e v => (e.eval host : Eval Value).Gives v) keys vs)
    (hk : ∀ p ∈ keys.zip values, p.2.isImplicit = true → p.1.StandsIn N) :
    ∀ p ∈ (vs.zip (keys.map Expr.span)).zip values, Shows N p.1 p.2 := by
  induction hvs generalizing values with
  | nil => simp
  | cons hv _ ih =>
    cases values with
    | nil => simp
    | cons e rest =>
      rw [List.zip_cons_cons, List.forall_mem_cons] at hk
      rw [List.map_cons, List.zip_cons_cons, List.zip_cons_cons, List.forall_mem_cons]
      exact ⟨fun he name hn => (hk.1 he).visible hv hn, ih hk.2⟩

theorem standsIn_of_reads {keys values : List Expr} {span : Span}
    (h : (dict keys values span).ReadsIn N) :
    ∀ p ∈ keys.zip values, p.2.isImplicit = true → p.1.StandsIn N := by
  intro p hp hi
  refine h p.1 (List.mem_map.mpr ⟨p, ?_, rfl⟩)
  exact List.mem_filter.mpr ⟨hp, hi⟩

end Expr

/-! ### Steps -/

/-- A relation between two runs that the single steps of an evaluation satisfy. The second run has
the results of the first under a function; the list is of the commands that may run, and `whole`
says that they all do. Of the variables only those of `N` may be read, and `ρ` gives the
allocations of the second run for those of the first. -/
structure Corresponds (host : Host) (ρ : Nat → Nat) (N : String → Prop) (whole : Prop)
    (R : {α β : Type} → List CommandSub → (α → β) → Eval α → Eval β → Prop) : Prop where
  injective : Function.Injective ρ
  commutes : host.Commutes ρ
  pure {α β : Type} (g : α → β) (a : α) : R [] g (pure a) (pure (g a))
  fail {α β : Type} (order : List CommandSub) (g : α → β) (e : EvalError) :
    R order g (Eval.fail e) (Eval.fail e)
  bind {α α' β β' : Type} {order order' : List CommandSub} {g : α → α'} {k : β → β'} {x : Eval α}
    {y : Eval α'} {f : α → Eval β} {f' : α' → Eval β'} : R order g x y →
      (∀ a, x.Gives a → R order' k (f a) (f' (g a))) → R (order ++ order') k (x >>= f) (y >>= f')
  /-- Commands may be skipped. -/
  skip {α β : Type} {order order' : List CommandSub} {g : α → β} {x : Eval α} {y : Eval β} :
    ¬ whole → order.Sublist order' → R order g x y → R order' g x y
  fresh : R [] (Handle.rename ρ) Eval.fresh Eval.fresh
  lookup (name : String) (span : Span) : N name →
    R [] (Value.rename ρ) (Eval.lookup name span) (Eval.lookup name span)
  compile (tree : Eggex) : (∀ name ∈ tree.splices, N name) →
    R [] id (Eval.compileEggex host tree) (Eval.compileEggex host tree)
  setGroups (groups : List String) : R [] id (Eval.setGroups groups) (Eval.setGroups groups)
  command (sub : CommandSub) : sub.kind ≠ .block →
    R [sub] id (Eval.command host sub) (Eval.command host sub)
  nested {α β : Type} {order : List CommandSub} {g : α → β} {x : Eval α} {y : Eval β}
    (span : Span) : R order g x y →
      R order g (Eval.nested host.limit span x) (Eval.nested host.limit span y)

namespace Corresponds

open Eval

variable {host : Host} {ρ : Nat → Nat} {N : String → Prop} {whole : Prop}
  {R : {α β : Type} → List CommandSub → (α → β) → Eval α → Eval β → Prop}

section Steps

variable {α α' β β' : Type} {order : List CommandSub}

/-- A first step that runs nothing. -/
theorem bind_first (hR : Corresponds host ρ N whole R) {g : α → α'} {k : β → β'} {x : Eval α}
    {y : Eval α'} {f : α → Eval β} {f' : α' → Eval β'} (hx : R [] g x y)
    (hf : ∀ a, x.Gives a → R order k (f a) (f' (g a))) : R order k (x >>= f) (y >>= f') :=
  hR.bind hx hf

/-- A last step that runs nothing. -/
theorem bind_last (hR : Corresponds host ρ N whole R) {g : α → α'} {k : β → β'} {x : Eval α}
    {y : Eval α'} {f : α → Eval β} {f' : α' → Eval β'} (hx : R order g x y)
    (hf : ∀ a, x.Gives a → R [] k (f a) (f' (g a))) : R order k (x >>= f) (y >>= f') := by
  have h := hR.bind hx hf
  rwa [List.append_nil] at h

/-- A result before all commands have run. -/
theorem early (hR : Corresponds host ρ N whole R) (hw : ¬ whole) (g : α → β) (a : α) :
    R order g (Pure.pure a) (Pure.pure (g a)) :=
  hR.skip hw (List.nil_sublist order) (hR.pure g a)

theorem of (hR : Corresponds host ρ N whole R) (g : α → β) {r : Except EvalError α}
    {r' : Except EvalError β} (h : r' = r.map g) : R [] g (Eval.of r) (Eval.of r') := by
  subst h
  cases r with
  | error e => exact hR.fail [] g e
  | ok a => exact hR.pure g a

/-- A result that is the same in both runs. -/
theorem of_same (hR : Corresponds host ρ N whole R) (r : Except EvalError α) :
    R [] id (Eval.of r) (Eval.of r) := hR.of id (by cases r <;> rfl)

theorem ofFault (hR : Corresponds host ρ N whole R) (g : α → β) (span : Span)
    {r : Except Fault α} {r' : Except Fault β} (h : r' = r.map g) :
    R [] g (Eval.ofFault span r) (Eval.ofFault span r') := by
  subst h
  cases r with
  | error f => exact hR.fail [] g _
  | ok a => exact hR.pure g a

/-- A new value at a new allocation. -/
theorem alloc (hR : Corresponds host ρ N whole R) {f f' : Handle → Value}
    (hf : ∀ h, f' (h.rename ρ) = (f h).rename ρ) :
    R [] (Value.rename ρ) (do return f (← Eval.fresh)) (do return f' (← Eval.fresh)) := by
  refine hR.bind_last hR.fresh fun h _ => ?_
  rw [hf]
  exact hR.pure _ _

theorem patternOf (hR : Corresponds host ρ N whole R) (opSpan : Span) (right : Value) :
    R [] id (Eval.patternOf opSpan right) (Eval.patternOf opSpan right) := by
  unfold Eval.patternOf
  split
  · exact hR.pure id _
  · split
    · exact hR.pure id _
    · exact hR.fail [] id _
  · exact hR.fail [] id _

theorem regexMatch (hR : Corresponds host ρ N whole R) (keepGroups : Bool) (opSpan : Span)
    (left right : Value) : R [] id (Eval.regexMatch keepGroups opSpan left right)
      (Eval.regexMatch keepGroups opSpan left right) := by
  unfold Eval.regexMatch
  refine hR.bind_last (hR.patternOf opSpan right) fun pattern _ => ?_
  cases left with
  | str h text =>
    simp only [id]
    split
    · exact hR.fail [] id _
    · split
      · exact hR.bind_last (hR.setGroups []) fun _ _ => hR.pure id false
      · exact hR.pure id false
    · split
      · exact hR.bind_last (hR.setGroups _) fun _ _ => hR.pure id true
      · exact hR.pure id true
  | _ => exact hR.fail [] id _

theorem globMatch (hR : Corresponds host ρ N whole R) (op : CompareOp) (opSpan : Span)
    (left right : Value) :
    R [] id (Eval.globMatch op opSpan left right) (Eval.globMatch op opSpan left right) := by
  unfold Eval.globMatch
  split
  · exact hR.pure id _
  · exact hR.fail [] id _

theorem link (hR : Corresponds host ρ N whole R) (op : CompareOp) (opSpan : Span)
    (left right : Value) : R [] id (Eval.link op opSpan left right)
      (Eval.link op opSpan (left.rename ρ) (right.rename ρ)) := by
  rw [link_rename hR.injective]
  have hfault : ∀ r : Except Fault Bool, R [] id (Eval.ofFault opSpan r) (Eval.ofFault opSpan r) :=
    fun r => hR.ofFault id opSpan (by cases r <;> rfl)
  unfold Eval.link
  split
  · exact hR.bind_last (hR.globMatch _ _ _ _) fun b _ => hR.pure id _
  · exact hR.bind_last (hR.globMatch _ _ _ _) fun b _ => hR.pure id _
  · exact hR.bind_last (hfault _) fun b _ => hR.pure id _
  · exact hR.bind_last (hR.regexMatch _ _ _ _) fun b _ => hR.pure id _
  · exact hR.bind_last (hR.regexMatch _ _ _ _) fun b _ => hR.pure id _
  · exact hR.bind_last (hfault _) fun b _ => hR.pure id _

theorem commandSub (hR : Corresponds host ρ N whole R) (sub : CommandSub) (span : Span) :
    R (Expr.commandsOf [.commandSub sub span]) (Value.rename ρ) (Eval.commandSub host sub)
      (Eval.commandSub host sub) := by
  -- a block is no command that runs; what else is written is one
  have hruns : sub.kind ≠ .block → Expr.commandsOf [.commandSub sub span] = [sub] := by
    intro hk
    simp [Expr.commandsOf, Expr.command?, hk]
  have hblock : sub.kind = .block → Expr.commandsOf [.commandSub sub span] = [] := by
    intro hk
    simp [Expr.commandsOf, Expr.command?, hk]
  unfold Eval.commandSub
  split
  · rename_i hk
    rw [hruns (by simp [hk])]
    refine hR.bind_last (hR.command sub (by simp [hk])) fun out _ => ?_
    exact hR.alloc fun h => rfl
  · rename_i hk
    rw [hruns (by simp [hk])]
    refine hR.bind_last (hR.command sub (by simp [hk])) fun out _ => ?_
    exact hR.alloc fun h => rfl
  · rename_i hk
    rw [hblock hk]
    exact hR.pure (Value.rename ρ) .null

theorem rangeOf (hR : Corresponds host ρ N whole R) (l u : Value) (span : Span) :
    R [] (Value.rename ρ) (Eval.rangeOf l u span)
      (Eval.rangeOf (l.rename ρ) (u.rename ρ) span) := by
  rw [rangeOf_rename]
  unfold Eval.rangeOf
  split
  · exact hR.pure (Value.rename ρ) _
  · exact hR.fail [] _ _

theorem sliceBound (hR : Corresponds host ρ N whole R) (span : Span) (v : Value) :
    R [] id (Eval.sliceBound span v) (Eval.sliceBound span (v.rename ρ)) := by
  rw [sliceBound_rename]
  unfold Eval.sliceBound
  split
  · exact hR.pure id _
  · exact hR.pure id _
  · exact hR.fail [] id _

theorem keyOf (hR : Corresponds host ρ N whole R) (key : Value) (span : Span) :
    R [] id (Eval.keyOf key span) (Eval.keyOf (key.rename ρ) span) := by
  rw [keyOf_rename]
  unfold Eval.keyOf
  split
  · exact hR.pure id _
  · exact hR.fail [] id _

theorem implicitValue (hR : Corresponds host ρ N whole R) (key : Value) (span : Span)
    (hk : ∀ name, key.str? = some name → N name) : R [] (Value.rename ρ)
      (Eval.implicitValue key span) (Eval.implicitValue (key.rename ρ) span) := by
  rw [implicitValue_rename]
  cases key with
  | str h name => exact hR.lookup name span (hk name rfl)
  | _ => exact hR.fail [] _ _

theorem joinIndices (hR : Corresponds host ρ N whole R) (vs : List Value) :
    R [] (Value.rename ρ) (Eval.joinIndices vs) (Eval.joinIndices (vs.map (Value.rename ρ))) := by
  have hmany : R [] (Value.rename ρ) (do return .tuple (← Eval.fresh) vs)
      (do return .tuple (← Eval.fresh) (vs.map (Value.rename ρ))) :=
    hR.alloc fun h => by rw [Value.rename, Value.renameAll_eq]
  match vs, hmany with
  | [], hmany => exact hmany
  | [v], _ => exact hR.pure (Value.rename ρ) v
  | v :: u :: rest, hmany => exact hmany

theorem memberOf (hR : Corresponds host ρ N whole R) (op : AttrOp) (opSpan : Span) (attr : Token)
    (obj : Value) : R [] (Value.rename ρ) (Eval.memberOf op opSpan attr obj)
      (Eval.memberOf op opSpan attr (obj.rename ρ)) := by
  cases op with
  | dot => exact hR.ofFault _ _ (member_rename obj attr.text)
  | arrow =>
    refine hR.bind_last hR.fresh fun h hh => hR.ofFault _ _ ?_
    rw [← subscript_rename, Value.rename, Handle.rename_child hh.isProper]
  | doubleColon => exact hR.fail [] _ _

end Steps

/-! ### Whole expressions -/

open ShellExpr.Expr (IsAdmitted Shows commandsOf nodesAll nodesOption nodesLinks nodesNamed)

mutual

/-- **The two runs of an expression correspond as those of its steps do.** The commands that may
run are those of the expression, in the order of evaluation. -/
theorem eval (hR : Corresponds host ρ N whole R) : (e : Expr) →
    (∀ n ∈ e.nodes, n.IsAdmitted N whole) →
    R (commandsOf e.nodes) (Value.rename ρ) (e.eval host : Eval Value) (e.eval host : Eval Value)
  | .const tok span, _ => by
    simp only [Expr.eval]
    refine hR.nested _ (hR.bind_last hR.fresh fun h _ => ?_)
    exact hR.of _ (constant_rename h tok)
  | .var tok span, hn => by
    simp only [Expr.eval]
    exact hR.nested _ (hR.lookup _ _ (hn _ List.mem_cons_self).reads)
  | .commandSub sub span, _ => by
    simp only [Expr.eval]
    exact hR.nested _ (hR.commandSub sub span)
  | .array words span, _ => by
    simp only [Expr.eval]
    have hfields := hR.of_same (host.words.sequence words)
    refine hR.nested _ (hR.bind_last hfields fun fields _ => ?_)
    exact hR.alloc fun h => rfl
  | .word w span, _ => by
    simp only [Expr.eval]
    have htext := hR.of_same (host.words.string w)
    refine hR.nested _ (hR.bind_last htext fun s _ => ?_)
    exact hR.alloc fun h => rfl
  | .unary op opSpan child span, hn => by
    rw [Expr.nodes, List.forall_mem_cons] at hn
    simp only [Expr.eval]
    refine hR.nested _ (hR.bind_last (eval hR child hn.2) fun v _ => ?_)
    exact hR.ofFault _ _ (unary_rename op v)
  | .binary op opSpan left right span, hn => by
    rw [Expr.nodes, List.forall_mem_cons, List.forall_mem_append] at hn
    obtain ⟨hself, hl, hr⟩ := hn
    have hright := eval hR right hr
    rw [Expr.nodes, Expr.commandsOf_cons rfl, Expr.commandsOf_append]
    simp only [Expr.eval]
    refine hR.nested _ (hR.bind (eval hR left hl) fun l _ => ?_)
    rw [Value.isTruthy_rename]
    -- `and` and `or` may skip the right operand
    split
    · have hw : ¬ whole := fun hw => by simpa [Expr.goesThrough] using hself.through hw
      split
      · exact hright
      · exact hR.early hw _ l
    · have hw : ¬ whole := fun hw => by simpa [Expr.goesThrough] using hself.through hw
      split
      · exact hR.early hw _ l
      · exact hright
    · refine hR.bind_last hright fun r _ => hR.bind_last hR.fresh fun h _ => ?_
      exact hR.ofFault _ _ (binary_rename h op l r)
  | .range lower upper span, hn => by
    rw [Expr.nodes, List.forall_mem_cons, List.forall_mem_append] at hn
    rw [Expr.nodes, Expr.commandsOf_cons rfl, Expr.commandsOf_append]
    simp only [Expr.eval]
    refine hR.nested _ (hR.bind (eval hR lower hn.2.1) fun l _ => ?_)
    refine hR.bind_last (eval hR upper hn.2.2) fun u _ => ?_
    exact hR.rangeOf l u span
  | .slice lower upper span, hn => by
    rw [Expr.nodes, List.forall_mem_cons, List.forall_mem_append] at hn
    rw [Expr.nodes, Expr.commandsOf_cons rfl, Expr.commandsOf_append]
    simp only [Expr.eval]
    refine hR.nested _ (hR.bind (evalBound hR lower hn.2.1) fun l _ => ?_)
    refine hR.bind_last (evalBound hR upper hn.2.2) fun u _ => ?_
    exact hR.pure (Value.rename ρ) _
  | .compare left links span, hn => by
    rw [Expr.nodes, List.forall_mem_cons, List.forall_mem_append] at hn
    obtain ⟨hself, hl, hlinks⟩ := hn
    have hw : ¬ whole := fun hw => by simpa [Expr.goesThrough] using hself.through hw
    rw [Expr.nodes, Expr.commandsOf_cons rfl, Expr.commandsOf_append]
    simp only [Expr.eval]
    refine hR.nested _ (hR.bind (eval hR left hl) fun l _ => ?_)
    refine hR.bind_last (evalLinks hR hw l links hlinks) fun b _ => ?_
    exact hR.pure (Value.rename ρ) _
  | .ifExp test body orElse span, hn => by
    rw [Expr.nodes, List.forall_mem_cons, List.forall_mem_append, List.forall_mem_append] at hn
    obtain ⟨hself, ht, hb, ho⟩ := hn
    have hw : ¬ whole := fun hw => by simpa [Expr.goesThrough] using hself.through hw
    rw [Expr.nodes, Expr.commandsOf_cons rfl, Expr.commandsOf_append, Expr.commandsOf_append]
    simp only [Expr.eval]
    refine hR.nested _ (hR.bind (eval hR test ht) fun t _ => ?_)
    rw [Value.isTruthy_rename]
    split
    · exact hR.skip hw (List.sublist_append_left _ _) (eval hR body hb)
    · exact hR.skip hw (List.sublist_append_right _ _) (eval hR orElse ho)
  | .list items span, hn => by
    rw [Expr.nodes, List.forall_mem_cons] at hn
    simp only [Expr.eval]
    refine hR.nested _ (hR.bind_last (evalAll hR items hn.2) fun vs _ => ?_)
    exact hR.alloc fun h => by rw [Value.rename, Value.renameAll_eq]
  | .tuple items span, hn => by
    rw [Expr.nodes, List.forall_mem_cons] at hn
    simp only [Expr.eval]
    refine hR.nested _ (hR.bind_last (evalAll hR items hn.2) fun vs _ => ?_)
    exact hR.alloc fun h => by rw [Value.rename, Value.renameAll_eq]
  | .dict keys values span, hn => by
    rw [Expr.nodes, List.forall_mem_cons, List.forall_mem_append] at hn
    obtain ⟨hself, hkeys, hvalues⟩ := hn
    rw [Expr.nodes, Expr.commandsOf_cons rfl, Expr.commandsOf_append]
    simp only [Expr.eval]
    refine hR.nested _ (hR.bind (evalAll hR keys hkeys) fun ks hks => ?_)
    -- the keys have given what decides which variables stand for values left out
    have hgives := Expr.forall₂_of_gives hks
    have hlen : whole → (ks.zip (keys.map Expr.span)).length = values.length := by
      intro hw
      have hthrough : keys.length = values.length := by
        simpa [Expr.goesThrough] using hself.through hw
      rw [List.length_zip, List.length_map, ← hgives.length_eq, Nat.min_self, hthrough]
    have hentries := evalEntries hR [] (ks.zip (keys.map Expr.span)) values hvalues
      (Expr.shows_of_gives hgives (Expr.standsIn_of_reads hself.reads)) hlen
    rw [List.zip_map_left]
    refine hR.bind_last hentries fun es _ => ?_
    exact hR.alloc fun h => by rw [Value.rename, Value.renameEntries_eq]
  | .implicit span, _ => by
    simp only [Expr.eval]
    exact hR.nested _ (hR.fail _ _ _)
  | .reserved form parts span, _ => by
    simp only [Expr.eval]
    exact hR.nested _ (hR.fail _ _ _)
  | .call func positional named span, hn => by
    rw [Expr.nodes, List.forall_mem_cons, List.forall_mem_append, List.forall_mem_append] at hn
    obtain ⟨hself, hf, hp, hnamed⟩ := hn
    rw [Expr.nodes, Expr.commandsOf_cons rfl, Expr.commandsOf_append, Expr.commandsOf_append]
    simp only [Expr.eval]
    refine hR.nested _ (hR.bind (eval hR func hf) fun f _ => ?_)
    -- arguments are evaluated only for what can be called
    cases f with
    | func h name =>
      refine hR.bind (evalPositional hR positional hp) fun ps _ => ?_
      refine hR.bind_last (evalNamed hR [] named hnamed) fun ns _ => ?_
      refine hR.bind_last hR.fresh fun k hk => hR.of _ ?_
      exact hR.commutes k name ⟨ps, ns⟩ hk.isProper
    | _ => exact hR.fail _ _ _
  | .subscript obj indices span, hn => by
    rw [Expr.nodes, List.forall_mem_cons, List.forall_mem_append] at hn
    rw [Expr.nodes, Expr.commandsOf_cons rfl, Expr.commandsOf_append]
    simp only [Expr.eval]
    refine hR.nested _ (hR.bind (eval hR obj hn.2.1) fun o _ => ?_)
    refine hR.bind_last (evalAll hR indices hn.2.2) fun is _ => ?_
    refine hR.bind_last (hR.joinIndices is) fun i _ => hR.bind_last hR.fresh fun h _ => ?_
    exact hR.ofFault _ _ (subscript_rename h o i)
  | .member obj op opSpan attr span, hn => by
    rw [Expr.nodes, List.forall_mem_cons] at hn
    simp only [Expr.eval]
    refine hR.nested _ (hR.bind_last (eval hR obj hn.2) fun o _ => ?_)
    exact hR.memberOf op opSpan attr o
  | .eggex tree flags span, hn => by
    have hreads : ∀ name ∈ tree.splices, N name := (hn _ List.mem_cons_self).reads
    simp only [Expr.eval]
    refine hR.nested _ (hR.bind_last (hR.compile tree hreads) fun t _ => ?_)
    exact hR.alloc fun h => rfl
  | .spread child span, _ => by
    simp only [Expr.eval]
    exact hR.nested _ (hR.fail _ _ _)

theorem evalAll (hR : Corresponds host ρ N whole R) : (es : List Expr) →
    (∀ n ∈ nodesAll es, n.IsAdmitted N whole) →
    R (commandsOf (nodesAll es)) (List.map (Value.rename ρ))
      (Expr.evalAll host es : Eval (List Value)) (Expr.evalAll host es : Eval (List Value))
  | [], _ => by
    simp only [Expr.evalAll]
    exact hR.pure _ []
  | e :: rest, hn => by
    rw [nodesAll, List.forall_mem_append] at hn
    rw [nodesAll, Expr.commandsOf_append]
    simp only [Expr.evalAll]
    refine hR.bind (eval hR e hn.1) fun v _ => hR.bind_last (evalAll hR rest hn.2) fun vs _ => ?_
    exact hR.pure (List.map (Value.rename ρ)) (v :: vs)

theorem evalBound (hR : Corresponds host ρ N whole R) : (e : Option Expr) →
    (∀ n ∈ nodesOption e, n.IsAdmitted N whole) →
    R (commandsOf (nodesOption e)) id (Expr.evalBound host e : Eval (Option Int64))
      (Expr.evalBound host e : Eval (Option Int64))
  | none, _ => by
    simp only [Expr.evalBound]
    exact hR.pure id none
  | some e, hn => by
    simp only [Expr.evalBound]
    exact hR.bind_last (eval hR e hn) fun v _ => hR.sliceBound e.span v

/-- A chain may end before its last link. -/
theorem evalLinks (hR : Corresponds host ρ N whole R) (hw : ¬ whole) : (left : Value) →
    (links : List ((CompareOp × Span) × Expr)) →
    (∀ n ∈ nodesLinks links, n.IsAdmitted N whole) →
    R (commandsOf (nodesLinks links)) id (Expr.evalLinks host left links : Eval Bool)
      (Expr.evalLinks host (left.rename ρ) links : Eval Bool)
  | left, [], _ => by
    simp only [Expr.evalLinks]
    exact hR.pure id true
  | left, ((op, opSpan), e) :: rest, hn => by
    rw [nodesLinks, List.forall_mem_append] at hn
    rw [nodesLinks, Expr.commandsOf_append]
    simp only [Expr.evalLinks]
    refine hR.bind (eval hR e hn.1) fun right _ => ?_
    refine hR.bind_first (hR.link op opSpan left right) fun l _ => ?_
    match l with
    | .ends b => exact hR.early hw id b
    | .holds false => exact hR.early hw id false
    | .holds true => exact evalLinks hR hw right rest hn.2

/-- The values of a dict, from its keys in both runs and the entries made so far. -/
theorem evalEntries (hR : Corresponds host ρ N whole R) : (entries : List (Key × Value)) →
    (keys : List (Value × Span)) → (values : List Expr) →
    (∀ n ∈ nodesAll values, n.IsAdmitted N whole) →
    (∀ p ∈ keys.zip values, Shows N p.1 p.2) → (whole → keys.length = values.length) →
    R (commandsOf (nodesAll values)) (mapValues (Value.rename ρ))
      (Expr.evalEntries host entries keys values : Eval (List (Key × Value)))
      (Expr.evalEntries host (mapValues (Value.rename ρ) entries)
        (keys.map (Prod.map (Value.rename ρ) id)) values : Eval (List (Key × Value)))
  | entries, keys, [], _, _, _ => by
    simp only [Expr.evalEntries]
    exact hR.pure _ entries
  | entries, [], e :: rest, _, _, hlen => by
    simp only [Expr.evalEntries]
    have hw : ¬ whole := fun hw => by simpa using hlen hw
    exact hR.early hw _ entries
  | entries, (key, span) :: keys, e :: rest, hn, hk, hlen => by
    rw [nodesAll, List.forall_mem_append] at hn
    rw [List.zip_cons_cons, List.forall_mem_cons] at hk
    have hlen' : whole → keys.length = rest.length := fun hw => Nat.succ.inj (hlen hw)
    have hrest : ∀ k v, R (commandsOf (nodesAll rest)) (mapValues (Value.rename ρ))
        (Expr.evalEntries host (Assoc.insert k v entries) keys rest)
        (Expr.evalEntries host (Assoc.insert k (v.rename ρ) (mapValues (Value.rename ρ) entries))
          (keys.map (Prod.map (Value.rename ρ) id)) rest) := by
      intro k v
      rw [← mapValues_insert]
      exact evalEntries hR _ keys rest hn.2 hk.2 hlen'
    rw [nodesAll, Expr.commandsOf_append, List.map_cons]
    simp only [Expr.evalEntries]
    split
    · rename_i hi
      -- a value left out is the variable that the key names, and runs nothing
      rw [Expr.commandsOf_nodes_of_isImplicit hi]
      refine hR.bind (hR.implicitValue key span (hk.1 hi)) fun v _ => ?_
      exact hR.bind_first (hR.keyOf key span) fun k _ => hrest k v
    · refine hR.bind (eval hR e hn.1) fun v _ => ?_
      exact hR.bind_first (hR.keyOf key span) fun k _ => hrest k v

theorem evalPositional (hR : Corresponds host ρ N whole R) : (es : List Expr) →
    (∀ n ∈ nodesAll es, n.IsAdmitted N whole) →
    R (commandsOf (nodesAll es)) (List.map (Value.rename ρ))
      (Expr.evalPositional host es : Eval (List Value))
      (Expr.evalPositional host es : Eval (List Value))
  | [], _ => by
    simp only [Expr.evalPositional]
    exact hR.pure _ []
  | e :: rest, hn => by
    rw [nodesAll, List.forall_mem_append] at hn
    have he := eval hR e hn.1
    have hrest := evalPositional hR rest hn.2
    rw [nodesAll, Expr.commandsOf_append]
    cases e with
    | spread child span =>
      have hn1 := hn.1
      rw [Expr.nodes, List.forall_mem_cons] at hn1
      rw [Expr.nodes, Expr.commandsOf_cons rfl]
      simp only [Expr.evalPositional]
      -- the spread itself is not entered, only what it spreads
      refine hR.bind (eval hR child hn1.2) fun v _ => ?_
      refine hR.bind_first hR.fresh fun h hh => ?_
      refine hR.bind_first (hR.ofFault _ _ (spreadItems_rename hh.isProper v)) ?_
      refine fun items _ => hR.bind_last hrest fun vs _ => ?_
      rw [← List.map_append]
      exact hR.pure (List.map (Value.rename ρ)) (items ++ vs)
    | _ =>
      simp only [Expr.evalPositional]
      refine hR.bind he fun v _ => hR.bind_last hrest fun vs _ => ?_
      exact hR.pure (List.map (Value.rename ρ)) (v :: vs)

theorem evalNamed (hR : Corresponds host ρ N whole R) : (named : List (String × Value)) →
    (args : List (Option Token × Expr)) →
    (∀ n ∈ nodesNamed args, n.IsAdmitted N whole) →
    R (commandsOf (nodesNamed args)) (mapValues (Value.rename ρ))
      (Expr.evalNamed host named args : Eval (List (String × Value)))
      (Expr.evalNamed host (mapValues (Value.rename ρ) named) args :
        Eval (List (String × Value)))
  | named, [], _ => by
    simp only [Expr.evalNamed]
    exact hR.pure _ named
  | named, (some name, e) :: rest, hn => by
    rw [nodesNamed, List.forall_mem_append] at hn
    rw [nodesNamed, Expr.commandsOf_append]
    simp only [Expr.evalNamed]
    refine hR.bind (eval hR e hn.1) fun v _ => ?_
    rw [← mapValues_insert]
    exact evalNamed hR _ rest hn.2
  | named, (none, e) :: rest, hn => by
    rw [nodesNamed, List.forall_mem_append] at hn
    rw [nodesNamed, Expr.commandsOf_append]
    simp only [Expr.evalNamed]
    refine hR.bind (eval hR e hn.1) fun v _ => hR.bind_first hR.fresh fun h hh => ?_
    refine hR.bind_first (hR.ofFault _ _ (mergeNamed_rename hh.isProper named v)) ?_
    exact fun ns _ => evalNamed hR ns rest hn.2

end

end Corresponds

end ShellExpr
