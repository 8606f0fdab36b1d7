import ShellExpr.Proofs.Eval.Abstraction
import ShellExpr.Proofs.Syntax.Nodes

/-!
# Where errors come from

An evaluation fails with the error of one of its steps, and no node on the way out touches it. What
the step of a node may fail with is said here once for each form of expression; an expression then
fails as one of its nodes does.

* `Eval.Raises`: the errors that a computation may fail with.
* `Eval.FailsIn`: what holds of all of them, with a rule for each way to combine computations.
* `Expr.Raises`: the errors of the step of a single node.
* `Expr.raises_of_eval`: **an expression fails with an error of one of its nodes**.
-/

namespace ShellExpr

/-! ### Errors of computations -/

namespace Eval

variable {α β : Type} {P : EvalError → Prop}

/-- Whether a computation fails with an error in some world. -/
def Raises (x : Eval α) (e : EvalError) : Prop := ∃ w, (x.outcome w).1 = .error e

/-- Whether something holds of all errors of a computation. -/
def FailsIn (P : EvalError → Prop) (x : Eval α) : Prop := ∀ e, x.Raises e → P e

theorem failsIn_pure (a : α) : FailsIn P (pure a) := by
  rintro e ⟨w, hw⟩
  contradiction

theorem failsIn_fail {e : EvalError} (h : P e) : FailsIn P (fail e : Eval α) := by
  rintro e' ⟨w, hw⟩
  exact Except.error.inj hw ▸ h

theorem FailsIn.bind {x : Eval α} {f : α → Eval β} (hx : FailsIn P x)
    (hf : ∀ a, FailsIn P (f a)) : FailsIn P (x >>= f) := by
  rintro e ⟨w, hw⟩
  rw [outcome_bind] at hw
  rcases hr : x.outcome w with ⟨r, w'⟩
  rw [hr] at hw
  cases r with
  | error e' =>
    obtain rfl := Except.error.inj hw
    exact hx e' ⟨w, by rw [hr]⟩
  | ok a => exact hf a e ⟨w', hw⟩

theorem failsIn_of {r : Except EvalError α} (h : ∀ e, r = .error e → P e) : FailsIn P (of r) := by
  cases r with
  | error e => exact failsIn_fail (h e rfl)
  | ok a => exact failsIn_pure a

theorem failsIn_ofFault {span : Span} {r : Except Fault α}
    (h : ∀ f, r = .error f → P (f.near span)) : FailsIn P (ofFault span r) := by
  cases r with
  | error f => exact failsIn_fail (h f rfl)
  | ok a => exact failsIn_pure a

theorem failsIn_fresh : FailsIn P fresh := by
  rintro e ⟨w, hw⟩
  contradiction

theorem failsIn_setGroups (groups : List String) : FailsIn P (setGroups groups) := by
  rintro e ⟨w, hw⟩
  contradiction

/-- A value at a new allocation. -/
theorem failsIn_alloc (f : Handle → α) : FailsIn P (do return f (← fresh)) :=
  failsIn_fresh.bind fun h => failsIn_pure (f h)

theorem failsIn_lookup {name : String} {span : Span}
    (h : P ((Fault.undefined name).placed span)) : FailsIn P (lookup name span) := by
  rintro e ⟨w, hw⟩
  rw [outcome_lookup] at hw
  split at hw
  · contradiction
  · exact Except.error.inj hw ▸ h

theorem failsIn_command {host : Host} {sub : CommandSub}
    (h : ∀ flags e, host.run sub flags = .error e → P e) : FailsIn P (command host sub) := by
  rintro e ⟨w, hw⟩
  exact h _ e hw

theorem failsIn_joinIndices (vs : List Value) : FailsIn P (joinIndices vs) := by
  unfold joinIndices
  split
  · exact failsIn_pure _
  · exact failsIn_alloc _

/-- One level deeper, the limit may be reached as well. -/
theorem FailsIn.nested {limit : Option Nat} {span : Span} {x : Eval α} (hx : FailsIn P x)
    (hlimit : ∀ n, limit = some n → P ((Fault.tooDeep n).placed span)) :
    FailsIn P (nested limit span x) := by
  rintro e ⟨w, hw⟩
  cases limit with
  | none => exact hx e ⟨_, hw⟩
  | some n =>
    unfold Eval.nested at hw
    simp only [outcome_mk] at hw
    split at hw
    · exact Except.error.inj hw ▸ hlimit n rfl
    · exact hx e ⟨_, hw⟩

end Eval

/-! ### Errors of nodes -/

/-- The errors of the step of a node, from what its operands may give. The last five are of nodes
whose value is used in a way that it may not be fit for: as a bound of a slice, as a key of a dict,
for the value left out after such a key, and spread over arguments. -/
inductive Expr.Raises (host : Host) : Expr → EvalError → Prop
  | tooDeep {e : Expr} {n : Nat} (h : host.limit = some n) :
      Raises host e ((Fault.tooDeep n).placed e.span)
  | const {tok : Token} {span : Span} {err : EvalError} {h : Handle}
      (hv : Literal.constant h tok = .error err) : Raises host (const tok span) err
  | var {tok : Token} {span : Span} :
      Raises host (var tok span) ((Fault.undefined tok.text).placed tok.span)
  | commandSub {sub : CommandSub} {flags : Flags} {span : Span} {err : EvalError}
      (h : host.run sub flags = .error err) : Raises host (commandSub sub span) err
  | array {words : List CompoundWord} {span : Span} {err : EvalError}
      (h : host.words.sequence words = .error err) : Raises host (array words span) err
  | word {w : StringWord} {span : Span} {err : EvalError}
      (h : host.words.string w = .error err) : Raises host (word w span) err
  | unary {op : UnaryOp} {opSpan span : Span} {child : Expr} {v : Value} {f : Fault}
      (h : ShellExpr.unary op v = .error f) :
      Raises host (unary op opSpan child span) (f.near opSpan)
  | binary {op : BinaryOp} {opSpan span : Span} {left right : Expr} {h : Handle} {l r : Value}
      {f : Fault} (hv : ShellExpr.binary h op l r = .error f) :
      Raises host (binary op opSpan left right span) (f.near opSpan)
  | range {lower upper : Expr} {span : Span} {l u : Value} {err : EvalError}
      (h : (Eval.rangeOf l u span).Raises err) : Raises host (range lower upper span) err
  | link {left e : Expr} {links : List ((CompareOp × Span) × Expr)} {op : CompareOp}
      {opSpan span : Span} {l r : Value} {err : EvalError} (hmem : ((op, opSpan), e) ∈ links)
      (h : (Eval.link op opSpan l r).Raises err) : Raises host (compare left links span) err
  | implicit {span : Span} : Raises host (implicit span)
      ((Fault.unsupported "Implicit value outside a dict literal").placed span)
  | reserved {form : ReservedForm} {parts : List Expr} {span : Span} :
      Raises host (reserved form parts span) ((Fault.reserved form.label).placed span)
  | notCallable {func : Expr} {positional : List Expr} {named : List (Option Token × Expr)}
      {span : Span} {type : String} : Raises host (call func positional named span)
        ((Fault.mismatch (.call type)).placed func.span)
  | callee {func : Expr} {positional : List Expr} {named : List (Option Token × Expr)} {span : Span}
      {h : Handle} {name : String} {args : Arguments} {err : EvalError}
      (hv : host.call h name args = .error err) :
      Raises host (call func positional named span) err
  | subscript {obj : Expr} {indices : List Expr} {span : Span} {h : Handle} {o i : Value}
      {f : Fault} (hv : ShellExpr.subscript h o i = .error f) :
      Raises host (subscript obj indices span) (f.near Span.dummy)
  | member {obj : Expr} {op : AttrOp} {opSpan span : Span} {attr : Token} {o : Value}
      {err : EvalError} (h : (Eval.memberOf op opSpan attr o).Raises err) :
      Raises host (member obj op opSpan attr span) err
  | eggex {tree : Eggex} {flags : List Token} {span : Span} {err : EvalError}
      (h : (Eval.compileEggex host tree).Raises err) : Raises host (eggex tree flags span) err
  | spread {child : Expr} {span : Span} : Raises host (spread child span)
      ((Fault.unsupported "Spread outside an argument list").placed span)
  | bound {e : Expr} {v : Value} {err : EvalError} (h : (Eval.sliceBound e.span v).Raises err) :
      Raises host e err
  | key {e : Expr} {v : Value} {err : EvalError} (h : (Eval.keyOf v e.span).Raises err) :
      Raises host e err
  | leftOut {e : Expr} {v : Value} {err : EvalError}
      (h : (Eval.implicitValue v e.span).Raises err) : Raises host e err
  | items {child : Expr} {span : Span} {h : Handle} {v : Value} {f : Fault}
      (hv : Eval.spreadItems h v = .error f) : Raises host (spread child span) (f.near span)
  | entries {e : Expr} {h : Handle} {named : List (String × Value)} {v : Value} {f : Fault}
      (hv : Eval.mergeNamed h named v = .error f) : Raises host e (f.near e.span)

namespace Expr

open Eval

variable {host : Host} {P : EvalError → Prop}

/-- Whether something holds of all errors of a node. -/
def FailsIn (host : Host) (P : EvalError → Prop) (n : Expr) : Prop := ∀ e, n.Raises host e → P e

theorem self_mem_nodes (e : Expr) : e ∈ e.nodes := by
  rw [nodes.eq_def]
  exact List.mem_cons_self

theorem mem_nodesAll {e : Expr} {es : List Expr} (h : e ∈ es) : e ∈ nodesAll es := by
  induction es with
  | nil => contradiction
  | cons e' rest ih =>
    rw [nodesAll, List.mem_append]
    rcases List.mem_cons.mp h with rfl | h
    · exact .inl (self_mem_nodes e)
    · exact .inr (ih h)

/-! ### Errors of steps -/

/-- A node is entered, then its step is taken. -/
theorem FailsIn.enter {e : Expr} (he : e.FailsIn host P) {x : Eval Value} (hx : Eval.FailsIn P x) :
    Eval.FailsIn P (Eval.nested host.limit e.span x) :=
  hx.nested fun _ hn => he _ (.tooDeep hn)

theorem failsIn_commandSub {sub : CommandSub} {span : Span}
    (he : (commandSub sub span).FailsIn host P) : Eval.FailsIn P (Eval.commandSub host sub) := by
  have hrun : Eval.FailsIn P (command host sub) :=
    failsIn_command fun flags err h => he _ (.commandSub h)
  unfold Eval.commandSub
  split
  · exact hrun.bind fun out => failsIn_alloc _
  · exact hrun.bind fun out => failsIn_alloc _
  · exact failsIn_pure _

/-- What may be wrong with a key of a dict, at its place. -/
def KeyFailsIn (P : EvalError → Prop) (span : Span) : Prop :=
  ∀ v, Eval.FailsIn P (keyOf v span) ∧ Eval.FailsIn P (implicitValue v span)

theorem FailsIn.asKey {e : Expr} (he : e.FailsIn host P) : KeyFailsIn P e.span :=
  fun _ => ⟨fun _ h => he _ (.key h), fun _ h => he _ (.leftOut h)⟩

/-! ### Whole expressions -/

mutual

/-- **What holds of the errors of all nodes holds of those of the expression.** -/
theorem failsIn_eval : (e : Expr) → (∀ n ∈ e.nodes, n.FailsIn host P) →
    Eval.FailsIn P (e.eval host)
  | .const tok span, hn => by
    have he := hn _ (self_mem_nodes _)
    simp only [Expr.eval]
    refine he.enter (failsIn_fresh.bind fun h => failsIn_of fun err hv => ?_)
    exact he err (.const hv)
  | .var tok span, hn => by
    have he := hn _ (self_mem_nodes _)
    simp only [Expr.eval]
    exact he.enter (failsIn_lookup (he _ .var))
  | .commandSub sub span, hn => by
    have he := hn _ (self_mem_nodes _)
    simp only [Expr.eval]
    exact he.enter (failsIn_commandSub he)
  | .array words span, hn => by
    have he := hn _ (self_mem_nodes _)
    simp only [Expr.eval]
    refine he.enter (FailsIn.bind (failsIn_of fun err h => he err (.array h)) fun fields => ?_)
    exact failsIn_alloc _
  | .word w span, hn => by
    have he := hn _ (self_mem_nodes _)
    simp only [Expr.eval]
    refine he.enter (FailsIn.bind (failsIn_of fun err h => he err (.word h)) fun s => ?_)
    exact failsIn_alloc _
  | .unary op opSpan child span, hn => by
    rw [Expr.nodes, List.forall_mem_cons] at hn
    obtain ⟨he, hchild⟩ := hn
    simp only [Expr.eval]
    refine he.enter ((failsIn_eval child hchild).bind fun v => failsIn_ofFault fun f h => ?_)
    exact he _ (.unary h)
  | .binary op opSpan left right span, hn => by
    rw [Expr.nodes, List.forall_mem_cons, List.forall_mem_append] at hn
    obtain ⟨he, hl, hr⟩ := hn
    have hright := failsIn_eval right hr
    simp only [Expr.eval]
    refine he.enter ((failsIn_eval left hl).bind fun l => ?_)
    split
    · split
      · exact hright
      · exact failsIn_pure l
    · split
      · exact failsIn_pure l
      · exact hright
    · refine hright.bind fun r => failsIn_fresh.bind fun h => failsIn_ofFault fun f hv => ?_
      exact he _ (.binary hv)
  | .range lower upper span, hn => by
    rw [Expr.nodes, List.forall_mem_cons, List.forall_mem_append] at hn
    obtain ⟨he, hl, hu⟩ := hn
    simp only [Expr.eval]
    refine he.enter ((failsIn_eval lower hl).bind fun l => ?_)
    exact (failsIn_eval upper hu).bind fun u => fun err h => he err (.range h)
  | .slice lower upper span, hn => by
    rw [Expr.nodes, List.forall_mem_cons, List.forall_mem_append] at hn
    obtain ⟨he, hl, hu⟩ := hn
    simp only [Expr.eval]
    refine he.enter ((failsIn_evalBound lower hl).bind fun l => ?_)
    exact (failsIn_evalBound upper hu).bind fun u => failsIn_pure _
  | .compare left links span, hn => by
    rw [Expr.nodes, List.forall_mem_cons, List.forall_mem_append] at hn
    obtain ⟨he, hl, hlinks⟩ := hn
    simp only [Expr.eval]
    refine he.enter ((failsIn_eval left hl).bind fun l => ?_)
    have hsteps : ∀ link ∈ links, ∀ l r, Eval.FailsIn P (Eval.link link.1.1 link.1.2 l r) :=
      fun link hmem l r err h => he err (.link hmem h)
    exact (failsIn_evalLinks l links hlinks hsteps).bind fun b => failsIn_pure _
  | .ifExp test body orElse span, hn => by
    rw [Expr.nodes, List.forall_mem_cons, List.forall_mem_append, List.forall_mem_append] at hn
    obtain ⟨he, ht, hb, ho⟩ := hn
    simp only [Expr.eval]
    refine he.enter ((failsIn_eval test ht).bind fun t => ?_)
    split
    · exact failsIn_eval body hb
    · exact failsIn_eval orElse ho
  | .list items span, hn => by
    rw [Expr.nodes, List.forall_mem_cons] at hn
    simp only [Expr.eval]
    exact hn.1.enter ((failsIn_evalAll items hn.2).bind fun vs => failsIn_alloc _)
  | .tuple items span, hn => by
    rw [Expr.nodes, List.forall_mem_cons] at hn
    simp only [Expr.eval]
    exact hn.1.enter ((failsIn_evalAll items hn.2).bind fun vs => failsIn_alloc _)
  | .dict keys values span, hn => by
    rw [Expr.nodes, List.forall_mem_cons, List.forall_mem_append] at hn
    obtain ⟨he, hkeys, hvalues⟩ := hn
    simp only [Expr.eval]
    refine he.enter ((failsIn_evalAll keys hkeys).bind fun ks => ?_)
    -- the places of the keys are those of the expressions for them
    have hplaces : ∀ p ∈ ks.zip (keys.map Expr.span), KeyFailsIn P p.2 := by
      intro p hp
      obtain ⟨k, hk, hspan⟩ := List.mem_map.mp (List.of_mem_zip hp).2
      rw [← hspan]
      exact (hkeys k (mem_nodesAll hk)).asKey
    exact (failsIn_evalEntries [] _ values hvalues hplaces).bind fun es => failsIn_alloc _
  | .implicit span, hn => by
    have he := hn _ (self_mem_nodes _)
    simp only [Expr.eval]
    exact he.enter (failsIn_fail (he _ .implicit))
  | .reserved form parts span, hn => by
    have he := hn _ (self_mem_nodes _)
    simp only [Expr.eval]
    exact he.enter (failsIn_fail (he _ .reserved))
  | .call func positional named span, hn => by
    rw [Expr.nodes, List.forall_mem_cons, List.forall_mem_append, List.forall_mem_append] at hn
    obtain ⟨he, hf, hp, hnamed⟩ := hn
    simp only [Expr.eval]
    refine he.enter ((failsIn_eval func hf).bind fun f => ?_)
    cases f with
    | func h name =>
      refine (failsIn_evalPositional positional hp).bind fun ps => ?_
      refine (failsIn_evalNamed [] named hnamed).bind fun ns => failsIn_fresh.bind fun h => ?_
      exact failsIn_of fun err hv => he err (.callee hv)
    | _ => exact failsIn_fail (he _ .notCallable)
  | .subscript obj indices span, hn => by
    rw [Expr.nodes, List.forall_mem_cons, List.forall_mem_append] at hn
    obtain ⟨he, ho, hi⟩ := hn
    simp only [Expr.eval]
    refine he.enter ((failsIn_eval obj ho).bind fun o => ?_)
    refine (failsIn_evalAll indices hi).bind fun is => (failsIn_joinIndices is).bind fun i => ?_
    exact failsIn_fresh.bind fun h => failsIn_ofFault fun f hv => he _ (.subscript hv)
  | .member obj op opSpan attr span, hn => by
    rw [Expr.nodes, List.forall_mem_cons] at hn
    obtain ⟨he, ho⟩ := hn
    simp only [Expr.eval]
    exact he.enter ((failsIn_eval obj ho).bind fun o => fun err h => he err (.member h))
  | .eggex tree flags span, hn => by
    have he := hn _ (self_mem_nodes _)
    simp only [Expr.eval]
    refine he.enter (FailsIn.bind (fun err h => he err (.eggex h)) fun t => ?_)
    exact failsIn_alloc _
  | .spread child span, hn => by
    have he := hn _ (self_mem_nodes _)
    simp only [Expr.eval]
    exact he.enter (failsIn_fail (he _ .spread))

theorem failsIn_evalAll : (es : List Expr) → (∀ n ∈ nodesAll es, n.FailsIn host P) →
    Eval.FailsIn P (Expr.evalAll host es)
  | [], _ => by
    simp only [Expr.evalAll]
    exact failsIn_pure []
  | e :: rest, hn => by
    rw [nodesAll, List.forall_mem_append] at hn
    simp only [Expr.evalAll]
    refine (failsIn_eval e hn.1).bind fun v => ?_
    exact (failsIn_evalAll rest hn.2).bind fun vs => failsIn_pure _

theorem failsIn_evalBound : (e : Option Expr) → (∀ n ∈ nodesOption e, n.FailsIn host P) →
    Eval.FailsIn P (Expr.evalBound host e)
  | none, _ => by
    simp only [Expr.evalBound]
    exact failsIn_pure none
  | some e, hn => by
    have he : e.FailsIn host P := hn e (self_mem_nodes e)
    simp only [Expr.evalBound]
    exact (failsIn_eval e hn).bind fun v => fun err h => he err (.bound h)

theorem failsIn_evalLinks : (left : Value) → (links : List ((CompareOp × Span) × Expr)) →
    (∀ n ∈ nodesLinks links, n.FailsIn host P) →
    (∀ link ∈ links, ∀ l r, Eval.FailsIn P (Eval.link link.1.1 link.1.2 l r)) →
    Eval.FailsIn P (Expr.evalLinks host left links)
  | left, [], _, _ => by
    simp only [Expr.evalLinks]
    exact failsIn_pure true
  | left, ((op, opSpan), e) :: rest, hn, hsteps => by
    rw [nodesLinks, List.forall_mem_append] at hn
    rw [List.forall_mem_cons] at hsteps
    simp only [Expr.evalLinks]
    refine (failsIn_eval e hn.1).bind fun right => FailsIn.bind (hsteps.1 left right) fun l => ?_
    match l with
    | .ends b => exact failsIn_pure b
    | .holds false => exact failsIn_pure false
    | .holds true => exact failsIn_evalLinks right rest hn.2 hsteps.2

theorem failsIn_evalEntries : (entries : List (Key × Value)) → (keys : List (Value × Span)) →
    (values : List Expr) → (∀ n ∈ nodesAll values, n.FailsIn host P) →
    (∀ p ∈ keys, KeyFailsIn P p.2) → Eval.FailsIn P (Expr.evalEntries host entries keys values)
  | entries, keys, [], _, _ => by
    simp only [Expr.evalEntries]
    exact failsIn_pure entries
  | entries, [], e :: rest, _, _ => by
    simp only [Expr.evalEntries]
    exact failsIn_pure entries
  | entries, (key, span) :: keys, e :: rest, hn, hk => by
    rw [nodesAll, List.forall_mem_append] at hn
    rw [List.forall_mem_cons] at hk
    obtain ⟨hkey, himplicit⟩ := hk.1 key
    simp only [Expr.evalEntries]
    have hrest : ∀ v, Eval.FailsIn P (do
        let k ← keyOf key span
        Expr.evalEntries host (Assoc.insert k v entries) keys rest) :=
      fun v => hkey.bind fun k => failsIn_evalEntries _ keys rest hn.2 hk.2
    split
    · exact himplicit.bind hrest
    · exact (failsIn_eval e hn.1).bind hrest

theorem failsIn_evalPositional : (es : List Expr) → (∀ n ∈ nodesAll es, n.FailsIn host P) →
    Eval.FailsIn P (Expr.evalPositional host es)
  | [], _ => by
    simp only [Expr.evalPositional]
    exact failsIn_pure []
  | e :: rest, hn => by
    rw [nodesAll, List.forall_mem_append] at hn
    have hrest := failsIn_evalPositional rest hn.2
    have he := failsIn_eval e hn.1
    cases e with
    | spread child span =>
      have hn1 := hn.1
      rw [Expr.nodes, List.forall_mem_cons] at hn1
      simp only [Expr.evalPositional]
      refine (failsIn_eval child hn1.2).bind fun v => failsIn_fresh.bind fun h => ?_
      refine FailsIn.bind (failsIn_ofFault fun f hv => hn1.1 _ (.items hv)) fun items => ?_
      exact hrest.bind fun vs => failsIn_pure _
    | _ =>
      simp only [Expr.evalPositional]
      exact he.bind fun v => hrest.bind fun vs => failsIn_pure _

theorem failsIn_evalNamed : (named : List (String × Value)) →
    (args : List (Option Token × Expr)) → (∀ n ∈ nodesNamed args, n.FailsIn host P) →
    Eval.FailsIn P (Expr.evalNamed host named args)
  | named, [], _ => by
    simp only [Expr.evalNamed]
    exact failsIn_pure named
  | named, (some name, e) :: rest, hn => by
    rw [nodesNamed, List.forall_mem_append] at hn
    simp only [Expr.evalNamed]
    exact (failsIn_eval e hn.1).bind fun v => failsIn_evalNamed _ rest hn.2
  | named, (none, e) :: rest, hn => by
    rw [nodesNamed, List.forall_mem_append] at hn
    have he : e.FailsIn host P := hn.1 e (self_mem_nodes e)
    simp only [Expr.evalNamed]
    refine (failsIn_eval e hn.1).bind fun v => failsIn_fresh.bind fun h => ?_
    refine FailsIn.bind (failsIn_ofFault fun f hv => he _ (.entries hv)) fun ns => ?_
    exact failsIn_evalNamed ns rest hn.2

end

/-- **An expression fails with an error of one of its nodes.** -/
theorem raises_of_eval {e : Expr} {err : EvalError} (h : (e.eval host : Eval Value).Raises err) :
    ∃ n ∈ e.nodes, n.Raises host err :=
  failsIn_eval e (P := fun err => ∃ n ∈ e.nodes, n.Raises host err)
    (fun n hn _ h => ⟨n, hn, h⟩) err h

end Expr

end ShellExpr
