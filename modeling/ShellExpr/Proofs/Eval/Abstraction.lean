import ShellExpr.Proofs.Value.Trees

/-!
# What evaluation preserves

Two machines that evaluate one expression take the same steps. So a relation between their
computations that each kind of step preserves holds of the whole evaluation, and with two equal
machines this is an invariant of one. Along with it goes a property of the trees of all eggexes at
hand.

* `Calm`: an action that takes handles and runs commands, and changes nothing else.
* `Respects`: a relation that the steps of an evaluation preserve.
* `Relates`: the same for two hosts, whose commands and callables are related.
* `Relates.eval`: evaluation preserves it.
-/

namespace ShellExpr

/-! ### Actions -/

/-- The second world differs from the first by handles taken and commands run. -/
structure World.Calm (w w' : World) : Prop where
  store : w'.store = w.store
  options : w'.options = w.options
  depth : w'.depth = w.depth
  runs : ∃ new, w'.runs = w.runs ++ new ∧ ∀ r ∈ new, r.flags = w.options.current

theorem World.Calm.refl (w : World) : w.Calm w := ⟨rfl, rfl, rfl, [], by simp, by simp⟩

theorem World.Calm.trans {u v w : World} (h : u.Calm v) (h' : v.Calm w) : u.Calm w := by
  obtain ⟨new, hn, hf⟩ := h.runs
  obtain ⟨new', hn', hf'⟩ := h'.runs
  refine ⟨h'.store.trans h.store, h'.options.trans h.options, h'.depth.trans h.depth,
    new ++ new', by rw [hn', hn, List.append_assoc], ?_⟩
  rw [h.options] at hf'
  exact List.forall_mem_append.mpr ⟨hf, hf'⟩

namespace Eval

variable {α β : Type} {T : Eggex → Prop}

/-- An action that only takes handles and runs commands. -/
def Calm (x : Eval α) : Prop := ∀ w : World, w.Calm (x.outcome w).2

/-- What the result of an action satisfies, if the eggexes of the store are as they should be. -/
def Yields (T : Eggex → Prop) (G : α → Prop) (x : Eval α) : Prop :=
  ∀ (w : World) (a : α), w.store.Holds T → (x.outcome w).1 = .ok a → G a

theorem calm_pure (a : α) : Calm (pure a) := fun w => .refl w

theorem calm_fail (e : EvalError) : Calm (fail e : Eval α) := fun w => .refl w

theorem Calm.bind {x : Eval α} {f : α → Eval β} (hx : Calm x) (hf : ∀ a, Calm (f a)) :
    Calm (x >>= f) := by
  intro w
  rw [outcome_bind]
  have h := hx w
  rcases hr : x.outcome w with ⟨r, w'⟩
  rw [hr] at h
  cases r with
  | error e => exact h
  | ok a => exact h.trans (hf a w')

theorem yields_pure {G : α → Prop} {a : α} (h : G a) : Yields T G (pure a) := by
  intro w b _ hb
  obtain rfl := Except.ok.inj hb
  exact h

theorem yields_fail {G : α → Prop} (e : EvalError) : Yields T G (fail e) := by
  intro w a _ ha
  contradiction

theorem Yields.bind {x : Eval α} {f : α → Eval β} {G : α → Prop} {H : β → Prop}
    (hc : Calm x) (hx : Yields T G x) (hf : ∀ a, G a → Yields T H (f a)) :
    Yields T H (x >>= f) := by
  intro w b hw hb
  rw [outcome_bind] at hb
  have hs := (hc w).store
  have hg := hx w
  rcases hr : x.outcome w with ⟨r, w'⟩
  rw [hr] at hb hs hg
  cases r with
  | error e => contradiction
  | ok a =>
    refine hf a (hg a hw rfl) w' b ?_ hb
    rw [hs]
    exact hw

theorem calm_of (r : Except EvalError α) : Calm (of r) := by
  cases r
  · exact calm_fail _
  · exact calm_pure _

theorem yields_of {r : Except EvalError α} {G : α → Prop} (h : ∀ a, r = .ok a → G a) :
    Yields T G (of r) := by
  cases r with
  | error e => exact yields_fail e
  | ok a => exact yields_pure (h a rfl)

theorem calm_ofFault (span : Span) (r : Except Fault α) : Calm (ofFault span r) := by
  cases r
  · exact calm_fail _
  · exact calm_pure _

theorem yields_ofFault {span : Span} {r : Except Fault α} {G : α → Prop}
    (h : ∀ a, r = .ok a → G a) : Yields T G (ofFault span r) := by
  cases r with
  | error f => exact yields_fail _
  | ok a => exact yields_pure (h a rfl)

theorem yields_true (x : Eval α) : Yields T (fun _ => True) x := fun _ _ _ _ => trivial

theorem calm_fresh : Calm fresh := fun w => ⟨rfl, rfl, rfl, [], by simp [fresh], by simp⟩

theorem outcome_lookup (name : String) (span : Span) (w : World) :
    (lookup name span).outcome w = match w.store.lookup name .localOrGlobal with
      | some v => (.ok v, w)
      | none => (.error ((Fault.undefined name).placed span), w) := by
  show Eval.outcome (get >>= _) w = _
  rw [outcome_bind]
  show Eval.outcome (match w.store.lookup name .localOrGlobal with
    | some v => pure v
    | none => fail ((Fault.undefined name).placed span)) w = _
  cases w.store.lookup name .localOrGlobal <;> rfl

theorem calm_lookup (name : String) (span : Span) : Calm (lookup name span) := by
  intro w
  rw [outcome_lookup]
  split <;> exact .refl w

theorem yields_lookup (name : String) (span : Span) :
    Yields T (Value.Holds T) (lookup name span) := by
  intro w v hw hv
  rw [outcome_lookup] at hv
  split at hv
  · rename_i u hu
    obtain rfl := Except.ok.inj hv
    exact hw.lookup hu
  · contradiction

theorem calm_command (host : Host) (sub : CommandSub) : Calm (command host sub) := by
  intro w
  refine ⟨rfl, rfl, rfl, [⟨sub, w.options.current, w.options.depth⟩], rfl, ?_⟩
  simp

theorem calm_commandSub (host : Host) (sub : CommandSub) : Calm (commandSub host sub) := by
  unfold commandSub
  split
  · exact (calm_command host sub).bind fun _ => calm_fresh.bind fun _ => calm_pure _
  · exact (calm_command host sub).bind fun _ => calm_fresh.bind fun _ => calm_pure _
  · exact calm_pure _

theorem yields_commandSub (host : Host) (sub : CommandSub) :
    Yields T (Value.Holds T) (commandSub host sub) := by
  unfold commandSub
  split
  · exact .bind (calm_command host sub) (yields_true _) fun _ _ => .bind calm_fresh (yields_true _)
      fun _ _ => yields_pure (Value.holds_of_trees_eq_nil rfl)
  · exact .bind (calm_command host sub) (yields_true _) fun _ _ => .bind calm_fresh (yields_true _)
      fun _ _ => yields_pure (Value.holds_of_trees_eq_nil rfl)
  · exact yields_pure (Value.holds_of_trees_eq_nil rfl)

/-- The scope in which an eggex is compiled. -/
def scopeOf (host : Host) (s : Store) : EggexScope :=
  ⟨host.words, fun name => s.lookup name .localOrGlobal⟩

theorem outcome_compileEggex (host : Host) (tree : Eggex) (w : World) :
    (compileEggex host tree).outcome w =
      (tree.compileAsserting host.debug (scopeOf host w.store), w) := by
  let compiled (w : World) := tree.compileAsserting host.debug (scopeOf host w.store)
  show (get >>= fun w => of (compiled w) : Eval Eggex).outcome w = (compiled w, w)
  rw [outcome_bind]
  show (of (compiled w)).outcome w = _
  cases compiled w <;> rfl

theorem calm_compileEggex (host : Host) (tree : Eggex) : Calm (compileEggex host tree) := by
  intro w
  rw [outcome_compileEggex]
  exact .refl w

theorem calm_joinIndices (vs : List Value) : Calm (joinIndices vs) := by
  unfold joinIndices
  split
  · exact calm_pure _
  · exact calm_fresh.bind fun _ => calm_pure _

theorem yields_joinIndices {vs : List Value} (h : ∀ v ∈ vs, v.Holds T) :
    Yields T (Value.Holds T) (joinIndices vs) := by
  unfold joinIndices
  split
  · exact yields_pure (h _ List.mem_cons_self)
  · exact .bind calm_fresh (yields_true _) fun _ _ => yields_pure (Value.holds_tuple.mpr h)

theorem calm_memberOf (op : AttrOp) (opSpan : Span) (attr : Token) (obj : Value) :
    Calm (memberOf op opSpan attr obj) := by
  unfold memberOf
  split
  · exact calm_ofFault _ _
  · exact calm_fresh.bind fun _ => calm_ofFault _ _
  · exact calm_fail _

theorem yields_memberOf {op : AttrOp} {opSpan : Span} {attr : Token} {obj : Value}
    (h : obj.Holds T) : Yields T (Value.Holds T) (memberOf op opSpan attr obj) := by
  unfold memberOf
  split
  · exact yields_ofFault fun v hv => holds_member hv h
  · refine .bind calm_fresh (yields_true _) fun _ _ => ?_
    exact yields_ofFault fun v hv => holds_subscript hv h
  · exact yields_fail _

theorem calm_implicitValue (key : Value) (span : Span) : Calm (implicitValue key span) := by
  unfold implicitValue
  split
  · exact calm_lookup _ _
  · exact calm_fail _

theorem yields_implicitValue (key : Value) (span : Span) :
    Yields T (Value.Holds T) (implicitValue key span) := by
  unfold implicitValue
  split
  · exact yields_lookup _ _
  · exact yields_fail _

theorem calm_keyOf (key : Value) (span : Span) : Calm (keyOf key span) := by
  unfold keyOf
  split
  · exact calm_pure _
  · exact calm_fail _

theorem calm_sliceBound (span : Span) (v : Value) : Calm (sliceBound span v) := by
  unfold sliceBound
  split
  · exact calm_pure _
  · exact calm_pure _
  · exact calm_fail _

theorem calm_rangeOf (lower upper : Value) (span : Span) : Calm (rangeOf lower upper span) := by
  unfold rangeOf
  split
  · exact calm_pure _
  · exact calm_fail _

theorem yields_rangeOf (lower upper : Value) (span : Span) :
    Yields T (Value.Holds T) (rangeOf lower upper span) := by
  unfold rangeOf
  split
  · exact yields_pure (Value.holds_of_trees_eq_nil rfl)
  · exact yields_fail _

end Eval

/-! ### Eggexes of an expression -/

namespace Expr

mutual

/-- The eggex literals written in an expression. -/
def eggexes : Expr → List Eggex
  | eggex tree _ _ => [tree]
  | unary _ _ child _ => child.eggexes
  | binary _ _ left right _ => left.eggexes ++ right.eggexes
  | range lower upper _ => lower.eggexes ++ upper.eggexes
  | slice lower upper _ => eggexesOption lower ++ eggexesOption upper
  | compare left links _ => left.eggexes ++ eggexesLinks links
  | ifExp test body orElse _ => test.eggexes ++ body.eggexes ++ orElse.eggexes
  | list items _ => eggexesAll items
  | tuple items _ => eggexesAll items
  | dict keys values _ => eggexesAll keys ++ eggexesAll values
  | reserved _ parts _ => eggexesAll parts
  | call func positional named _ => func.eggexes ++ eggexesAll positional ++ eggexesNamed named
  | subscript obj indices _ => obj.eggexes ++ eggexesAll indices
  | member obj _ _ _ _ => obj.eggexes
  | spread child _ => child.eggexes
  | const .. | var .. | commandSub .. | array .. | word .. | implicit _ => []
termination_by structural e => e

/-- The same for several expressions. -/
def eggexesAll : List Expr → List Eggex
  | [] => []
  | e :: rest => e.eggexes ++ eggexesAll rest
termination_by structural es => es

/-- The same for an expression that may be missing. -/
def eggexesOption : Option Expr → List Eggex
  | none => []
  | some e => e.eggexes
termination_by structural e => e

/-- The same for the links of a comparison chain. -/
def eggexesLinks : List ((CompareOp × Span) × Expr) → List Eggex
  | [] => []
  | (_, e) :: rest => e.eggexes ++ eggexesLinks rest
termination_by structural links => links

/-- The same for named arguments. -/
def eggexesNamed : List (Option Token × Expr) → List Eggex
  | [] => []
  | (_, e) :: rest => e.eggexes ++ eggexesNamed rest
termination_by structural args => args

end

end Expr

/-- The host with another limit on the nesting. -/
def Host.withLimit (host : Host) (limit : Option Nat) : Host := { host with limit }

/-- Whether callables give back no eggexes but those of their arguments. -/
def Host.Conserves (T : Eggex → Prop) (host : Host) : Prop :=
  ∀ h name args v, host.call h name args = .ok v → (∀ u ∈ args.positional, u.Holds T) →
    (∀ e ∈ args.named, e.2.Holds T) → v.Holds T

/-! ### Related computations -/

/-- A relation between the computations of two machines that the steps of an evaluation preserve:
related computations have the same results, and these satisfy what stands first. -/
structure Respects {m n : Type → Type} [Monad m] [Monad n] [Machine m] [Machine n]
    (T : Eggex → Prop) (limit limit' : Option Nat)
    (R : {α : Type} → (α → Prop) → m α → n α → Prop) : Prop where
  pure {α : Type} {G : α → Prop} {a : α} : G a → R G (pure a) (pure a)
  bind {α β : Type} {G : α → Prop} {H : β → Prop} {x : m α} {y : n α} {f : α → m β} {g : α → n β} :
    R G x y → (∀ a, G a → R H (f a) (g a)) → R H (x >>= f) (y >>= g)
  act {α : Type} {G : α → Prop} {x : Eval α} :
    Eval.Calm x → Eval.Yields T G x → R G (Machine.act x) (Machine.act x)
  link {op : CompareOp} {opSpan : Span} {left right : Value} :
    R (fun _ => True) (Machine.link op opSpan left right) (Machine.link op opSpan left right)
  enter {e : Expr} {x : m Value} {y : n Value} :
    R (Value.Holds T) x y →
      R (Value.Holds T) (Machine.enter limit e x) (Machine.enter limit' e y)

/-- What evaluation with a host may rely on: a property of the trees of eggexes at hand, if it has
another property as literal in an expression. -/
structure Host.Sound (T Q : Eggex → Prop) (host : Host) : Prop where
  call : host.Conserves T
  compile : ∀ tree, Q tree → Eval.Yields T T (Eval.compileEggex host tree)

/-- A host from which nothing is asked. -/
theorem Host.sound_true (host : Host) : host.Sound (fun _ => True) (fun _ => True) where
  call _ _ _ _ _ _ _ := fun _ _ => trivial
  compile _ _ := Eval.yields_true _

/-- A relation that the steps of two evaluations preserve, each with a host of its own. The hosts
share the words and check assertions alike; what they give for commands and callables is related. -/
structure Relates {m n : Type → Type} [Monad m] [Monad n] [Machine m] [Machine n]
    (T Q : Eggex → Prop) (host host' : Host)
    (R : {α : Type} → (α → Prop) → m α → n α → Prop) : Prop
    extends Respects T host.limit host'.limit R where
  words : host'.words = host.words
  debug : host'.debug = host.debug
  compile (tree : Eggex) : Q tree → Eval.Yields T T (Eval.compileEggex host tree)
  commandSub (sub : CommandSub) : R (Value.Holds T) (Machine.act (Eval.commandSub host sub))
    (Machine.act (Eval.commandSub host' sub))
  call (h : Handle) (name : String) (args : Arguments) : (∀ u ∈ args.positional, u.Holds T) →
    (∀ e ∈ args.named, e.2.Holds T) → R (Value.Holds T)
      (Machine.act (Eval.of (host.call h name args)))
      (Machine.act (Eval.of (host'.call h name args)))

section Runs

open Eval

variable {m n : Type → Type} [Monad m] [Monad n] [Machine m] [Machine n] {T Q : Eggex → Prop}
  {R : {α : Type} → (α → Prop) → m α → n α → Prop} {host host' : Host} {limit : Option Nat}

theorem Respects.fresh {limit' : Option Nat} (hR : Respects T limit' limit R) :
    R (fun _ => True) (Machine.act Eval.fresh : m Handle) (Machine.act Eval.fresh : n Handle) :=
  hR.act calm_fresh (yields_true _)

namespace Relates

theorem compileEggex (hR : Relates T Q host host' R) {tree : Eggex} (h : Q tree) :
    R T (Machine.act (Eval.compileEggex host tree)) (Machine.act (Eval.compileEggex host' tree)) := by
  have hsame : Eval.compileEggex host' tree = Eval.compileEggex host tree := by
    unfold Eval.compileEggex
    rw [hR.words, hR.debug]
  rw [hsame]
  exact hR.act (calm_compileEggex host tree) (hR.compile tree h)

mutual

/-- **Two evaluations are related as their steps are.** -/
theorem eval (hR : Relates T Q host host' R) : (e : Expr) →
    (∀ t ∈ e.eggexes, Q t) →
    R (Value.Holds T) (e.eval host : m Value) (e.eval host' : n Value)
  | .const tok span, _ => by
    simp only [Expr.eval]
    refine hR.enter (hR.bind hR.fresh fun h _ => ?_)
    exact hR.act (calm_of _)
      (yields_of fun v hv => Value.holds_of_trees_eq_nil (trees_constant hv))
  | .var tok span, _ => by
    simp only [Expr.eval]
    exact hR.enter (hR.act (calm_lookup _ _) (yields_lookup _ _))
  | .commandSub sub span, _ => by
    simp only [Expr.eval]
    exact hR.enter (hR.commandSub sub)
  | .array words span, _ => by
    simp only [Expr.eval, hR.words]
    refine hR.enter (hR.bind (G := fun _ => True) (hR.act (calm_of _) (yields_true _)) ?_)
    intro fields _
    refine hR.bind hR.fresh fun h _ => hR.pure (Value.holds_of_trees_eq_nil rfl)
  | .word w span, _ => by
    simp only [Expr.eval, hR.words]
    refine hR.enter (hR.bind (G := fun _ => True) (hR.act (calm_of _) (yields_true _)) ?_)
    intro s _
    exact hR.bind hR.fresh fun h _ => hR.pure (Value.holds_of_trees_eq_nil rfl)
  | .unary op opSpan child span, hq => by
    simp only [Expr.eval]
    refine hR.enter (hR.bind (eval hR child hq) fun v _ => ?_)
    exact hR.act (calm_ofFault _ _)
      (yields_ofFault fun u hu => Value.holds_of_trees_eq_nil (trees_unary hu))
  | .binary op opSpan left right span, hq => by
    simp only [Expr.eval]
    have hl := eval hR left fun t ht => hq t (List.mem_append_left _ ht)
    have hr := eval hR right fun t ht => hq t (List.mem_append_right _ ht)
    refine hR.enter (hR.bind hl fun l hlv => ?_)
    -- `and` and `or` give one of their operands, and may skip the right one
    split
    · split
      · exact hr
      · exact hR.pure hlv
    · split
      · exact hR.pure hlv
      · exact hr
    · refine hR.bind hr fun r hrv => hR.bind hR.fresh fun h _ => ?_
      exact hR.act (calm_ofFault _ _) (yields_ofFault fun v hv => holds_binary hv hlv hrv)
  | .range lower upper span, hq => by
    simp only [Expr.eval]
    have hl := eval hR lower fun t ht => hq t (List.mem_append_left _ ht)
    have hu := eval hR upper fun t ht => hq t (List.mem_append_right _ ht)
    refine hR.enter (hR.bind hl fun l _ => hR.bind hu fun u _ => ?_)
    exact hR.act (calm_rangeOf _ _ _) (yields_rangeOf _ _ _)
  | .slice lower upper span, hq => by
    simp only [Expr.eval]
    have hl := evalBound hR lower fun t ht => hq t (List.mem_append_left _ ht)
    have hu := evalBound hR upper fun t ht => hq t (List.mem_append_right _ ht)
    refine hR.enter (hR.bind hl fun l _ => hR.bind hu fun u _ => ?_)
    exact hR.pure (Value.holds_of_trees_eq_nil rfl)
  | .compare left links span, hq => by
    simp only [Expr.eval]
    have hl := eval hR left fun t ht => hq t (List.mem_append_left _ ht)
    refine hR.enter (hR.bind hl fun l hlv => hR.bind (G := fun _ => True) ?_ fun b _ => ?_)
    · exact evalLinks hR l links fun t ht => hq t (List.mem_append_right _ ht)
    · exact hR.pure (Value.holds_of_trees_eq_nil rfl)
  | .ifExp test body orElse span, hq => by
    simp only [Expr.eval]
    have ht := eval hR test fun t ht => hq t (List.mem_append_left _ (List.mem_append_left _ ht))
    have hb := eval hR body fun t ht =>
      hq t (List.mem_append_left _ (List.mem_append_right _ ht))
    have ho := eval hR orElse fun t ht => hq t (List.mem_append_right _ ht)
    refine hR.enter (hR.bind ht fun v _ => ?_)
    split
    · exact hb
    · exact ho
  | .list items span, hq => by
    simp only [Expr.eval]
    refine hR.enter (hR.bind (evalAll hR items hq) fun vs hvs => ?_)
    exact hR.bind hR.fresh fun h _ => hR.pure (Value.holds_list.mpr hvs)
  | .tuple items span, hq => by
    simp only [Expr.eval]
    refine hR.enter (hR.bind (evalAll hR items hq) fun vs hvs => ?_)
    exact hR.bind hR.fresh fun h _ => hR.pure (Value.holds_tuple.mpr hvs)
  | .dict keys values span, hq => by
    simp only [Expr.eval]
    have hk := evalAll hR keys fun t ht => hq t (List.mem_append_left _ ht)
    refine hR.enter (hR.bind hk fun ks _ => ?_)
    have hv := evalEntries hR [] (ks.zip (keys.map Expr.span)) values (by simp)
      fun t ht => hq t (List.mem_append_right _ ht)
    refine hR.bind hv fun es hes => ?_
    exact hR.bind hR.fresh fun h _ => hR.pure (Value.holds_dict.mpr hes)
  | .implicit span, _ => by
    simp only [Expr.eval]
    exact hR.enter (hR.act (calm_fail _) (yields_fail _))
  | .reserved form parts span, _ => by
    simp only [Expr.eval]
    exact hR.enter (hR.act (calm_fail _) (yields_fail _))
  | .call func positional named span, hq => by
    simp only [Expr.eval]
    have hf := eval hR func fun t ht => hq t (List.mem_append_left _ (List.mem_append_left _ ht))
    refine hR.enter (hR.bind hf fun f _ => ?_)
    -- arguments are evaluated only for what can be called
    split
    · have hp := evalPositional hR positional fun t ht =>
        hq t (List.mem_append_left _ (List.mem_append_right _ ht))
      refine hR.bind hp fun ps hps => ?_
      have hn := evalNamed hR [] named (by simp) fun t ht => hq t (List.mem_append_right _ ht)
      refine hR.bind hn fun ns hns => hR.bind hR.fresh fun h _ => ?_
      exact hR.call h _ ⟨ps, ns⟩ hps hns
    · exact hR.act (calm_fail _) (yields_fail _)
  | .subscript obj indices span, hq => by
    simp only [Expr.eval]
    have ho := eval hR obj fun t ht => hq t (List.mem_append_left _ ht)
    have hi := evalAll hR indices fun t ht => hq t (List.mem_append_right _ ht)
    refine hR.enter (hR.bind ho fun o hov => hR.bind hi fun is his => ?_)
    refine hR.bind (hR.act (calm_joinIndices is) (yields_joinIndices his)) fun i _ => ?_
    refine hR.bind hR.fresh fun h _ => ?_
    exact hR.act (calm_ofFault _ _) (yields_ofFault fun v hv => holds_subscript hv hov)
  | .member obj op opSpan attr span, hq => by
    simp only [Expr.eval]
    refine hR.enter (hR.bind (eval hR obj hq) fun o hov => ?_)
    exact hR.act (calm_memberOf _ _ _ _) (yields_memberOf hov)
  | .eggex tree flags span, hq => by
    simp only [Expr.eval]
    refine hR.enter (hR.bind (hR.compileEggex (hq tree List.mem_cons_self)) fun t htt => ?_)
    exact hR.bind hR.fresh fun h _ => hR.pure (Value.holds_eggex.mpr htt)
  | .spread child span, _ => by
    simp only [Expr.eval]
    exact hR.enter (hR.act (calm_fail _) (yields_fail _))

/-- The same for several expressions. -/
theorem evalAll (hR : Relates T Q host host' R) : (es : List Expr) →
    (∀ t ∈ Expr.eggexesAll es, Q t) →
    R (fun vs => ∀ v ∈ vs, v.Holds T) (Expr.evalAll host es : m (List Value))
      (Expr.evalAll host' es : n (List Value))
  | [], _ => by
    simp only [Expr.evalAll]
    exact hR.pure (by simp)
  | e :: rest, hq => by
    simp only [Expr.evalAll]
    have he := eval hR e fun t ht => hq t (List.mem_append_left _ ht)
    have hrest := evalAll hR rest fun t ht => hq t (List.mem_append_right _ ht)
    refine hR.bind he fun v hv => hR.bind hrest fun vs hvs => ?_
    exact hR.pure (List.forall_mem_cons.mpr ⟨hv, hvs⟩)

theorem evalBound (hR : Relates T Q host host' R) : (e : Option Expr) →
    (∀ t ∈ Expr.eggexesOption e, Q t) →
    R (fun _ => True) (Expr.evalBound host e : m (Option Int64))
      (Expr.evalBound host' e : n (Option Int64))
  | none, _ => by
    simp only [Expr.evalBound]
    exact hR.pure trivial
  | some e, hq => by
    simp only [Expr.evalBound]
    refine hR.bind (eval hR e hq) fun v _ => ?_
    exact hR.act (calm_sliceBound _ _) (yields_true _)

theorem evalLinks (hR : Relates T Q host host' R) : (left : Value) →
    (links : List ((CompareOp × Span) × Expr)) →
    (∀ t ∈ Expr.eggexesLinks links, Q t) →
    R (fun _ => True) (Expr.evalLinks host left links : m Bool)
      (Expr.evalLinks host' left links : n Bool)
  | left, [], _ => by
    simp only [Expr.evalLinks]
    exact hR.pure trivial
  | left, ((op, opSpan), e) :: rest, hq => by
    simp only [Expr.evalLinks]
    have he := eval hR e fun t ht => hq t (List.mem_append_left _ ht)
    refine hR.bind he fun right _ => hR.bind hR.link fun l _ => ?_
    -- only a link that holds leads on to the next operand
    match l with
    | .ends b => exact hR.pure trivial
    | .holds false => exact hR.pure trivial
    | .holds true =>
      exact evalLinks hR right rest fun t ht => hq t (List.mem_append_right _ ht)

theorem evalEntries (hR : Relates T Q host host' R) :
    (entries : List (Key × Value)) → (keys : List (Value × Span)) → (values : List Expr) →
    (∀ e ∈ entries, e.2.Holds T) → (∀ t ∈ Expr.eggexesAll values, Q t) →
    R (fun es => ∀ e ∈ es, e.2.Holds T)
      (Expr.evalEntries host entries keys values : m (List (Key × Value)))
      (Expr.evalEntries host' entries keys values : n (List (Key × Value)))
  | entries, keys, [], hes, _ => by
    simp only [Expr.evalEntries]
    exact hR.pure hes
  | entries, [], e :: rest, hes, _ => by
    simp only [Expr.evalEntries]
    exact hR.pure hes
  | entries, (key, span) :: keys, e :: rest, hes, hq => by
    simp only [Expr.evalEntries]
    have he := eval hR e fun t ht => hq t (List.mem_append_left _ ht)
    have hrest : ∀ k v, v.Holds T → R (fun es => ∀ e ∈ es, e.2.Holds T)
        (Expr.evalEntries host (Assoc.insert k v entries) keys rest : m (List (Key × Value)))
        (Expr.evalEntries host' (Assoc.insert k v entries) keys rest :
          n (List (Key × Value))) := fun k v hv =>
      evalEntries hR _ keys rest (Assoc.forall_insert hv hes)
        fun t ht => hq t (List.mem_append_right _ ht)
    split
    · -- a value left out is the variable that the key names
      refine hR.bind (hR.act (calm_implicitValue _ _) (yields_implicitValue _ _)) fun v hv => ?_
      exact hR.bind (hR.act (calm_keyOf _ _) (yields_true _)) fun k _ => hrest k v hv
    · refine hR.bind he fun v hv => ?_
      exact hR.bind (hR.act (calm_keyOf _ _) (yields_true _)) fun k _ => hrest k v hv

theorem evalPositional (hR : Relates T Q host host' R) :
    (es : List Expr) → (∀ t ∈ Expr.eggexesAll es, Q t) →
    R (fun vs => ∀ v ∈ vs, v.Holds T) (Expr.evalPositional host es : m (List Value))
      (Expr.evalPositional host' es : n (List Value))
  | [], _ => by
    simp only [Expr.evalPositional]
    exact hR.pure (by simp)
  | e :: rest, hq => by
    have he := eval hR e fun t ht => hq t (List.mem_append_left _ ht)
    have hrest := evalPositional hR rest fun t ht => hq t (List.mem_append_right _ ht)
    cases e with
    | spread child span =>
      simp only [Expr.evalPositional]
      -- the spread itself is not entered, only what it spreads
      have hc := eval hR child fun t ht => hq t (List.mem_append_left _ ht)
      refine hR.bind hc fun v hv => hR.bind hR.fresh fun h _ => ?_
      have hitems : Eval.Yields T (fun vs => ∀ v ∈ vs, Value.Holds T v)
          (ofFault span (spreadItems h v)) := yields_ofFault fun vs hvs => holds_spreadItems hvs hv
      refine hR.bind (hR.act (calm_ofFault _ _) hitems) fun items hi => ?_
      exact hR.bind hrest fun vs hvs => hR.pure (List.forall_mem_append.mpr ⟨hi, hvs⟩)
    | _ =>
      simp only [Expr.evalPositional]
      refine hR.bind he fun v hv => hR.bind hrest fun vs hvs => ?_
      exact hR.pure (List.forall_mem_cons.mpr ⟨hv, hvs⟩)

theorem evalNamed (hR : Relates T Q host host' R) :
    (named : List (String × Value)) → (args : List (Option Token × Expr)) →
    (∀ e ∈ named, e.2.Holds T) → (∀ t ∈ Expr.eggexesNamed args, Q t) →
    R (fun ns => ∀ e ∈ ns, e.2.Holds T)
      (Expr.evalNamed host named args : m (List (String × Value)))
      (Expr.evalNamed host' named args : n (List (String × Value)))
  | named, [], hn, _ => by
    simp only [Expr.evalNamed]
    exact hR.pure hn
  | named, (some name, e) :: rest, hn, hq => by
    simp only [Expr.evalNamed]
    have he := eval hR e fun t ht => hq t (List.mem_append_left _ ht)
    refine hR.bind he fun v hv => ?_
    exact evalNamed hR _ rest (Assoc.forall_insert hv hn)
      fun t ht => hq t (List.mem_append_right _ ht)
  | named, (none, e) :: rest, hn, hq => by
    simp only [Expr.evalNamed]
    have he := eval hR e fun t ht => hq t (List.mem_append_left _ ht)
    refine hR.bind he fun v hv => hR.bind hR.fresh fun h _ => ?_
    have hmerge : Eval.Yields T (fun ns => ∀ e ∈ ns, Value.Holds T e.2)
        (ofFault e.span (mergeNamed h named v)) :=
      yields_ofFault fun ns hns => holds_mergeNamed hns hn hv
    refine hR.bind (hR.act (calm_ofFault _ _) hmerge) fun ns hns => ?_
    exact evalNamed hR ns rest hns fun t ht => hq t (List.mem_append_right _ ht)

end

end Relates

namespace Respects

/-- With one host and limits of its own, two evaluations are related by a relation that their steps
preserve. -/
theorem relates (hR : Respects T host.limit limit R) (hs : host.Sound T Q) :
    Relates T Q host (host.withLimit limit) R where
  toRespects := hR
  words := rfl
  debug := rfl
  compile := hs.compile
  commandSub sub := hR.act (calm_commandSub host sub) (yields_commandSub host sub)
  call h name args hp hn := hR.act (calm_of _) (yields_of fun v hv => hs.call h name args v hv hp hn)

/-- **Evaluation preserves what its steps preserve.** -/
theorem eval (hR : Respects T host.limit limit R) (hs : host.Sound T Q) (e : Expr)
    (hq : ∀ t ∈ e.eggexes, Q t) :
    R (Value.Holds T) (e.eval host : m Value) (e.eval (host.withLimit limit) : n Value) :=
  (hR.relates hs).eval e hq

theorem evalAll (hR : Respects T host.limit limit R) (hs : host.Sound T Q) (es : List Expr)
    (hq : ∀ t ∈ Expr.eggexesAll es, Q t) :
    R (fun vs => ∀ v ∈ vs, v.Holds T) (Expr.evalAll host es : m (List Value))
      (Expr.evalAll (host.withLimit limit) es : n (List Value)) :=
  (hR.relates hs).evalAll es hq

theorem evalPositional (hR : Respects T host.limit limit R) (hs : host.Sound T Q) (es : List Expr)
    (hq : ∀ t ∈ Expr.eggexesAll es, Q t) :
    R (fun vs => ∀ v ∈ vs, v.Holds T) (Expr.evalPositional host es : m (List Value))
      (Expr.evalPositional (host.withLimit limit) es : n (List Value)) :=
  (hR.relates hs).evalPositional es hq

theorem evalNamed (hR : Respects T host.limit limit R) (hs : host.Sound T Q)
    (named : List (String × Value)) (args : List (Option Token × Expr))
    (hn : ∀ e ∈ named, e.2.Holds T) (hq : ∀ t ∈ Expr.eggexesNamed args, Q t) :
    R (fun ns => ∀ e ∈ ns, e.2.Holds T)
      (Expr.evalNamed host named args : m (List (String × Value)))
      (Expr.evalNamed (host.withLimit limit) named args : n (List (String × Value))) :=
  (hR.relates hs).evalNamed named args hn hq

end Respects

end Runs

end ShellExpr
