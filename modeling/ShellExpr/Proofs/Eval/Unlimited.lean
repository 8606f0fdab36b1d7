import ShellExpr.Proofs.Eval.Abstraction
import ShellExpr.Proofs.Eval.Correspondence
import ShellExpr.Proofs.Eval.Trace

/-!
# Evaluation without a limit

Where nesting has no limit, an evaluation does not look at its depth, so a computation one level
deeper is the computation itself. It does not look at the flags either, except that it hands them to
the commands it runs.

* `World.Twin`: worlds that may differ in the depth and, unless they are to be compared, the flags.
* `Eval.Matches`: a computation with the same outcome in such worlds.
* `Eval.matches_corresponds`: evaluation has it, step by step.
* `Eval.nested_unlimited`: one level deeper is no change.
* `Expr.var_unlimited`, `Expr.list_unlimited`, `Expr.dict_unlimited`: variables and literals.
-/

namespace ShellExpr

open Eval

/-! ### Twin worlds -/

/-- Two worlds with the same variables and match groups, the same allocations still to come and the
same commands run. If flags are compared, these are the same too. -/
structure World.Twin (flagged : Prop) (w w' : World) : Prop where
  store : w'.store = w.store
  supply : w'.supply = w.supply
  subs : w'.runs.map Run.sub = w.runs.map Run.sub
  flags : flagged → w'.options = w.options ∧ w'.runs = w.runs

/-- Whether commands give the same with all flags. -/
def Host.FlagBlind (host : Host) : Prop :=
  ∀ sub flags flags', host.run sub flags = host.run sub flags'

namespace World.Twin

variable {flagged : Prop} {w w' : World}

theorem refl (w : World) : w.Twin flagged w := ⟨rfl, rfl, rfl, fun _ => ⟨rfl, rfl⟩⟩

theorem mapDepth (h : w.Twin flagged w') (f g : Nat → Nat) :
    World.Twin flagged { w with depth := f w.depth } { w' with depth := g w'.depth } :=
  ⟨h.store, h.supply, h.subs, h.flags⟩

theorem mapStore (h : w.Twin flagged w') (f : Store → Store) :
    World.Twin flagged { w with store := f w.store } { w' with store := f w'.store } :=
  ⟨congrArg f h.store, h.supply, h.subs, h.flags⟩

theorem mapSupply (h : w.Twin flagged w') (f : Nat → Nat) :
    World.Twin flagged { w with supply := f w.supply } { w' with supply := f w'.supply } :=
  ⟨h.store, congrArg f h.supply, h.subs, h.flags⟩

theorem eq_of_depth (h : w.Twin True w') (hd : w'.depth = w.depth) : w' = w := by
  obtain ⟨ho, hr⟩ := h.flags trivial
  have hs := h.store
  have hn := h.supply
  cases w
  cases w'
  simp_all

end World.Twin

namespace Eval

variable {flagged : Prop} {host : Host} {α β : Type}

/-- Whether the second computation has the results of the first under a function in twin worlds,
and leaves twin worlds. -/
def Matches (flagged : Prop) (g : α → β) (x : Eval α) (y : Eval β) : Prop :=
  ∀ w w', World.Twin flagged w w' → (y.outcome w').1 = (x.outcome w).1.map g ∧
    World.Twin flagged (x.outcome w).2 (y.outcome w').2

namespace Matches

theorem bind {α' β' : Type} {g : α → α'} {k : β → β'} {x : Eval α} {y : Eval α'}
    {f : α → Eval β} {f' : α' → Eval β'} (hx : Matches flagged g x y)
    (hf : ∀ a, x.Gives a → Matches flagged k (f a) (f' (g a))) :
    Matches flagged k (x >>= f) (y >>= f') := by
  intro w w' h
  obtain ⟨hr, hw⟩ := hx w w' h
  have hg : ∀ a, (x.outcome w).1 = .ok a → x.Gives a := fun a ha => ⟨w, ha⟩
  rw [outcome_bind, outcome_bind]
  generalize x.outcome w = o at hr hw hg ⊢
  generalize y.outcome w' = o' at hr hw ⊢
  obtain ⟨r, v⟩ := o
  obtain ⟨r', v'⟩ := o'
  obtain rfl : r' = r.map g := hr
  cases r with
  | error e => exact ⟨rfl, hw⟩
  | ok a => exact hf a (hg a rfl) v v' hw

/-- A step that stays in its world and gives what the store has it give. -/
theorem of_store {g : α → β} {x : Eval α} {y : Eval β} (f : Store → Except EvalError α)
    (hx : ∀ w, x.outcome w = (f w.store, w))
    (hy : ∀ w, y.outcome w = ((f w.store).map g, w)) : Matches flagged g x y := by
  intro w w' h
  rw [hx, hy, h.store]
  exact ⟨rfl, h⟩

theorem lookup (name : String) (span : Span) :
    Matches flagged (Value.rename id) (lookup name span) (lookup name span) := by
  refine of_store (fun s => (s.lookup name .localOrGlobal).elim
    (.error ((Fault.undefined name).placed span)) .ok) (fun w => ?_) fun w => ?_
  · rw [outcome_lookup]
    cases w.store.lookup name .localOrGlobal <;> rfl
  · rw [outcome_lookup, Value.rename_id]
    cases w.store.lookup name .localOrGlobal <;> rfl

theorem fresh : Matches flagged (Handle.rename id) fresh fresh := by
  refine fun w w' h => ⟨?_, h.mapSupply (· + 1)⟩
  show Except.ok (Handle.mk [w'.supply]) = .ok (Handle.rename id ⟨[w.supply]⟩)
  rw [Handle.rename_id, h.supply]

theorem command (hflags : flagged ∨ host.FlagBlind) (sub : CommandSub) :
    Matches flagged id (command host sub) (command host sub) := by
  intro w w' h
  have hout : host.run sub w'.options.current = host.run sub w.options.current :=
    hflags.elim (fun hf => by rw [(h.flags hf).1]) fun hb => hb _ _ _
  refine ⟨?_, h.store, h.supply, ?_, fun hf => ?_⟩
  · show host.run sub w'.options.current = (host.run sub w.options.current).map id
    rw [hout]
    cases host.run sub w.options.current <;> rfl
  · show List.map Run.sub (w'.runs ++ _) = List.map Run.sub (w.runs ++ _)
    rw [List.map_append, List.map_append, h.subs]
    rfl
  · obtain ⟨ho, hr⟩ := h.flags hf
    refine ⟨ho, ?_⟩
    show w'.runs ++ [⟨sub, w'.options.current, w'.options.depth⟩] = w.runs ++ [_]
    rw [hr, ho]

theorem nested {g : α → β} {x : Eval α} {y : Eval β} (span : Span) (hx : Matches flagged g x y) :
    Matches flagged g (nested none span x) (nested none span y) := by
  intro w w' h
  obtain ⟨hr, hw⟩ := hx _ _ (h.mapDepth (· + 1) (· + 1))
  exact ⟨hr, hw.mapDepth (· - 1) (· - 1)⟩

end Matches

/-- **Evaluation without a limit does not look at its depth**, nor at flags that no command looks
at. -/
theorem matches_corresponds (hlimit : host.limit = none) (hflags : flagged ∨ host.FlagBlind) :
    Corresponds host id (fun _ => True) False fun _ g x y => Matches flagged g x y where
  injective := Function.injective_id
  commutes := host.commutes_id
  pure _ _ := fun _ _ h => ⟨rfl, h⟩
  fail _ _ _ := fun _ _ h => ⟨rfl, h⟩
  bind := .bind
  skip _ _ hx := hx
  fresh := .fresh
  lookup name span _ := .lookup name span
  compile tree _ := .of_store (fun s => tree.compileAsserting host.debug (scopeOf host s))
    (outcome_compileEggex host tree) fun w => by
      rw [outcome_compileEggex]
      cases tree.compileAsserting host.debug (scopeOf host w.store) <;> rfl
  setGroups groups := fun _ _ h => ⟨rfl, h.mapStore fun s => { s with groups }⟩
  command sub _ := .command hflags sub
  nested span hx := by
    rw [hlimit]
    exact hx.nested span

/-- The same for a whole expression. -/
theorem matches_eval (hlimit : host.limit = none) (hflags : flagged ∨ host.FlagBlind) (e : Expr) :
    Matches flagged id (e.eval host) (e.eval host) := by
  have h := (matches_corresponds hlimit hflags).eval e fun n _ =>
    ⟨n.readsIn_true, False.elim⟩
  rwa [Value.rename_id] at h

/-! ### Depth -/

/-- Whether a computation leaves the depth as it was. -/
def KeepsDepth (x : Eval α) : Prop := ∀ w, (x.outcome w).2.depth = w.depth

theorem keepsDepth_of_world {x : Eval α} (h : ∀ w, (x.outcome w).2 = w) : KeepsDepth x :=
  fun w => congrArg World.depth (h w)

theorem KeepsDepth.bind {x : Eval α} {f : α → Eval β} (hx : KeepsDepth x)
    (hf : ∀ a, x.Gives a → KeepsDepth (f a)) : KeepsDepth (x >>= f) := by
  intro w
  have hd := hx w
  have hg : ∀ a, (x.outcome w).1 = .ok a → x.Gives a := fun a ha => ⟨w, ha⟩
  rw [outcome_bind]
  generalize x.outcome w = o at hd hg ⊢
  obtain ⟨r, v⟩ := o
  cases r with
  | error e => exact hd
  | ok a => exact (hf a (hg a rfl) v).trans hd

theorem KeepsDepth.nested {x : Eval α} (hx : KeepsDepth x) (limit : Option Nat) (span : Span) :
    KeepsDepth (nested limit span x) := by
  intro w
  rw [outcome_nested]
  split
  · rfl
  · show (x.outcome { w with depth := w.depth + 1 }).2.depth - 1 = w.depth
    rw [hx]
    rfl

theorem keepsDepth_corresponds (host : Host) :
    Corresponds host id (fun _ => True) False fun _ _ x _ => KeepsDepth x where
  injective := Function.injective_id
  commutes := host.commutes_id
  pure _ _ := fun _ => rfl
  fail _ _ _ := fun _ => rfl
  bind := .bind
  skip _ _ hx := hx
  fresh := fun _ => rfl
  lookup name span _ := keepsDepth_of_world fun w => by
    rw [outcome_lookup]
    cases w.store.lookup name .localOrGlobal <;> rfl
  compile tree _ := keepsDepth_of_world fun w => by rw [outcome_compileEggex]
  setGroups _ := fun _ => rfl
  command _ _ := fun _ => rfl
  nested span hx := hx.nested host.limit span

/-- **Without a limit, a computation one level deeper is the computation itself**, if it is made of
the steps of an evaluation. -/
theorem nested_unlimited (hlimit : host.limit = none) (order : List CommandSub) {g : α → α}
    {x : Eval α} (hg : g = id)
    (hx : ∀ R : {α β : Type} → List CommandSub → (α → β) → Eval α → Eval β → Prop,
      Corresponds host id (fun _ => True) False R → R order g x x) (span : Span) :
    nested host.limit span x = x := by
  subst hg
  have hd : KeepsDepth x := hx _ (keepsDepth_corresponds host)
  have hm : Matches True id x x := hx _ (matches_corresponds hlimit (.inl trivial))
  funext w
  show (nested host.limit span x).outcome w = x.outcome w
  obtain ⟨hr, hw⟩ := hm w { w with depth := w.depth + 1 } ((World.Twin.refl w).mapDepth id (· + 1))
  have hback : ((nested none span x).outcome w).2.depth = (x.outcome w).2.depth :=
    (hd.nested none span w).trans (hd w).symm
  rw [hlimit]
  refine Prod.ext ?_ ((hw.mapDepth id (· - 1)).eq_of_depth hback)
  show (x.outcome { w with depth := w.depth + 1 }).1 = (x.outcome w).1
  rw [hr]
  cases (x.outcome w).1 <;> rfl

end Eval

/-! ### Literals -/

namespace Expr

variable {host : Host}

theorem isAdmitted_true (e : Expr) : e.IsAdmitted (fun _ => True) False :=
  ⟨e.readsIn_true, False.elim⟩

theorem var_unlimited (hlimit : host.limit = none) (tok : Token) (span : Span) :
    ((var tok span).eval host : Eval Value) = lookup tok.text tok.span := by
  simp only [Expr.eval]
  exact nested_unlimited hlimit _ Value.rename_id (fun R hR => hR.lookup _ _ trivial) span

/-- A string in single quotes. -/
theorem single_unlimited (hlimit : host.limit = none) {w : SingleQuoted} {text : String}
    (hw : Literal.singleQuoted w = .ok text) (span : Span) :
    ((word (.single w) span).eval host : Eval Value) = (do return .str (← fresh) text) := by
  have hbody : (of (Literal.singleQuoted w) >>= fun t => do return Value.str (← fresh) t) =
      (do return Value.str (← fresh) text : Eval Value) := by
    rw [hw]
    exact pure_bind text _
  simp only [Expr.eval]
  show nested host.limit span (of (Literal.singleQuoted w) >>= fun t => do
    return Value.str (← fresh) t) = _
  rw [hbody]
  exact nested_unlimited hlimit _ Value.rename_id (fun R hR => hR.alloc fun h => rfl) span

/-- A row of values at a new allocation. -/
theorem row_unlimited (hlimit : host.limit = none) {make : Handle → List Value → Value}
    (hmake : ∀ h vs, make (h.rename id) (vs.map (Value.rename id)) = (make h vs).rename id)
    (items : List Expr) (span : Span) :
    (nested host.limit span (do let vs ← Expr.evalAll host items; return make (← fresh) vs)) =
      (do let vs ← Expr.evalAll host items; return make (← fresh) vs) :=
  nested_unlimited hlimit _ Value.rename_id (fun _ hR => hR.bind_last
    (hR.evalAll items fun n _ => n.isAdmitted_true) fun vs _ => hR.alloc fun h => hmake h vs) span

theorem list_unlimited (hlimit : host.limit = none) (items : List Expr) (span : Span) :
    ((list items span).eval host : Eval Value) =
      (do let vs ← Expr.evalAll host items; return .list (← fresh) vs) := by
  simp only [Expr.eval]
  exact row_unlimited hlimit (fun h vs => by rw [Value.rename, Value.renameAll_eq]) items span

theorem tuple_unlimited (hlimit : host.limit = none) (items : List Expr) (span : Span) :
    ((tuple items span).eval host : Eval Value) =
      (do let vs ← Expr.evalAll host items; return .tuple (← fresh) vs) := by
  simp only [Expr.eval]
  exact row_unlimited hlimit (fun h vs => by rw [Value.rename, Value.renameAll_eq]) items span

/-- A constant that is a name. -/
theorem name_unlimited (hlimit : host.limit = none) {tok : Token} (hname : tok.kind = .name)
    (span : Span) :
    ((const tok span).eval host : Eval Value) = (do return .str (← fresh) tok.text) := by
  have hconst : ∀ h, Literal.constant h tok = .ok (.str h tok.text) := fun h => by
    simp only [Literal.constant, hname]
  have hbody : (fresh >>= fun h => of (Literal.constant h tok)) =
      (do return Value.str (← fresh) tok.text) := by
    simp only [hconst]
    rfl
  simp only [Expr.eval]
  show nested host.limit span (fresh >>= fun h => of (Literal.constant h tok)) = _
  rw [hbody]
  exact nested_unlimited hlimit _ Value.rename_id (fun R hR => hR.alloc fun h => rfl) span

theorem dict_unlimited (hlimit : host.limit = none) (keys values : List Expr) (span : Span) :
    ((dict keys values span).eval host : Eval Value) = (do
      let ks ← Expr.evalAll host keys
      let es ← Expr.evalEntries host [] (ks.zip (keys.map Expr.span)) values
      return .dict (← fresh) es) := by
  simp only [Expr.eval]
  refine nested_unlimited hlimit (commandsOf (nodesAll keys) ++ commandsOf (nodesAll values))
    Value.rename_id (fun R hR => ?_) span
  refine hR.bind (hR.evalAll keys fun n _ => n.isAdmitted_true) fun ks _ => ?_
  have hentries := hR.evalEntries [] (ks.zip (keys.map Expr.span)) values
    (fun n _ => n.isAdmitted_true) (fun _ _ _ _ _ => trivial) False.elim
  rw [List.zip_map_left]
  exact hR.bind_last hentries fun es _ => hR.alloc fun h => by
    rw [Value.rename, Value.renameEntries_eq]

theorem evalPositional_item (host : Host) {e : Expr} (h : e.isSpread = false) (rest : List Expr) :
    (Expr.evalPositional host (e :: rest) : Eval (List Value)) = (do
      let v ← e.eval host
      let vs ← Expr.evalPositional host rest
      return v :: vs) := by
  cases e <;> first | contradiction | rfl

end Expr

end ShellExpr
