import ShellExpr.Proofs.Eval.Calls
import ShellExpr.Proofs.Eval.Classified
import ShellExpr.Proofs.Eval.Trace
import ShellExpr.Proofs.Eval.Unlimited

/-!
# Reading a place

A variable, a subscript or an attribute can stand for its value or be written to. To resolve it as
a target, the same operands are evaluated in the same order as for its value, and what is left to do
for the value is to read the place.

* `Expr.place?`: the target that is written as an expression is.
* `Place.read`: what stands in a place.
* `Eval.Reads`: a computation that does what another does to find a place, and reads it.
* `evalExpr_reads`: **evaluating an expression is reading the place that it stands for**.
-/

namespace ShellExpr

open Eval

/-- The target written as the expression. Static access is no value. -/
def Expr.place? : Expr → Option PlaceExpr
  | var tok _ => some (.var tok)
  | subscript obj indices _ => some (.subscript obj indices)
  | member obj .dot opSpan attr _ => some (.member obj .dot opSpan attr)
  | member obj .arrow opSpan attr _ => some (.member obj .arrow opSpan attr)
  | _ => none

/-- What stands in a place; `h` is the handle of a new result. -/
def Place.read (h : Handle) (s : Store) : Place → Except Fault Value
  | named name =>
    match s.lookup name .localOrGlobal with
    | some v => .ok v
    | none => .error (.undefined name)
  | item obj i => subscript h obj i
  | attr obj name => member obj name

/-- Two worlds that agree, except that commands may have been run with other flags and that handles
may have been taken from the supply. -/
structure World.Agrees (w w' : World) : Prop where
  store : w'.store = w.store
  options : w'.options = w.options
  depth : w'.depth = w.depth
  subs : w'.runs.map Run.sub = w.runs.map Run.sub

/-! ### Steps -/

namespace EvalError

@[simp] theorem withoutSpan_near (f : Fault) (span : Span) :
    (f.near span).withoutSpan = f.unplaced := by
  unfold Fault.near orSpan
  split <;> rfl

theorem classify_unplaced (f : Fault) : f.unplaced.classify = f.classify.unplaced := by
  cases f <;> rfl

end EvalError

namespace Eval

variable {host : Host} {k : Fault → EvalError}

/-- The end of a computation, beside that of another which finds a place: it fails like that one or
has read the place, and faults of reading are errors as `k` says. The last allocation is that of the
value read. -/
structure HasRead (k : Fault → EvalError) (p : Except EvalError Place × World)
    (o : Except EvalError Value × World) : Prop where
  store : o.2.store = p.2.store
  subs : o.2.runs.map Run.sub = p.2.runs.map Run.sub
  value : ∀ place, p.1 = .ok place → o.1.mapError EvalError.withoutSpan =
    (place.read ⟨[o.2.supply - 1]⟩ p.2.store).mapError k
  error : ∀ e, p.1 = .error e → o.1 = .error e

/-- Whether a computation does what another does to find a place, and reads it. -/
def Reads (k : Fault → EvalError) (x : Eval Place) (y : Eval Value) : Prop :=
  ∀ w w', w.Twin False w' → HasRead k (x.outcome w) (y.outcome w')

theorem mapError_ofFault (span : Span) (r : Except Fault Value) (w : World) :
    ((ofFault span r).outcome w).1.mapError EvalError.withoutSpan = r.mapError Fault.unplaced := by
  cases r with
  | error f => exact congrArg Except.error (EvalError.withoutSpan_near f span)
  | ok v => rfl

namespace Reads

/-- Operands are evaluated before. -/
theorem bind {α : Type} {x y : Eval α} {f : α → Eval Place} {f' : α → Eval Value}
    (hx : Matches False id x y) (hf : ∀ a, Reads k (f a) (f' a)) :
    Reads k (x >>= f) (y >>= f') := by
  intro w w' h
  obtain ⟨hr, hw⟩ := hx w w' h
  rw [outcome_bind, outcome_bind]
  generalize x.outcome w = o at hr hw ⊢
  generalize y.outcome w' = o' at hr hw ⊢
  obtain ⟨r, v⟩ := o
  obtain ⟨r', v'⟩ := o'
  obtain rfl : r' = r.map id := hr
  cases r with
  | error e =>
    refine ⟨hw.store, hw.subs, by simp, ?_⟩
    exact fun _ he => congrArg _ (Except.error.inj he)
  | ok a => exact hf a v v' hw

theorem named (name : String) (span : Span) :
    Reads Fault.unplaced (pure (.named name)) (lookup name span) := by
  intro w w' h
  have hw : ((lookup name span).outcome w').2 = w' := by
    rw [outcome_lookup]
    cases w'.store.lookup name .localOrGlobal <;> rfl
  refine ⟨by rw [hw]; exact h.store, by rw [hw]; exact h.subs, fun place hp => ?_, nofun⟩
  obtain rfl := Except.ok.inj hp
  show _ = (Place.read _ w.store (.named name)).mapError Fault.unplaced
  rw [outcome_lookup, h.store, Place.read]
  cases w.store.lookup name .localOrGlobal <;> rfl

theorem attr (obj : Value) (name : String) (span : Span) :
    Reads Fault.unplaced (pure (.attr obj name)) (ofFault span (member obj name)) := by
  intro w w' h
  have hw := world_ofFault span (member obj name) w'
  refine ⟨by rw [hw]; exact h.store, by rw [hw]; exact h.subs, fun place hp => ?_, nofun⟩
  obtain rfl := Except.ok.inj hp
  exact mapError_ofFault span _ w'

theorem item (obj i : Value) (span : Span) : Reads Fault.unplaced (pure (.item obj i))
    (fresh >>= fun h => ofFault span (subscript h obj i)) := by
  intro w w' h
  have hw := world_ofFault span (subscript ⟨[w'.supply]⟩ obj i) { w' with supply := w'.supply + 1 }
  show HasRead _ _ ((ofFault span (subscript ⟨[w'.supply]⟩ obj i)).outcome
    { w' with supply := w'.supply + 1 })
  refine ⟨by rw [hw]; exact h.store, by rw [hw]; exact h.subs, fun place hp => ?_, nofun⟩
  obtain rfl := Except.ok.inj hp
  rw [hw, mapError_ofFault]
  rfl

/-- An arrow takes a handle for its name, as the value is found by the name as an index. -/
theorem arrow (obj : Value) (opSpan : Span) (attr : Token) :
    Reads Fault.unplaced (do return .item obj (.str (← fresh) attr.text))
      (memberOf .arrow opSpan attr obj) := by
  intro w w' h
  have hw := world_ofFault opSpan (subscript ⟨[w'.supply]⟩ obj (.str ⟨[0, w'.supply]⟩ attr.text))
    { w' with supply := w'.supply + 1 }
  show HasRead _ _ ((ofFault opSpan (subscript ⟨[w'.supply]⟩ obj
    (.str ⟨[0, w'.supply]⟩ attr.text))).outcome { w' with supply := w'.supply + 1 })
  refine ⟨by rw [hw]; exact h.store, by rw [hw]; exact h.subs, fun place hp => ?_, nofun⟩
  obtain rfl := Except.ok.inj hp
  rw [hw, mapError_ofFault]
  cases obj <;> rfl

/-- The place is looked for without the level of nesting at which the value is. -/
theorem nested {x : Eval Place} {y : Eval Value} (h : Reads k x y) (span : Span) :
    Reads k x (nested none span y) := by
  intro w w' hw
  obtain ⟨hs, hr, hv, he⟩ := h w { w' with depth := w'.depth + 1 } (hw.mapDepth id (· + 1))
  exact ⟨hs, hr, hv, he⟩

/-- Both computations reclassify their raw faults. -/
theorem classified {x : Eval Place} {y : Eval Value} (h : Reads Fault.unplaced x y) :
    Reads (fun f => f.classify.unplaced) (classified x) (classified y) := by
  intro w w' hw
  obtain ⟨hs, hr, hv, he⟩ := h w w' hw
  refine ⟨hs, hr, fun place hp => ?_, fun e hp => ?_⟩
  · have hread := hv place (ok_of_mapError hp)
    show ((y.outcome w').1.mapError EvalError.classify).mapError EvalError.withoutSpan = _
    calc ((y.outcome w').1.mapError EvalError.classify).mapError EvalError.withoutSpan
      _ = ((y.outcome w').1.mapError EvalError.withoutSpan).mapError EvalError.classify := by
        rw [mapError_mapError, mapError_mapError]
        exact congrArg (Except.mapError · _) (funext EvalError.withoutSpan_classify)
      _ = (place.read ⟨[(y.outcome w').2.supply - 1]⟩ (x.outcome w).2.store).mapError
          fun f => f.classify.unplaced := by
        rw [hread, mapError_mapError]
        exact congrArg (Except.mapError · _) (funext EvalError.classify_unplaced)
  · obtain ⟨e', he', rfl⟩ := error_of_mapError hp
    show (y.outcome w').1.mapError EvalError.classify = _
    rw [he e' he']
    rfl

end Reads

/-! ### Whole expressions -/

theorem matches_evalIndices (hlimit : host.limit = none) (hblind : host.FlagBlind)
    (indices : List Expr) : Matches False id (Expr.evalIndices host indices)
      (Expr.evalIndices host indices) := by
  have hR : Corresponds host id (fun _ => True) False fun _ g x y => Matches False g x y :=
    matches_corresponds hlimit (.inr hblind)
  have hall := hR.evalAll indices fun n _ => ⟨n.readsIn_true, False.elim⟩
  have h : Matches False (Value.rename id) (Expr.evalIndices host indices)
      (Expr.evalIndices host indices) := Matches.bind hall fun vs _ => hR.joinIndices vs
  rwa [Value.rename_id] at h

/-- The indices of a subscript are put together before the element is looked for. -/
theorem eval_subscript (host : Host) (obj : Expr) (indices : List Expr) (span : Span) :
    ((Expr.subscript obj indices span).eval host : Eval Value) = nested host.limit span (do
      let o ← obj.eval host
      let i ← Expr.evalIndices host indices
      let h ← fresh
      ofFault Span.dummy (subscript h o i)) := by
  simp only [Expr.eval, Expr.evalIndices, bind_assoc]
  rfl

/-- **The operands of an expression are those of its place**, and what comes after them reads it. -/
theorem reads_eval (hlimit : host.limit = none) (hblind : host.FlagBlind) {e : Expr}
    {target : PlaceExpr} (he : e.place? = some target) :
    Reads Fault.unplaced (target.target.place host) (e.eval host) := by
  have hobj : ∀ e : Expr, Matches False id (e.eval host) (e.eval host) :=
    matches_eval hlimit (.inr hblind)
  have hindices := matches_evalIndices hlimit hblind
  cases e with
  | var tok span =>
    obtain rfl := Option.some.inj he
    simp only [Expr.eval]
    show Reads _ _ (nested host.limit span (lookup tok.text tok.span))
    rw [hlimit]
    exact (Reads.named tok.text tok.span).nested span
  | subscript obj indices span =>
    obtain rfl := Option.some.inj he
    rw [eval_subscript, hlimit]
    refine Reads.nested ?_ span
    exact .bind (hobj obj) fun o => .bind (hindices indices) fun i => .item o i .dummy
  | member obj op opSpan attr span =>
    cases op with
    | dot =>
      obtain rfl := Option.some.inj he
      simp only [Expr.eval]
      show Reads _ _ (nested host.limit span (obj.eval host >>= memberOf .dot opSpan attr))
      rw [hlimit]
      exact Reads.nested (.bind (hobj obj) fun o => .attr o attr.text attr.span) span
    | arrow =>
      obtain rfl := Option.some.inj he
      simp only [Expr.eval]
      show Reads _ _ (nested host.limit span (obj.eval host >>= memberOf .arrow opSpan attr))
      rw [hlimit]
      exact Reads.nested (.bind (hobj obj) fun o => .arrow o opSpan attr) span
    | doubleColon => contradiction
  | _ => contradiction

end Eval

variable {host : Host}

/-- **Evaluating an expression is reading the place that it stands for.** A variable, a subscript or
an attribute gives the same place as an expression and as a target, and leaves the same world. Its
evaluation leaves the same variables, match groups and flags and has run the same commands in the
same order. It fails with the error of the place, if there is one, and otherwise gives what stands
in the place. -/
theorem evalExpr_reads (hlimit : host.limit = none) (hblind : host.FlagBlind) {e : Expr}
    {target : PlaceExpr} (he : e.place? = some target) (w : World) :
    let p := (evalTarget host e).outcome w
    let o := (evalExpr host e).outcome w
    (evalPlace host target).outcome w = p ∧ p.2.Agrees o.2 ∧
      (∀ place, p.1 = .ok place → o.1.mapError EvalError.withoutSpan =
        (place.read ⟨[o.2.supply - 1]⟩ p.2.store).mapError fun f => f.classify.unplaced) ∧
      ∀ err, p.1 = .error err → o.1 = .error err := by
  intro p o
  have htarget : e.target = target.target := by
    cases e with
    | member obj op opSpan attr span => cases op <;> cases he <;> rfl
    | _ => cases he <;> rfl
  have hplace : evalPlace host target = evalTarget host e := by
    rw [Call.evalPlace_eq, Call.evalTarget_eq, htarget]
  have hread : HasRead (fun f => f.classify.unplaced) p o := by
    have h := (reads_eval hlimit hblind he).classified w
      { w with options := w.options.push Flags.errexit } ⟨rfl, rfl, rfl, False.elim⟩
    show HasRead _ ((evalTarget host e).outcome w) o
    rw [Call.evalTarget_eq, htarget]
    exact ⟨h.store, h.subs, h.value, h.error⟩
  -- flags and depth are back at their old values in both
  obtain ⟨hpo, hpd, -⟩ := Call.ends_run host (.lhs e) w
  obtain ⟨hoo, hod, -⟩ := Call.ends_run host (.expr e) w
  have hp : (((Call.lhs e).run host).outcome w).2 = p.2 :=
    congrArg Prod.snd (Call.outcome_map (evalTarget host e) Reply.place w)
  have ho : (((Call.expr e).run host).outcome w).2 = o.2 :=
    congrArg Prod.snd (Call.outcome_map (evalExpr host e) Reply.value w)
  rw [hp] at hpo hpd
  rw [ho] at hoo hod
  refine ⟨by rw [hplace], ?_, hread.value, hread.error⟩
  exact ⟨hread.store, hoo.trans hpo.symm, hod.trans hpd.symm, hread.subs⟩

/-- An entry of a dict behind an arrow, which is a place and a value. -/
theorem evalExpr_reads_arrow :
    let host := ({} : Tables).host
    let d : Value := .dict ⟨[0]⟩ [(.str "k", .int 1)]
    let w : World := { store := ⟨[("d", d)], [], []⟩, supply := 1 }
    let name := fun text => (⟨.name, text, .dummy⟩ : Token)
    let e : Expr := .member (.var (name "d") .dummy) .arrow .dummy (name "k") .dummy
    let target : PlaceExpr := .member (.var (name "d") .dummy) .arrow .dummy (name "k")
    host.limit = none ∧ host.FlagBlind ∧ e.place? = some target ∧
      (evalPlace host target).outcome w = (evalTarget host e).outcome w ∧
      ((evalTarget host e).outcome w).1 = .ok (.item d (.str ⟨[1]⟩ "k")) ∧
      ((evalExpr host e).outcome w).1.mapError EvalError.withoutSpan = .ok (.int 1) := by
  intro host d w name e target
  have hblind : host.FlagBlind := fun _ _ _ => rfl
  have hp : ((evalTarget host e).outcome w).1 = .ok (.item d (.str ⟨[1]⟩ "k")) := rfl
  have he : e.place? = some target := rfl
  obtain ⟨hplace, -, hvalue, -⟩ := evalExpr_reads rfl hblind he w
  exact ⟨rfl, hblind, he, hplace, hp, hvalue _ hp⟩

end ShellExpr
